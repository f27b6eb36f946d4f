import VariantScript.Proofs.Evaluation.WellFormed

/-!
# Where a `return` goes

A `return` is refused where its scope lies in no call, and that scope lies in a call exactly if a
call is being made.  Otherwise it ends the innermost call, that of the function whose body it stands
in: between the two there are only blocks and branches, through which it passes at once, and no call
lets a `return` out.
-/

namespace VariantScript

open Syntax Eval

/-! ## Terms -/

namespace Syntax

/-- What a `return` returns, which may be no term at all. -/
def Form.returns? : Form → Option (Option Term)
  | .returnNothing => some none
  | .returnValue value => some (some value)
  | _ => none

/-- The terms that a form is made of, but for the bodies of functions. -/
def Form.ownParts : Form → List Term
  | .functionDeclaration _ _ _ | .arrow _ _ | .functionExpression _ _ => []
  | form => form.parts

/-- A term stands in another one, but in no function within it. -/
def Term.Encloses : Term → Term → Prop :=
  Relation.ReflTransGen fun t u => u ∈ t.form.ownParts

variable {t u : Term} {form : Form} {pos : Option Position} {role : Role}

/-- An expression holds no statements but in functions. -/
theorem Term.IsWritten.ownPart (h : t.IsWritten .expression) (hu : u ∈ t.form.ownParts) :
    u.IsWritten .expression := by
  cases h with
  | array hitems => exact hitems u hu
  | record hfields =>
      obtain ⟨f, hf, hvalue⟩ := List.mem_filterMap.1 hu
      cases hfields f hf with
      | mk _ hwritten =>
          cases hvalue
          exact hwritten
  | call hcallee hargs =>
      rcases List.mem_cons.1 hu with rfl | hu
      · exact hcallee
      · exact hargs u hu
  | number | string | truth | reference | arrow | functionExpression => cases hu
  | member h | unary _ h =>
      rw [List.mem_singleton.1 hu]
      exact h
  | index h h' | binary _ h h' | compare _ h h' | logical h h' =>
      simp only [Form.ownParts, Form.parts, Term.form, List.mem_cons, List.not_mem_nil,
        or_false] at hu
      rcases hu with rfl | rfl
      · exact h
      · exact h'
  | conditional h h' h'' =>
      simp only [Form.ownParts, Form.parts, Term.form, List.mem_cons, List.not_mem_nil,
        or_false] at hu
      rcases hu with rfl | rfl | rfl
      · exact h
      · exact h'
      · exact h''

theorem Term.Encloses.expression (h : t.Encloses u) (ht : t.IsWritten .expression) :
    u.IsWritten .expression := by
  induction h with
  | refl => exact ht
  | tail _ hpart ih => exact ih.ownPart hpart

/-- A `return` is a statement. -/
theorem not_expression_of_returns {value? : Option Term} (h : form.returns? = some value?) :
    ¬ (Term.node pos form).IsWritten .expression := by
  intro hwritten
  cases hwritten <;> cases h

end Syntax

/-! ## Parts of an evaluation -/

namespace Moment

/-- Whether the evaluation is that of a term. -/
def isTerm : Moment → Bool
  | term _ _ _ _ => true
  | call _ _ _ _ => false

/-- A term starts another one, with no call in between. -/
def StartsPart (a b : Moment) : Prop :=
  a.isTerm = true ∧ b.isTerm = true ∧ a.Starts b

/-- A term leads to another one, with no call in between. -/
def LeadsToPart : Moment → Moment → Prop :=
  Relation.ReflTransGen StartsPart

variable {n m : Nat} {s s' : ScopeId} {t u : Term} {w w' : World} {a b c : Moment} {v : Value}

/-- What a term starts with no call in between is a part of it and stands in no function in it. -/
theorem Starts.mem_ownParts (h : (Moment.term n s t w).Starts (.term m s' u w')) :
    u ∈ t.form.ownParts := by
  cases h with
  | @first _ _ _ form _ _ hfirst =>
      have hmem := Form.mem_parts_of_first hfirst
      cases form <;> first | exact hmem | cases hfirst
  | @next _ _ _ form _ _ _ _ _ hfirst _ hnext =>
      have hmem := Form.mem_parts_of_next hnext
      cases form <;> first | exact hmem | cases hfirst
  | program _ h | block _ _ h | array h =>
      obtain ⟨_, hmem, _, heq⟩ := h.eq_term
      cases heq
      exact hmem
  | arguments _ h =>
      obtain ⟨_, hmem, _, heq⟩ := h.eq_term
      cases heq
      exact .tail _ hmem
  | record h =>
      obtain ⟨pos, key, _, hmem, _, heq⟩ := h.eq_term
      cases heq
      exact List.mem_filterMap.2 ⟨_, hmem, rfl⟩

theorem LeadsToPart.leadsTo (h : a.LeadsToPart b) : a.LeadsTo b :=
  Relation.ReflTransGen.mono (fun _ _ (hstarts : StartsPart _ _) => hstarts.2.2) _ _ h

theorem LeadsToPart.encloses (h : (Moment.term n s t w).LeadsToPart (.term m s' u w')) :
    t.Encloses u := by
  generalize hb : Moment.term m s' u w' = b at h
  induction h generalizing m s' u w' with
  | refl =>
      cases hb
      exact .refl
  | @tail b c _ hstarts ih =>
      subst hb
      obtain ⟨hterm, -, hstarts⟩ := hstarts
      cases b with
      | term n' s'' t' w'' => exact (ih rfl).tail hstarts.mem_ownParts
      | call => cases hterm

/-- A `return` on its way out of a part of a term leaves the term as well, at once. -/
theorem LeadsToPart.returned (h : a.LeadsToPart b) (hv : b.run.1 = .error (.returned v)) :
    a.run = (.error (.returned v), b.run.2) := by
  induction h with
  | refl => exact Prod.ext hv rfl
  | @tail b c _ hstarts ih =>
      obtain ⟨hterm, -, hstarts⟩ := hstarts
      cases b with
      | term n s t w =>
          have hrun : (Moment.term n s t w).run = (.error (.returned v), c.run.2) :=
            hstarts.run_of_stopped hv
          rw [ih (by rw [hrun]), hrun]
      | call => cases hterm

/-- A term that is evaluated in the course of a term is a part of it, or a part of the body of the
function that is called last before it. -/
theorem LeadsTo.part_or_called (h : a.LeadsTo b) (hb : b.isTerm = true) :
    a.LeadsToPart b ∨ ∃ c body, a.LeadsTo c ∧ c.isTerm = false ∧ body.isTerm = true ∧
      c.Starts body ∧ body.LeadsToPart b := by
  induction h with
  | refl => exact .inl .refl
  | @tail b' b hleads hstarts ih =>
      cases hterm : b'.isTerm with
      | false => exact .inr ⟨b', b, hleads, hterm, hb, hstarts, .refl⟩
      | true =>
          have hpart : b'.StartsPart b := ⟨hterm, hb, hstarts⟩
          rcases ih hterm with hleads | ⟨c, body, hc, hcall, hbody, hcbody, hleads⟩
          · exact .inl (hleads.tail hpart)
          · exact .inr ⟨c, body, hc, hcall, hbody, hcbody, hleads.tail hpart⟩

/-- A call that starts a term is one of a function, and the term is its body in a new scope. -/
theorem Starts.body_of_call (h : a.Starts b) (ha : a.isTerm = false) (hb : b.isTerm = true) :
    ∃ n i f args w s w' w'', a = .call (n + 1) (.closure i f) args w ∧ b = .term n s f.body w'' ∧
      args.length = f.params.length ∧ Gives (openScope (some f.scope) true) w s w' ∧
      Gives (bindItems s f.params args) w' () w'' := by
  cases h with
  | body hlength hscope hparams =>
      exact ⟨_, _, _, _, _, _, _, _, rfl, rfl, hlength, hscope, hparams⟩
  | dispatch => cases hb
  | first | next | program | block | array | record | arguments | call => cases ha

end Moment

/-! ## Scopes and calls -/

namespace World

variable {w w' : World} {s : ScopeId}

/-- A new scope lies in a call if it opens one or the scope around it lies in one. -/
theorem isInCall_pushed {scope : Scope} (hscopes : w'.scopes = w.scopes.push scope) :
    w'.isInCall ⟨w.scopes.size⟩ =
      (scope.isCall || match scope.parent with
        | some parent => if parent.index < w.scopes.size then w.isInCall parent else false
        | none => false) := by
  rw [World.isInCall, hscopes, Array.getElem?_push_size]
  dsimp only
  cases scope.isCall with
  | true => rfl
  | false =>
      cases scope.parent with
      | none => rfl
      | some parent =>
          dsimp only
          by_cases hlt : parent.index < w.scopes.size
          · rw [if_pos hlt, if_pos hlt, (Extends.pushed hscopes).isInCall hlt]
            rfl
          · rw [if_neg hlt, if_neg hlt]
            rfl

/-- A scope that exists goes on existing, and lies in a call if it did. -/
theorem Extends.scope {flag : Bool} (h : w.Extends w')
    (hs : s.index < w.scopes.size ∧ w.isInCall s = flag) :
    s.index < w'.scopes.size ∧ w'.isInCall s = flag := by
  obtain ⟨scope', hscope', -⟩ := h _ _ (Array.getElem?_eq_getElem hs.1)
  exact ⟨(Array.getElem?_eq_some_iff.1 hscope').1, by rw [h.isInCall hs.1]; exact hs.2⟩

end World

namespace Moment

variable {n m : Nat} {s s' : ScopeId} {t u : Term} {w w' : World} {a b : Moment} {flag : Bool}

/-- The scope of a term exists, and lies in a call or not. -/
def HasScope (flag : Bool) : Moment → Prop
  | term _ s _ w => s.index < w.scopes.size ∧ w.isInCall s = flag
  | call _ _ _ _ => False

/-- Within a term, blocks open scopes in its scope, so these lie in the same calls. -/
theorem StartsPart.hasScope (h : a.StartsPart b) (ha : a.HasScope flag) : b.HasScope flag := by
  obtain ⟨-, hb, hstarts⟩ := h
  have hbefore := hstarts.before
  cases hstarts with
  | first => exact ha
  | next => exact hbefore.scope ha
  | program _ h | array h | arguments _ h =>
      obtain ⟨_, _, _, rfl⟩ := h.eq_term
      exact hbefore.scope ha
  | record h =>
      obtain ⟨_, _, _, _, _, rfl⟩ := h.eq_term
      exact hbefore.scope ha
  | @block n s inner pos body w w' w'' _ hscope hhoist h =>
      have hinner : inner.index < w'.scopes.size ∧ w'.isInCall inner = flag := by
        cases hscope
        refine ⟨by simp, ?_⟩
        rw [World.isInCall_pushed rfl, Bool.false_or]
        dsimp only
        rw [if_pos ha.1]
        exact ha.2
      -- The functions of the block and the statements before this one only add to the world.
      have hhoisted := (grows_hoist inner body).of_gives hhoist
      have hbehind := (includes_evaluateAll h).before
      obtain ⟨_, _, _, rfl⟩ := h.eq_term
      exact (hhoisted.trans hbehind).scope hinner
  | call => cases hb
  | body | dispatch => cases ha

theorem LeadsToPart.hasScope (h : a.LeadsToPart b) (ha : a.HasScope flag) : b.HasScope flag := by
  induction h with
  | refl => exact ha
  | tail _ hstarts ih => exact hstarts.hasScope ih

/-- The body of a function that is called lies in a call. -/
theorem hasScope_body {f : Closure} {args : List Value} {w'' : World}
    (hscope : Gives (openScope (some f.scope) true) w s w')
    (hparams : Gives (bindItems s f.params args) w' () w'') :
    (Moment.term n s f.body w'').HasScope true := by
  have hopened : s.index < w'.scopes.size ∧ w'.isInCall s = true := by
    cases hscope
    refine ⟨by simp, ?_⟩
    rw [World.isInCall_pushed rfl]
    rfl
  exact ((grows_bindItems s f.params args).of_gives hparams).scope hopened

end Moment

/-! ## Refused and taken -/

namespace Eval

/-- The evaluation of what a `return` returns. -/
def evaluateReturned (call : Value → List Value → Eval Value) (s : ScopeId) :
    Option Term → Eval Value
  | none => pure Value.unit
  | some value => evaluate call s value

variable {α β : Type} {call : Value → List Value → Eval Value} {s : ScopeId}
  {pos : Option Position} {form : Form} {value? : Option Term} {w w' : World} {v : Value}

/-- A `return` outside of calls is refused before its value is evaluated. -/
theorem run_return_outside (hform : form.returns? = some value?) (h : w.isInCall s = false) :
    (evaluate call s (.node pos form)).run.run w = (.error (.fault ⟨.illegalReturn, pos⟩), w) := by
  have hrefused : (evaluateForm call s form).run.run w =
      (.error (.fault ⟨.illegalReturn, none⟩), w) := by
    cases form <;> cases hform <;> unfold evaluateForm
    case returnNothing =>
      show (if w.isInCall s then throw (.returned Value.unit) else
        fail .illegalReturn : Eval Value).run.run w = _
      rw [h]
      rfl
    case returnValue value =>
      show (if w.isInCall s then evaluate call s value >>= fun v => throw (.returned v) else
        fail .illegalReturn : Eval Value).run.run w = _
      rw [h]
      rfl
  unfold evaluate
  rw [run_locate, hrefused]
  rfl

/-- A `return` inside of a call sets out with its value as soon as that is there, and fails if there
is none. -/
theorem run_return_inside (hform : form.returns? = some value?) (h : w.isInCall s = true) :
    (evaluate call s (.node pos form)).run.run w =
      match (evaluateReturned call s value?).run.run w with
      | (.ok v, w') => (.error (.returned v), w')
      | (.error e, w') => (located pos (.error e), w') := by
  have hform' : (evaluateForm call s form).run.run w =
      (evaluateReturned call s value? >>= fun v => throw (.returned v) : Eval Value).run.run w := by
    cases form <;> cases hform <;> unfold evaluateForm
    case returnNothing =>
      show (if w.isInCall s then throw (.returned Value.unit) else
        fail .illegalReturn : Eval Value).run.run w = _
      rw [h]
      rfl
    case returnValue value =>
      show (if w.isInCall s then evaluate call s value >>= fun v => throw (.returned v) else
        fail .illegalReturn : Eval Value).run.run w = _
      rw [h]
      rfl
  unfold evaluate
  rw [run_locate, hform', run_bind]
  rcases (evaluateReturned call s value?).run.run w with ⟨(e | v), w'⟩ <;> rfl

/-- A `return` that leaves two evaluations one after the other and not the first one leaves the
second one. -/
theorem returned_bind {act : Eval α} {k : α → Eval β}
    (h : (act >>= k).run.run w = (.error (.returned v), w'))
    (hact : ∀ u, (act.run.run w).1 ≠ .error (.returned u)) :
    ∃ x w₁, Gives act w x w₁ ∧ (k x).run.run w₁ = (.error (.returned v), w') := by
  rw [run_bind] at h
  generalize hrun : act.run.run w = r at h hact
  obtain ⟨result, w₁⟩ := r
  cases result with
  | ok x => exact ⟨x, w₁, hrun, h⟩
  | error e =>
      cases h
      exact absurd rfl (hact v)

theorem Sound.not_returned {lacks returns : Prop} {good : α → World → Prop} {act : Eval α}
    (h : Sound lacks returns good act w) (hreturns : ¬ returns) (u : Value) :
    (act.run.run w).1 ≠ .error (.returned u) := by
  obtain ⟨-, -, hending⟩ := h
  intro heq
  rw [heq] at hending
  cases hending with
  | returned h => exact hreturns h

/-- An expression lets no `return` out. -/
theorem expression_not_returned {n : Nat} {t : Term} (ht : t.IsWritten .expression)
    (hw : w.IsSound) (u : Value) :
    ((evaluate (callAt n) s t).run.run w).1 ≠ .error (.returned u) :=
  (sound_evaluate (callsWell n) s ht hw).not_returned (fun hmay => hmay.1 rfl) u

/-- A `return` that leaves a condition and a branch leaves the branch that is taken. -/
theorem returned_branch {context : String} {c : Value} {k : Bool → Eval Value}
    (h : (ofExcept (requireTruth context c) >>= k).run.run w = (.error (.returned v), w')) :
    ∃ flag, c.truth? = some flag ∧ (k flag).run.run w = (.error (.returned v), w') := by
  unfold requireTruth at h
  cases hflag : c.truth? with
  | some flag =>
      rw [hflag] at h
      exact ⟨flag, rfl, h⟩
  | none =>
      rw [hflag] at h
      -- A fault is no `return`.
      have hfail : ((ofExcept (.error (.expectsBoolean context c)) : Eval Bool) >>= k).run.run w =
          (.error (.returned v), w') := h
      unfold ofExcept fail at hfail
      dsimp only at hfail
      split at hfail <;> cases hfail

/-- A `return` that leaves statements one after the other leaves one of them. -/
theorem returned_evaluateBody {n : Nat} {ts : List Term} {result : Value}
    (h : (evaluateBody (callAt n) s result ts).run.run w = (.error (.returned v), w')) :
    ∃ b, AnyStarts n s ts w b ∧ b.run = (.error (.returned v), w') := by
  induction ts generalizing result w with
  | nil =>
      unfold evaluateBody at h
      cases h
  | cons t ts ih =>
      unfold evaluateBody at h
      rw [run_bind] at h
      generalize hrun : (evaluate (callAt n) s t).run.run w = r at h
      obtain ⟨(e | u), w₁⟩ := r
      · exact ⟨_, .head, hrun.trans h⟩
      · obtain ⟨b, hstarts, hb⟩ := ih h
        exact ⟨b, .tail hrun hstarts, hb⟩

/-- A `return` that leaves a term that is none itself leaves a part of it. -/
theorem returned_part {n : Nat} {role : Role} (ht : (Term.node pos form).IsWritten role)
    (hw : w.IsSound) (hform : form.returns? = none)
    (h : (evaluateForm (callAt n) s form).run.run w = (.error (.returned v), w')) :
    ∃ b, (Moment.term n s (.node pos form) w).StartsPart b ∧ b.run = (.error (.returned v), w') := by
  have hwhole : ((evaluate (callAt n) s (.node pos form)).run.run w).1 = .error (.returned v) := by
    unfold evaluate
    rw [run_locate, h]
    rfl
  have hexpression {t : Term} (ht : t.IsWritten .expression) (u : Value) :
      ((evaluate (callAt n) s t).run.run w).1 ≠ .error (.returned u) :=
    expression_not_returned ht hw u
  cases ht with
  | @program _ body hbody =>
      have hhoist : Sound False False (fun _ _ => True) (hoist s body) w := sound_hoist s hbody hw
      unfold evaluateForm at h
      obtain ⟨_, w₁, hgives, h⟩ := returned_bind h (hhoist.not_returned id)
      obtain ⟨b, hb, hrun⟩ := returned_evaluateBody h
      refine ⟨b, ⟨rfl, ?_, .program hgives hb⟩, hrun⟩
      obtain ⟨_, _, _, rfl⟩ := hb.eq_term
      rfl
  | @block _ body hbody =>
      have hopen : Sound False False _ _ w := sound_openScope s false hw
      unfold evaluateForm at h
      obtain ⟨inner, w₁, hscope, h⟩ := returned_bind h (hopen.not_returned id)
      have hhoist : Sound False False (fun _ _ => True) (hoist inner body) w₁ :=
        sound_hoist inner hbody (hopen.of_gives hscope).1
      obtain ⟨_, w₂, hgives, h⟩ := returned_bind h (hhoist.not_returned id)
      obtain ⟨b, hb, hrun⟩ := returned_evaluateBody h
      refine ⟨b, ⟨rfl, ?_, .block hscope hgives hb⟩, hrun⟩
      obtain ⟨_, _, _, rfl⟩ := hb.eq_term
      rfl
  | declaration hpattern hvalue =>
      unfold evaluateForm at h
      obtain ⟨u, w₁, hgives, h⟩ := returned_bind h (hexpression hvalue)
      obtain ⟨hw₁, hu⟩ := (sound_evaluate (callsWell n) s hvalue hw).of_gives hgives
      have hbind : Sound False False (fun _ _ => True) _ w₁ := sound_bindPattern s hpattern hu hw₁
      obtain ⟨_, w₂, -, h⟩ := returned_bind h (hbind.not_returned id)
      cases h
  | returnNothing | returnValue => cases hform
  | throwValue hvalue =>
      unfold evaluateForm at h
      obtain ⟨u, w₁, hgives, h⟩ := returned_bind h (hexpression hvalue)
      unfold fail at h
      split at h <;> cases h
  | ifThen hcondition hyes =>
      unfold evaluateForm at h
      obtain ⟨c, w₁, hgives, h⟩ := returned_bind h (hexpression hcondition)
      obtain ⟨flag, hflag, h⟩ := returned_branch h
      cases flag with
      | true => exact ⟨_, ⟨rfl, rfl, .next rfl hgives (by simp [Form.next?, hflag])⟩, h⟩
      | false => cases h
  | ifThenElse hcondition hyes _ hno =>
      unfold evaluateForm at h
      obtain ⟨c, w₁, hgives, h⟩ := returned_bind h (hexpression hcondition)
      obtain ⟨flag, hflag, h⟩ := returned_branch h
      cases flag with
      | true => exact ⟨_, ⟨rfl, rfl, .next rfl hgives (by simp [Form.next?, hflag])⟩, h⟩
      | false => exact ⟨_, ⟨rfl, rfl, .next rfl hgives (by simp [Form.next?, hflag])⟩, h⟩
  | functionDeclaration =>
      unfold evaluateForm at h
      cases h
  | expressionStatement hvalue =>
      unfold evaluateForm at h
      exact absurd (by rw [h]) (hexpression hvalue v)
  | number h | string h | array h | record h | arrow _ _ h | functionExpression _ h | call h _
  | member h | index h | unary _ h | binary _ h | compare _ h | logical h | conditional h =>
      exact absurd hwhole (expression_not_returned (by constructor <;> assumption) hw v)
  | truth | reference => exact absurd hwhole (expression_not_returned (by constructor) hw v)

end Eval

namespace Moment

variable {n : Nat} {s : ScopeId} {t : Term} {w : World} {a b c r : Moment} {v : Value}

/-- The moment at which a `return` is evaluated. -/
def IsReturn (r : Moment) : Prop :=
  ∃ n s pos form w, r = .term n s (.node pos form) w ∧ form.returns?.isSome

/-- A `return` that leaves a term comes from one that stands in it, but in no function within. -/
theorem IsSound.exists_return (ha : a.IsSound) (hterm : a.isTerm = true)
    (h : a.run.1 = .error (.returned v)) :
    ∃ r, a.LeadsToPart r ∧ r.IsReturn ∧ r.run = a.run := by
  induction a using Moment.induction with
  | step a ih =>
      cases a with
      | call => cases hterm
      | term n s t w =>
          obtain ⟨pos, form⟩ := t
          cases hform : form.returns? with
          | some value? => exact ⟨_, .refl, ⟨n, s, pos, form, w, rfl, by simp [hform]⟩, rfl⟩
          | none =>
              obtain ⟨⟨role, ht⟩, hw⟩ := ha
              have hrun : (Moment.term n s (.node pos form) w).run =
                  (located pos ((evaluateForm (callAt n) s form).run.run w).1,
                    ((evaluateForm (callAt n) s form).run.run w).2) :=
                run_locate pos (evaluateForm (callAt n) s form) w
              have hreturned : ((evaluateForm (callAt n) s form).run.run w).1 =
                  .error (.returned v) := by
                rw [hrun] at h
                generalize ((evaluateForm (callAt n) s form).run.run w).1 = result at h
                rcases result with (_ | _ | _ | _) | _ <;> cases h
                rfl
              obtain ⟨b, hstarts, hb⟩ := returned_part ht hw hform (Prod.ext hreturned rfl)
              obtain ⟨r, hleads, hr, hrrun⟩ := ih b hstarts.2.2
                (hstarts.2.2.isSound ⟨⟨role, ht⟩, hw⟩) hstarts.2.1 (by rw [hb])
              refine ⟨r, .head hstarts hleads, hr, ?_⟩
              rw [hrrun, hb, hrun, hreturned]
              rfl

/-- A function in whose body a `return` stands has a block as its body. -/
theorem isBlock_of_encloses {f : Closure} (hf : f.IsWritten) {pos : Option Position} {form : Form}
    (hform : form.returns?.isSome) (h : f.body.Encloses (.node pos form)) :
    f.body.isBlock = true := by
  obtain ⟨-, role, hrole, hbody⟩ := hf
  rcases hrole with rfl | rfl
  · exact isBlock_of_isWritten hbody
  · obtain ⟨value?, hvalue⟩ := Option.isSome_iff_exists.1 hform
    exact absurd (h.expression hbody) (not_expression_of_returns hvalue)

/-- A call whose body a `return` leaves gives the value of that `return` at once. -/
theorem Starts.run_of_returned (h : a.Starts b) (hsound : a.IsSound) (ha : a.isTerm = false)
    (hb : b.isTerm = true) (hv : b.run.1 = .error (.returned v)) : a.run = (.ok v, b.run.2) := by
  have hbsound := h.isSound hsound
  obtain ⟨n, i, f, args, w, s, w', w'', rfl, rfl, hlength, hscope, hparams⟩ :=
    h.body_of_call ha hb
  obtain ⟨r, hleads, ⟨m, s', pos, form, w₁, rfl, hform⟩, -⟩ := hbsound.exists_return rfl hv
  have hblock := isBlock_of_encloses hsound.1.function hform hleads.encloses
  have hbody : ((evaluate (callAt n) s f.body).run.run w'').1 = .error (.returned v) := hv
  rw [run_body hlength hscope hparams, run_runBody_block hblock, hbody]
  rfl

/-- A call of a function around a term, with no other call in between. -/
structure Surrounds (c : Moment) (f : Closure) (r : Moment) : Prop where
  called : ∃ n i args w, c = .call n (.closure i f) args w
  body : ∃ b, c.Starts b ∧ b.isTerm = true ∧ b.LeadsToPart r

variable {pos : Option Position} {form : Form}

/-- Around a `return` in the course of an evaluation, with a call on the way, there is the call of a
function whose body is a block and holds the `return`. -/
theorem LeadsTo.surrounded (h : a.LeadsTo (.term n s (.node pos form) w)) (ha : a.IsSound)
    (hform : form.returns?.isSome) (hpart : ¬ a.LeadsToPart (.term n s (.node pos form) w)) :
    w.isInCall s = true ∧ ∃ c f, a.LeadsTo c ∧ c.Surrounds f (.term n s (.node pos form) w) ∧
      f.body.isBlock = true ∧ f.body.Encloses (.node pos form) := by
  rcases h.part_or_called rfl with hdirect | ⟨c, body, hc, hcall, hbody, hstarts, hleads⟩
  · exact absurd hdirect hpart
  · have hcsound := hc.isSound ha
    obtain ⟨m, i, f, args, w₀, s₀, w₁, w₂, rfl, rfl, -, hopen, hparams⟩ :=
      hstarts.body_of_call hcall hbody
    have hencloses := hleads.encloses
    have hscope := hleads.hasScope (hasScope_body hopen hparams)
    exact ⟨hscope.2, _, f, hc, ⟨⟨_, _, _, _, rfl⟩, _, hstarts, rfl, hleads⟩,
      isBlock_of_encloses hcsound.1.function hform hencloses, hencloses⟩

/-- The call around a `return` gives its value at once. -/
theorem Surrounds.run_eq {c : Moment} {f : Closure} (h : c.Surrounds f r) (hsound : c.IsSound)
    (hv : r.run.1 = .error (.returned v)) : c.run = (.ok v, r.run.2) := by
  obtain ⟨⟨n, i, args, w, rfl⟩, b, hstarts, hb, hleads⟩ := h
  have hrun := hleads.returned hv
  rw [hstarts.run_of_returned hsound rfl hb (by rw [hrun]), hrun]

end Moment

/-- The discipline of `return`, in a session that has taken any steps since its start and evaluates a
text.

A `return` is refused, before its value is evaluated, exactly where its scope lies in no call, and
that is where no call is being made.  Elsewhere it fails as its value does; and once there is a value,
that value is at once the result of the innermost call, which is one of a function whose body is a
block and holds the `return`, in no function within.  No call lets a `return` out, whether of a
function, a variant or a built-in operation; what a call takes from its body comes from a `return` in
that body; and none leaves the session. -/
theorem return_disciplined {legacy : Bool} {observer : Observer} {session after : Session}
    {a : Moment} (hsession : (Session.start legacy observer).Reaches session)
    (hevaluates : session.Evaluates a after) :
    (∀ n s pos form value? w, form.returns? = some value? →
      a.LeadsTo (.term n s (.node pos form) w) →
      (w.isInCall s = false ↔ a.LeadsToPart (.term n s (.node pos form) w)) ∧
      (w.isInCall s = false →
        (Moment.term n s (.node pos form) w).run = (.error (.fault ⟨.illegalReturn, pos⟩), w)) ∧
      (w.isInCall s = true →
        (∀ e w', (evaluateReturned (callAt n) s value?).run.run w = (.error e, w') →
          (Moment.term n s (.node pos form) w).run = (located pos (.error e), w')) ∧
        ∃ c f, a.LeadsTo c ∧ c.Surrounds f (.term n s (.node pos form) w) ∧
          f.body.isBlock = true ∧ f.body.Encloses (.node pos form) ∧
          ∀ v w', Gives (evaluateReturned (callAt n) s value?) w v w' → c.run = (.ok v, w'))) ∧
    (∀ n callee args w v, a.LeadsTo (.call n callee args w) →
      (Moment.call n callee args w).run.1 ≠ .error (.returned v)) ∧
    (∀ n callee args w body v, a.LeadsTo (.call n callee args w) →
      (Moment.call n callee args w).Starts body → body.isTerm = true →
      body.run.1 = .error (.returned v) →
      (Moment.call n callee args w).run = (.ok v, body.run.2) ∧
        ∃ r, body.LeadsToPart r ∧ r.IsReturn ∧ r.run = body.run) ∧
    ∀ code v, (session.evaluateText code).1 ≠ .error (.crash (.escapedReturn v)) ∧
      (session.run code).1 ≠ .error (.crash (.escapedReturn v)) := by
  have hsound := hsession.isSound (Session.isSound_start legacy observer)
  have ha : a.IsSound := hevaluates.isSound hsound
  have hscope : a.HasScope false := by
    cases hevaluates with
    | evaluated => exact hsound.scope
    | ran => exact (hsound.started _).scope
  refine ⟨fun n s pos form value? w hform hleads => ?_, fun n callee args w v hleads => ?_,
    fun n callee args w body v hleads hstarts hbody hv => ?_, fun code v => ⟨?_, ?_⟩⟩
  · have hsome : form.returns?.isSome := by simp [hform]
    refine ⟨⟨fun houtside => ?_, fun hpart => (hpart.hasScope hscope).2⟩,
      run_return_outside hform, fun hinside => ⟨fun e w' he => ?_, ?_⟩⟩
    · refine Classical.byContradiction fun hpart => ?_
      rw [(hleads.surrounded ha hsome hpart).1] at houtside
      cases houtside
    · show (evaluate (callAt n) s (.node pos form)).run.run w = _
      rw [run_return_inside hform hinside, he]
    · have hpart : ¬ a.LeadsToPart (.term n s (.node pos form) w) := fun hpart => by
        rw [(hpart.hasScope hscope).2] at hinside
        cases hinside
      obtain ⟨-, c, f, hc, hsurrounds, hblock, hencloses⟩ := hleads.surrounded ha hsome hpart
      refine ⟨c, f, hc, hsurrounds, hblock, hencloses, fun v w' hgives => ?_⟩
      have hrun : (Moment.term n s (.node pos form) w).run = (.error (.returned v), w') := by
        show (evaluate (callAt n) s (.node pos form)).run.run w = _
        rw [run_return_inside hform hinside, hgives]
      rw [hsurrounds.run_eq (hc.isSound ha) (by rw [hrun]), hrun]
  · obtain ⟨hcallee, hargs, hw⟩ := hleads.isSound ha
    exact (callsWell n w callee args hw hcallee hargs).not_returned id v
  · have hcsound := hleads.isSound ha
    exact ⟨hstarts.run_of_returned hcsound rfl hbody hv,
      (hstarts.isSound hcsound).exists_return hbody hv⟩
  · have hends := Session.evaluateText_endsWell hsound code
    intro hescaped
    rw [hescaped] at hends
    cases hends
  · have hends := Session.evaluateText_endsWell (hsound.started code) code
    intro hescaped
    rw [Session.run_result] at hescaped
    rw [hescaped] at hends
    cases hends

/-- A `return` at the top of a text, in a new session: it is refused. -/
theorem return_disciplined_topLevel :
    ∃ pos s w value, Session.Evaluates (Session.start false .absent)
        (.term callBound s (.node pos (.program [value])) w)
        ((Session.start false .absent).evaluateText "return 1").2 ∧
      ∃ pos', (Moment.term callBound s value w).run =
        (.error (.fault ⟨.illegalReturn, pos'⟩), w) := by
  have hreads : (Program.read "return 1".toList).toOption.any (fun t =>
      t.form.parts.length = 1 ∧ t.form.parts.all fun u => u.form.returns?.join.isSome) = true := by
    decide +kernel
  cases hread : Program.read "return 1".toList with
  | error e =>
      rw [hread] at hreads
      cases hreads
  | ok t =>
      rw [hread] at hreads
      cases Session.isWritten_of_read hread with
      | @program pos body hbody =>
          obtain ⟨hlength, hreturn⟩ := of_decide_eq_true hreads
          obtain ⟨⟨pos', form⟩, rfl⟩ := List.length_eq_one_iff.1 hlength
          cases form with
          | returnValue value =>
              have hevaluates : (Session.start false .absent).Evaluates _ _ := .evaluated hread
              have hleads : (Moment.term callBound (Session.start false .absent).scope
                  (.node pos (.program [.node pos' (.returnValue value)]))
                  (Session.start false .absent).world).LeadsToPart
                    (.term callBound (Session.start false .absent).scope
                      (.node pos' (.returnValue value)) (Session.start false .absent).world) :=
                .single ⟨rfl, rfl, .program rfl .head⟩
              obtain ⟨hreturns, -⟩ := return_disciplined .here hevaluates
              obtain ⟨houtside, hrefused, -⟩ := hreturns _ _ _ _ _ _ rfl hleads.leadsTo
              exact ⟨_, _, _, _, hevaluates, _, hrefused (houtside.2 hleads)⟩
          | _ => cases hreturn

end VariantScript
