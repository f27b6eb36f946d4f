import VariantScript.Proofs.SideBySide.Operations

/-!
# Terms of two runs side by side

One term is evaluated by two runs in scopes that stand for each other and look up alike what the term
mentions.  Then both runs go side by side, whatever calls they make.  A term that defines names or
ends a call has to be in scopes that both runs have opened; an expression does neither.
-/

namespace VariantScript

open Syntax Eval

namespace Syntax

theorem Form.parts_of_ownParts {form : Form} {u : Term} (h : u ∈ form.ownParts) :
    u ∈ form.parts := by
  cases form <;> first | exact h | cases h

theorem Term.IsWritten.isExpression {t : Term} (h : t.IsWritten .expression) :
    t.form.isExpression = true := by
  cases h <;> rfl

end Syntax

namespace Start

/-- Two runs may evaluate a term in two scopes. -/
structure Place (b : Start) (p : Pair) (t : Term) (s s' : ScopeId) : Prop where
  serves : b.Serves p t s s'
  own : b.Opened p s s' ∨ t.IsWritten .expression

/-- Calls of corresponding values run side by side. -/
def CallsSideBySide (b : Start) (n n' : Nat) : Prop :=
  ∀ (p : Pair) (callee callee' : Value) (args args' : List Value), b.value p callee callee' →
    b.values p args args' →
    b.SideBySide b.value (callAt n callee args) (callAt n' callee' args') p

variable {b : Start} {p q : Pair} {s s' : ScopeId} {t u : Term} {pos : Option Position} {form : Form}

/-! ## Places -/

theorem Place.mono (h : b.Place p t s s') (hle : p.Before q) : b.Place q t s s' :=
  ⟨h.serves.mono hle, h.own.imp_left fun h => h.mono hle⟩

theorem Serves.part (h : b.Serves p t s s') (hu : u ∈ t.form.parts) : b.Serves p u s s' :=
  ⟨h.linked, fun hname => h.sees (.of_part hu hname)⟩

theorem Place.part (h : b.Place p t s s') (hu : u ∈ t.form.ownParts) : b.Place p u s s' :=
  ⟨h.serves.part (Form.parts_of_ownParts hu), h.own.imp_right fun ht => ht.ownPart hu⟩

/-- What is no expression is evaluated in scopes that both runs have opened. -/
theorem Place.opened (h : b.Place p (.node pos form) s s') (hform : form.isExpression = false) :
    b.Opened p s s' := by
  rcases h.own with hopened | hwritten
  · exact hopened
  · exact absurd (hform.symm.trans hwritten.isExpression) (by decide)

theorem Place.isInCall (hp : b.Holds p) (hs : b.Opened p s s') :
    p.right.isInCall s' = p.left.isInCall s := by
  obtain ⟨scope, scope', hmatch⟩ := hp.opened hs
  exact hmatch.isInCall

/-- Scopes that both runs open inside others serve what these serve. -/
theorem Serves.opened {inner inner' : ScopeId} (h : b.Serves p t s s') (hle : p.Before q)
    (hinner : b.Opened q inner inner' ∧
      ∀ name, b.Sees q name s s' → b.Sees q name inner inner') :
    b.Serves q t inner inner' :=
  ⟨.inr hinner.1, fun hname => hinner.2 _ ((h.sees hname).mono hle)⟩

theorem Place.block {body : List Term} {inner inner' : ScopeId}
    (h : b.Place p (.node pos (.block body)) s s') (hle : p.Before q)
    (hinner : b.Opened q inner inner' ∧
      ∀ name, b.Sees q name s s' → b.Sees q name inner inner') :
    ∀ t ∈ body, b.Place q t inner inner' :=
  fun _ ht => ⟨(h.part ht).serves.opened hle hinner, .inl hinner.1⟩

/-- A function with some body, made in scopes that serve it. -/
theorem inStep_function {body : Term} (h : b.Serves p body s s') (params : List Pattern)
    (name : Option String) (kind : FunctionKind) :
    b.InStep b.value (Eval.makeClosure ⟨params, body, s, name, kind⟩)
      (Eval.makeClosure ⟨params, body, s', name, kind⟩) p := by
  refine inStep_makeClosure ?_
  exact ⟨rfl, rfl, rfl, rfl, h⟩

/-- The functions that terms declare are defined in scopes that serve them. -/
theorem inStep_hoist {p : Pair} (hs : b.Opened p s s') (body : List Term)
    (h : ∀ t ∈ body, b.Serves p t s s') :
    b.InStep (fun _ _ _ => True) (hoist s body) (hoist s' body) p := by
  induction body generalizing p with
  | nil => exact inStep_pure trivial
  | cons t rest ih =>
      have ht := h t (.head _)
      have hrest (q : Pair) (hle : p.Before q) :=
        ih (hs.mono hle) fun t ht => (h t (.tail _ ht)).mono hle
      obtain ⟨pos, form⟩ := t
      cases form with
      | functionDeclaration name params body =>
          refine (inStep_function (ht.part (.head _)) _ _ _).bind fun q f f' hle hf => ?_
          refine (inStep_define (hs.mono hle) name.text hf).bind fun r _ _ hle' _ => ?_
          exact hrest r (hle.trans hle')
      | illFormed problem =>
          cases problem with
          | wrongFunction d => exact inStep_breakDown d
          | _ => exact hrest p (.refl p)
      | _ => exact hrest p (.refl p)

section

variable {n n' : Nat}

/-- What goes on behind a condition. -/
theorem sideBySide_truth {p : Pair} (context : String) {v v' : Value} (hv : b.value p v v')
    {k k' : Bool → Eval Value}
    (hk : ∀ q flag, p.Before q → b.SideBySide b.value (k flag) (k' flag) q) :
    b.SideBySide b.value (Eval.ofExcept (requireTruth context v) >>= k)
      (Eval.ofExcept (requireTruth context v') >>= k') p := by
  refine (inStep_requireTruth context hv).bind_side fun q flag flag' hle hflag => ?_
  cases hflag
  exact hk q flag hle

theorem inStep_truth (flag : Bool) :
    b.InStep b.value (pure (Value.truth flag)) (pure (Value.truth flag)) p :=
  .of_holds fun hp => inStep_pure (Value.matches_truth hp.fixes flag)

theorem inStep_unit : b.InStep b.value (pure Value.unit) (pure Value.unit) p :=
  .of_holds fun hp => inStep_pure (Value.matches_unit hp.fixes)

mutual

theorem sideBySide_evaluate (hcall : b.CallsSideBySide n n') {p : Pair} {s s' : ScopeId} (t : Term)
    (h : b.Place p t s s') :
    b.SideBySide b.value (evaluate (callAt n) s t) (evaluate (callAt n') s' t) p := by
  match t with
  | .node pos form => exact (sideBySide_evaluateForm hcall form h).locate pos

theorem sideBySide_evaluateForm (hcall : b.CallsSideBySide n n') {p : Pair} {s s' : ScopeId}
    {pos : Option Position} (form : Form) (h : b.Place p (.node pos form) s s') :
    b.SideBySide b.value (evaluateForm (callAt n) s form) (evaluateForm (callAt n') s' form) p := by
  have hpart {t : Term} {q : Pair} (ht : t ∈ form.ownParts) (hle : p.Before q) :
      b.Place q t s s' := (h.part ht).mono hle
  match form with
  | .program body =>
      have hs := h.opened rfl
      refine (inStep_hoist hs body fun t ht => (h.part ht).serves).bind_side fun q _ _ hle _ => ?_
      exact .of_holds fun hq => sideBySide_evaluateBody hcall body (fun t ht => hpart ht hle)
        (Value.matches_unit hq.fixes)
  | .block body =>
      have hs := h.opened rfl
      refine (inStep_openScope h.serves.linked fun hp => .inr (Place.isInCall hp hs)).bind_side
        fun q inner inner' hle hinner => ?_
      have hplace := h.block hle hinner
      refine (inStep_hoist hinner.1 body fun t ht => (hplace t ht).serves).bind_side
        fun r _ _ hle' _ => ?_
      exact .of_holds fun hr => sideBySide_evaluateBody hcall body
        (fun t ht => (hplace t ht).mono hle') (Value.matches_unit hr.fixes)
  | .declaration pattern value =>
      have hs := h.opened rfl
      refine (sideBySide_evaluate hcall value (h.part (.head _))).bind fun q v v' hle hv => ?_
      exact ((inStep_bindPattern (hs.mono hle) pattern hv).bind fun r _ _ _ _ =>
        inStep_unit).sideBySide
  | .returnNothing =>
      refine SideBySide.get_bind fun hp => ?_
      rw [Place.isInCall hp (h.opened rfl)]
      exact .ite Iff.rfl
        (fun _ => (inStep_throw (.returned (Value.matches_unit hp.fixes))).sideBySide)
        fun _ => (inStep_fail (.refl _)).sideBySide
  | .returnValue value =>
      refine SideBySide.get_bind fun hp => ?_
      rw [Place.isInCall hp (h.opened rfl)]
      refine .ite Iff.rfl (fun _ => ?_) fun _ => (inStep_fail (.refl _)).sideBySide
      exact (sideBySide_evaluate hcall value (h.part (.head _))).bind fun q v v' _ hv =>
        (inStep_throw (.returned hv)).sideBySide
  | .throwValue value =>
      exact (sideBySide_evaluate hcall value (h.part (.head _))).bind fun q v v' _ hv =>
        (inStep_fail (Cause.ShowsOne.thrown.alike hv)).sideBySide
  | .ifThen condition yes =>
      refine (sideBySide_evaluate hcall condition (h.part (.head _))).bind fun q c c' hle hc => ?_
      refine sideBySide_truth "if" hc fun r flag hle' => .ite Iff.rfl (fun _ => ?_) fun _ => ?_
      · exact sideBySide_evaluate hcall yes (hpart (.tail _ (.head _)) (hle.trans hle'))
      · exact inStep_unit.sideBySide
  | .ifThenElse condition yes no =>
      refine (sideBySide_evaluate hcall condition (h.part (.head _))).bind fun q c c' hle hc => ?_
      refine sideBySide_truth "if" hc fun r flag hle' => .ite Iff.rfl (fun _ => ?_) fun _ => ?_
      · exact sideBySide_evaluate hcall yes (hpart (.tail _ (.head _)) (hle.trans hle'))
      · exact sideBySide_evaluate hcall no (hpart (.tail _ (.tail _ (.head _))) (hle.trans hle'))
  | .functionDeclaration _ _ _ => exact inStep_unit.sideBySide
  | .expressionStatement value => exact sideBySide_evaluate hcall value (h.part (.head _))
  | .number literal =>
      simp only [evaluateForm]
      cases Number.readLoose? literal.text.toList with
      | some x => exact (inStep_makeNumber x).sideBySide
      | none => exact (inStep_breakDown _).sideBySide
  | .string literal =>
      refine ((inStep_decodeString literal.text).bind fun q text text' _ htext => ?_).sideBySide
      cases htext
      exact inStep_pure .string
  | .truth flag => exact (inStep_truth flag).sideBySide
  | .reference name =>
      exact (inStep_resolve (h.serves.sees ⟨pos, name, .refl, rfl⟩)).sideBySide
  | .array items =>
      exact (sideBySide_evaluateAll hcall items fun t ht => h.part ht).bind fun q vs vs' _ hvs =>
        (inStep_makeArray hvs).sideBySide
  | .record fields =>
      have hfields (t : Term) (ht : t ∈ fields.filterMap Field.value?) : b.Place p t s s' :=
        h.part ht
      exact (sideBySide_evaluateFields hcall fields hfields .nil).bind fun q slots slots' _ hslots =>
        (inStep_makeRecord hslots).sideBySide
  | .arrow params body =>
      exact (inStep_function (h.serves.part (.head _)) _ _ _).sideBySide
  | .functionExpression params body =>
      exact (inStep_function (h.serves.part (.head _)) _ _ _).sideBySide
  | .call callee args =>
      refine (sideBySide_evaluate hcall callee (h.part (.head _))).bind fun q f f' hle hf => ?_
      refine (sideBySide_evaluateAll hcall args fun t ht => hpart (.tail _ ht) hle).bind
        fun r vs vs' hle' hvs => ?_
      exact hcall r f f' vs vs' (hf.mono (within hle')) hvs
  | .member receiver name =>
      exact (sideBySide_evaluate hcall receiver (h.part (.head _))).bind fun q v v' _ hv =>
        (inStep_getField hv name.text).sideBySide
  | .index receiver position =>
      refine (sideBySide_evaluate hcall receiver (h.part (.head _))).bind fun q v v' hle hv => ?_
      exact (sideBySide_evaluate hcall position (hpart (.tail _ (.head _)) hle)).bind
        fun r i i' hle' hi => (inStep_getIndex (hv.mono (within hle')) hi).sideBySide
  | .unary op _ operand =>
      have hoperand := sideBySide_evaluate hcall operand (h.part (.head _))
      cases op with
      | not =>
          exact hoperand.bind fun q v v' _ hv =>
            sideBySide_truth "!" hv fun r flag _ => (inStep_truth (! flag)).sideBySide
      | negate =>
          refine hoperand.bind fun q v v' _ hv => InStep.sideBySide ?_
          refine (inStep_requireNumber "unary -" hv).bind fun r x x' _ hx => ?_
          cases hx
          exact inStep_makeNumber (-x)
      | unknown text => exact hoperand.bind fun q v v' _ _ => (inStep_fail (.refl _)).sideBySide
  | .binary op _ left right =>
      refine (sideBySide_evaluate hcall left (h.part (.head _))).bind fun q l l' hle hl => ?_
      exact (sideBySide_evaluate hcall right (hpart (.tail _ (.head _)) hle)).bind
        fun r u u' hle' hu => (inStep_applyBinary op (hl.mono (within hle')) hu).sideBySide
  | .compare op _ left right =>
      refine (sideBySide_evaluate hcall left (h.part (.head _))).bind fun q l l' hle hl => ?_
      refine (sideBySide_evaluate hcall right (hpart (.tail _ (.head _)) hle)).bind
        fun r u u' hle' hu => InStep.sideBySide ?_
      have hanswer : b.InStep same (Eval.ofExcept (applyCompare op l u))
          (Eval.ofExcept (applyCompare op l' u')) r :=
        inStep_ofExcept (alike_applyCompare (b.oneToOne r) op (hl.mono (within hle')) hu)
      refine hanswer.bind fun _ flag flag' _ hflag => ?_
      cases hflag
      exact inStep_truth flag
  | .logical op left right =>
      refine (sideBySide_evaluate hcall left (h.part (.head _))).bind fun q l l' hle hl => ?_
      refine sideBySide_truth op.spelling hl fun r flag hle' => .ite Iff.rfl (fun _ => ?_) fun _ => ?_
      · exact (inStep_pure (hl.mono (within hle'))).sideBySide
      · refine (sideBySide_evaluate hcall right (hpart (.tail _ (.head _)) (hle.trans hle'))).bind
          fun r u u' _ hu => ?_
        exact sideBySide_truth op.spelling hu fun r' _ hle'' =>
          (inStep_pure (hu.mono (within hle''))).sideBySide
  | .conditional condition yes no =>
      refine (sideBySide_evaluate hcall condition (h.part (.head _))).bind fun q c c' hle hc => ?_
      refine sideBySide_truth "?:" hc fun r flag hle' => .ite Iff.rfl (fun _ => ?_) fun _ => ?_
      · exact sideBySide_evaluate hcall yes (hpart (.tail _ (.head _)) (hle.trans hle'))
      · exact sideBySide_evaluate hcall no (hpart (.tail _ (.tail _ (.head _))) (hle.trans hle'))
  | .illFormed (.unknownNode label) => exact (inStep_fail (.refl (.unknownNode label))).sideBySide
  | .illFormed (.unhandledToken type text) =>
      exact (inStep_fail (.refl (.unhandledToken type text))).sideBySide
  | .illFormed (.wrongShape _ d) => exact (inStep_breakDown d).sideBySide
  | .illFormed (.wrongFunction _) => exact inStep_unit.sideBySide

theorem sideBySide_evaluateBody (hcall : b.CallsSideBySide n n') {p : Pair} {s s' : ScopeId}
    (ts : List Term) (h : ∀ t ∈ ts, b.Place p t s s') {result result' : Value}
    (hresult : b.value p result result') :
    b.SideBySide b.value (evaluateBody (callAt n) s result ts)
      (evaluateBody (callAt n') s' result' ts) p := by
  match ts with
  | [] => exact (inStep_pure hresult).sideBySide
  | t :: ts =>
      refine (sideBySide_evaluate hcall t (h t (.head _))).bind fun q v v' hle hv => ?_
      refine sideBySide_evaluateBody hcall ts (fun t ht => (h t (.tail _ ht)).mono hle) ?_
      split
      · exact hv
      · exact hresult.mono (within hle)

theorem sideBySide_evaluateAll (hcall : b.CallsSideBySide n n') {p : Pair} {s s' : ScopeId}
    (ts : List Term) (h : ∀ t ∈ ts, b.Place p t s s') :
    b.SideBySide b.values (evaluateAll (callAt n) s ts) (evaluateAll (callAt n') s' ts) p := by
  match ts with
  | [] => exact (inStep_pure .nil).sideBySide
  | t :: ts =>
      refine (sideBySide_evaluate hcall t (h t (.head _))).bind fun q v v' hle hv => ?_
      refine (sideBySide_evaluateAll hcall ts fun t ht => (h t (.tail _ ht)).mono hle).bind
        fun r vs vs' hle' hvs => ?_
      exact (inStep_pure (.cons (hv.mono (within hle')) hvs)).sideBySide

theorem sideBySide_evaluateFields (hcall : b.CallsSideBySide n n') {p : Pair} {s s' : ScopeId}
    (fs : List Field) (h : ∀ t ∈ fs.filterMap Field.value?, b.Place p t s s')
    {slots slots' : Slots} (hslots : b.fields p slots slots') :
    b.SideBySide b.fields (evaluateFields (callAt n) s fs slots)
      (evaluateFields (callAt n') s' fs slots') p := by
  match fs with
  | [] => exact (inStep_pure hslots).sideBySide
  | .broken d :: _ => exact (inStep_breakDown d).sideBySide
  | .mk _ key value :: rest =>
      refine (sideBySide_evaluate hcall value (h value (.head _))).bind fun q v v' hle hv => ?_
      refine (inStep_decode key).bind_side fun r name name' hle' hname => ?_
      cases hname
      have hle'' := hle.trans hle'
      exact sideBySide_evaluateFields hcall rest (fun t ht => (h t (.tail _ ht)).mono hle'')
        ((hslots.mono (within hle'')).set name (hv.mono (within hle')))

end

/-! ## Calls -/

theorem sideBySide_runBody (hcall : b.CallsSideBySide n n') {body : Term}
    (hs : b.Opened p s s') (h : b.Serves p body s s') :
    b.SideBySide b.value (runBody (callAt n) s body) (runBody (callAt n') s' body) p := by
  have hevaluate := sideBySide_evaluate hcall body ⟨h, .inl hs⟩
  by_cases hblock : body.isBlock = true
  · intro hp
    rw [run_runBody_block hblock, run_runBody_block hblock]
    rcases hevaluate hp with ⟨hle, hq, hresult⟩ | ⟨e, he, hquits⟩
    · refine .inl ⟨hle, hq, ?_⟩
      dsimp only
      generalize ((evaluate (callAt n) s body).run.run p.left).1 = r,
        ((evaluate (callAt n') s' body).run.run p.right).1 = r' at hresult
      -- A block gives what it returns; other stops leave it as they are.
      cases hresult with
      | ok => exact .ok (Value.matches_unit hq.fixes)
      | error he =>
          cases he with
          | returned hv => exact .ok hv
          | fault hcause hlocation => exact .error (.fault hcause hlocation)
          | tooDeep => exact .error .tooDeep
          | breakdown => exact .error .breakdown
    · refine .inr ⟨e, ?_, hquits⟩
      dsimp only
      rw [he]
      generalize ((evaluate (callAt n') s' body).run.run p.right).2 = w at hquits
      cases hquits <;> rfl
  · unfold runBody
    rw [if_neg hblock, if_neg hblock]
    exact hevaluate.bind fun q v v' _ hv => (inStep_requireResult hv).sideBySide

theorem sideBySide_enter (hcall : b.CallsSideBySide n n') {f g : Closure}
    (hf : f.Matches (b.matching p) g) {args args' : List Value} (hargs : b.values p args args') :
    b.SideBySide b.value (enter (callAt n) f args) (enter (callAt n') g args') p := by
  have hserves : b.Serves p f.body f.scope g.scope := hf.scope
  unfold enter
  rw [hf.params, hf.body, hf.label, hargs.length_eq]
  refine .ite Iff.rfl (fun _ => (inStep_fail (.refl _)).sideBySide) fun _ => ?_
  refine (inStep_openScope hserves.linked fun _ => .inl rfl).bind_side fun q s s' hle hs => ?_
  refine (inStep_bindItems hs.1 f.params (Value.Matches.allMono hargs (within hle))).bind_side
    fun r _ _ hle' _ => ?_
  exact sideBySide_runBody hcall (hs.1.mono hle') ((hserves.opened hle hs).mono hle')

end

theorem sideBySide_applyValue {enterFunction enterFunction' : Closure → List Value → Eval Value}
    {callee callee' : Value} {args args' : List Value} (hcallee : b.value p callee callee')
    (hargs : b.values p args args')
    (henter : ∀ f g args args', f.Matches (b.matching p) g → b.values p args args' →
      b.SideBySide b.value (enterFunction f args) (enterFunction' g args') p) :
    b.SideBySide b.value (applyValue enterFunction callee args)
      (applyValue enterFunction' callee' args') p := by
  have hresolve := hcallee.resolve hargs
  unfold applyValue
  generalize callee.resolve args = r, callee'.resolve args' = r' at hresolve
  cases hresolve with
  | error he =>
      cases he
      exact (inStep_fail (.refl _)).sideBySide
  | @ok c c' hc =>
      obtain ⟨target, args⟩ := c
      obtain ⟨target', args'⟩ := c'
      obtain ⟨htarget, hrest⟩ := hc
      dsimp only at htarget hrest
      have hother : b.SideBySide b.value (Eval.fail (.notAFunction target))
          (Eval.fail (.notAFunction target')) p :=
        (inStep_fail (Cause.alike_notAFunction htarget)).sideBySide
      cases htarget with
      | closure _ hf => exact henter _ _ _ _ hf hrest
      | @builtin operation => exact sideBySide_callBuiltin operation hrest
      | _ => exact hother

/-- A call that the second run does not allow stops it, whatever the first does. -/
theorem sideBySide_tooDeep (hlax : b.lax) {good : Pair → Value → Value → Prop} {act : Eval Value}
    [hadds : Adds act] : b.SideBySide good act (throw .tooDeep : Eval Value) p :=
  fun hp => .inr ⟨_, rfl, .tooDeep hlax (.refl p) hp (hadds.events p.left)⟩

instance (n : Nat) (f : Closure) (args : List Value) : Adds (enter (callAt n) f args) where
  events w := by
    have hcall : Adds (callAt (n + 1) (.closure .unit f) args) := inferInstance
    rw [callAt_succ_closure] at hcall
    exact hcall.events w

/-- Calls at the same depth of nesting run side by side, and so do calls that may nest less deeply in
the second run if the start allows it. -/
theorem callsSideBySide (b : Start) {n n' : Nat} (h : n' = n ∨ b.lax ∧ n' ≤ n) :
    b.CallsSideBySide n n' := by
  induction n generalizing n' with
  | zero =>
      obtain rfl : n' = 0 := by omega
      exact fun p callee callee' args args' hcallee hargs =>
        sideBySide_applyValue hcallee hargs fun _ _ _ _ _ _ => (inStep_throw .tooDeep).sideBySide
  | succ n ih =>
      intro p callee callee' args args' hcallee hargs
      cases n' with
      | zero =>
          have hlax : b.lax := (h.resolve_left (by omega)).1
          exact sideBySide_applyValue hcallee hargs fun _ _ _ _ _ _ => sideBySide_tooDeep hlax
      | succ n' =>
          have hcall : b.CallsSideBySide n n' := ih (h.imp Nat.succ.inj fun hlax =>
            ⟨hlax.1, Nat.le_of_succ_le_succ hlax.2⟩)
          exact sideBySide_applyValue hcallee hargs fun f g args args' hf hargs =>
            sideBySide_enter hcall hf hargs

end Start

end VariantScript
