import VariantScript.Proofs.Evaluation.Blame
import VariantScript.Proofs.Evaluation.Containment

/-!
# Trees from texts have a meaning

The tree that a text is read as never stops an evaluation by its shape, in whatever world it is
evaluated as long as the functions there come from texts too, and it leaves such a world behind.  So
neither do the bodies of functions that a later text calls.
-/

namespace VariantScript

open Syntax

namespace Eval

/-! ## Terms -/

theorem keeps_hoist (s : ScopeId) {body : List Term} (hbody : ∀ t ∈ body, t.IsWritten .statement) :
    Keeps (fun _ => True) (hoist s body) := by
  induction body with
  | nil =>
      unfold hoist
      exact keeps_pure trivial
  | cons t body ih =>
      have hrest := ih fun t ht => hbody t (.tail _ ht)
      have ht := hbody t (.head _)
      unfold hoist
      split
      · rename_i heq
        cases heq
      · rename_i heq
        obtain ⟨rfl, rfl⟩ := List.cons.inj heq
        cases ht with
        | functionDeclaration hparams hblock =>
            exact (keeps_makeClosure (isWritten_closure hparams (Or.inl rfl) hblock s _ _)).bind
              fun f hf => (keeps_define s _ hf).bind fun _ _ => hrest
      · rename_i heq
        obtain ⟨rfl, -⟩ := List.cons.inj heq
        cases ht
      · rename_i heq
        obtain ⟨-, rfl⟩ := List.cons.inj heq
        exact hrest

/-- Calls of values whose functions come from texts keep them so. -/
def CallsKeep (call : Value → List Value → Eval Value) : Prop :=
  ∀ callee args, callee.IsWritten → (∀ v ∈ args, v.IsWritten) →
    Keeps Value.IsWritten (call callee args)

section

variable {call : Value → List Value → Eval Value}

mutual

theorem keeps_evaluate (hcall : CallsKeep call) (s : ScopeId) {t : Term} {role : Role}
    (ht : t.IsWritten role) : Keeps Value.IsWritten (evaluate call s t) := by
  match t with
  | .node pos form =>
      unfold evaluate
      refine Keeps.locate ?_ pos
      match form with
      | .program body =>
          cases ht with
          | program hbody =>
              unfold evaluateForm
              exact (keeps_hoist s hbody).bind fun _ _ => keeps_evaluateBody hcall s hbody .unit
      | .block body =>
          cases ht with
          | block hbody =>
              unfold evaluateForm
              exact (keeps_openScope _ _).bind fun inner _ =>
                (keeps_hoist inner hbody).bind fun _ _ => keeps_evaluateBody hcall inner hbody .unit
      | .declaration pattern value =>
          cases ht with
          | declaration hpattern hvalue =>
              unfold evaluateForm
              exact (keeps_evaluate hcall s hvalue).bind fun v hv =>
                (keeps_bindPattern s hpattern hv).bind fun _ _ => keeps_pure .unit
      | .returnNothing =>
          unfold evaluateForm
          refine keeps_get_bind fun w _ => ?_
          split
          · exact keeps_throw .unit
          · exact keeps_fail trivial
      | .returnValue value =>
          cases ht with
          | returnValue hvalue =>
              unfold evaluateForm
              refine keeps_get_bind fun w _ => ?_
              split
              · exact (keeps_evaluate hcall s hvalue).bind fun v hv => keeps_throw hv
              · exact keeps_fail trivial
      | .throwValue value =>
          cases ht with
          | throwValue hvalue =>
              unfold evaluateForm
              exact (keeps_evaluate hcall s hvalue).bind fun v _ => keeps_fail trivial
      | .ifThen condition yes =>
          cases ht with
          | ifThen hcondition hyes =>
              unfold evaluateForm
              refine (keeps_evaluate hcall s hcondition).bind fun c _ =>
                (keeps_requireTruth "if" c).bind fun flag _ => ?_
              split
              · exact keeps_evaluate hcall s hyes
              · exact keeps_pure .unit
      | .ifThenElse condition yes no =>
          cases ht with
          | ifThenElse hcondition hyes hrole hno =>
              unfold evaluateForm
              refine (keeps_evaluate hcall s hcondition).bind fun c _ =>
                (keeps_requireTruth "if" c).bind fun flag _ => ?_
              split
              · exact keeps_evaluate hcall s hyes
              · exact keeps_evaluate hcall s hno
      | .functionDeclaration name params body =>
          unfold evaluateForm
          exact keeps_pure .unit
      | .expressionStatement value =>
          cases ht with
          | expressionStatement hvalue =>
              unfold evaluateForm
              exact keeps_evaluate hcall s hvalue
      | .number literal =>
          cases ht with
          | number hliteral =>
              obtain ⟨x, hx⟩ := Number.readLoose?_of_takes hliteral
              unfold evaluateForm
              rw [hx]
              exact keeps_makeNumber x
      | .string literal =>
          cases ht with
          | string hliteral =>
              unfold evaluateForm
              exact (keeps_decodeString hliteral).bind fun _ _ => keeps_pure .string
      | .truth flag =>
          unfold evaluateForm
          exact keeps_pure (.truth flag)
      | .reference name =>
          unfold evaluateForm
          exact keeps_resolve s name.text
      | .array items =>
          cases ht with
          | array hitems =>
              unfold evaluateForm
              exact (keeps_evaluateAll hcall s hitems).bind fun vs hvs => keeps_makeArray hvs
      | .record fields =>
          cases ht with
          | record hfields =>
              unfold evaluateForm
              exact (keeps_evaluateFields hcall s hfields (by simp)).bind fun slots hslots =>
                keeps_makeRecord hslots
      | .arrow params body =>
          cases ht with
          | arrow hparams hrole hbody =>
              unfold evaluateForm
              exact keeps_makeClosure (isWritten_closure hparams hrole hbody s _ _)
      | .functionExpression params body =>
          cases ht with
          | functionExpression hparams hbody =>
              unfold evaluateForm
              exact keeps_makeClosure (isWritten_closure hparams (Or.inl rfl) hbody s _ _)
      | .call callee args =>
          cases ht with
          | call hcallee hargs =>
              unfold evaluateForm
              exact (keeps_evaluate hcall s hcallee).bind fun f hf =>
                (keeps_evaluateAll hcall s hargs).bind fun vs hvs => hcall f vs hf hvs
      | .member receiver name =>
          cases ht with
          | member hreceiver =>
              unfold evaluateForm
              exact (keeps_evaluate hcall s hreceiver).bind fun v hv => keeps_getField hv name.text
      | .index receiver position =>
          cases ht with
          | index hreceiver hposition =>
              unfold evaluateForm
              exact (keeps_evaluate hcall s hreceiver).bind fun v hv =>
                (keeps_evaluate hcall s hposition).bind fun i _ => keeps_getIndex hv i
      | .unary op opPos operand =>
          cases ht with
          | unary hop hoperand =>
              unfold evaluateForm
              refine (keeps_evaluate hcall s hoperand).bind fun v _ => ?_
              rcases hop with rfl | rfl
              · exact (keeps_requireTruth "!" v).bind fun flag _ => keeps_pure (.truth _)
              · exact (keeps_requireNumber "unary -" v).bind fun x _ => keeps_makeNumber _
      | .binary op opPos left right =>
          cases ht with
          | binary hop hleft hright =>
              unfold evaluateForm
              exact (keeps_evaluate hcall s hleft).bind fun l _ =>
                (keeps_evaluate hcall s hright).bind fun r _ => keeps_applyBinary hop l r
      | .compare op opPos left right =>
          cases ht with
          | compare hop hleft hright =>
              unfold evaluateForm
              exact (keeps_evaluate hcall s hleft).bind fun l _ =>
                (keeps_evaluate hcall s hright).bind fun r _ =>
                  (keeps_applyCompare hop l r).bind fun flag _ => keeps_pure (.truth flag)
      | .logical op left right =>
          cases ht with
          | logical hleft hright =>
              unfold evaluateForm
              refine (keeps_evaluate hcall s hleft).bind fun l hl =>
                (keeps_requireTruth op.spelling l).bind fun flag _ => ?_
              split
              · exact keeps_pure hl
              · exact (keeps_evaluate hcall s hright).bind fun r hr =>
                  (keeps_requireTruth op.spelling r).bind fun _ _ => keeps_pure hr
      | .conditional condition yes no =>
          cases ht with
          | conditional hcondition hyes hno =>
              unfold evaluateForm
              refine (keeps_evaluate hcall s hcondition).bind fun c _ =>
                (keeps_requireTruth "?:" c).bind fun flag _ => ?_
              split
              · exact keeps_evaluate hcall s hyes
              · exact keeps_evaluate hcall s hno
      -- No text is read as a term with an ill-formed part.
      | .illFormed problem => cases ht
termination_by sizeOf t

theorem keeps_evaluateBody (hcall : CallsKeep call) (s : ScopeId) {ts : List Term}
    (hts : ∀ t ∈ ts, t.IsWritten .statement) {result : Value} (hresult : result.IsWritten) :
    Keeps Value.IsWritten (evaluateBody call s result ts) := by
  match ts with
  | [] =>
      unfold evaluateBody
      exact keeps_pure hresult
  | t :: ts =>
      unfold evaluateBody
      refine (keeps_evaluate hcall s (hts t (.head _))).bind fun v hv =>
        keeps_evaluateBody hcall s (fun t ht => hts t (.tail _ ht)) ?_
      split
      · exact hv
      · exact hresult
termination_by sizeOf ts

theorem keeps_evaluateAll (hcall : CallsKeep call) (s : ScopeId) {ts : List Term}
    (hts : ∀ t ∈ ts, t.IsWritten .expression) :
    Keeps (fun vs => ∀ v ∈ vs, v.IsWritten) (evaluateAll call s ts) := by
  match ts with
  | [] =>
      unfold evaluateAll
      exact keeps_pure (by simp)
  | t :: ts =>
      unfold evaluateAll
      exact (keeps_evaluate hcall s (hts t (.head _))).bind fun v hv =>
        (keeps_evaluateAll hcall s fun t ht => hts t (.tail _ ht)).bind fun vs hvs =>
          keeps_pure (by simpa using ⟨hv, hvs⟩)
termination_by sizeOf ts

theorem keeps_evaluateFields (hcall : CallsKeep call) (s : ScopeId) {fs : List Field}
    (hfs : ∀ f ∈ fs, f.IsWritten) {slots : Slots} (hslots : ∀ slot ∈ slots, slot.2.IsWritten) :
    Keeps (fun slots : Slots => ∀ slot ∈ slots, slot.2.IsWritten)
      (evaluateFields call s fs slots) := by
  match fs with
  | [] =>
      unfold evaluateFields
      exact keeps_pure hslots
  | .mk pos key value :: fs =>
      cases hfs _ (.head _) with
      | mk hkey hvalue =>
          unfold evaluateFields
          refine (keeps_evaluate hcall s hvalue).bind fun v hv => (keeps_decodeKey hkey).bind
            fun name _ => keeps_evaluateFields hcall s (fun f hf => hfs f (.tail _ hf)) ?_
          intro slot hslot
          rcases Slots.mem_set hslot with rfl | hslot
          · exact hv
          · exact hslots slot hslot
  | .broken b :: fs => cases hfs _ (.head _)
termination_by sizeOf fs

end

/-! ## Calls -/

theorem keeps_runBody (hcall : CallsKeep call) (s : ScopeId) {body : Term} {role : Role}
    (hbody : body.IsWritten role) : Keeps Value.IsWritten (runBody call s body) := by
  have hevaluate := keeps_evaluate hcall s hbody
  by_cases hblock : body.isBlock = true
  · intro w hw
    rw [run_runBody_block hblock]
    obtain ⟨hworld, hend⟩ := hevaluate w hw
    refine ⟨hworld, ?_⟩
    generalize ((evaluate call s body).run.run w).1 = r at hend
    cases hend with
    | value => exact .value .unit
    | @stop e he =>
        cases e with
        | returned v => exact .value he
        | fault | tooDeep | breakdown => exact .stop he
  · unfold runBody
    rw [if_neg hblock]
    exact hevaluate.bind fun v hv => keeps_requireResult hv

end

theorem keeps_applyValue {enterFunction : Closure → List Value → Eval Value}
    (henter : ∀ f args, f.IsWritten → (∀ v ∈ args, v.IsWritten) →
      Keeps Value.IsWritten (enterFunction f args)) {callee : Value} {args : List Value}
    (hcallee : callee.IsWritten) (hargs : ∀ v ∈ args, v.IsWritten) :
    Keeps Value.IsWritten (applyValue enterFunction callee args) := by
  have hresolved {function : Value} {rest : List Value}
      (h : callee.resolve args = .ok (function, rest)) :=
    Value.IsWritten.hereditary.resolve hcallee hargs h
  unfold applyValue
  split
  · exact keeps_fail trivial
  · rename_i hresolve
    obtain ⟨hfunction, hrest⟩ := hresolved hresolve
    exact henter _ _ hfunction.function hrest
  · rename_i hresolve
    exact keeps_callBuiltin _ (hresolved hresolve).2
  · exact keeps_fail trivial

/-- Calls to any depth keep functions from texts. -/
theorem callsKeep (n : Nat) : CallsKeep (callAt n) := by
  induction n with
  | zero =>
      intro callee args hcallee hargs
      unfold callAt
      exact keeps_applyValue (fun _ _ _ _ => keeps_throw (e := .tooDeep) trivial) hcallee hargs
  | succ n ih =>
      intro callee args hcallee hargs
      unfold callAt
      refine keeps_applyValue (fun f rest hf hrest => ?_) hcallee hargs
      obtain ⟨hparams, role, -, hbody⟩ := hf
      unfold enter
      split
      · exact keeps_fail trivial
      · exact (keeps_openScope _ _).bind fun s _ => (keeps_bindItems s hparams hrest).bind
          fun _ _ => keeps_runBody ih s hbody

end Eval

/-! ## Literals -/

section

variable (call : Value → List Value → Eval Value) (s : ScopeId) (pos : Option Position) (w : World)

/-- A number that is spelled as one has a value. -/
theorem gives_number {literal : Spelling}
    (hliteral : (Terminal.token .number).Takes literal.text.toList) :
    ∃ i x w', Eval.Gives (evaluate call s (.node pos (.number literal))) w (.number i x) w' := by
  obtain ⟨x, hx⟩ := Number.readLoose?_of_takes hliteral
  refine ⟨⟨w.nextSerial⟩, x, { w with nextSerial := w.nextSerial + 1 }, ?_⟩
  unfold evaluate evaluateForm Eval.Gives
  rw [Eval.run_locate, hx]
  rfl

/-- A string that is spelled as one has a value, or it holds no text and says so. -/
theorem gives_string {literal : Spelling}
    (hliteral : (Terminal.token .string).Takes literal.text.toList) :
    (∃ text, Eval.Gives (evaluate call s (.node pos (.string literal))) w (.string text) w) ∨
      Text.Quoted.decode? literal.text.toList = none ∧
        (evaluate call s (.node pos (.string literal))).run.run w =
          (.error (.fault ⟨.invalidString literal.text, pos⟩), w) := by
  unfold evaluate evaluateForm Eval.Gives decodeString
  simp only [Eval.run_locate]
  cases hdecode : decodeLiteral literal.text with
  | ok data =>
      obtain ⟨text, rfl⟩ := decodeLiteral_of_takes hliteral hdecode
      exact .inl ⟨text, rfl⟩
  | error c =>
      obtain ⟨rfl, hnone⟩ := Eval.eq_invalidString hdecode
      exact .inr ⟨hnone, rfl⟩

end

/-! ## Sessions -/

namespace Value

theorem IsSound.isWritten {v : Value} (h : v.IsSound) : v.IsWritten := by
  induction h with
  | number => exact .number
  | string => exact .string
  | array _ ih => exact .array ih
  | record _ _ ih => exact .record ih
  | yes | no | empty => exact .variant .unit
  | cell _ _ ih => exact .variant (.array (by simpa using ⟨.string, ih⟩))
  | closure hf => exact .closure hf
  | builtin => exact .builtin

end Value

theorem World.IsSound.isWritten {w : World} (h : w.IsSound) : w.IsWritten :=
  fun i scope hscope slot hslot => (h i scope hscope slot hslot).isWritten

namespace Session

/-- A session after some steps: texts that were evaluated or run, changes of the setting, new
scopes, and events that were dropped. -/
inductive Reaches (s₀ : Session) : Session → Prop where
  | here : Reaches s₀ s₀
  | evaluated {s : Session} (h : Reaches s₀ s) (code : String) : Reaches s₀ (s.evaluateText code).2
  | ran {s : Session} (h : Reaches s₀ s) (code : String) : Reaches s₀ (s.run code).2
  | legacy {s : Session} (h : Reaches s₀ s) (flag : Bool) : Reaches s₀ (s.setLegacy flag)
  | reset {s : Session} (h : Reaches s₀ s) : Reaches s₀ s.reset
  | cleared {s : Session} (h : Reaches s₀ s) : Reaches s₀ s.clearEvents

/-- The scopes of a session are all that its soundness is about. -/
theorem IsSound.of_scopes {s : Session} {w : World} (h : s.IsSound)
    (hscopes : w.scopes = s.world.scopes) : IsSound ⟨w, s.scope⟩ :=
  ⟨h.world.of_scopes hscopes, (World.Extends.of_scopes hscopes).outside h.scope⟩

theorem IsSound.evaluateText {s : Session} (h : s.IsSound) (code : String) :
    (s.evaluateText code).2.IsSound := by
  unfold Session.evaluateText
  split
  · rename_i t hread
    obtain ⟨hworld, hlater, -⟩ := Eval.sound_evaluate (Eval.callsWell callBound) s.scope
      (isWritten_of_read hread) h.world
    exact ⟨hworld, hlater.outside h.scope⟩
  · exact h

theorem IsSound.run {s : Session} (h : s.IsSound) (code : String) : (s.run code).2.IsSound := by
  have hstarted : IsSound ⟨s.world.note (.started code.length), s.scope⟩ := h.of_scopes rfl
  have hrun := hstarted.evaluateText code
  unfold Session.run
  dsimp only
  split
  · exact hrun.of_scopes rfl
  · exact hrun

theorem Reaches.isSound {s₀ s : Session} (h : s₀.Reaches s) (hs₀ : s₀.IsSound) : s.IsSound := by
  induction h with
  | here => exact hs₀
  | evaluated _ code ih => exact ih.evaluateText code
  | ran _ code ih => exact ih.run code
  | legacy _ flag ih => exact ih.of_scopes rfl
  | reset _ ih => exact isSound_ofWorld ih.world
  | cleared _ ih => exact ih.of_scopes rfl

end Session

theorem message_invalidString (literal : String) :
    (Cause.invalidString literal).message = "Invalid string literal " ++ literal := by
  unfold Cause.message
  rfl

/-- A tree that was read from a text is never to blame.  Its literals have values, but for strings
that denote none.  In a world whose functions come from texts it stops at values only and leaves such
a world behind; a session from the start is such a world after any steps, and there only a remainder
breaks an evaluation down. -/
theorem evaluate_blameless {code : String} {t : Term}
    (hread : Program.read code.toList = .ok t) :
    (∀ (n : Nat) (s : ScopeId) (w : World), w.IsWritten →
      ((evaluate (callAt n) s t).run.run w).2.IsWritten ∧
        Eval.Blameless Value.IsWritten ((evaluate (callAt n) s t).run.run w).1) ∧
    (∀ legacy observer session, (Session.start legacy observer).Reaches session →
      session.world.IsWritten ∧ ∀ (n : Nat) (s : ScopeId) (b : Breakdown),
        ((evaluate (callAt n) s t).run.run session.world).1 = .error (.breakdown b) →
          b = .noRemainder) ∧
    (∀ token ∈ (tokensOf code.toList).1, token.kind = .number →
      ∀ call s pos w, ∃ i x w', Eval.Gives
        (evaluate call s (.node pos (.number token.spelled))) w (.number i x) w') ∧
    (∀ token ∈ (tokensOf code.toList).1, token.kind = .string →
      ∀ call s pos w,
        (∃ text, Eval.Gives
          (evaluate call s (.node pos (.string token.spelled))) w (.string text) w) ∨
        Text.Quoted.decode? token.text.toList = none ∧
          ∃ f, (evaluate call s (.node pos (.string token.spelled))).run.run w =
              (.error (.fault f), w) ∧
            f.cause.kind = .runtime ∧ f.cause.message = "Invalid string literal " ++ token.text) := by
  have hwritten := Session.isWritten_of_read hread
  have htakes {kind : TokenKind} (hkind : kind = .number ∨ kind = .string) :
      ∀ token ∈ (tokensOf code.toList).1, token.kind = kind →
        (Terminal.token kind).Takes token.spelled.text.toList := by
    intro token htoken htoken_kind
    have hgenuine := genuine_tokensOf code.toList token htoken
    unfold Token.IsGenuine at hgenuine
    rcases hkind with rfl | rfl <;> rw [htoken_kind] at hgenuine <;> exact hgenuine
  refine ⟨fun n s w hw => Eval.keeps_evaluate (Eval.callsKeep n) s hwritten w hw, ?_, ?_, ?_⟩
  · intro legacy observer session hsession
    have hsound := (hsession.isSound (Session.isSound_start legacy observer)).world
    refine ⟨hsound.isWritten, fun n s b hb => ?_⟩
    have hending := (Eval.sound_evaluate (Eval.callsWell n) s hwritten hsound).ending
    rw [hb] at hending
    cases hending
    rfl
  · intro token htoken hkind call s pos w
    exact gives_number call s pos w (htakes (.inl rfl) token htoken hkind)
  · intro token htoken hkind call s pos w
    rcases gives_string call s pos w (htakes (.inr rfl) token htoken hkind) with h | ⟨hnone, hrun⟩
    · exact .inl h
    · exact .inr ⟨hnone, ⟨.invalidString token.text, pos⟩, hrun, rfl, message_invalidString _⟩

/-- A text with a string that denotes none, at the start of a session. -/
theorem evaluate_blameless_badString :
    ∃ t, Program.read "x => \"\\x\"".toList = .ok t ∧
      (Session.start false .absent).world.IsWritten ∧
      Eval.Blameless Value.IsWritten ((evaluate (callAt 1) ⟨0⟩ t).run.run
        (Session.start false .absent).world).1 := by
  have hreads : (Program.read "x => \"\\x\"".toList).isOk := by decide +kernel
  cases hread : Program.read "x => \"\\x\"".toList with
  | ok t =>
      obtain ⟨hkeeps, hsessions, -, -⟩ := evaluate_blameless hread
      obtain ⟨hwritten, -⟩ := hsessions false .absent _ .here
      exact ⟨t, rfl, hwritten, (hkeeps 1 ⟨0⟩ _ hwritten).2⟩
  | error e =>
      rw [hread] at hreads
      cases hreads

end VariantScript
