import VariantScript.Proofs.Evaluation.Remainders

/-!
# How terms end

Every evaluation of a term from a text ends well, if calls do: a `return` leaves it only where
statements may return, in a scope that lies in a call, and calls let none out.
-/

namespace VariantScript

open Syntax

namespace Eval

variable {lacks : Prop}

/-! ## Terms -/

/-- Calls that nest `n` deep at most end well and let no `return` out. -/
def CallsWell (n : Nat) : Prop :=
  ∀ (w : World) (callee : Value) (args : List Value), w.IsSound → callee.IsSound →
    (∀ v ∈ args, v.IsSound) →
      Yields (CallLacksRemainder n callee args w) False (callAt n callee args) w

/-- Whether a `return` may leave a term in a role: only statements hold any, and outside of calls
they are refused. -/
def MayReturn (w : World) (s : ScopeId) (role : Role) : Prop :=
  role ≠ .expression ∧ ¬ w.Outside s

theorem mayReturn_of_inCall {w : World} {s : ScopeId} {role : Role} (hrole : role ≠ .expression)
    (h : w.isInCall s = true) : MayReturn w s role :=
  ⟨hrole, fun houtside => by simp [houtside.2] at h⟩

/-- Where a `return` may leave a part that is evaluated later, it may leave the whole. -/
theorem Sound.part {α : Type} {part : Prop} {good : α → World → Prop} {act : Eval α} {w w' : World}
    {s : ScopeId} {role role' : Role} (h : Sound part (MayReturn w' s role') good act w')
    (hlacks : part → lacks) (hextends : w.Extends w')
    (hrole : role' ≠ .expression → role ≠ .expression) :
    Sound lacks (MayReturn w s role) good act w' :=
  h.mono hlacks
    (fun hmay => ⟨hrole hmay.1, fun houtside => hmay.2 (hextends.outside houtside)⟩)
    fun _ _ _ hgood => hgood

section

variable {α β : Type} {n : Nat} {s : ScopeId} {pos : Option Position} {form : Form} {t t' : Term}
  {role : Role} {w w' : World} {v : Value} {good : α → World → Prop} {good' : β → World → Prop}
  {act : Eval α} {k : α → Eval β}

/-- What follows on the first part of a form. -/
theorem Sound.first_bind
    (h : Sound (LacksRemainder n s t w) (MayReturn w s .expression) good act w)
    (hfirst : form.first? = some t)
    (hreturn : ∀ value, form = .returnValue value → w.isInCall s = true)
    (following : ∀ x w', Gives act w x w' → w.Extends w' → w'.IsSound → good x w' →
      Sound (LacksRemainder n s (.node pos form) w) (MayReturn w s role) good' (k x) w') :
    Sound (LacksRemainder n s (.node pos form) w) (MayReturn w s role) good' (act >>= k) w :=
  (h.part (.first hfirst hreturn) (.refl w) fun hrole => absurd rfl hrole).bind following

/-- What follows on the next part of a form, which is evaluated behind the first one. -/
theorem Sound.next_bind
    (h : Sound (LacksRemainder n s t' w') (MayReturn w' s .expression) good act w')
    (hfirst : form.first? = some t) (ht : Gives (evaluate (callAt n) s t) w v w')
    (hnext : form.next? v = some t') (hextends : w.Extends w')
    (following : ∀ x w'', Gives act w' x w'' → w'.Extends w'' → w''.IsSound → good x w'' →
      Sound (LacksRemainder n s (.node pos form) w) (MayReturn w s role) good' (k x) w'') :
    Sound (LacksRemainder n s (.node pos form) w) (MayReturn w s role) good' (act >>= k) w' :=
  (h.part (.next hfirst ht hnext) hextends fun hrole => absurd rfl hrole).bind following

end

theorem isWritten_closure {params : Params} {body : Term} {role : Role} (hparams : params.IsWritten)
    (hrole : role = .block ∨ role = .expression) (hbody : body.IsWritten role)
    (s : ScopeId) (name : Option String) (kind : FunctionKind) :
    Closure.IsWritten ⟨params.patterns, body, s, name, kind⟩ :=
  ⟨hparams, role, hrole, hbody⟩

theorem sound_hoist {returns : Prop} (s : ScopeId) {body : List Term}
    (hbody : ∀ t ∈ body, t.IsWritten .statement) {w : World} (hw : w.IsSound) :
    Sound lacks returns (fun _ _ => True) (hoist s body) w := by
  induction body generalizing w with
  | nil =>
      unfold hoist
      exact sound_pure hw trivial
  | cons t body ih =>
      have hrest : ∀ t ∈ body, t.IsWritten .statement := fun t ht => hbody t (.tail _ ht)
      have ht := hbody t (.head _)
      unfold hoist
      split
      · rename_i heq
        cases heq
      · rename_i heq
        obtain ⟨rfl, rfl⟩ := List.cons.inj heq
        cases ht with
        | functionDeclaration hparams hblock =>
            refine (sound_makeClosure (isWritten_closure hparams (Or.inl rfl) hblock s _ _) hw).bind
              fun f w' _ _ hw' hf => ?_
            exact (sound_define s _ hf hw').bind fun _ w'' _ _ hw'' _ => ih hrest hw''
      · rename_i heq
        obtain ⟨rfl, -⟩ := List.cons.inj heq
        cases ht
      · rename_i heq
        obtain ⟨-, rfl⟩ := List.cons.inj heq
        exact ih hrest hw

mutual

theorem sound_evaluate {n : Nat} (hcall : CallsWell n) {w : World} (s : ScopeId) {t : Term}
    {role : Role} (ht : t.IsWritten role) (hw : w.IsSound) :
    Yields (LacksRemainder n s t w) (MayReturn w s role) (evaluate (callAt n) s t) w := by
  match t with
  | .node pos form =>
      unfold evaluate
      apply Sound.locate
      -- Each part ends well by recursion, and what it lacks the whole lacks too.
      match form with
      | .program body =>
          cases ht with
          | program hbody =>
              unfold evaluateForm
              refine (sound_hoist s hbody hw).bind fun _ w' hhoist hext hw' _ => ?_
              exact (sound_evaluateBody hcall s hbody .unit hw').part (.program hhoist) hext
                (by decide)
      | .block body =>
          cases ht with
          | block hbody =>
              unfold evaluateForm
              refine (sound_openScope s false hw).bind fun inner w' hscope hext hw' hinner => ?_
              refine (sound_hoist inner hbody hw').bind fun _ w'' hhoist hext' hw'' _ => ?_
              -- The inner scope lies in a call only if the scope around it does.
              refine (sound_evaluateBody hcall inner hbody .unit hw'').mono (.block hscope hhoist)
                (fun hmay => ?_) fun _ _ _ h => h
              exact ⟨by decide, fun houtside => hmay.2 (hext'.outside (hinner rfl houtside))⟩
      | .declaration pattern value =>
          cases ht with
          | declaration hpattern hvalue =>
              unfold evaluateForm
              refine (sound_evaluate hcall s hvalue hw).first_bind rfl nofun
                fun v w' _ _ hw' hv => ?_
              exact (sound_bindPattern s hpattern hv hw').bind fun _ w'' _ _ hw'' _ =>
                sound_pure hw'' .unit
      | .returnNothing =>
          cases ht
          unfold evaluateForm
          apply sound_get_bind
          split
          · rename_i hinside
            exact sound_throw hw (mayReturn_of_inCall (by decide) hinside) .unit
          · exact sound_fail hw trivial
      | .returnValue value =>
          cases ht with
          | returnValue hvalue =>
              unfold evaluateForm
              apply sound_get_bind
              split
              · rename_i hinside
                refine (sound_evaluate hcall s hvalue hw).first_bind rfl (fun _ _ => hinside)
                  fun v w' _ _ hw' hv => ?_
                exact sound_throw hw' (mayReturn_of_inCall (by decide) hinside) hv
              · exact sound_fail hw trivial
      | .throwValue value =>
          cases ht with
          | throwValue hvalue =>
              unfold evaluateForm
              refine (sound_evaluate hcall s hvalue hw).first_bind rfl nofun
                fun v w' _ _ hw' hv => ?_
              exact sound_fail hw' hv
      | .ifThen condition yes =>
          cases ht with
          | ifThen hcondition hyes =>
              unfold evaluateForm
              refine (sound_evaluate hcall s hcondition hw).first_bind rfl nofun
                fun c w' hrun hext hw' hc => ?_
              refine sound_requireTruth_bind "if" hc hw' fun flag hflag => ?_
              cases flag with
              | true =>
                  exact (sound_evaluate hcall s hyes hw').part
                    (.next rfl hrun (by simp [Form.next?, hflag])) hext (by decide)
              | false => exact sound_pure hw' .unit
      | .ifThenElse condition yes no =>
          cases ht with
          | ifThenElse hcondition hyes hrole hno =>
              unfold evaluateForm
              refine (sound_evaluate hcall s hcondition hw).first_bind rfl nofun
                fun c w' hrun hext hw' hc => ?_
              refine sound_requireTruth_bind "if" hc hw' fun flag hflag => ?_
              cases flag with
              | true =>
                  exact (sound_evaluate hcall s hyes hw').part
                    (.next rfl hrun (by simp [Form.next?, hflag])) hext (by decide)
              | false =>
                  exact (sound_evaluate hcall s hno hw').part
                    (.next rfl hrun (by simp [Form.next?, hflag])) hext fun _ => by decide
      | .functionDeclaration name params body =>
          cases ht
          unfold evaluateForm
          exact sound_pure hw .unit
      | .expressionStatement value =>
          cases ht with
          | expressionStatement hvalue =>
              unfold evaluateForm
              exact (sound_evaluate hcall s hvalue hw).part (.first rfl nofun) (.refl w) (by decide)
      | .number literal =>
          cases ht with
          | number hliteral =>
              obtain ⟨x, hx⟩ := Number.readLoose?_of_takes hliteral
              unfold evaluateForm
              rw [hx]
              exact sound_makeNumber x hw
      | .string literal =>
          cases ht with
          | string hliteral =>
              unfold evaluateForm
              exact (sound_decodeString hliteral hw).bind fun _ w' _ _ hw' _ =>
                sound_pure hw' .string
      | .truth flag =>
          cases ht
          unfold evaluateForm
          exact sound_pure hw (.truth flag)
      | .reference name =>
          cases ht
          unfold evaluateForm
          exact sound_resolve s name.text hw
      | .array items =>
          cases ht with
          | array hitems =>
              unfold evaluateForm
              refine Sound.bind ((sound_evaluateAll hcall s hitems hw).part .array (.refl w) id)
                fun vs w' _ _ hw' hvs => ?_
              exact sound_makeArray hvs hw'
      | .record fields =>
          cases ht with
          | record hfields =>
              unfold evaluateForm
              refine Sound.bind ((sound_evaluateFields hcall s hfields Slots.isSound_nil hw).part
                .record (.refl w) id) fun slots w' _ _ hw' hslots => ?_
              exact sound_makeRecord hslots hw'
      | .arrow params body =>
          cases ht with
          | arrow hparams hrole hbody =>
              unfold evaluateForm
              exact sound_makeClosure (isWritten_closure hparams hrole hbody s _ _) hw
      | .functionExpression params body =>
          cases ht with
          | functionExpression hparams hbody =>
              unfold evaluateForm
              exact sound_makeClosure (isWritten_closure hparams (Or.inl rfl) hbody s _ _) hw
      | .call callee args =>
          cases ht with
          | call hcallee hargs =>
              unfold evaluateForm
              refine (sound_evaluate hcall s hcallee hw).first_bind rfl nofun
                fun f w' hrun hext hw' hf => ?_
              refine Sound.bind ((sound_evaluateAll hcall s hargs hw').part (.arguments hrun) hext
                id) fun vs w'' hrun' _ hw'' hvs => ?_
              -- No `return` gets out of the call, whatever role the term has.
              exact (hcall w'' f vs hw'' hf hvs).mono (.call hrun hrun') False.elim
                fun _ _ _ h => h
      | .member receiver name =>
          cases ht with
          | member hreceiver =>
              unfold evaluateForm
              refine (sound_evaluate hcall s hreceiver hw).first_bind rfl nofun
                fun v w' _ _ hw' hv => ?_
              exact sound_getField hv name.text hw'
      | .index receiver position =>
          cases ht with
          | index hreceiver hposition =>
              unfold evaluateForm
              refine (sound_evaluate hcall s hreceiver hw).first_bind rfl nofun
                fun v w' hrun hext hw' hv => ?_
              refine (sound_evaluate hcall s hposition hw').next_bind rfl hrun rfl hext
                fun i w'' _ _ hw'' hi => ?_
              exact sound_getIndex hv hi hw''
      | .unary op opPos operand =>
          cases ht with
          | unary hop hoperand =>
              unfold evaluateForm
              refine (sound_evaluate hcall s hoperand hw).first_bind rfl nofun
                fun v w' _ _ hw' hv => ?_
              rcases hop with rfl | rfl
              · exact sound_requireTruth_bind "!" hv hw' fun flag _ => sound_pure hw' (.truth _)
              · exact (sound_requireNumber "unary -" hv hw').bind fun x w'' _ _ hw'' _ =>
                  sound_makeNumber _ hw''
      | .binary op opPos left right =>
          cases ht with
          | binary hop hleft hright =>
              unfold evaluateForm
              refine (sound_evaluate hcall s hleft hw).first_bind rfl nofun
                fun l w' hrun hext hw' hl => ?_
              refine (sound_evaluate hcall s hright hw').next_bind rfl hrun rfl hext
                fun r w'' hrun' _ hw'' hr => ?_
              refine sound_applyBinary hop hl hr ?_ hw''
              rintro i x j y rfl rfl rfl hmissing
              exact .remainder hrun hrun' hmissing
      | .compare op opPos left right =>
          cases ht with
          | compare hop hleft hright =>
              unfold evaluateForm
              refine (sound_evaluate hcall s hleft hw).first_bind rfl nofun
                fun l w' hrun hext hw' hl => ?_
              refine (sound_evaluate hcall s hright hw').next_bind rfl hrun rfl hext
                fun r w'' _ _ hw'' hr => ?_
              exact (sound_applyCompare hop hl hr hw'').bind fun flag w₃ _ _ hw₃ _ =>
                sound_pure hw₃ (.truth flag)
      | .logical op left right =>
          cases ht with
          | logical hleft hright =>
              unfold evaluateForm
              refine (sound_evaluate hcall s hleft hw).first_bind rfl nofun
                fun l w' hrun hext hw' hl => ?_
              refine sound_requireTruth_bind op.spelling hl hw' fun flag hflag => ?_
              split
              · exact sound_pure hw' hl
              · rename_i hopen
                have hnext : (Form.logical op left right).next? l = some right := by
                  cases flag <;> simp_all [Form.next?]
                refine (sound_evaluate hcall s hright hw').next_bind rfl hrun hnext hext
                  fun r w'' _ _ hw'' hr => ?_
                exact sound_requireTruth_bind op.spelling hr hw'' fun _ _ => sound_pure hw'' hr
      | .conditional condition yes no =>
          cases ht with
          | conditional hcondition hyes hno =>
              unfold evaluateForm
              refine (sound_evaluate hcall s hcondition hw).first_bind rfl nofun
                fun c w' hrun hext hw' hc => ?_
              refine sound_requireTruth_bind "?:" hc hw' fun flag hflag => ?_
              cases flag with
              | true =>
                  exact (sound_evaluate hcall s hyes hw').part
                    (.next rfl hrun (by simp [Form.next?, hflag])) hext id
              | false =>
                  exact (sound_evaluate hcall s hno hw').part
                    (.next rfl hrun (by simp [Form.next?, hflag])) hext id
      -- No text is read as a term with an ill-formed part.
      | .illFormed problem => cases ht
termination_by sizeOf t

theorem sound_evaluateBody {n : Nat} (hcall : CallsWell n) {w : World} (s : ScopeId)
    {ts : List Term} (hts : ∀ t ∈ ts, t.IsWritten .statement) {result : Value}
    (hresult : result.IsSound) (hw : w.IsSound) :
    Yields (AnyLacksRemainder n s ts w) (MayReturn w s .statement)
      (evaluateBody (callAt n) s result ts) w := by
  match ts with
  | [] =>
      unfold evaluateBody
      exact sound_pure hw hresult
  | t :: ts =>
      unfold evaluateBody
      refine Sound.bind ((sound_evaluate hcall s (hts t (.head _)) hw).part .head (.refl w) id)
        fun v w' hrun hext hw' hv => ?_
      refine (sound_evaluateBody hcall s (fun t ht => hts t (.tail _ ht)) ?_ hw').part (.tail hrun)
        hext id
      split
      · exact hv
      · exact hresult
termination_by sizeOf ts

theorem sound_evaluateAll {n : Nat} (hcall : CallsWell n) {w : World} (s : ScopeId)
    {ts : List Term} (hts : ∀ t ∈ ts, t.IsWritten .expression) (hw : w.IsSound) :
    Sound (AnyLacksRemainder n s ts w) (MayReturn w s .expression)
      (fun vs _ => ∀ v ∈ vs, v.IsSound) (evaluateAll (callAt n) s ts) w := by
  match ts with
  | [] =>
      unfold evaluateAll
      exact sound_pure hw (by simp)
  | t :: ts =>
      unfold evaluateAll
      refine Sound.bind ((sound_evaluate hcall s (hts t (.head _)) hw).part .head (.refl w) id)
        fun v w' hrun hext hw' hv => ?_
      refine Sound.bind ((sound_evaluateAll hcall s (fun t ht => hts t (.tail _ ht)) hw').part
        (.tail hrun) hext id) fun vs w'' _ _ hw'' hvs => ?_
      exact sound_pure hw'' (by simpa using ⟨hv, hvs⟩)
termination_by sizeOf ts

theorem sound_evaluateFields {n : Nat} (hcall : CallsWell n) {w : World} (s : ScopeId)
    {fs : List Field} (hfs : ∀ f ∈ fs, f.IsWritten) {slots : Slots} (hslots : slots.IsSound)
    (hw : w.IsSound) :
    Sound (FieldLacksRemainder n s fs w) (MayReturn w s .expression) (fun slots _ => slots.IsSound)
      (evaluateFields (callAt n) s fs slots) w := by
  match fs with
  | [] =>
      unfold evaluateFields
      exact sound_pure hw hslots
  | .mk pos key value :: fs =>
      cases hfs _ (.head _) with
      | mk hkey hvalue =>
          unfold evaluateFields
          refine Sound.bind ((sound_evaluate hcall s hvalue hw).part .head (.refl w) id)
            fun v w' hrun hext hw' hv => ?_
          refine (sound_decodeKey hkey hw').bind fun name w'' hrun' hext' hw'' _ => ?_
          exact (sound_evaluateFields hcall s (fun f hf => hfs f (.tail _ hf)) (hslots.set name hv)
            hw'').part (.tail hrun hrun') (hext.trans hext') id
  | .broken b :: fs => cases hfs _ (.head _)
termination_by sizeOf fs

end

/-! ## Calls -/

theorem isBlock_of_isWritten {t : Term} (h : t.IsWritten .block) : t.isBlock = true := by
  cases h with
  | block => rfl

/-- The body of a function lets no `return` out: a block takes it, and an expression has none. -/
theorem sound_runBody {n : Nat} (hcall : CallsWell n) {w : World} (s : ScopeId) {body : Term}
    {role : Role} (hrole : role = .block ∨ role = .expression) (hbody : body.IsWritten role)
    (hw : w.IsSound) :
    Yields (LacksRemainder n s body w) False (runBody (callAt n) s body) w := by
  have hevaluate := sound_evaluate hcall s hbody hw
  -- In a block every `return` is taken; in an expression there is none to take.
  by_cases hblock : body.isBlock = true
  · refine hevaluate.changed (run_runBody_block hblock w) fun r w' hending => ?_
    cases hending with
    | value => exact .value .unit
    | fault hcause => exact .fault hcause
    | returned _ hv => exact .value hv
    | tooDeep => exact .tooDeep
    | noRemainder h => exact .noRemainder h
  · unfold runBody
    rw [if_neg hblock]
    rcases hrole with rfl | rfl
    · exact absurd (isBlock_of_isWritten hbody) hblock
    · refine Sound.bind (hevaluate.mono id (fun h => h.1 rfl) fun _ _ _ h => h)
        fun v w' _ _ hw' hv => ?_
      exact sound_requireResult hv hw'

theorem sound_applyValue {enterFunction : Closure → List Value → Eval Value} {w : World}
    {callee : Value} {args : List Value} (hw : w.IsSound) (hcallee : callee.IsSound)
    (hargs : ∀ v ∈ args, v.IsSound)
    (henter : ∀ i f rest, callee.resolve args = .ok (.closure i f, rest) → f.IsWritten →
      (∀ v ∈ rest, v.IsSound) → Yields lacks False (enterFunction f rest) w) :
    Yields lacks False (applyValue enterFunction callee args) w := by
  unfold applyValue
  split
  · exact sound_fail hw trivial
  · rename_i hresolve
    obtain ⟨hfunction, hrest⟩ :=
      Value.hereditary_isSound.resolve hcallee hargs hresolve
    exact henter _ _ _ hresolve hfunction.function hrest
  · rename_i hresolve
    exact sound_callBuiltin _ (Value.hereditary_isSound.resolve hcallee hargs hresolve).2 hw
  · rename_i hresolve
    exact sound_fail hw (Value.hereditary_isSound.resolve hcallee hargs hresolve).1

/-- Calls that nest to any depth end well. -/
theorem callsWell (n : Nat) : CallsWell n := by
  induction n with
  -- At the bound only built-in operations run; a function is refused as too deep.
  | zero =>
      intro w callee args hw hcallee hargs
      unfold callAt
      exact sound_applyValue hw hcallee hargs fun _ _ _ _ _ _ => ⟨hw, .refl w, .tooDeep⟩
  | succ n ih =>
      intro w callee args hw hcallee hargs
      unfold callAt
      refine sound_applyValue hw hcallee hargs fun i f rest hresolve hf hrest => ?_
      obtain ⟨hparams, role, hrole, hbody⟩ := hf
      unfold enter
      split
      · exact sound_fail hw trivial
      · rename_i hlength
        refine (sound_openScope f.scope true hw).bind fun s w' hscope _ hw' _ => ?_
        refine (sound_bindItems s hparams hrest hw').bind fun _ w'' hbind _ hw'' _ => ?_
        exact (sound_runBody ih s hrole hbody hw'').mono
          (.body hresolve (by simpa using hlength) hscope hbind) id fun _ _ _ h => h

end Eval

end VariantScript
