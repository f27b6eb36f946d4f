import VariantScript.Proofs.SideBySide.Steps

/-!
# Operations on corresponding values

Operators, access to parts, built-in operations and patterns run in step on corresponding values, and
so does everything that opens no scope and shows no value.
-/

namespace VariantScript

open Syntax

namespace Start

variable {b : Start} {p : Pair} {v v' u u' : Value}

/-! ## Operands -/

section

variable {m : Matching}

theorem alike_requireNumber (context : String) (h : v.Matches m v') :
    ExceptRel Cause.Alike (fun x x' => x' = x) (requireNumber context v)
      (requireNumber context v') := by
  have hother : (Cause.expectsNumbers context v).Alike (.expectsNumbers context v') :=
    Cause.ShowsOne.expectsNumbers.alike h
  cases h with
  | number => exact .ok rfl
  | _ => exact .error hother

theorem alike_requireTruth (context : String) (h : v.Matches m v') :
    ExceptRel Cause.Alike (fun x x' => x' = x) (requireTruth context v)
      (requireTruth context v') := by
  unfold requireTruth
  rw [h.truth?]
  cases v.truth? with
  | some flag => exact .ok rfl
  | none => exact .error (Cause.ShowsOne.expectsBoolean.alike h)

theorem alike_applyCompare (hm : m.OneToOne) (op : CompareOp) (h : v.Matches m v')
    (hu : u.Matches m u') :
    ExceptRel Cause.Alike (fun x x' => x' = x) (applyCompare op v u) (applyCompare op v' u') := by
  have hother : (Cause.cannotCompare v op.spelling u).Alike (.cannotCompare v' op.spelling u') :=
    Cause.ShowsTwo.cannotCompare.alike h hu
  have hequal := h.strictlyEqual hm hu
  cases op with
  | same | looselySame | differs | looselyDiffers =>
      simp only [applyCompare, hequal]
      exact .ok rfl
  | less | lessOrSame | greater | greaterOrSame =>
      cases h <;> cases hu <;> first | exact .ok rfl | exact .error hother
  | unknown text =>
      cases h <;> cases hu <;>
        first | exact .error (.refl (.unknownComparison text)) | exact .error hother

theorem alike_positionOf (h : v.Matches m v') (length : Nat) :
    ExceptRel Cause.Alike (fun i i' => i' = i) (positionOf v length) (positionOf v' length) := by
  have hother := Cause.ShowsOne.indexNotWhole.alike h
  cases h with
  | @number _ _ x =>
      simp only [positionOf]
      cases Number.whole? x with
      | none => exact .error hother
      | some n =>
          dsimp only
          split
          · exact .ok rfl
          · exact .error (.refl _)
  | _ => exact .error hother

theorem alike_requirePair (operation : Builtin) (h : v.Matches m v') :
    ExceptRel Cause.Alike (fun x x' => x.1.Matches m x'.1 ∧ x.2.Matches m x'.2)
      (requirePair operation v) (requirePair operation v') := by
  have hpair := h.pair?
  have hcases (v : Value) : requirePair operation v =
      match v.pair? with
      | some pair => .ok pair
      | none => .error (.expectsPair operation) := by
    fun_cases Value.pair? v <;> simp [requirePair]
  rw [hcases, hcases]
  generalize v.pair? = left, v'.pair? = right at hpair
  cases hpair with
  | none => exact .error (.refl _)
  | some hparts => exact .ok hparts

theorem alike_requireResult (hm : m.Fixes) (h : v.Matches m v') :
    ExceptRel Cause.Alike (Value.Matches m) (requireResult v) (requireResult v') := by
  have hvalue := h
  cases h with
  | @foreign i j data =>
      cases data with
      | null => exact .ok (Value.matches_unit hm)
      | _ => exact .error (.refl _)
  | _ => exact .ok hvalue

end

theorem inStep_requireNumber (context : String) (h : b.value p v v') :
    b.InStep same (Eval.ofExcept (requireNumber context v))
      (Eval.ofExcept (requireNumber context v')) p :=
  inStep_ofExcept (alike_requireNumber context h)

theorem inStep_requireTruth (context : String) (h : b.value p v v') :
    b.InStep same (Eval.ofExcept (requireTruth context v))
      (Eval.ofExcept (requireTruth context v')) p :=
  inStep_ofExcept (alike_requireTruth context h)

theorem inStep_requireResult (h : b.value p v v') :
    b.InStep b.value (Eval.ofExcept (requireResult v)) (Eval.ofExcept (requireResult v')) p :=
  .of_holds fun hp => inStep_ofExcept (alike_requireResult hp.fixes h)

/-! ## Operators -/

theorem inStep_calculate (op : BinaryOp) (x y : Float) :
    b.InStep b.value (calculate op x y) (calculate op x y) p := by
  cases op with
  | add | subtract | multiply => exact inStep_makeNumber _
  | divide =>
      exact .ite Iff.rfl (fun _ => inStep_fail (.refl _)) fun _ => inStep_makeNumber _
  | remainder =>
      refine .ite Iff.rfl (fun _ => inStep_fail (.refl _)) fun _ => ?_
      cases Number.remainder? x y with
      | some r => exact inStep_makeNumber r
      | none => exact inStep_breakDown .noRemainder
  | unknown text => exact inStep_fail (.refl (.unknownOperator text))

theorem inStep_applyBinary (op : BinaryOp) (h : b.value p v v') (hu : b.value p u u') :
    b.InStep b.value (applyBinary op v u) (applyBinary op v' u') p := by
  have hnumbers (op : BinaryOp) :
      b.InStep b.value
        (do
          let x ← Eval.ofExcept (requireNumber op.spelling v)
          let y ← Eval.ofExcept (requireNumber op.spelling u)
          calculate op x y)
        (do
          let x ← Eval.ofExcept (requireNumber op.spelling v')
          let y ← Eval.ofExcept (requireNumber op.spelling u')
          calculate op x y) p := by
    refine (inStep_requireNumber _ h).bind fun q x x' hle hx => ?_
    refine (inStep_requireNumber _ (hu.mono (within hle))).bind fun q y y' hle hy => ?_
    cases hx
    cases hy
    exact inStep_calculate op x y
  cases op with
  | add =>
      have hother : b.InStep b.value (Eval.fail (.cannotAdd v u)) (Eval.fail (.cannotAdd v' u')) p :=
        inStep_fail (Cause.ShowsTwo.cannotAdd.alike h hu)
      cases h with
      | @number _ _ x =>
          cases hu with
          | @number _ _ y => exact inStep_calculate .add x y
          | _ => exact hother
      | string =>
          cases hu with
          | string => exact inStep_pure .string
          | _ => exact hother
      | _ => exact hother
  | _ => exact hnumbers _

/-! ## Parts -/

theorem inStep_getField (h : b.value p v v') (name : String) :
    b.InStep b.value (getField v name) (getField v' name) p := by
  have hother : b.InStep b.value (Eval.fail (.noProperty name v)) (Eval.fail (.noProperty name v'))
      p := inStep_fail (Cause.ShowsOne.noProperty.alike h)
  cases h with
  | @record i j slots slots' hid hlength hnames hslots =>
      have hget := (Value.Matches.record hid hlength hnames hslots).slots.get? name
      simp only [getField]
      generalize Slots.get? slots name = left, Slots.get? slots' name = right at hget
      cases hget with
      | none => exact inStep_fail (.refl _)
      | some hv => exact inStep_pure hv
  | @array i j items items' hid hlength =>
      refine .ite Iff.rfl (fun _ => ?_) fun _ => hother
      rw [hlength]
      exact inStep_makeNumber _
  | string => exact .ite Iff.rfl (fun _ => inStep_makeNumber _) fun _ => hother
  | _ => exact hother

theorem inStep_getIndex (h : b.value p v v') (hu : b.value p u u') :
    b.InStep b.value (getIndex v u) (getIndex v' u') p := by
  have hother : b.InStep b.value (Eval.fail (.cannotIndex v)) (Eval.fail (.cannotIndex v')) p :=
    inStep_fail (Cause.ShowsOne.cannotIndex.alike h)
  have hfield (name : String) : b.InStep b.value (getField v name) (getField v' name) p :=
    inStep_getField h name
  have hposition (length : Nat) :
      b.InStep same (Eval.ofExcept (positionOf u length)) (Eval.ofExcept (positionOf u' length)) p :=
    inStep_ofExcept (alike_positionOf hu length)
  cases h with
  | @array i j items items' hid hlength hitems =>
      simp only [getIndex, ← hlength]
      refine (hposition items.length).bind fun q i i' hle hi => ?_
      cases hi
      cases hitem : items[i]? with
      | none =>
          have hi : items.length ≤ i := List.getElem?_eq_none_iff.1 hitem
          rw [List.getElem?_eq_none (hlength ▸ hi)]
          exact inStep_fail (.refl _)
      | some item =>
          have hi : i < items.length := (List.getElem?_eq_some_iff.1 hitem).1
          have hitem' := List.getElem?_eq_getElem (hlength ▸ hi)
          rw [hitem']
          exact inStep_pure ((hitems i _ _ hitem hitem').mono (within hle))
  | @string text =>
      simp only [getIndex]
      refine (hposition text.length).bind fun q i i' _ hi => ?_
      cases hi
      cases text.toList[i]? with
      | none => exact inStep_fail (.refl _)
      | some c => exact inStep_pure .string
  | record =>
      have hkey : b.InStep b.value (Eval.fail (.keyNotString u)) (Eval.fail (.keyNotString u')) p :=
        inStep_fail (Cause.ShowsOne.keyNotString.alike hu)
      cases hu with
      | @string name => exact hfield name
      | _ => exact hkey
  | _ => exact hother

/-! ## Built-in operations -/

theorem run_observe (u : Value) (w : World) :
    (Eval.observe u).run.run w =
      (match w.observer.failure? with
        | none => .ok ()
        | some text => .error (.fault ⟨.observerFailed text, none⟩), w.note (w.observer.event u)) := by
  obtain ⟨scopes, serial, legacy, observer, events⟩ := w
  cases observer <;> rfl

theorem event_of_failure {o : Observer} {text : String} (h : o.failure? = some text) (u : Value) :
    o.event u = .observed u := by
  cases o <;> first | rfl | cases h

/-- A value that is shown stops the second run if only its observer fails. -/
theorem sideBySide_observe (h : b.value p v v') :
    b.SideBySide (fun _ _ _ => True) (Eval.observe v) (Eval.observe v') p := by
  intro hp
  rw [run_observe, run_observe, hp.observer, hp.observer']
  have hboth (hfails : b.observer'.failure? = b.observer.failure?) := hp.note h hfails
  cases hfails : b.observer'.failure? with
  | none =>
      have hother : b.observer.failure? = none := by
        rcases b.fits with hnone | heq
        · exact hnone
        · exact heq.symm.trans hfails
      obtain ⟨hle, hq⟩ := hboth (hfails.trans hother.symm)
      rw [hother]
      exact .inl ⟨hle, hq, .ok trivial⟩
  | some text =>
      rcases b.fits with hother | heq
      · refine .inr ⟨_, rfl, ?_⟩
        rw [event_of_failure hfails]
        refine .observer hfails hother (.refl p) hp h ?_
        simp [World.note]
      · obtain ⟨hle, hq⟩ := hboth heq
        rw [← heq, hfails]
        exact .inl ⟨hle, hq, .error (.fault (.refl _) rfl)⟩

theorem sideBySide_runBuiltin (operation : Builtin) (h : b.value p v v') :
    b.SideBySide b.value (runBuiltin operation v) (runBuiltin operation v') p := by
  have hpair (operation : Builtin) :
      b.InStep (fun _ x x' => b.value p x.1 x'.1 ∧ b.value p x.2 x'.2)
        (Eval.ofExcept (requirePair operation v)) (Eval.ofExcept (requirePair operation v')) p :=
    inStep_ofExcept (alike_requirePair operation h)
  cases operation with
  | split =>
      refine InStep.sideBySide ((hpair .split).bind fun q x x' _ hx => ?_)
      obtain ⟨left, right⟩ := x
      obtain ⟨left', right'⟩ := x'
      obtain ⟨hleft, hright⟩ := hx
      have hother : b.InStep b.value (Eval.fail .expectsStrings) (Eval.fail .expectsStrings) q :=
        inStep_fail (.refl _)
      dsimp only at hleft hright
      cases hleft with
      | @string text =>
          cases hright with
          | @string separator => exact inStep_makeList _
          | _ => exact hother
      | _ => exact hother
  | debug =>
      exact (sideBySide_observe h).bind fun q _ _ hle _ =>
        (inStep_pure (h.mono (within hle))).sideBySide
  | equal =>
      refine InStep.sideBySide ((hpair .equal).bind fun q x x' hle hx => ?_)
      refine InStep.get_bind fun hq => ?_
      have hequal := hx.1.structurallyEqual (b.oneToOne p) hx.2 q.left.legacy
      rw [hq.legacy, hequal]
      exact inStep_pure (Value.matches_truth hq.fixes _)

theorem sideBySide_callBuiltin (operation : Builtin) {args args' : List Value}
    (h : b.values p args args') :
    b.SideBySide b.value (callBuiltin operation args) (callBuiltin operation args') p := by
  match args, args', h with
  | [], [], _ => exact (inStep_fail (.refl (.arity operation.name 1 0))).sideBySide
  | [_], [_], .cons harg _ =>
      exact (sideBySide_runBuiltin operation harg).bind fun q _ _ _ hv =>
        (inStep_requireResult hv).sideBySide
  | _ :: _ :: _, _ :: _ :: _, .cons _ (.cons _ hrest) =>
      simp only [callBuiltin, List.length_cons, hrest.length_eq]
      exact (inStep_fail (.refl _)).sideBySide

/-! ## Binding patterns -/

theorem inStep_decodeLiteral (literal : String) :
    b.InStep same (Eval.ofExcept (decodeLiteral literal)) (Eval.ofExcept (decodeLiteral literal))
      p := by
  refine inStep_ofExcept ?_
  cases decodeLiteral literal with
  | ok data => exact .ok rfl
  | error cause => exact .error (.refl cause)

theorem inStep_decodeString (literal : String) :
    b.InStep same (decodeString literal) (decodeString literal) p := by
  refine (inStep_decodeLiteral literal).bind fun q data data' _ hsame => ?_
  cases hsame
  cases data with
  | text s => exact inStep_pure rfl
  | _ => exact inStep_breakDown _

theorem inStep_decodeName (literal : String) :
    b.InStep same (decodeName literal) (decodeName literal) p := by
  refine (inStep_decodeLiteral literal).bind fun q data data' _ hsame => ?_
  cases hsame
  cases data with
  | text s => exact inStep_pure rfl
  | _ =>
      dsimp only
      split
      · exact inStep_breakDown _
      · exact inStep_pure rfl

theorem inStep_decode (key : Key) : b.InStep same key.decode key.decode p := by
  unfold Key.decode
  cases key.name with
  | bare name => exact inStep_pure rfl
  | quoted literal => exact inStep_decodeName literal.text
  | malformed shown => exact inStep_fail (.refl _)
  | broken d => exact inStep_breakDown d

section

variable {s s' : ScopeId}

mutual

theorem inStep_bindPattern {p : Pair} (hs : b.Opened p s s') (pattern : Pattern) {v v' : Value}
    (h : b.value p v v') :
    b.InStep (fun _ _ _ => True) (bindPattern s pattern v) (bindPattern s' pattern v') p := by
  match pattern with
  | .name _ name => exact inStep_define hs name.text h
  | .array _ patterns =>
      have hother : b.InStep (fun _ _ (_ : Unit) => True) (Eval.fail (.notAnArray v) : Eval Unit)
          (Eval.fail (.notAnArray v')) p :=
        inStep_fail (Cause.ShowsOne.notAnArray.alike h)
      cases h with
      | @array i j items items' hid hlength hitems =>
          simp only [bindPattern, ← hlength]
          refine .ite Iff.rfl (fun _ => inStep_fail (.refl _)) fun _ => ?_
          exact inStep_bindItems hs patterns (Value.Matches.array hid hlength hitems).items
      | _ => exact hother
  | .record _ fields =>
      have hother : b.InStep (fun _ _ (_ : Unit) => True) (Eval.fail (.notARecord v) : Eval Unit)
          (Eval.fail (.notARecord v')) p :=
        inStep_fail (Cause.ShowsOne.notARecord.alike h)
      cases h with
      | record hid hlength hnames hslots =>
          exact inStep_bindFields hs fields (Value.Matches.record hid hlength hnames hslots).slots
      | _ => exact hother
  | .unsupported label => exact inStep_fail (.refl (.unsupportedPattern label))
  | .broken d => exact inStep_breakDown d

theorem inStep_bindItems {p : Pair} (hs : b.Opened p s s') (patterns : List Pattern)
    {vs vs' : List Value} (h : b.values p vs vs') :
    b.InStep (fun _ _ _ => True) (bindItems s patterns vs) (bindItems s' patterns vs') p := by
  match patterns, vs, vs', h with
  | [], _, _, _ => exact inStep_pure trivial
  | _ :: _, [], [], _ => exact inStep_pure trivial
  | pattern :: patterns, _ :: _, _ :: _, .cons hv hvs =>
      exact (inStep_bindPattern hs pattern hv).bind fun q _ _ hle _ =>
        inStep_bindItems (hs.mono hle) patterns (Value.Matches.allMono hvs (within hle))

theorem inStep_bindFields {p : Pair} (hs : b.Opened p s s') (fields : List PatternField)
    {slots slots' : Slots} (h : b.fields p slots slots') :
    b.InStep (fun _ _ _ => True) (bindFields s fields slots) (bindFields s' fields slots') p := by
  match fields with
  | [] => exact inStep_pure trivial
  | .broken d :: _ => exact inStep_breakDown d
  | .mk _ key pattern :: rest =>
      refine (inStep_decode key).bind fun q name name' hle hname => ?_
      cases hname
      have hget := (h.mono (within hle)).get? name
      have hrest (r : Pair) (hle' : q.Before r) :=
        inStep_bindFields (hs.mono (hle.trans hle')) rest (h.mono (within (hle.trans hle')))
      generalize Slots.get? slots name = left, Slots.get? slots' name = right at hget
      cases hget with
      | some hvalue =>
          exact (inStep_bindPattern (hs.mono hle) pattern hvalue).bind fun r _ _ hle' _ =>
            hrest r hle'
      | none =>
          have hmissing : b.InStep (fun _ _ (_ : Unit) => True)
              (Eval.fail (.keyNotFound name) : Eval Unit) (Eval.fail (.keyNotFound name)) q :=
            inStep_fail (.refl _)
          exact hmissing.bind fun r _ _ hle' _ => hrest r hle'

end

end

end Start

end VariantScript
