import VariantScript.Evaluation.Binding
import VariantScript.Evaluation.Operation
import VariantScript.Proofs.Evaluation.Endings
import VariantScript.Proofs.Reading.Literals

/-!
# Operations and patterns end well

Operators, access to parts, the built-in operations and the binding of patterns, one by one.  The
only breakdown among them is the remainder of an infinite number by a number that is no zero.
-/

namespace VariantScript

open Syntax

variable {lacks returns : Prop} {w : World}

/-! ## Remainders -/

theorem unpack_zero : (0 : Float).toModel.unpack = .zero .positive := by
  rfl

theorem isZero_iff (x : Float) :
    isZero x = true ↔ ∃ negative e, Number.shape x = .finite negative 0 e := by
  -- Doubles are compared as their models are, and a zero of either sign equals zero.
  have hbeq : isZero x = (x.toModel.unpack.compare (0 : Float).toModel.unpack == some .eq) := rfl
  rw [hbeq, unpack_zero]
  unfold Number.shape
  cases x.toModel.unpack with
  | notANumber =>
      dsimp only [Float.Model.UnpackedFloat.compare]
      simp
  | infinity s => cases s <;> dsimp only [Float.Model.UnpackedFloat.compare] <;> simp
  | zero s =>
      dsimp only [Float.Model.UnpackedFloat.compare]
      simp
  | finite s m e h =>
      cases s <;> dsimp only [Float.Model.UnpackedFloat.compare] <;> simp <;> omega

/-- Two numbers that have no remainder although the divisor is no zero. -/
def Number.NoRemainder (x y : Float) : Prop :=
  (∃ negative, shape x = .infinite negative) ∧ shape y ≠ .notANumber ∧ isZero y = false

theorem remainder?_eq_none_iff {x y : Float} (hy : isZero y = false) :
    Number.remainder? x y = none ↔ Number.NoRemainder x y := by
  -- A finite divisor has a remainder unless it is a zero, which is excluded.
  have hzero : ¬ ∃ negative e, Number.shape y = .finite negative 0 e := by
    rw [← isZero_iff, hy]
    simp
  unfold Number.remainder? Number.NoRemainder
  cases Number.shape x with
  | notANumber => simp
  | infinite negative => cases Number.shape y <;> simp [hy]
  | finite negative m e =>
      cases hshape : Number.shape y with
      | notANumber => simp
      | infinite negative => simp
      | finite negative n f =>
          have hn : n ≠ 0 := by
            rintro rfl
            exact hzero ⟨_, _, hshape⟩
          simp [hn]

namespace Eval

/-! ## Operands -/

theorem eq_number_of_requireNumber {context : String} {v : Value} {x : Float}
    (h : requireNumber context v = .ok x) : ∃ id, v = .number id x := by
  unfold requireNumber at h
  split at h
  · cases h
    exact ⟨_, rfl⟩
  · cases h

theorem ordinary_requireNumber {context : String} {v : Value} (hv : v.IsSound) :
    ∀ c, requireNumber context v = .error c → c.IsOrdinary := by
  intro c h
  unfold requireNumber at h
  split at h
  · cases h
  · cases h
    exact hv

theorem sound_requireNumber (context : String) {v : Value} (hv : v.IsSound)
    (hw : w.IsSound) :
    Sound lacks returns (fun x _ => ∃ id, v = .number id x)
      (ofExcept (requireNumber context v)) w :=
  sound_ofExcept hw (fun _ h => eq_number_of_requireNumber h) (ordinary_requireNumber hv)

/-- What follows on a condition goes on in the same world, with the truth value of the condition. -/
theorem sound_requireTruth_bind {β : Type} {good : β → World → Prop} {k : Bool → Eval β}
    (context : String) {v : Value} (hv : v.IsSound) (hw : w.IsSound)
    (next : ∀ flag, v.truth? = some flag → Sound lacks returns good (k flag) w) :
    Sound lacks returns good (ofExcept (requireTruth context v) >>= k) w := by
  unfold requireTruth
  cases hflag : v.truth? with
  | some flag => exact next flag hflag
  | none =>
      have hfail : Sound lacks returns (fun _ _ => False)
          (ofExcept (.error (.expectsBoolean context v) : Except Cause Bool)) w :=
        sound_fail hw hv
      exact hfail.bind fun _ _ _ _ _ hnever => hnever.elim

/-! ## Operators -/

theorem sound_calculate {op : BinaryOp} (hop : ∀ text, op ≠ .unknown text) (x y : Float)
    (hlacks : op = .remainder → Number.NoRemainder x y → lacks) (hw : w.IsSound) :
    Yields lacks returns (calculate op x y) w := by
  cases op with
  | add | subtract | multiply => exact sound_makeNumber _ hw
  | divide =>
      unfold calculate
      dsimp only
      split
      · exact sound_fail hw trivial
      · exact sound_makeNumber _ hw
  | remainder =>
      unfold calculate
      dsimp only
      split
      · exact sound_fail hw trivial
      · rename_i hy
        split
        · exact sound_makeNumber _ hw
        · rename_i hnone
          have hmissing := (remainder?_eq_none_iff (by simpa using hy)).1 hnone
          exact ⟨hw, .refl w, .noRemainder (hlacks rfl hmissing)⟩
  | unknown text => exact absurd rfl (hop text)

theorem sound_applyBinary {op : BinaryOp} {left right : Value} (hop : ∀ text, op ≠ .unknown text)
    (hleft : left.IsSound) (hright : right.IsSound)
    (hlacks : ∀ i x j y, op = .remainder → left = .number i x → right = .number j y →
      Number.NoRemainder x y → lacks) (hw : w.IsSound) :
    Yields lacks returns (applyBinary op left right) w := by
  unfold applyBinary
  split
  · split
    · exact sound_calculate (by simp) _ _ (by simp) hw
    · exact sound_pure hw .string
    · exact sound_fail hw ⟨hleft, hright⟩
  · refine (sound_requireNumber _ hleft hw).bind fun x w' _ _ hw' hx => ?_
    refine (sound_requireNumber _ hright hw').bind fun y w'' _ _ hw'' hy => ?_
    obtain ⟨i, hx⟩ := hx
    obtain ⟨j, hy⟩ := hy
    exact sound_calculate hop x y (fun hop' => hlacks i x j y hop' hx hy) hw''

/-- A remainder that does not exist breaks an evaluation down. -/
theorem breaks_applyBinary {x y : Float} (h : Number.NoRemainder x y) (i j : Identity) (w : World) :
    Breaks (applyBinary .remainder (.number i x) (.number j y)) w := by
  have hnone : Number.remainder? x y = none := (remainder?_eq_none_iff h.2.2).2 h
  have hcalculate : Breaks (calculate .remainder x y) w := by
    unfold calculate
    simp only [h.2.2, hnone]
    rfl
  exact hcalculate

/-- Every operator that compares by order has an answer for numbers and for strings. -/
theorem not_order_of_none {op : CompareOp}
    (h : (∃ x y, compareNumbers op x y = none) ∨ ∃ s t, compareStrings op s t = none) :
    op ∈ [.same, .looselySame, .differs, .looselyDiffers] ∨ ∃ text, op = .unknown text := by
  cases op <;> simp_all [compareNumbers, compareStrings]

/-- An operator of comparison fails only on operands that have no order. -/
theorem eq_cannotCompare {op : CompareOp} {left right : Value} {c : Cause}
    (hop : ∀ text, op ≠ .unknown text) (h : applyCompare op left right = .error c) :
    c = .cannotCompare left op.spelling right := by
  -- An operator without an answer is an equality, and equalities are answered before.
  have hnone (hnone : (∃ x y, compareNumbers op x y = none) ∨
      ∃ s t, compareStrings op s t = none) : applyCompare op left right ≠ .error c := by
    rcases not_order_of_none hnone with hmem | ⟨text, htext⟩
    · simp only [List.mem_cons, List.not_mem_nil, or_false] at hmem
      rcases hmem with rfl | rfl | rfl | rfl <;> exact nofun
    · exact absurd htext (hop text)
  have hanswer := h
  unfold applyCompare at hanswer
  split at hanswer
  · cases hanswer
  · cases hanswer
  · cases hanswer
  · cases hanswer
  · dsimp only at hanswer
    split at hanswer
    · cases hanswer
    · rename_i heq
      split at heq
      · exact absurd h (hnone (Or.inl ⟨_, _, Except.ok.inj heq⟩))
      · exact absurd h (hnone (Or.inr ⟨_, _, Except.ok.inj heq⟩))
      · cases heq
    · rename_i hcause
      split at hcause <;> cases hcause
      cases hanswer
      rfl

theorem sound_applyCompare {op : CompareOp} {left right : Value} (hop : ∀ text, op ≠ .unknown text)
    (hleft : left.IsSound) (hright : right.IsSound)
    (hw : w.IsSound) :
    Sound lacks returns (fun _ _ => True) (ofExcept (applyCompare op left right)) w :=
  sound_ofExcept hw (fun _ _ => trivial) fun c h => by
    rw [eq_cannotCompare hop h]
    exact ⟨hleft, hright⟩

/-! ## Parts -/

theorem sound_getField {receiver : Value} (hreceiver : receiver.IsSound)
    (name : String) (hw : w.IsSound) :
    Yields lacks returns (getField receiver name) w := by
  unfold getField
  split
  · split
    · rename_i hget
      exact sound_pure hw (hreceiver.slots.get? hget)
    · exact sound_fail hw trivial
  · split
    · exact sound_makeNumber _ hw
    · exact sound_fail hw hreceiver
  · split
    · exact sound_makeNumber _ hw
    · exact sound_fail hw hreceiver
  · exact sound_fail hw hreceiver

theorem sound_positionOf {index : Value} (hindex : index.IsSound) (length : Nat)
    (hw : w.IsSound) :
    Sound lacks returns (fun _ _ => True) (ofExcept (positionOf index length)) w := by
  refine sound_ofExcept hw (fun _ _ => trivial) fun c h => ?_
  unfold positionOf at h
  split at h
  · split at h
    · split at h
      · cases h
      · cases h
        trivial
    · cases h
      exact hindex
  · cases h
    exact hindex

theorem sound_getIndex {receiver index : Value} (hreceiver : receiver.IsSound)
    (hindex : index.IsSound) (hw : w.IsSound) :
    Yields lacks returns (getIndex receiver index) w := by
  unfold getIndex
  split
  · rename_i items
    refine (sound_positionOf hindex items.length hw).bind fun i w' _ _ hw' _ => ?_
    split
    · rename_i hitem
      exact sound_pure hw' (hreceiver.items _ (List.mem_of_getElem? hitem))
    · exact sound_fail hw' trivial
  · rename_i text
    refine (sound_positionOf hindex text.length hw).bind fun i w' _ _ hw' _ => ?_
    split
    · exact sound_pure hw' .string
    · exact sound_fail hw' trivial
  · split
    · exact sound_getField hreceiver _ hw
    · exact sound_fail hw hindex
  · exact sound_fail hw hreceiver

/-! ## Built-in operations -/

theorem sound_requirePair (operation : Builtin) {arg : Value} (harg : arg.IsSound)
    (hw : w.IsSound) :
    Sound lacks returns
      (fun pair _ => pair.1.IsSound ∧ pair.2.IsSound)
      (ofExcept (requirePair operation arg)) w := by
  refine sound_ofExcept hw (fun pair h => ?_) fun c h => ?_
  · unfold requirePair at h
    split at h
    · cases h
      have hitems := harg.items
      exact ⟨hitems _ (.head _), hitems _ (.tail _ (.head _))⟩
    · cases h
  · unfold requirePair at h
    split at h
    · cases h
    · cases h
      trivial

theorem sound_runBuiltin (operation : Builtin) {arg : Value} (harg : arg.IsSound)
    (hw : w.IsSound) :
    Yields lacks returns (runBuiltin operation arg) w := by
  cases operation with
  | split =>
      refine (sound_requirePair .split harg hw).bind fun pair w' _ _ hw' _ => ?_
      split
      · exact sound_makeList _ hw'
      · exact sound_fail hw' trivial
  | debug =>
      exact (sound_observe arg hw).bind fun _ w' _ _ hw' _ => sound_pure hw' harg
  | equal =>
      refine (sound_requirePair .equal harg hw).bind fun pair w' _ _ hw' _ => ?_
      exact sound_get_bind (sound_pure hw' (.truth _))

theorem requireResult_of_isSound {v : Value} (hv : v.IsSound) :
    requireResult v = .ok v := by
  cases hv <;> rfl

theorem sound_requireResult {v : Value} (hv : v.IsSound) (hw : w.IsSound) :
    Yields lacks returns (ofExcept (requireResult v)) w := by
  rw [requireResult_of_isSound hv]
  exact sound_pure hw hv

theorem sound_callBuiltin (operation : Builtin) {args : List Value}
    (hargs : ∀ v ∈ args, v.IsSound) (hw : w.IsSound) :
    Yields lacks returns (callBuiltin operation args) w := by
  unfold callBuiltin
  split
  · refine (sound_runBuiltin operation (hargs _ (.head _)) hw).bind fun v w' _ _ hw' hv => ?_
    exact sound_requireResult hv hw'
  · exact sound_fail hw trivial

/-! ## Literals and keys -/

/-- A literal that denotes no data denotes no text in particular, and the cause says so. -/
theorem eq_invalidString {literal : String} {c : Cause} (h : decodeLiteral literal = .error c) :
    c = .invalidString literal ∧ Text.Quoted.decode? literal.toList = none := by
  unfold decodeLiteral at h
  split at h
  · cases h
  · rename_i hdecode
    split at h <;> cases h
    exact ⟨rfl, hdecode⟩

theorem sound_decodeLiteral {literal : String}
    (hliteral : (Terminal.token .string).Takes literal.toList) (hw : w.IsSound) :
    Sound lacks returns (fun data _ => ∃ s, data = Host.text s)
      (ofExcept (decodeLiteral literal)) w := by
  refine sound_ofExcept hw (fun data h => decodeLiteral_of_takes hliteral h) fun c h => ?_
  obtain ⟨rfl, hdecode⟩ := eq_invalidString h
  exact hdecode

theorem sound_decodeString {literal : String}
    (hliteral : (Terminal.token .string).Takes literal.toList) (hw : w.IsSound) :
    Sound lacks returns (fun _ _ => True) (decodeString literal) w := by
  refine (sound_decodeLiteral hliteral hw).bind fun data w' _ _ hw' hdata => ?_
  obtain ⟨s, rfl⟩ := hdata
  exact sound_pure hw' trivial

theorem sound_decodeKey {key : Key} (hkey : key.IsWritten) (hw : w.IsSound) :
    Sound lacks returns (fun _ _ => True) key.decode w := by
  unfold Key.IsWritten at hkey
  unfold Key.decode
  split
  · exact sound_pure hw trivial
  · rename_i hname
    rw [hname] at hkey
    refine (sound_decodeLiteral hkey hw).bind fun data w' _ _ hw' hdata => ?_
    obtain ⟨s, rfl⟩ := hdata
    exact sound_pure hw' trivial
  · rename_i hname
    rw [hname] at hkey
    exact absurd hkey id
  · rename_i hname
    rw [hname] at hkey
    exact absurd hkey id

/-! ## Patterns -/

mutual

theorem sound_bindPattern {w : World} (s : ScopeId) {p : Pattern} (hp : p.IsWritten) {v : Value}
    (hv : v.IsSound) (hw : w.IsSound) :
    Sound lacks returns (fun _ _ => True) (bindPattern s p v) w := by
  cases p with
  | name pos name =>
      unfold bindPattern
      exact sound_define s name.text hv hw
  | array pos items =>
      cases hp with
      | array hitems =>
          unfold bindPattern
          split
          · split
            · exact sound_fail hw trivial
            · exact sound_bindItems s hitems hv.items hw
          · exact sound_fail hw hv
  | record pos fields =>
      cases hp with
      | record hfields =>
          unfold bindPattern
          split
          · exact sound_bindFields s hfields hv.slots hw
          · exact sound_fail hw hv
  | unsupported label => cases hp
  | broken b => cases hp

theorem sound_bindItems {w : World} (s : ScopeId) {ps : List Pattern} (hps : ∀ p ∈ ps, p.IsWritten)
    {vs : List Value} (hvs : ∀ v ∈ vs, v.IsSound) (hw : w.IsSound) :
    Sound lacks returns (fun _ _ => True) (bindItems s ps vs) w := by
  cases ps with
  | nil =>
      unfold bindItems
      exact sound_pure hw trivial
  | cons p ps =>
      cases vs with
      | nil =>
          unfold bindItems
          exact sound_pure hw trivial
      | cons v vs =>
          unfold bindItems
          refine (sound_bindPattern s (hps p (.head _)) (hvs v (.head _)) hw).bind
            fun _ w' _ _ hw' _ => ?_
          exact sound_bindItems s (fun p hp => hps p (.tail _ hp)) (fun v hv => hvs v (.tail _ hv))
            hw'

theorem sound_bindFields {w : World} (s : ScopeId) {fs : List PatternField}
    (hfs : ∀ f ∈ fs, f.IsWritten) {slots : Slots} (hslots : slots.IsSound) (hw : w.IsSound) :
    Sound lacks returns (fun _ _ => True) (bindFields s fs slots) w := by
  cases fs with
  | nil =>
      unfold bindFields
      exact sound_pure hw trivial
  | cons f fs =>
      have hrest : ∀ f ∈ fs, f.IsWritten := fun f hf => hfs f (.tail _ hf)
      cases f with
      | broken b => cases hfs _ (.head _)
      | mk pos key pattern =>
          cases hfs _ (.head _) with
          | mk hkey hpattern =>
              unfold bindFields
              refine (sound_decodeKey hkey hw).bind fun name w' _ _ hw' _ => ?_
              have others {w'' : World} (hw'' : w''.IsSound) :
                  Sound lacks returns (fun _ _ => True) (bindFields s fs slots) w'' :=
                sound_bindFields s hrest hslots hw''
              dsimp only
              split
              · rename_i hget
                exact (sound_bindPattern s hpattern (hslots.get? hget) hw').bind
                  fun _ w'' _ _ hw'' _ => others hw''
              -- A missing field is a fault, so the others are not bound; the statement covers both.
              · have missing : Sound lacks returns (fun _ _ => True)
                    (fail (.keyNotFound name) : Eval Unit) w' :=
                  sound_fail hw' trivial
                exact missing.bind fun _ w'' _ _ hw'' _ => others hw''

end

end Eval

end VariantScript
