import VariantScript.Proofs.Lifting.Records
import VariantScript.Proofs.Marshalling.Encoded
import VariantScript.Proofs.Number.Range

/-!
# Handing out and taking back

A value that holds no function is handed out, and what the host gets becomes a copy of the value in
which arrays stand for lists and zero for negative zero.  Handed out once more, the copy gives the same
host value, so that what is lost is lost the first time.
-/

namespace VariantScript

namespace Value

/-! ## Copies -/

/-- A value that differs from a value without lists in identities, and in that zero stands for negative
zero. -/
inductive IsCopyOf : Value → Value → Prop where
  | number (i j : Identity) (x : Float) :
      IsCopyOf (.number i (Number.withoutSignOfZero x)) (.number j x)
  | string (text : String) : IsCopyOf (.string text) (.string text)
  | truth (flag : Bool) : IsCopyOf (Value.truth flag) (Value.truth flag)
  | array {i j : Identity} {xs ys : List Value} (hlength : xs.length = ys.length)
      (hitems : ∀ p ∈ xs.zip ys, IsCopyOf p.1 p.2) : IsCopyOf (.array i xs) (.array j ys)
  | record {i j : Identity} {xs ys : List (String × Value)} (hnames : Slots.names xs = Slots.names ys)
      (hslots : ∀ p ∈ (xs.map Prod.snd).zip (ys.map Prod.snd), IsCopyOf p.1 p.2) :
      IsCopyOf (.record i xs) (.record j ys)

theorem lowerNumber_withoutSignOfZero (x : Float) :
    lowerNumber (Number.withoutSignOfZero x) = lowerNumber x := by
  unfold Number.withoutSignOfZero
  split
  · rename_i hzero
    obtain rfl | rfl := Number.eq_zero_of_beq_zero hzero <;> rfl
  · rfl

/-- A copy is handed out as the value is. -/
theorem IsCopyOf.lower_eq {u v : Value} (h : u.IsCopyOf v) : u.lower = v.lower := by
  induction h with
  | number i j x => rw [lower, lower, lowerNumber_withoutSignOfZero]
  | string | truth => rfl
  | array hlength hitems ih => rw [lower, lower, lowerAll_congr hlength ih]
  | record hnames hslots ih => rw [lower, lower, lowerSlots_congr hnames ih]

end Value

/-! ## Taking back -/

namespace Host

/-- A host value becomes a copy of a value, whichever identities are free. -/
def Restores (h : Host) (v : Value) : Prop :=
  ∀ next, ∃ u next', h.lift.run next = .ok (u, next') ∧ u.IsCopyOf v

/-- A double that is not handed out as a whole number is no zero. -/
theorem restores_lowerNumber (x : Float) (i : Identity) :
    (Value.lowerNumber x).Restores (.number i x) := by
  intro next
  refine ⟨.number ⟨next⟩ (Number.withoutSignOfZero x), next + 1, ?_, .number _ _ _⟩
  have hfloat (hx : (x == 0) = false) :
      (Host.float x).lift.run next = .ok (.number ⟨next⟩ (Number.withoutSignOfZero x), next + 1) := by
    rw [Number.withoutSignOfZero, hx]
    rfl
  unfold Value.lowerNumber
  cases hwhole : Number.whole? x with
  | none =>
      refine hfloat (Bool.eq_false_iff.2 fun hzero => ?_)
      cases hwhole.symm.trans (Number.whole?_of_beq_zero hzero)
  | some n =>
      dsimp only
      split
      · rw [lift, Number.ofWhole?_of_whole? hwhole]
        rfl
      · rename_i hlarge
        refine hfloat (Bool.eq_false_iff.2 fun hzero => hlarge ?_)
        obtain rfl | rfl := Number.eq_zero_of_beq_zero hzero <;> decide +kernel

/-- The items of what data are handed out as become copies side by side. -/
theorem exists_liftAll {hs : List Host} {vs : List Value} (h : List.Forall₂ Restores hs vs)
    (next : Nat) :
    ∃ us next', (liftAll hs).run next = .ok (us, next') ∧ us.length = vs.length ∧
      ∀ p ∈ us.zip vs, p.1.IsCopyOf p.2 := by
  induction h generalizing next with
  | nil => exact ⟨[], next, rfl, rfl, nofun⟩
  | cons hfirst hrest ih =>
      obtain ⟨u, free, hlift, hcopy⟩ := hfirst next
      obtain ⟨us, next', hliftAll, hlength, hcopies⟩ := ih free
      refine ⟨u :: us, next', ?_, congrArg (· + 1) hlength, List.forall_mem_cons.2 ⟨hcopy, hcopies⟩⟩
      rw [liftAll, Making.run_bind, hlift]
      change (liftAll _ >>= fun vs => pure (u :: vs)).run free = _
      rw [Making.run_bind, hliftAll]
      rfl

/-- Entries under names become fields one after the other. -/
theorem exists_liftEntries {entries : List (Host × Host)} {slots : Slots}
    (h : List.Forall₂ (fun entry slot => entry.1 = .text slot.1 ∧ entry.2.Restores slot.2) entries
      slots) (before : Slots) (next : Nat) :
    ∃ fields next', (liftEntries entries before).run next = .ok (before.setAll fields, next') ∧
      Slots.names fields = slots.names ∧
      ∀ p ∈ (fields.map Prod.snd).zip (slots.map Prod.snd), p.1.IsCopyOf p.2 := by
  induction h generalizing before next with
  | nil => exact ⟨[], next, rfl, rfl, nofun⟩
  | @cons entry slot entries slots hfirst hrest ih =>
      obtain ⟨key, item⟩ := entry
      obtain ⟨rfl, hitem⟩ := hfirst
      obtain ⟨u, free, hlift, hcopy⟩ := hitem next
      obtain ⟨fields, next', hfields, hnames, hcopies⟩ := ih (before.set slot.1 u) free
      refine ⟨(slot.1, u) :: fields, next', ?_, congrArg (slot.1 :: ·) hnames,
        List.forall_mem_cons.2 ⟨hcopy, hcopies⟩⟩
      rw [liftEntries, Making.run_bind, hlift]
      exact hfields

/-- What data are handed out as becomes a copy of them. -/
theorem follows_restores : Value.Follows (fun _ => True) Restores where
  number _ i := restores_lowerNumber _ i
  text s next := ⟨.string s, next, rfl, .string s⟩
  truth flag next := ⟨Value.truth flag, next, rfl, .truth flag⟩
  list hitems i next := by
    obtain ⟨us, next', hlift, hlength, hcopies⟩ := exists_liftAll hitems next
    refine ⟨.array ⟨next'⟩ us, next' + 1, ?_, .array hlength hcopies⟩
    rw [lift, Making.run_bind, hlift]
    rfl
  map hentries hdistinct i next := by
    obtain ⟨fields, next', hlift, hnames, hcopies⟩ := exists_liftEntries hentries [] next
    have hfields : Slots.setAll [] fields = fields :=
      Slots.setAll_of_nodup (by rw [hnames]; exact hdistinct)
    rw [hfields] at hlift
    refine ⟨.record ⟨next'⟩ fields, next' + 1, ?_, .record hnames hcopies⟩
    rw [lift, Making.run_bind, hlift]
    rfl

end Host

namespace Value

/-- Handing out an encoded value whose booleans are the truth values is refused exactly if the value
holds a function.  If it does not, what the host gets becomes a copy of the value with every list
replaced by the array of its elements, whichever identities are free; and the copy is handed out as
the same host value. -/
theorem lowered_restores {v : Value} (hv : v.IsEncoded) (htruths : v.HasTruths) :
    ((∃ e, v.lower = .error (.refused e)) ↔ v.HoldsFunction) ∧
      (¬ v.HoldsFunction → ∃ h, v.lower = .ok h ∧ ∀ next, ∃ u next',
        h.lift.run next = .ok (u, next') ∧ u.IsCopyOf v.unlist ∧ u.lower = .ok h) := by
  have hrestored (hnone : ¬ v.HoldsFunction) : ∃ h, v.lower = .ok h ∧ h.Restores v.unlist :=
    (hv.isData htruths hnone).exists_lower Host.follows_restores
  refine ⟨⟨fun ⟨e, he⟩ => ?_, fun ⟨u, hu, hf⟩ => ?_⟩, fun hnone => ?_⟩
  · by_contra hnone
    obtain ⟨h, hlower, -⟩ := hrestored hnone
    cases he.symm.trans hlower
  · rcases hv.concludes_lower with ⟨h, hlower⟩ | hrefused
    · exact absurd hf (hv.not_isFunction htruths hu hlower)
    · exact hrefused
  · obtain ⟨h, hlower, hrestores⟩ := hrestored hnone
    refine ⟨h, hlower, fun next => ?_⟩
    obtain ⟨u, next', hlift, hcopy⟩ := hrestores next
    refine ⟨u, next', hlift, hcopy, ?_⟩
    rw [hcopy.lower_eq, (hv.isData htruths hnone).lower_unlist, hlower]

/-- A list of negative zero and the first number that is not handed out as a whole number, in a record;
and an array of a list of a function. -/
theorem lowered_restores_nested :
    (∃ h, (Value.record ⟨9⟩ [("b", cell 11 (.number ⟨4⟩ (-0)) (cell 13 (.number ⟨5⟩ 1e21) emptyList)),
        ("a", Value.truth false)]).lower = .ok h ∧ ∃ u next', h.lift.run 20 = .ok (u, next') ∧
      u.IsCopyOf (.record ⟨9⟩ [("b", .array ⟨12⟩ [.number ⟨4⟩ (-0), .number ⟨5⟩ 1e21]),
        ("a", Value.truth false)]) ∧ u.lower = .ok h) ∧
    ∃ e, (Value.array ⟨9⟩ [cell 11 (.builtin .split) emptyList]).lower = .error (.refused e) := by
  constructor
  · obtain ⟨h, hlower, hrestored⟩ := (lowered_restores
      (v := .record ⟨9⟩ [("b", cell 11 (.number ⟨4⟩ (-0)) (cell 13 (.number ⟨5⟩ 1e21) emptyList)),
        ("a", Value.truth false)])
      (.record (by decide) (List.forall_mem_cons.2
        ⟨.list (.head (.head .empty)) (List.forall_mem_cons.2 ⟨.number _ _,
          List.forall_mem_singleton.2 (.number _ _)⟩),
        List.forall_mem_singleton.2 (.boolean rfl (.array nofun))⟩))
      (by simp [HasTruths, or_imp, forall_and, cell, emptyList, truth, unit, isBoolean, Tag.family])).2
      (by simp [HoldsFunction, or_imp, forall_and, cell, emptyList, truth, unit, IsFunction])
    exact ⟨h, hlower, hrestored 20⟩
  · refine (lowered_restores (v := .array ⟨9⟩ [cell 11 (.builtin .split) emptyList])
      (.array (List.forall_mem_singleton.2
        (.list (.head .empty) (List.forall_mem_singleton.2 (.builtin .split)))))
      (by simp [HasTruths, or_imp, forall_and, cell, emptyList, unit, isBoolean, Tag.family])).1.2
      ⟨.builtin .split, ?_, trivial⟩
    exact .item (.head _) (.payload (.item (.head _) .here))

end Value

end VariantScript
