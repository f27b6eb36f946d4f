import Mathlib
import VariantScript.Proofs.Comparison.Relation
import VariantScript.Proofs.Evaluation.Values

/-!
# The laws of equality

An identity tells which object a value is, so two values with one identity are one value.
`Value.LivesIn` says this of all that a value is made of: each object in it is what a heap holds under
its identity.  Among the values of one heap equality is reflexive, symmetric and transitive, also where
they hold numbers that are not equal to themselves.  Legacy counting gives up symmetry only.
-/

namespace VariantScript

/-- A field of a record stands under its name. -/
theorem Slots.get?_of_mem {slots : Slots} {name : String} {v : Value} (hnames : slots.names.Nodup)
    (h : (name, v) ∈ slots) : slots.get? name = some v := by
  induction slots with
  | nil => cases h
  | cons slot slots ih =>
      obtain ⟨k, u⟩ := slot
      obtain ⟨hk, hrest⟩ := List.nodup_cons.1 hnames
      rcases List.mem_cons.1 h with heq | hmem
      · cases heq
        simp [get?]
      · have hname : name ≠ k := by
          rintro rfl
          exact hk (List.mem_map.2 ⟨(name, v), hmem, rfl⟩)
        rw [get?, List.lookup_cons, beq_eq_false_iff_ne.2 hname]
        exact ih hrest hmem

namespace Value

/-- A value whose objects are all in a heap, each under its identity.  The fields of a record have
different names. -/
inductive LivesIn (heap : Identity → Option Value) : Value → Prop where
  | number {i : Identity} {x : Float} (hheap : heap i = some (.number i x)) :
      LivesIn heap (.number i x)
  | string {text : String} : LivesIn heap (.string text)
  | array {i : Identity} {items : List Value} (hheap : heap i = some (.array i items))
      (hitems : ∀ v ∈ items, LivesIn heap v) : LivesIn heap (.array i items)
  | record {i : Identity} {slots : List (String × Value)}
      (hheap : heap i = some (.record i slots)) (hnames : (Slots.names slots).Nodup)
      (hslots : ∀ slot ∈ slots, LivesIn heap slot.2) : LivesIn heap (.record i slots)
  | variant {i : Identity} {tag : Tag} {payload : Value}
      (hheap : heap i = some (.variant i tag payload)) (hpayload : LivesIn heap payload) :
      LivesIn heap (.variant i tag payload)
  | closure {i : Identity} {f : Closure} (hheap : heap i = some (.closure i f)) :
      LivesIn heap (.closure i f)
  | builtin {operation : Builtin} : LivesIn heap (.builtin operation)
  | foreign {i : Identity} {data : Host} (hheap : heap i = some (.foreign i data)) :
      LivesIn heap (.foreign i data)

/-- The identity of a value that has one. -/
def identity? : Value → Option Identity
  | .number i _ | .array i _ | .record i _ | .variant i _ _ | .closure i _ | .foreign i _ => some i
  | .string _ | .builtin _ => none

theorem LivesIn.held {heap : Identity → Option Value} {v : Value} {i : Identity}
    (h : v.LivesIn heap) (hi : v.identity? = some i) : heap i = some v := by
  cases h with
  | string | builtin => cases hi
  | number hheap | array hheap | record hheap | variant hheap | closure hheap | foreign hheap =>
      cases hi
      exact hheap

/-- Values of one heap that have one identity are one value. -/
theorem LivesIn.unique {heap : Identity → Option Value} {a b : Value} {i : Identity}
    (ha : a.LivesIn heap) (hb : b.LivesIn heap) (hai : a.identity? = some i)
    (hbi : b.identity? = some i) : a = b :=
  Option.some.inj ((ha.held hai).symm.trans (hb.held hbi))

/-! ## Being the same -/

theorem isSame_refl (a : Value) : isSame a a = true := by
  cases a <;> simp [isSame]

theorem eq_of_areOneObject {d e : Host} (h : areOneObject d e = true) : d = e := by
  unfold areOneObject at h
  split at h <;> simp_all

/-- Values of one heap that are the same are one value, unless they are foreign data of which there
is only one. -/
theorem eq_of_isSame {heap : Identity → Option Value} {a b : Value} (ha : a.LivesIn heap)
    (hb : b.LivesIn heap) (h : isSame a b = true) :
    a = b ∨ ∃ i j d, areOneObject d d = true ∧ a = .foreign i d ∧ b = .foreign j d := by
  unfold isSame at h
  split at h
  case h_2 | h_7 => exact .inl (by rw [of_decide_eq_true h])
  case h_8 i d j e =>
    rcases Bool.or_eq_true _ _ ▸ h with hij | hone
    · obtain rfl := of_decide_eq_true hij
      exact .inl (ha.unique hb rfl rfl)
    · obtain rfl := eq_of_areOneObject hone
      exact .inr ⟨i, j, d, hone, rfl, rfl⟩
  case h_9 => cases h
  all_goals
    obtain rfl := of_decide_eq_true h
    exact .inl (ha.unique hb rfl rfl)

theorem isSame_symm {heap : Identity → Option Value} {a b : Value} (ha : a.LivesIn heap)
    (hb : b.LivesIn heap) (h : isSame a b = true) : isSame b a = true := by
  rcases eq_of_isSame ha hb h with rfl | ⟨i, j, d, hone, rfl, rfl⟩
  · exact isSame_refl a
  · simp [isSame, hone]

theorem isSame_trans {heap : Identity → Option Value} {a b c : Value} (ha : a.LivesIn heap)
    (hb : b.LivesIn heap) (hc : c.LivesIn heap) (hab : isSame a b = true)
    (hbc : isSame b c = true) : isSame a c = true := by
  rcases eq_of_isSame ha hb hab with rfl | ⟨i, j, d, hone, rfl, hb'⟩
  · exact hbc
  · rcases eq_of_isSame hb hc hbc with rfl | ⟨k, l, e, -, hk, rfl⟩
    · exact hab
    · cases hb'.symm.trans hk
      simp [isSame, hone]

/-! ## Equality part by part -/

namespace EqualParts

variable {heap : Identity → Option Value} {legacy : Bool} {a b c : Value}

/-- A value that is the same as another equals all that the other one equals. -/
theorem of_isSame (ha : a.LivesIn heap) (hb : b.LivesIn heap) (hc : c.LivesIn heap)
    (hab : isSame a b = true) (hbc : EqualParts legacy b c) : EqualParts legacy a c := by
  rcases eq_of_isSame ha hb hab with rfl | ⟨i, j, d, -, rfl, rfl⟩
  · exact hbc
  · -- Foreign data are equal only to what is the same.
    cases hbc with
    | same hsame => exact .same (isSame_trans ha hb hc hab hsame)

/-- A value equals all that is the same as a value it equals. -/
theorem trans_isSame (ha : a.LivesIn heap) (hb : b.LivesIn heap) (hc : c.LivesIn heap)
    (hab : EqualParts legacy a b) (hbc : isSame b c = true) : EqualParts legacy a c := by
  rcases eq_of_isSame hb hc hbc with rfl | ⟨i, j, d, -, rfl, rfl⟩
  · exact hab
  · cases hab with
    | same hsame => exact .same (isSame_trans ha hb hc hsame hbc)

/-- Equality is symmetric if both names and lengths are counted. -/
theorem symm (ha : a.LivesIn heap) (hb : b.LivesIn heap) (h : EqualParts false a b) :
    EqualParts false b a := by
  induction h with
  | same hsame => exact .same (isSame_symm ha hb hsame)
  | number hxy => exact .number (BEq.symm hxy)
  | array hlength hcount hitems ih =>
      cases ha with
      | array _ ha => cases hb with
        | array _ hb =>
          refine .array (hcount rfl) (fun _ => hlength) fun k y x hy hx => ?_
          exact ih k x y hx hy (ha x (List.mem_of_getElem? hx)) (hb y (List.mem_of_getElem? hy))
  | record hnames hcount hslots ih =>
      cases ha with
      | record _ hdistinct ha => cases hb with
        | record _ hdistinct' hb =>
          refine .record (hcount rfl) (fun _ => hnames) fun name y x hy hx => ?_
          have hx' := Slots.mem_of_get? hx
          have hy' := Slots.get?_of_mem hdistinct' hy
          exact ih name x y hx' hy' (ha _ hx') (hb _ hy)
  | variant _ ih =>
      cases ha with
      | variant _ ha => cases hb with
        | variant _ hb => exact .variant (ih ha hb)

/-- Equality is transitive, whatever is counted. -/
theorem trans (ha : a.LivesIn heap) (hb : b.LivesIn heap) (hc : c.LivesIn heap)
    (hab : EqualParts legacy a b) (hbc : EqualParts legacy b c) : EqualParts legacy a c := by
  -- By induction on the first equality; the second one is of the same kind or holds of one object.
  induction hab generalizing c with
  | same hsame => exact of_isSame ha hb hc hsame hbc
  | number hxy =>
      cases hbc with
      | same hsame => exact trans_isSame ha hb hc (.number hxy) hsame
      | number hyz => exact .number (BEq.trans hxy hyz)
  | @array i j xs ys hlength hcount hitems ih =>
      cases hbc with
      | same hsame => exact trans_isSame ha hb hc (.array hlength hcount hitems) hsame
      | @array _ _ _ zs hlength' hcount' hitems' =>
          cases ha with | array _ ha => cases hb with | array _ hb => cases hc with | array _ hc =>
          refine .array (hlength.trans hlength')
            (fun hlegacy => (hcount' hlegacy).trans (hcount hlegacy)) fun k x z hx hz => ?_
          have hk : k < ys.length := (List.getElem?_eq_some_iff.1 hx).1.trans_le hlength
          have hy : ys[k]? = some ys[k] := List.getElem?_eq_getElem hk
          exact ih k x ys[k] hx hy (ha x (List.mem_of_getElem? hx)) (hb _ (List.getElem_mem hk))
            (hc z (List.mem_of_getElem? hz)) (hitems' k ys[k] z hy hz)
  | @record i j xs ys hnames hcount hslots ih =>
      cases hbc with
      | same hsame => exact trans_isSame ha hb hc (.record hnames hcount hslots) hsame
      | @record _ _ _ zs hnames' hcount' hslots' =>
          cases ha with | record _ _ ha => cases hb with | record _ _ hb =>
          cases hc with | record _ _ hc =>
          refine .record (List.Subset.trans hnames hnames')
            (fun hlegacy => List.Subset.trans (hcount' hlegacy) (hcount hlegacy))
            fun name x z hx hz => ?_
          obtain ⟨y, hy⟩ := exists_get?_of_mem_names (hnames (List.mem_map_of_mem hx))
          have hy' := Slots.mem_of_get? hy
          exact ih name x y hx hy (ha _ hx) (hb _ hy') (hc _ (Slots.mem_of_get? hz))
            (hslots' name y z hy' hz)
  | variant hpayload ih =>
      cases hbc with
      | same hsame => exact trans_isSame ha hb hc (.variant hpayload) hsame
      | variant hpayload' =>
          cases ha with | variant _ ha => cases hb with | variant _ hb =>
          cases hc with | variant _ hc =>
          exact .variant (ih ha hb hc hpayload')

/-- Counting both sides is stricter than counting the left one. -/
theorem legacy_of_default (h : EqualParts false a b) : EqualParts true a b := by
  induction h with
  | same hsame => exact .same hsame
  | number hxy => exact .number hxy
  | array hlength _ _ ih => exact .array hlength nofun ih
  | record hnames _ _ ih => exact .record hnames nofun ih
  | variant _ ih => exact .variant ih

/-- Counting the left side in both directions is counting both sides. -/
theorem default_of_legacy (ha : a.LivesIn heap) (hb : b.LivesIn heap) (hab : EqualParts true a b)
    (hba : EqualParts true b a) : EqualParts false a b := by
  induction hab with
  | same hsame => exact .same hsame
  | number hxy => exact .number hxy
  | array hlength _ hitems ih =>
      cases hba with
      | same hsame => exact .same (isSame_symm hb ha hsame)
      | array hlength' _ hitems' =>
          cases ha with | array _ ha => cases hb with | array _ hb =>
          refine .array hlength (fun _ => hlength') fun k x y hx hy => ?_
          exact ih k x y hx hy (ha x (List.mem_of_getElem? hx)) (hb y (List.mem_of_getElem? hy))
            (hitems' k y x hy hx)
  | record hnames _ hslots ih =>
      cases hba with
      | same hsame => exact .same (isSame_symm hb ha hsame)
      | record hnames' _ hslots' =>
          cases ha with | record _ hdistinct ha => cases hb with | record _ _ hb =>
          refine .record hnames (fun _ => hnames') fun name x y hx hy => ?_
          have hx' := Slots.get?_of_mem hdistinct hx
          have hy' := Slots.mem_of_get? hy
          exact ih name x y hx hy (ha _ hx) (hb _ hy') (hslots' name y x hy' hx')
  | variant _ ih =>
      cases hba with
      | same hsame => exact .same (isSame_symm hb ha hsame)
      | variant hpayload' =>
          cases ha with | variant _ ha => cases hb with | variant _ hb =>
          exact .variant (ih ha hb hpayload')

/-- Numbers of one worth and values that are the same are equal part by part. -/
theorem of_strictlyEqual (h : strictlyEqual a b = true) : EqualParts legacy a b := by
  unfold strictlyEqual at h
  split at h
  · exact .number h
  · exact .same h

end EqualParts

/-- The laws of equality among the values of one heap. -/
theorem structurallyEqual_laws {heap : Identity → Option Value} {a b c : Value}
    (ha : a.LivesIn heap) (hb : b.LivesIn heap) (hc : c.LivesIn heap) :
    (∀ legacy, structurallyEqual legacy a a = true) ∧
    (∀ legacy, structurallyEqual legacy a b = true → structurallyEqual legacy b c = true →
      structurallyEqual legacy a c = true) ∧
    (structurallyEqual false a b = true → structurallyEqual false b a = true) ∧
    (structurallyEqual true a b = true ∧ structurallyEqual true b a = true ↔
      structurallyEqual false a b = true) ∧
    (strictlyEqual a b = true → structurallyEqual false a b = true) ∧
    (structurallyEqual false a b = true → structurallyEqual true a b = true) := by
  simp only [structurallyEqual_iff]
  refine ⟨fun _ => .same (isSame_refl a), fun _ => .trans ha hb hc, .symm ha hb, ?_,
    .of_strictlyEqual, .legacy_of_default⟩
  constructor
  · rintro ⟨hab, hba⟩
    exact .default_of_legacy ha hb hab hba
  · intro hab
    exact ⟨hab.legacy_of_default, (hab.symm ha hb).legacy_of_default⟩

/-- Two arrays hold one number that is not equal to itself, and a third one holds more. -/
theorem structurallyEqual_laws_nan :
    ∃ heap : Identity → Option Value,
      (Value.array ⟨11⟩ [.number ⟨10⟩ (0 / 0)]).LivesIn heap ∧
      (Value.array ⟨12⟩ [.number ⟨10⟩ (0 / 0)]).LivesIn heap ∧
      (Value.array ⟨13⟩ [.number ⟨10⟩ (0 / 0), .string "more"]).LivesIn heap ∧
      structurallyEqual true (.array ⟨11⟩ [.number ⟨10⟩ (0 / 0)])
        (.array ⟨13⟩ [.number ⟨10⟩ (0 / 0), .string "more"]) = true := by
  let n : Value := .number ⟨10⟩ (0 / 0)
  let a : Value := .array ⟨11⟩ [n]
  let b : Value := .array ⟨12⟩ [n]
  let c : Value := .array ⟨13⟩ [n, .string "more"]
  let heap : Identity → Option Value := fun i => [n, a, b, c].find? (·.identity? = some i)
  have hn : n.LivesIn heap := .number rfl
  have ha : a.LivesIn heap := .array rfl (by simpa using hn)
  have hb : b.LivesIn heap := .array rfl (by simpa using hn)
  have hc : c.LivesIn heap := .array rfl (by simpa using ⟨hn, .string⟩)
  have hitems (rest : List Value) : ∀ (k : Nat) (x y : Value), [n][k]? = some x →
      (n :: rest)[k]? = some y → EqualParts true x y := by
    rintro (_ | k) x y hx hy
    · cases hx
      cases hy
      exact .same (isSame_refl n)
    · cases hx
  have hab : structurallyEqual true a b = true :=
    structurallyEqual_iff.2 (.array (by simp) nofun (hitems []))
  have hbc : structurallyEqual true b c = true :=
    structurallyEqual_iff.2 (.array (by simp) nofun (hitems [.string "more"]))
  exact ⟨heap, ha, hb, hc, (structurallyEqual_laws ha hb hc).2.1 true hab hbc⟩

end Value

end VariantScript
