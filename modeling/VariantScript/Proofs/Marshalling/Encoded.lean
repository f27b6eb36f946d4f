import VariantScript.Proofs.Evaluation.WellFormed
import VariantScript.Proofs.Lifting.Lists

/-!
# Encoded values

Encoded values are the values of the language with well-formed lists, whether a script can hold them
or not.  They are handed out unless a function is in the way, which is refused; what a boolean carries
besides its branch is not looked at.
-/

namespace VariantScript

/-! ## Computations one after the other -/

section

variable {ε α β : Type} {x : Except ε α} {k : α → Except ε β}

theorem exists_of_bind {b : β} (h : x >>= k = .ok b) : ∃ a, x = .ok a ∧ k a = .ok b := by
  cases x with
  | error => cases h
  | ok a => exact ⟨a, rfl, h⟩

theorem error_of_bind {e : ε} (h : x >>= k = .error e) :
    x = .error e ∨ ∃ a, x = .ok a ∧ k a = .error e := by
  cases x with
  | error e' =>
      cases h
      exact .inl rfl
  | ok a => exact .inr ⟨a, rfl, h⟩

end

namespace Value

/-! ## Well-formed values -/

/-- A value of the language in which lists are well formed and records name no field twice. -/
inductive IsEncoded : Value → Prop where
  | number (i : Identity) (x : Float) : IsEncoded (.number i x)
  | string (text : String) : IsEncoded (.string text)
  | array {i : Identity} {items : List Value} (hitems : ∀ v ∈ items, IsEncoded v) :
      IsEncoded (.array i items)
  | record {i : Identity} {slots : List (String × Value)} (hnames : (Slots.names slots).Nodup)
      (hslots : ∀ slot ∈ slots, IsEncoded slot.2) : IsEncoded (.record i slots)
  | boolean {i : Identity} {tag : Tag} {payload : Value} (htag : tag.family = .boolean)
      (hpayload : IsEncoded payload) : IsEncoded (.variant i tag payload)
  | list {v : Value} {elements : List Value} (hlist : IsChainOf v elements)
      (helements : ∀ e ∈ elements, IsEncoded e) : IsEncoded v
  | closure (i : Identity) (f : Closure) : IsEncoded (.closure i f)
  | builtin (operation : Builtin) : IsEncoded (.builtin operation)

/-- A value is a function of a script or a built-in operation. -/
def IsFunction : Value → Prop
  | .closure _ _ | .builtin _ => True
  | _ => False

/-- A function is a part of a value, at any depth. -/
def HoldsFunction (v : Value) : Prop :=
  ∃ u, v.Holds u ∧ u.IsFunction

/-- Every boolean in a value is one of the two truth values. -/
def HasTruths (v : Value) : Prop :=
  ∀ u, v.Holds u → u.isBoolean = true → u = truth true ∨ u = truth false

/-! ## Parts -/

section

variable {i : Identity} {u : Value}

@[simp]
theorem holds_number {x : Float} : (Value.number i x).Holds u ↔ u = .number i x :=
  ⟨fun h => by cases h; rfl, fun h => h ▸ .here⟩

@[simp]
theorem holds_string {text : String} : (Value.string text).Holds u ↔ u = .string text :=
  ⟨fun h => by cases h; rfl, fun h => h ▸ .here⟩

@[simp]
theorem holds_builtin {operation : Builtin} :
    (Value.builtin operation).Holds u ↔ u = .builtin operation :=
  ⟨fun h => by cases h; rfl, fun h => h ▸ .here⟩

@[simp]
theorem holds_array {items : List Value} :
    (Value.array i items).Holds u ↔ u = .array i items ∨ ∃ v ∈ items, v.Holds u := by
  constructor
  · rintro (_ | ⟨hv, hu⟩)
    · exact .inl rfl
    · exact .inr ⟨_, hv, hu⟩
  · rintro (rfl | ⟨v, hv, hu⟩)
    · exact .here
    · exact .item hv hu

@[simp]
theorem holds_record {slots : List (String × Value)} :
    (Value.record i slots).Holds u ↔ u = .record i slots ∨ ∃ slot ∈ slots, slot.2.Holds u := by
  constructor
  · rintro (_ | _ | ⟨hslot, hu⟩)
    · exact .inl rfl
    · exact .inr ⟨_, hslot, hu⟩
  · rintro (rfl | ⟨slot, hslot, hu⟩)
    · exact .here
    · exact .slot hslot hu

@[simp]
theorem holds_variant {tag : Tag} {payload : Value} :
    (Value.variant i tag payload).Holds u ↔ u = .variant i tag payload ∨ payload.Holds u := by
  constructor
  · rintro (_ | _ | _ | hu)
    · exact .inl rfl
    · exact .inr hu
  · rintro (rfl | hu)
    · exact .here
    · exact .payload hu

end

variable {v : Value}

theorem Holds.trans {u w : Value} (hu : v.Holds u) (hw : u.Holds w) : v.Holds w := by
  induction hu with
  | here => exact hw
  | item hv _ ih => exact .item hv (ih hw)
  | slot hslot _ ih => exact .slot hslot (ih hw)
  | payload _ ih => exact .payload (ih hw)

namespace HasTruths

theorem item {i : Identity} {items : List Value} (h : (Value.array i items).HasTruths)
    (hv : v ∈ items) : v.HasTruths :=
  fun u hu => h u (.item hv hu)

theorem slot {i : Identity} {slots : List (String × Value)} {slot : String × Value}
    (h : (Value.record i slots).HasTruths) (hslot : slot ∈ slots) : slot.2.HasTruths :=
  fun u hu => h u (.slot hslot hu)

theorem payload {i : Identity} {tag : Tag} {content : Value}
    (h : (Value.variant i tag content).HasTruths) : content.HasTruths :=
  fun u hu => h u (.payload hu)

end HasTruths

/-- What the elements of a list hold the list holds. -/
theorem IsChainOf.holds {elements : List Value} (h : v.IsChainOf elements) {e u : Value}
    (he : e ∈ elements) (hu : e.Holds u) : v.Holds u := by
  induction h with
  | empty => cases he
  | head hrest ih =>
      rcases List.mem_cons.1 he with rfl | he
      · exact .payload (.item (.head _) hu)
      · exact .payload (.item (.tail _ (.head _)) (ih he))

namespace IsEncoded

theorem not_isForeign (h : v.IsEncoded) : v.isForeign = false := by
  cases h with
  | list hlist => cases hlist <;> rfl
  | _ => rfl

/-- Encoded values without functions whose booleans are the truth values are data. -/
theorem isData (h : v.IsEncoded) (htruths : v.HasTruths) (hnone : ¬ v.HoldsFunction) :
    v.IsData fun _ => True := by
  induction h with
  | number => exact .number trivial
  | string text => exact .string text
  | array hitems ih =>
      exact .array fun v hv => ih v hv (htruths.item hv) fun ⟨u, hu, hf⟩ => hnone ⟨u, .item hv hu, hf⟩
  | record hnames hslots ih =>
      exact .record hnames fun slot hslot => ih slot hslot (htruths.slot hslot)
        fun ⟨u, hu, hf⟩ => hnone ⟨u, .slot hslot hu, hf⟩
  | boolean htag =>
      rcases htruths _ .here (decide_eq_true htag) with htruth | htruth
      · exact htruth ▸ .truth true
      · exact htruth ▸ .truth false
  | list hlist helements ih =>
      exact .list hlist.isListOf fun e he => ih e he (fun u hu => htruths u (hlist.holds he hu))
        fun ⟨u, hu, hf⟩ => hnone ⟨u, hlist.holds he hu, hf⟩
  | closure | builtin => exact absurd ⟨_, .here, trivial⟩ hnone

end IsEncoded

/-! ## Handing out -/

/-- A handing out that gives something or is refused. -/
def Concludes {α : Type} (result : Except MarshalStop α) : Prop :=
  (∃ x, result = .ok x) ∨ ∃ e, result = .error (.refused e)

theorem concludes_lowerAll {vs : List Value} (h : ∀ v ∈ vs, Concludes v.lower) :
    Concludes (lowerAll vs) := by
  induction vs with
  | nil => exact .inl ⟨[], rfl⟩
  | cons v vs ih =>
      rw [lowerAll]
      rcases h v (.head _) with ⟨host, hlower⟩ | ⟨e, hlower⟩
      · rcases ih fun u hu => h u (.tail _ hu) with ⟨hs, hrest⟩ | ⟨e, hrest⟩
        · exact .inl ⟨host :: hs, by rw [hlower, hrest]; rfl⟩
        · exact .inr ⟨e, by rw [hlower, hrest]; rfl⟩
      · exact .inr ⟨e, by rw [hlower]; rfl⟩

theorem concludes_lowerSlots {slots : Slots} (h : ∀ slot ∈ slots, Concludes slot.2.lower) :
    Concludes (lowerSlots slots) := by
  induction slots with
  | nil => exact .inl ⟨[], rfl⟩
  | cons slot slots ih =>
      obtain ⟨name, v⟩ := slot
      rw [lowerSlots]
      rcases h (name, v) (.head _) with ⟨host, hlower⟩ | ⟨e, hlower⟩
      · rcases ih fun u hu => h u (.tail _ hu) with ⟨hs, hrest⟩ | ⟨e, hrest⟩
        · exact .inl ⟨(.text name, host) :: hs, by rw [hlower, hrest]; rfl⟩
        · exact .inr ⟨e, by rw [hlower, hrest]; rfl⟩
      · exact .inr ⟨e, by rw [hlower]; rfl⟩

theorem Concludes.map {α β : Type} {result : Except MarshalStop α} (h : Concludes result)
    (f : α → β) : Concludes (f <$> result) := by
  rcases h with ⟨x, rfl⟩ | ⟨e, rfl⟩
  · exact .inl ⟨f x, rfl⟩
  · exact .inr ⟨e, rfl⟩

/-- Encoded values are handed out or refused. -/
theorem IsEncoded.concludes_lower (h : v.IsEncoded) : Concludes v.lower := by
  induction h with
  | number | string => exact .inl ⟨_, by rw [lower]⟩
  | array hitems ih =>
      rw [lower]
      exact (concludes_lowerAll ih).map Host.list
  | record hnames hslots ih =>
      rw [lower]
      exact (concludes_lowerSlots ih).map Host.map
  | @boolean i tag payload htag =>
      cases tag with
      | yes => exact .inl ⟨_, by rw [lower]⟩
      | no => exact .inl ⟨_, by rw [lower]⟩
      | empty | head => cases htag
  | list hlist helements ih =>
      rw [hlist.isListOf.lower_eq]
      exact (concludes_lowerAll ih).map Host.list
  | closure | builtin =>
      rw [lower]
      exact .inr ⟨_, rfl⟩

/-! ## Showing -/

theorem IsChainOf.no_defect {elements : List Value} (h : v.IsChainOf elements)
    (helements : ∀ e ∈ elements, e.defect? = none) : v.defect? = none ∧ v.chainDefect? = none := by
  induction h with
  | empty => exact ⟨rfl, rfl⟩
  | head hrest ih =>
      have hfirst := helements _ (.head _)
      have hthen := (ih fun e he => helements e (.tail _ he)).2
      rw [defect?, chainDefect?, hfirst, hthen]
      exact ⟨rfl, rfl⟩

/-- Encoded values can be shown. -/
theorem IsEncoded.no_defect (h : v.IsEncoded) : v.defect? = none := by
  induction h with
  | number | string | closure | builtin => rfl
  | array hitems ih => exact firstDefect?_eq_none ih
  | record hnames hslots ih => exact slotDefect?_eq_none ih
  | @boolean i tag payload htag =>
      cases tag with
      | yes | no => rfl
      | empty | head => cases htag
  | list hlist helements ih => exact (hlist.no_defect ih).1

/-! ## Functions are not handed out -/

theorem exists_of_mem_forall₂ {α β : Type} {R : α → β → Prop} {xs : List α} {ys : List β}
    (h : List.Forall₂ R xs ys) {x : α} (hx : x ∈ xs) : ∃ y ∈ ys, R x y := by
  induction h with
  | nil => cases hx
  | cons hfirst _ ih =>
      rcases List.mem_cons.1 hx with rfl | hx
      · exact ⟨_, .head _, hfirst⟩
      · obtain ⟨y, hy, hxy⟩ := ih hx
        exact ⟨y, .tail _ hy, hxy⟩

theorem forall₂_of_lowerAll {vs : List Value} {hs : List Host} (h : lowerAll vs = .ok hs) :
    List.Forall₂ (fun v host => v.lower = .ok host) vs hs := by
  induction vs generalizing hs with
  | nil =>
      cases h
      exact .nil
  | cons v vs ih =>
      rw [lowerAll] at h
      obtain ⟨host, hlower, hthen⟩ := exists_of_bind h
      obtain ⟨rest, hrest, hall⟩ := exists_of_bind hthen
      cases hall
      exact .cons hlower (ih hrest)

theorem forall₂_of_lowerSlots {slots : Slots} {entries : List (Host × Host)}
    (h : lowerSlots slots = .ok entries) :
    List.Forall₂ (fun slot entry => entry.1 = .text slot.1 ∧ slot.2.lower = .ok entry.2) slots
      entries := by
  induction slots generalizing entries with
  | nil =>
      cases h
      exact .nil
  | cons slot slots ih =>
      obtain ⟨name, v⟩ := slot
      rw [lowerSlots] at h
      obtain ⟨host, hlower, hthen⟩ := exists_of_bind h
      obtain ⟨rest, hrest, hall⟩ := exists_of_bind hthen
      cases hall
      exact .cons ⟨rfl, hlower⟩ (ih hrest)

/-- A list is handed out only if the pair in its first cell is. -/
theorem IsChainOf.exists_lower_pair {i j : Identity} {element rest : Value} {elements : List Value}
    (hrest : rest.IsChainOf elements) {h : Host}
    (hlower : (Value.variant i .head (.array j [element, rest])).lower = .ok h) :
    ∃ h', (Value.array j [element, rest]).lower = .ok h' := by
  rw [(IsChainOf.head hrest).isListOf.lower_eq, lowerAll] at hlower
  cases hfirst : element.lower with
  | error =>
      rw [hfirst] at hlower
      cases hlower
  | ok host =>
      cases hall : lowerAll elements with
      | error =>
          rw [hfirst, hall] at hlower
          cases hlower
      | ok hs =>
          refine ⟨.list [host, .list hs], ?_⟩
          rw [lower, lowerAll, lowerAll, lowerAll, hrest.isListOf.lower_eq, hfirst, hall]
          rfl

/-- What is handed out holds no function. -/
theorem IsEncoded.not_isFunction {u : Value} (hv : v.IsEncoded) (htruths : v.HasTruths)
    (hu : v.Holds u) {h : Host} (hlower : v.lower = .ok h) : ¬ u.IsFunction := by
  have not_of_unit {i : Identity} {u : Value} (hu : (Value.array i []).Holds u) :
      ¬ u.IsFunction := by
    obtain rfl : u = .array i [] := by simpa using hu
    exact id
  induction hu generalizing h with
  | @here v =>
      intro hf
      cases v with
      | closure | builtin =>
          rw [lower] at hlower
          cases hlower
      | _ => exact hf
  | item hitem hu ih =>
      rw [lower] at hlower
      obtain ⟨hs, hall, -⟩ := exists_of_bind hlower
      obtain ⟨host, -, hlower⟩ := exists_of_mem_forall₂ (forall₂_of_lowerAll hall) hitem
      cases hv with
      | array hitems => exact ih (hitems _ hitem) (htruths.item hitem) hlower
      | list hlist => cases hlist
  | slot hslot hu ih =>
      rw [lower] at hlower
      obtain ⟨entries, hall, -⟩ := exists_of_bind hlower
      obtain ⟨entry, -, -, hlower⟩ := exists_of_mem_forall₂ (forall₂_of_lowerSlots hall) hslot
      cases hv with
      | record hnames hslots => exact ih (hslots _ hslot) (htruths.slot hslot) hlower
      | list hlist => cases hlist
  | payload hu ih =>
      cases hv with
      | boolean htag =>
          rcases htruths _ .here (decide_eq_true htag) with htruth | htruth
          · cases htruth
            exact not_of_unit hu
          · cases htruth
            exact not_of_unit hu
      | list hlist helements =>
          cases hlist with
          | empty => exact not_of_unit hu
          | @head i j element rest elements hrest =>
              obtain ⟨h', hpair⟩ := hrest.exists_lower_pair hlower
              have hencoded : ∀ v ∈ [element, rest], v.IsEncoded := List.forall_mem_cons.2
                ⟨helements _ (.head _), List.forall_mem_singleton.2
                  (.list hrest fun e he => helements e (.tail _ he))⟩
              exact ih (.array hencoded) htruths.payload hpair

end Value

end VariantScript
