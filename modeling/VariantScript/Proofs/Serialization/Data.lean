import Mathlib.Data.List.Basic
import Mathlib.Data.List.Forall2
import VariantScript.Host.Lower
import VariantScript.Proofs.Comparison.Relation
import VariantScript.Proofs.Evaluation.Values
import VariantScript.Proofs.Number.Numeral

/-!
# Data

Data are values without functions, built-in operations and foreign values, whose lists are well formed.
Data are handed out with every list taken for the array of its elements, and what data are alike is
handed out alike: with equal numbers, and with the keys of every record in the same order.
-/

namespace VariantScript.Value

/-! ## Data and their lists -/

/-- A value that is the well-formed list of some elements. -/
inductive IsListOf : Value → List Value → Prop where
  | empty {i : Identity} {payload : Value} : IsListOf (.variant i .empty payload) []
  | head {i j : Identity} {element rest : Value} {elements : List Value}
      (hrest : IsListOf rest elements) :
      IsListOf (.variant i .head (.array j [element, rest])) (element :: elements)

/-- Data whose numbers are all good. -/
inductive IsData (good : Float → Prop) : Value → Prop where
  | number {i : Identity} {x : Float} (hx : good x) : IsData good (.number i x)
  | string (text : String) : IsData good (.string text)
  | truth (flag : Bool) : IsData good (Value.truth flag)
  | array {i : Identity} {items : List Value} (hitems : ∀ v ∈ items, IsData good v) :
      IsData good (.array i items)
  | record {i : Identity} {slots : List (String × Value)} (hnames : (Slots.names slots).Nodup)
      (hslots : ∀ slot ∈ slots, IsData good slot.2) : IsData good (.record i slots)
  | list {v : Value} {elements : List Value} (hlist : IsListOf v elements)
      (helements : ∀ e ∈ elements, IsData good e) : IsData good v

mutual
/-- The value with every list in it replaced by the array of its elements. -/
def unlist : Value → Value
  | .array i items => .array i (unlistAll items)
  | .record i slots => .record i (unlistSlots slots)
  | .variant i .empty _ => .array i []
  | .variant i .head payload => .array i (unlistCell payload)
  | v => v

/-- The values with every list in them replaced. -/
def unlistAll : List Value → List Value
  | [] => []
  | v :: vs => unlist v :: unlistAll vs

/-- The fields with every list in them replaced. -/
def unlistSlots : List (String × Value) → List (String × Value)
  | [] => []
  | (name, v) :: rest => (name, unlist v) :: unlistSlots rest

/-- The elements of a list from the payload of its first cell on, with every list in them replaced. -/
def unlistCell : Value → List Value
  | .array _ [element, .variant _ .head payload] => unlist element :: unlistCell payload
  | .array _ [element, _] => [unlist element]
  | _ => []
end

/-- A list is replaced by the array of its elements. -/
theorem IsListOf.unlist_eq {v : Value} {elements : List Value} (h : v.IsListOf elements) :
    ∃ i, v.unlist = .array i (unlistAll elements) := by
  induction h with
  | @empty i payload => exact ⟨i, rfl⟩
  | @head i j element rest elements hrest ih =>
      refine ⟨i, ?_⟩
      cases hrest with
      | empty => rfl
      | @head i' j' element' rest' elements' hrest =>
          obtain ⟨k, hunlist⟩ := ih
          have hcell : unlistCell (.array j' [element', rest']) = unlistAll (element' :: elements') :=
            (Value.array.inj hunlist).2
          rw [unlistAll, ← hcell]
          rfl

/-! ## Handing out data -/

theorem IsListOf.elements_eq {v : Value} {elements : List Value} (h : v.IsListOf elements) :
    v.isList = true ∧ v.elements = .ok elements := by
  induction h with
  | empty => exact ⟨rfl, rfl⟩
  | head hrest ih =>
      refine ⟨rfl, ?_⟩
      rw [Value.elements, ih.2]
      rfl

theorem IsListOf.lowerCell_eq {j : Identity} {element rest : Value} {elements : List Value}
    (h : rest.IsListOf elements) :
    lowerCell (.array j [element, rest]) = lowerAll (element :: elements) := by
  induction h generalizing j element with
  | empty =>
      rw [lowerCell, lowerAll, lowerAll]
      · cases element.lower <;> rfl
      · nofun
  | head hrest ih => rw [lowerCell, lowerAll, ih]

/-- A list is handed out as the list of its elements. -/
theorem IsListOf.lower_eq {v : Value} {elements : List Value} (h : v.IsListOf elements) :
    v.lower = (lowerAll elements).map Host.list := by
  obtain ⟨hlist, helements⟩ := h.elements_eq
  cases h with
  | empty => rfl
  | @head i j element rest elements hrest =>
      have hrequire : (Value.variant i .head (.array j [element, rest])).requireElements =
          .ok (element :: elements) := by
        rw [requireElements, if_pos hlist, helements]
        rfl
      rw [lower, hrequire, hrest.lowerCell_eq]
      cases lowerAll (element :: elements) <;> rfl

theorem lowerAll_unlistAll {vs : List Value} (h : ∀ v ∈ vs, v.unlist.lower = v.lower) :
    lowerAll (unlistAll vs) = lowerAll vs := by
  induction vs with
  | nil => rfl
  | cons v vs ih =>
      have hfirst := h v (.head _)
      have hrest := ih fun u hu => h u (.tail _ hu)
      rw [unlistAll, lowerAll, lowerAll, hfirst, hrest]

theorem lowerSlots_unlistSlots {slots : Slots}
    (h : ∀ slot ∈ slots, slot.2.unlist.lower = slot.2.lower) :
    lowerSlots (unlistSlots slots) = lowerSlots slots := by
  induction slots with
  | nil => rfl
  | cons slot slots ih =>
      obtain ⟨name, v⟩ := slot
      have hfirst : v.unlist.lower = v.lower := h (name, v) (.head _)
      have hrest := ih fun u hu => h u (.tail _ hu)
      rw [unlistSlots, lowerSlots, lowerSlots, hfirst, hrest]

/-- Lists are handed out as the arrays of their elements are. -/
theorem IsData.lower_unlist {good : Float → Prop} {v : Value} (h : v.IsData good) :
    v.unlist.lower = v.lower := by
  induction h with
  | number | string => rfl
  | truth flag => cases flag <;> rfl
  | array hitems ih => rw [unlist, lower, lower, lowerAll_unlistAll ih]
  | record hnames hslots ih => rw [unlist, lower, lower, lowerSlots_unlistSlots ih]
  | list hlist helements ih =>
      obtain ⟨i, hunlist⟩ := hlist.unlist_eq
      rw [hunlist, hlist.lower_eq, lower, lowerAll_unlistAll ih]
      rfl

/-! ## What data are handed out as -/

/-- A relation between host values and values that holds, constructor by constructor, of what data are
handed out as and the data. -/
structure Follows (good : Float → Prop) (R : Host → Value → Prop) : Prop where
  number {x : Float} (hx : good x) (i : Identity) : R (lowerNumber x) (.number i x)
  text (s : String) : R (.text s) (.string s)
  truth (flag : Bool) : R (.truth flag) (Value.truth flag)
  list {hs : List Host} {vs : List Value} (h : List.Forall₂ R hs vs) (i : Identity) :
    R (.list hs) (.array i vs)
  map {entries : List (Host × Host)} {slots : List (String × Value)}
    (h : List.Forall₂ (fun entry slot => entry.1 = .text slot.1 ∧ R entry.2 slot.2) entries slots)
    (hdistinct : (Slots.names slots).Nodup) (i : Identity) : R (.map entries) (.record i slots)

section

variable {R : Host → Value → Prop}

theorem exists_lowerAll {vs : List Value} (h : ∀ v ∈ vs, ∃ h, v.lower = .ok h ∧ R h v.unlist) :
    ∃ hs, lowerAll vs = .ok hs ∧ List.Forall₂ R hs (unlistAll vs) := by
  induction vs with
  | nil => exact ⟨[], rfl, .nil⟩
  | cons v vs ih =>
      obtain ⟨host, hlower, hhost⟩ := h v (.head _)
      obtain ⟨hs, hlowerAll, hall⟩ := ih fun u hu => h u (.tail _ hu)
      refine ⟨host :: hs, ?_, .cons hhost hall⟩
      rw [lowerAll, hlower, hlowerAll]
      rfl

theorem exists_lowerSlots {slots : Slots}
    (h : ∀ slot ∈ slots, ∃ h, slot.2.lower = .ok h ∧ R h slot.2.unlist) :
    ∃ entries, lowerSlots slots = .ok entries ∧
      List.Forall₂ (fun entry slot => entry.1 = .text slot.1 ∧ R entry.2 slot.2) entries
        (unlistSlots slots) := by
  induction slots with
  | nil => exact ⟨[], rfl, .nil⟩
  | cons slot slots ih =>
      obtain ⟨name, v⟩ := slot
      obtain ⟨host, hlower, hhost⟩ : ∃ h, v.lower = .ok h ∧ R h v.unlist := h (name, v) (.head _)
      obtain ⟨entries, hlowerSlots, hall⟩ := ih fun u hu => h u (.tail _ hu)
      refine ⟨(.text name, host) :: entries, ?_, .cons ⟨rfl, hhost⟩ hall⟩
      rw [lowerSlots, hlower, hlowerSlots]
      rfl

theorem names_unlistSlots (slots : Slots) : Slots.names (unlistSlots slots) = slots.names := by
  induction slots with
  | nil => rfl
  | cons slot slots ih => exact congrArg (slot.1 :: ·) ih

theorem unlist_truth (flag : Bool) : (Value.truth flag).unlist = Value.truth flag := by
  cases flag <;> rfl

/-- Data are handed out as what such a relation holds of. -/
theorem IsData.exists_lower {good : Float → Prop} (hR : Follows good R) {v : Value}
    (h : v.IsData good) : ∃ h, v.lower = .ok h ∧ R h v.unlist := by
  induction h with
  | @number i x hx => exact ⟨_, by rw [lower], hR.number hx i⟩
  | string text => exact ⟨_, by rw [lower], hR.text text⟩
  | truth flag =>
      refine ⟨.truth flag, ?_, ?_⟩
      · cases flag <;> rfl
      · rw [unlist_truth]
        exact hR.truth flag
  | @array i items hitems ih =>
      obtain ⟨hs, hlower, hall⟩ := exists_lowerAll ih
      refine ⟨.list hs, ?_, hR.list hall i⟩
      rw [lower, hlower]
      rfl
  | @record i slots hnames hslots ih =>
      obtain ⟨entries, hlower, hall⟩ := exists_lowerSlots ih
      have hdistinct : (Slots.names (unlistSlots slots)).Nodup := by rwa [names_unlistSlots]
      refine ⟨.map entries, ?_, hR.map hall hdistinct i⟩
      rw [lower, hlower]
      rfl
  | list hlist helements ih =>
      obtain ⟨hs, hlower, hall⟩ := exists_lowerAll ih
      obtain ⟨i, hunlist⟩ := hlist.unlist_eq
      refine ⟨.list hs, ?_, ?_⟩
      · rw [hlist.lower_eq, hlower]
        rfl
      · rw [hunlist]
        exact hR.list hall i

end

/-! ## What data are alike -/

/-- Data without lists that are alike: equal numbers, the same strings and truth values, arrays of
data that are alike, and records of such data with the same keys in the same order. -/
inductive Alike : Value → Value → Prop
  | number {i j : Identity} {x y : Float} (h : (x == y) = true) :
      Alike (.number i x) (.number j y)
  | string (text : String) : Alike (.string text) (.string text)
  | truth (flag : Bool) : Alike (Value.truth flag) (Value.truth flag)
  | array {i j : Identity} {xs ys : List Value} (hlength : xs.length = ys.length)
      (hitems : ∀ p ∈ xs.zip ys, Alike p.1 p.2) : Alike (.array i xs) (.array j ys)
  | record {i j : Identity} {xs ys : List (String × Value)} (hnames : Slots.names xs = Slots.names ys)
      (hdistinct : (Slots.names ys).Nodup)
      (hslots : ∀ p ∈ (xs.map Prod.snd).zip (ys.map Prod.snd), Alike p.1 p.2) :
      Alike (.record i xs) (.record j ys)

theorem lowerAll_congr {xs ys : List Value} (hlength : xs.length = ys.length)
    (h : ∀ p ∈ xs.zip ys, p.1.lower = p.2.lower) : lowerAll xs = lowerAll ys := by
  induction xs generalizing ys with
  | nil => rw [List.length_eq_zero_iff.1 hlength.symm]
  | cons x xs ih =>
      cases ys with
      | nil => cases hlength
      | cons y ys =>
          have hfirst : x.lower = y.lower := h (x, y) (.head _)
          have hrest := ih (Nat.succ.inj hlength) fun p hp => h p (.tail _ hp)
          rw [lowerAll, lowerAll, hfirst, hrest]

theorem lowerSlots_congr {xs ys : Slots} (hnames : xs.names = ys.names)
    (h : ∀ p ∈ (xs.map Prod.snd).zip (ys.map Prod.snd), p.1.lower = p.2.lower) :
    lowerSlots xs = lowerSlots ys := by
  induction xs generalizing ys with
  | nil => rw [List.map_eq_nil_iff.1 hnames.symm]
  | cons x xs ih =>
      cases ys with
      | nil => cases hnames
      | cons y ys =>
          obtain ⟨name, v⟩ := x
          obtain ⟨name', u⟩ := y
          obtain ⟨rfl, hrest⟩ := List.cons.inj hnames
          have hfirst : v.lower = u.lower := h (v, u) (.head _)
          rw [lowerSlots, lowerSlots, hfirst, ih hrest fun p hp => h p (.tail _ hp)]

namespace Alike

/-- Data that are alike are handed out alike. -/
theorem lower_eq {a b : Value} (h : Alike a b) : a.lower = b.lower := by
  induction h with
  | number h => rw [lower, lower, Number.lowerNumber_congr h]
  | string | truth => rfl
  | array hlength hitems ih => rw [lower, lower, lowerAll_congr hlength ih]
  | record hnames hdistinct hslots ih => rw [lower, lower, lowerSlots_congr hnames ih]

/-- Fields of one name stand side by side if the names are the same in the same order. -/
theorem mem_zip_of_mem {xs ys : Slots} (hnames : xs.names = ys.names) (hdistinct : ys.names.Nodup)
    {name : String} {x y : Value} (hx : (name, x) ∈ xs) (hy : (name, y) ∈ ys) :
    (x, y) ∈ (xs.map Prod.snd).zip (ys.map Prod.snd) := by
  obtain ⟨k, hk⟩ := List.mem_iff_getElem?.1 hx
  obtain ⟨k', hk'⟩ := List.mem_iff_getElem?.1 hy
  have hname : ys.names[k]? = some name := by
    rw [← hnames, Slots.names, List.getElem?_map, hk]
    rfl
  have hname' : ys.names[k']? = some name := by
    rw [Slots.names, List.getElem?_map, hk']
    rfl
  have hbound := (List.getElem?_eq_some_iff.1 hname).1
  obtain rfl : k = k' := (List.getElem?_inj hbound hdistinct).1 (hname.trans hname'.symm)
  rw [List.mem_iff_getElem?]
  refine ⟨k, ?_⟩
  rw [List.getElem?_zip_eq_some, List.getElem?_map, List.getElem?_map, hk, hk']
  exact ⟨rfl, rfl⟩

/-- Data that are alike are equal part by part. -/
theorem equalParts {a b : Value} (h : Alike a b) (legacy : Bool) : EqualParts legacy a b := by
  induction h with
  | number h => exact .number h
  | string text => exact .same (by simp [isSame])
  | truth flag => exact .same (by cases flag <;> rfl)
  | array hlength hitems ih =>
      refine .array hlength.le (fun _ => hlength.ge) fun k x y hx hy => ?_
      exact ih (x, y) (mem_zip_iff.2 ⟨k, hx, hy⟩)
  | @record i j xs ys hnames hdistinct hslots ih =>
      refine .record (by rw [hnames]; exact List.Subset.refl _)
        (fun _ => by rw [hnames]; exact List.Subset.refl _) fun name x y hx hy => ?_
      exact ih (x, y) (mem_zip_of_mem hnames hdistinct hx (Slots.mem_of_get? hy))

end Alike

end VariantScript.Value
