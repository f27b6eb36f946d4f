import VariantScript.Proofs.Marshalling.Encoded
import VariantScript.Proofs.Serialization.RoundTrip
import VariantScript.Proofs.SideBySide.Values

/-!
# Equal values are serialized alike

Values are equal if their parts are, whatever identities they have, in whatever order records have
their fields, and whatever sign zero has.  What is handed out, written and shown depends on none of
these but the order of fields: equal values are handed out alike up to this order, and if it is the
same wherever the two values correspond, they are written and shown as the same text.
-/

namespace VariantScript

/-- Host values that differ at most in the order of the entries of maps. -/
inductive Host.SameButOrder : Host → Host → Prop where
  | same (h : Host) : SameButOrder h h
  | list {xs ys : List Host} (hlength : xs.length = ys.length)
      (hitems : ∀ (k : Nat) (x y : Host), xs[k]? = some x → ys[k]? = some y → SameButOrder x y) :
      SameButOrder (.list xs) (.list ys)
  | map {xs ys : List (Host × Host)} (hdistinct : (xs.map Prod.fst).Nodup)
      (hkeys : (xs.map Prod.fst).Perm (ys.map Prod.fst))
      (hitems : ∀ key x y, (key, x) ∈ xs → (key, y) ∈ ys → SameButOrder x y) :
      SameButOrder (.map xs) (.map ys)

namespace Value

/-! ## Plain values -/

/-- An encoded value without functions in which all numbers are finite. -/
structure IsPlain (v : Value) : Prop where
  encoded : v.IsEncoded
  noFunction : ¬ v.HoldsFunction
  finite (i : Identity) (x : Float) (hx : v.Holds (.number i x)) : x.isFinite = true

namespace IsPlain

variable {i : Identity} {v : Value}

/-- What a plain value holds is plain if it is encoded. -/
theorem part {u : Value} (h : v.IsPlain) (hu : v.Holds u) (hencoded : u.IsEncoded) : u.IsPlain where
  encoded := hencoded
  noFunction := fun ⟨w, hw, hf⟩ => h.noFunction ⟨w, hu.trans hw, hf⟩
  finite i x hx := h.finite i x (hu.trans hx)

/-- Induction over plain values.  What a boolean carries is not looked at. -/
@[elab_as_elim]
theorem induction {motive : (v : Value) → v.IsPlain → Prop}
    (number : ∀ i x h, x.isFinite = true → motive (.number i x) h)
    (string : ∀ text h, motive (.string text) h)
    (array : ∀ i items h, (∀ v ∈ items, ∃ hv, motive v hv) → motive (.array i items) h)
    (record : ∀ i slots h, (Slots.names slots).Nodup →
      (∀ slot ∈ slots, ∃ hv, motive slot.2 hv) → motive (.record i slots) h)
    (boolean : ∀ i tag payload h, tag.family = .boolean → motive (.variant i tag payload) h)
    (list : ∀ v elements h, IsChainOf v elements → (∀ e ∈ elements, ∃ he, motive e he) → motive v h)
    (v : Value) (h : v.IsPlain) : motive v h := by
  have hencoded := h.encoded
  induction hencoded with
  | number i x => exact number i x h (h.finite i x .here)
  | string text => exact string text h
  | array hitems ih =>
      exact array _ _ h fun v hv => ⟨_, ih v hv (h.part (.item hv .here) (hitems v hv))⟩
  | record hnames hslots ih =>
      exact record _ _ h hnames fun slot hslot =>
        ⟨_, ih slot hslot (h.part (.slot hslot .here) (hslots slot hslot))⟩
  | boolean htag => exact boolean _ _ _ h htag
  | list hlist helements ih =>
      exact list _ _ h hlist fun e he =>
        ⟨_, ih e he (h.part (hlist.holds he .here) (helements e he))⟩
  | closure | builtin => exact absurd ⟨_, .here, trivial⟩ h.noFunction

end IsPlain

end Value

namespace Json

/-- A host value that has a text in every layout and at every depth. -/
def IsWritable (h : Host) : Prop :=
  ∀ l depth, ∃ text, write l depth h = .ok text

theorem isWritable_lowerNumber {x : Float} (hx : x.isFinite = true) :
    IsWritable (Value.lowerNumber x) := by
  have hfloat : IsWritable (.float x) := by
    intro l depth
    exact ⟨Number.text x, by rw [write]; unfold writeFloat; rw [if_pos hx]⟩
  have hwhole (n : Int) : IsWritable (.whole n) := fun _ _ => ⟨_, by rw [write]⟩
  unfold Value.lowerNumber
  split
  · split
    · exact hwhole _
    · exact hfloat
  · exact hfloat

theorem isWritable_list {hs : List Host} {vs : List Value}
    (h : List.Forall₂ (fun h _ => IsWritable h) hs vs) : IsWritable (.list hs) := by
  have hall (l : Layout) (depth : Nat) : ∃ texts, writeAll l depth hs = .ok texts := by
    induction h with
    | nil => exact ⟨[], by rw [writeAll]⟩
    | cons hfirst _ ih =>
        obtain ⟨text, hwrite⟩ := hfirst l depth
        obtain ⟨texts, hrest⟩ := ih
        exact ⟨text :: texts, by rw [writeAll, hwrite, hrest]; rfl⟩
  intro l depth
  obtain ⟨texts, hwrite⟩ := hall l (depth + 1)
  exact ⟨_, by rw [write, hwrite]; rfl⟩

theorem isWritable_map {entries : List (Host × Host)} {slots : Slots}
    (h : List.Forall₂ (fun entry slot => entry.1 = .text slot.1 ∧ IsWritable entry.2) entries
      slots) : IsWritable (.map entries) := by
  have hall (l : Layout) (depth : Nat) : ∃ texts, writeEntries l depth entries = .ok texts := by
    induction h with
    | nil => exact ⟨[], by rw [writeEntries]⟩
    | @cons entry slot entries slots hfirst _ ih =>
        obtain ⟨key, item⟩ := entry
        obtain ⟨rfl, hitem⟩ := hfirst
        obtain ⟨text, hwrite⟩ := hitem l depth
        obtain ⟨texts, hrest⟩ := ih
        exact ⟨_, by rw [writeEntries, write, hwrite, hrest]; rfl⟩
  intro l depth
  obtain ⟨texts, hwrite⟩ := hall l (depth + 1)
  exact ⟨_, by rw [write, hwrite]; rfl⟩

end Json

namespace Value

/-- Plain values are handed out as what can be written. -/
theorem IsPlain.exists_lower {v : Value} (h : v.IsPlain) :
    ∃ h, v.lower = .ok h ∧ Json.IsWritable h := by
  induction v, h using IsPlain.induction with
  | number i x _ hx => exact ⟨_, by rw [lower], Json.isWritable_lowerNumber hx⟩
  | string text => exact ⟨.text text, by rw [lower], fun _ _ => ⟨_, by rw [Json.write]⟩⟩
  | array i items _ ih =>
      obtain ⟨hs, hlower, hall⟩ := exists_lowerAll (R := fun h _ => Json.IsWritable h)
        fun v hv => (ih v hv).2
      exact ⟨.list hs, by rw [lower, hlower]; rfl, Json.isWritable_list hall⟩
  | record i slots _ hnames ih =>
      obtain ⟨entries, hlower, hall⟩ := exists_lowerSlots (R := fun h _ => Json.IsWritable h)
        fun slot hslot => (ih slot hslot).2
      exact ⟨.map entries, by rw [lower, hlower]; rfl, Json.isWritable_map hall⟩
  | boolean i tag payload _ htag =>
      have hwritable (flag : Bool) : Json.IsWritable (.truth flag) :=
        fun _ _ => ⟨_, by rw [Json.write]⟩
      cases tag with
      | yes => exact ⟨.truth true, by rw [lower], hwritable true⟩
      | no => exact ⟨.truth false, by rw [lower], hwritable false⟩
      | empty | head => cases htag
  | list v elements _ hlist ih =>
      obtain ⟨hs, hlower, hall⟩ := exists_lowerAll (R := fun h _ => Json.IsWritable h)
        fun e he => (ih e he).2
      exact ⟨.list hs, by rw [hlist.isListOf.lower_eq, hlower]; rfl, Json.isWritable_list hall⟩

/-! ## What equal values look like -/

section

variable {heap : Identity → Option Value} {i : Identity} {a b : Value}

/-- Values of one heap that are the same are one value, unless they are foreign. -/
theorem eq_of_isSame_of_encoded (ha : a.LivesIn heap) (hb : b.LivesIn heap)
    (hforeign : a.isForeign = false) (h : isSame a b = true) : a = b := by
  rcases eq_of_isSame ha hb h with heq | ⟨i, j, d, -, rfl, -⟩
  · exact heq
  · cases hforeign

namespace EqualParts

theorem number_inv {x : Float} (hx : x.isFinite = true) (ha : (Value.number i x).LivesIn heap)
    (hb : b.LivesIn heap) (h : EqualParts false (.number i x) b) :
    ∃ j y, b = .number j y ∧ (x == y) = true := by
  cases h with
  | same hsame =>
      obtain rfl := eq_of_isSame_of_encoded ha hb rfl hsame
      exact ⟨i, x, rfl, Number.beq_self_of_isFinite hx⟩
  | number hxy => exact ⟨_, _, rfl, hxy⟩

theorem string_inv {text : String} (hb : b.LivesIn heap) (h : EqualParts false (.string text) b) :
    b = .string text := by
  cases h with
  | same hsame => exact (eq_of_isSame_of_encoded .string hb rfl hsame).symm

theorem array_inv {xs : List Value} (ha : (Value.array i xs).LivesIn heap) (hb : b.LivesIn heap)
    (h : EqualParts false (.array i xs) b) : ∃ j ys, b = .array j ys ∧ xs.length = ys.length ∧
      ∀ (k : Nat) (x y : Value), xs[k]? = some x → ys[k]? = some y → EqualParts false x y := by
  cases h with
  | same hsame =>
      obtain rfl := eq_of_isSame_of_encoded ha hb rfl hsame
      refine ⟨i, xs, rfl, rfl, fun k x y hx hy => ?_⟩
      cases hx.symm.trans hy
      exact .same (isSame_refl x)
  | array hlength hcount hitems => exact ⟨_, _, rfl, hlength.antisymm (hcount rfl), hitems⟩

theorem record_inv {xs : List (String × Value)} (ha : (Value.record i xs).LivesIn heap)
    (hb : b.LivesIn heap) (h : EqualParts false (.record i xs) b) :
    ∃ j ys, b = .record j ys ∧ (Slots.names xs).Perm (Slots.names ys) ∧
      ∀ (name : String) (x y : Value), (name, x) ∈ xs → (name, y) ∈ ys → EqualParts false x y := by
  cases h with
  | same hsame =>
      obtain rfl := eq_of_isSame_of_encoded ha hb rfl hsame
      refine ⟨i, xs, rfl, .refl _, fun name x y hx hy => ?_⟩
      cases ha with
      | record _ hnames =>
          cases (Slots.get?_of_mem hnames hx).symm.trans (Slots.get?_of_mem hnames hy)
          exact .same (isSame_refl x)
  | record hleft hright hslots =>
      cases ha with
      | record _ hxs =>
          cases hb with
          | record _ hys =>
              refine ⟨_, _, rfl, ?_, fun name x y hx hy =>
                hslots name x y hx (Slots.get?_of_mem hys hy)⟩
              exact (List.perm_ext_iff_of_nodup hxs hys).2 fun name =>
                ⟨fun h => hleft h, fun h => hright rfl h⟩

theorem variant_inv {tag : Tag} {p : Value} (ha : (Value.variant i tag p).LivesIn heap)
    (hb : b.LivesIn heap) (h : EqualParts false (.variant i tag p) b) :
    ∃ j q, b = .variant j tag q ∧ EqualParts false p q := by
  cases h with
  | same hsame =>
      obtain rfl := eq_of_isSame_of_encoded ha hb rfl hsame
      exact ⟨i, p, rfl, .same (isSame_refl p)⟩
  | variant hpayload => exact ⟨_, _, rfl, hpayload⟩

/-- What equals a list is a list of equal elements. -/
theorem list_inv {es : List Value} (hlist : a.IsChainOf es) (ha : a.LivesIn heap)
    (hb : b.LivesIn heap) (h : EqualParts false a b) :
    ∃ es', b.IsChainOf es' ∧ List.Forall₂ (EqualParts false) es es' := by
  induction hlist generalizing b with
  | empty =>
      obtain ⟨j, q, rfl, hpayload⟩ := variant_inv ha hb h
      cases ha with | variant _ ha => cases hb with | variant _ hb =>
      obtain ⟨k, ys, rfl, hlength, -⟩ := array_inv ha hb hpayload
      obtain rfl := List.length_eq_zero_iff.1 hlength.symm
      exact ⟨[], .empty, .nil⟩
  | @head i j element rest elements hrest ih =>
      obtain ⟨i', q, rfl, hpayload⟩ := variant_inv ha hb h
      cases ha with | variant _ ha => cases hb with | variant _ hb =>
      obtain ⟨j', ys, rfl, hlength, hitems⟩ := array_inv ha hb hpayload
      obtain ⟨element', rest', rfl⟩ := List.length_eq_two.1 hlength.symm
      cases ha with | array _ ha => cases hb with | array _ hb =>
      obtain ⟨es', hchain, helements⟩ := ih (ha rest (by simp)) (hb rest' (by simp))
        (hitems 1 rest rest' rfl rfl)
      exact ⟨element' :: es', .head hchain, .cons (hitems 0 element element' rfl rfl) helements⟩

end EqualParts

theorem IsChainOf.livesIn {es : List Value} (h : a.IsChainOf es) (ha : a.LivesIn heap) :
    ∀ e ∈ es, e.LivesIn heap := by
  induction h with
  | empty => simp
  | head hrest ih =>
      cases ha with | variant _ hpair =>
      cases hpair with | array _ hitems =>
      exact List.forall_mem_cons.2 ⟨hitems _ (.head _), ih (hitems _ (.tail _ (.head _)))⟩

end

/-! ## Corresponding parts -/

/-- Two parts that correspond in two values: items at one place, fields of one name, and what variants
of one branch carry. -/
inductive Faces : Value → Value → Value → Value → Prop where
  | here {a b : Value} : Faces a b a b
  | item {i j : Identity} {xs ys : List Value} {k : Nat} {x y p q : Value} (hx : xs[k]? = some x)
      (hy : ys[k]? = some y) (h : Faces x y p q) : Faces (.array i xs) (.array j ys) p q
  | slot {i j : Identity} {xs ys : List (String × Value)} {name : String} {x y p q : Value}
      (hx : (name, x) ∈ xs) (hy : (name, y) ∈ ys) (h : Faces x y p q) :
      Faces (.record i xs) (.record j ys) p q
  | payload {i j : Identity} {tag : Tag} {x y p q : Value} (h : Faces x y p q) :
      Faces (.variant i tag x) (.variant j tag y) p q

/-- Records that correspond in two values have their names in the same order. -/
def KeysAgree (a b : Value) : Prop :=
  ∀ i j xs ys, Faces a b (.record i xs) (.record j ys) → Slots.names xs = Slots.names ys

theorem IsChainOf.faces {a b p q : Value} {es es' : List Value} (ha : a.IsChainOf es)
    (hb : b.IsChainOf es') {k : Nat} {e e' : Value} (he : es[k]? = some e) (he' : es'[k]? = some e')
    (h : Faces e e' p q) : Faces a b p q := by
  induction ha generalizing b es' k with
  | empty => cases he
  | head hrest ih =>
      cases hb with
      | empty => cases he'
      | head hrest' =>
          cases k with
          | zero =>
              cases he
              cases he'
              exact .payload (.item (k := 0) rfl rfl h)
          | succ k => exact .payload (.item (k := 1) rfl rfl (ih hrest' he he'))

/-- Values that coincide up to identities, the sign of zero and what booleans carry, and where the names
of records that correspond are in some relation. -/
inductive Coincide (R : List String → List String → Prop) : Value → Value → Prop where
  | number {i j : Identity} {x y : Float} (h : (x == y) = true) :
      Coincide R (.number i x) (.number j y)
  | string (text : String) : Coincide R (.string text) (.string text)
  | array {i j : Identity} {xs ys : List Value} (hlength : xs.length = ys.length)
      (hitems : ∀ (k : Nat) (x y : Value), xs[k]? = some x → ys[k]? = some y → Coincide R x y) :
      Coincide R (.array i xs) (.array j ys)
  | record {i j : Identity} {xs ys : List (String × Value)} (hdistinct : (Slots.names xs).Nodup)
      (hnames : R (Slots.names xs) (Slots.names ys))
      (hslots : ∀ (name : String) (x y : Value), (name, x) ∈ xs → (name, y) ∈ ys →
        Coincide R x y) : Coincide R (.record i xs) (.record j ys)
  | boolean {i j : Identity} {tag : Tag} {p q : Value} (htag : tag.family = .boolean) :
      Coincide R (.variant i tag p) (.variant j tag q)
  | list {a b : Value} {es es' : List Value} (ha : IsChainOf a es) (hb : IsChainOf b es')
      (hlength : es.length = es'.length)
      (helements : ∀ (k : Nat) (e e' : Value), es[k]? = some e → es'[k]? = some e' →
        Coincide R e e') : Coincide R a b

/-- Equal values coincide, with any relation between the names of records that equality and the places
of the records imply. -/
theorem IsPlain.coincide {heap : Identity → Option Value} {R : List String → List String → Prop}
    {a b : Value} (h : a.IsPlain) (ha : a.LivesIn heap) (hb : b.LivesIn heap)
    (hequal : EqualParts false a b)
    (hR : ∀ i j xs ys, Faces a b (.record i xs) (.record j ys) →
      (Slots.names xs).Perm (Slots.names ys) → R (Slots.names xs) (Slots.names ys)) :
    Coincide R a b := by
  induction a, h using IsPlain.induction generalizing b with
  | number i x _ hx =>
      obtain ⟨j, y, rfl, hxy⟩ := hequal.number_inv hx ha hb
      exact .number hxy
  | string text =>
      obtain rfl := hequal.string_inv hb
      exact .string text
  | array i items _ ih =>
      obtain ⟨j, ys, rfl, hlength, hitems⟩ := hequal.array_inv ha hb
      cases ha with | array _ ha => cases hb with | array _ hb =>
      refine .array hlength fun k x y hx hy => ?_
      obtain ⟨_, hcoincide⟩ := ih x (List.mem_of_getElem? hx)
      exact hcoincide (ha x (List.mem_of_getElem? hx)) (hb y (List.mem_of_getElem? hy))
        (hitems k x y hx hy) fun i j xs ys hfaces => hR i j xs ys (.item hx hy hfaces)
  | record i slots _ hnames ih =>
      obtain ⟨j, ys, rfl, hperm, hslots⟩ := hequal.record_inv ha hb
      cases ha with | record _ _ ha => cases hb with | record _ _ hb =>
      refine .record hnames (hR _ _ _ _ .here hperm) fun name x y hx hy => ?_
      obtain ⟨_, hcoincide⟩ := ih (name, x) hx
      exact hcoincide (ha _ hx) (hb _ hy) (hslots name x y hx hy)
        fun i j xs ys hfaces => hR i j xs ys (.slot hx hy hfaces)
  | boolean i tag payload _ htag =>
      obtain ⟨j, q, rfl, -⟩ := hequal.variant_inv ha hb
      exact .boolean htag
  | list v elements _ hlist ih =>
      obtain ⟨es', hlist', helements⟩ := hequal.list_inv hlist ha hb
      obtain ⟨hlength, hitems⟩ := forall₂_iff_getElem?.1 helements
      refine .list hlist hlist' hlength fun k e e' he he' => ?_
      have hmem := List.mem_of_getElem? he
      obtain ⟨_, hcoincide⟩ := ih e hmem
      exact hcoincide (hlist.livesIn ha e hmem) (hlist'.livesIn hb e' (List.mem_of_getElem? he'))
        (hitems k e e' he he') fun i j xs ys hfaces =>
          hR i j xs ys (hlist.faces hlist' he he' hfaces)

/-! ## Handing out what coincides -/

/-- Fields under the same names in the same order are related side by side if they are so under each
name. -/
theorem forall₂_of_names {R : Value → Value → Prop} {xs ys : Slots} (hnames : xs.names = ys.names)
    (h : ∀ (name : String) (x y : Value), (name, x) ∈ xs → (name, y) ∈ ys → R x y) :
    List.Forall₂ (fun x y => x.1 = y.1 ∧ R x.2 y.2) xs ys := by
  induction xs generalizing ys with
  | nil => rw [List.map_eq_nil_iff.1 hnames.symm]; exact .nil
  | cons x xs ih =>
      cases ys with
      | nil => cases hnames
      | cons y ys =>
          obtain ⟨hname, hrest⟩ := List.cons.inj hnames
          refine .cons ⟨hname, h x.1 x.2 y.2 (.head _) (hname ▸ .head _)⟩ (ih hrest ?_)
          exact fun name u v hu hv => h name u v (.tail _ hu) (.tail _ hv)

/-- Where names have the same order, what coincides is handed out alike. -/
theorem Coincide.lower_eq {a b : Value} (h : Coincide Eq a b) : a.lower = b.lower := by
  induction h with
  | number h => rw [lower, lower, Number.lowerNumber_congr h]
  | string => rfl
  | array hlength hitems ih =>
      have hall := lowerAll_congr hlength fun p hp => by
        obtain ⟨k, hx, hy⟩ := mem_zip_iff.1 hp
        exact ih k p.1 p.2 hx hy
      rw [lower, lower, hall]
  | @record i j xs ys _ hnames _ ih =>
      have hvalues : List.Forall₂ (fun x y => x.lower = y.lower) (xs.map Prod.snd)
          (ys.map Prod.snd) := by
        rw [List.forall₂_map_left_iff, List.forall₂_map_right_iff]
        exact (forall₂_of_names hnames ih).imp fun _ _ h => h.2
      rw [lower, lower, lowerSlots_congr hnames fun p hp => (List.forall₂_iff_zip.1 hvalues).2 hp]
  | @boolean i j tag p q htag =>
      cases tag with
      | yes | no => rw [lower, lower]
      | empty | head => cases htag
  | list ha hb hlength helements ih =>
      have hall := lowerAll_congr hlength fun p hp => by
        obtain ⟨k, hx, hy⟩ := mem_zip_iff.1 hp
        exact ih k p.1 p.2 hx hy
      rw [ha.isListOf.lower_eq, hb.isListOf.lower_eq, hall]

theorem keys_of_lowerSlots {slots : Slots} {entries : List (Host × Host)}
    (h : lowerSlots slots = .ok entries) : entries.map Prod.fst = slots.names.map Host.text := by
  have hall := forall₂_of_lowerSlots h
  clear h
  induction hall with
  | nil => rfl
  | cons hfirst _ ih =>
      rw [List.map_cons, hfirst.1, ih]
      rfl

/-- What items side by side are handed out as differs at most in order if it does so for each. -/
theorem sameButOrder_list {xs ys : List Value} {hs hs' : List Host}
    (h : List.Forall₂ (fun x y => ∀ h h' : Host, x.lower = .ok h → y.lower = .ok h' →
      h.SameButOrder h') xs ys)
    (hxs : lowerAll xs = .ok hs) (hys : lowerAll ys = .ok hs') :
    (Host.list hs).SameButOrder (.list hs') := by
  have hleft := forall₂_of_lowerAll hxs
  have hright := forall₂_of_lowerAll hys
  have hall : List.Forall₂ Host.SameButOrder hs hs' := by
    clear hxs hys
    induction h generalizing hs hs' with
    | nil =>
        cases hleft
        cases hright
        exact .nil
    | cons hfirst _ ih =>
        cases hleft with | cons hx hleft =>
        cases hright with | cons hy hright =>
        exact .cons (hfirst _ _ hx hy) (ih hleft hright)
  obtain ⟨hlength, hitems⟩ := forall₂_iff_getElem?.1 hall
  exact .list hlength hitems

/-- The item under a key is what the field of this name is handed out as. -/
theorem exists_slot_of_entry {slots : Slots} {entries : List (Host × Host)}
    (h : lowerSlots slots = .ok entries) {key item : Host} (hentry : (key, item) ∈ entries) :
    ∃ name v, key = .text name ∧ (name, v) ∈ slots ∧ v.lower = .ok item := by
  obtain ⟨⟨name, v⟩, hslot, hkey, hlower⟩ :=
    exists_of_mem_forall₂ (forall₂_of_lowerSlots h).flip hentry
  exact ⟨name, v, hkey, hslot, hlower⟩

/-- Where the names are the same in some order, what coincides is handed out alike but for the order of
entries. -/
theorem Coincide.sameButOrder {a b : Value} (h : Coincide List.Perm a b) {host host' : Host}
    (ha : a.lower = .ok host) (hb : b.lower = .ok host') : host.SameButOrder host' := by
  induction h generalizing host host' with
  | number h =>
      rw [lower, Number.lowerNumber_congr h] at ha
      rw [lower] at hb
      cases ha
      cases hb
      exact .same _
  | string =>
      cases ha
      cases hb
      exact .same _
  | array hlength _ ih =>
      rw [lower] at ha hb
      obtain ⟨hs, hxs, hlist⟩ := exists_of_bind ha
      obtain ⟨hs', hys, hlist'⟩ := exists_of_bind hb
      cases hlist
      cases hlist'
      exact sameButOrder_list
        (forall₂_iff_getElem?.2 ⟨hlength, fun k x y hx hy _ _ => ih k x y hx hy⟩) hxs hys
  | record hdistinct hnames _ ih =>
      rw [lower] at ha hb
      obtain ⟨entries, hxs, hmap⟩ := exists_of_bind ha
      obtain ⟨entries', hys, hmap'⟩ := exists_of_bind hb
      cases hmap
      cases hmap'
      have hkeys := keys_of_lowerSlots hxs
      refine .map ?_ ?_ fun key x y hx hy => ?_
      · rw [hkeys]
        exact hdistinct.map fun _ _ => Host.text.inj
      · rw [hkeys, keys_of_lowerSlots hys]
        exact hnames.map Host.text
      · obtain ⟨name, v, rfl, hv, hlower⟩ := exists_slot_of_entry hxs hx
        obtain ⟨name', u, hname, hu, hlower'⟩ := exists_slot_of_entry hys hy
        cases hname
        exact ih name v u hv hu hlower hlower'
  | @boolean i j tag p q htag =>
      cases tag with
      | yes | no =>
          rw [lower] at ha hb
          cases ha
          cases hb
          exact .same _
      | empty | head => cases htag
  | list hes hes' hlength _ ih =>
      rw [hes.isListOf.lower_eq] at ha
      rw [hes'.isListOf.lower_eq] at hb
      obtain ⟨hs, hxs, hlist⟩ := exists_of_bind (k := fun hs => .ok (Host.list hs)) ha
      obtain ⟨hs', hys, hlist'⟩ := exists_of_bind (k := fun hs => .ok (Host.list hs)) hb
      cases hlist
      cases hlist'
      exact sameButOrder_list
        (forall₂_iff_getElem?.2 ⟨hlength, fun k x y hx hy _ _ => ih k x y hx hy⟩) hxs hys

/-! ## Showing what coincides -/

/-- Lists are shown alike if their elements are. -/
theorem IsChainOf.shownAlike {a b : Value} {es es' : List Value} (ha : a.IsChainOf es)
    (hb : b.IsChainOf es') (h : List.Forall₂ ShownAlike es es') : a.ShownAlike b := by
  induction h generalizing a b with
  | nil =>
      cases ha
      cases hb
      exact ⟨rfl, rfl, rfl, rfl⟩
  | cons helement _ ih =>
      cases ha with
      | head hrest =>
          cases hb with
          | head hrest' =>
              have hthen := ih hrest hrest'
              constructor
              · rw [display, display, helement.display, hthen.displayElements]
              · rw [displayElements, displayElements, helement.display, hthen.displayElements]
              · rw [defect?, defect?, helement.defect?, hthen.chainDefect?]
              · rw [chainDefect?, chainDefect?, helement.defect?, hthen.chainDefect?]

/-- Where names have the same order, what coincides is shown alike. -/
theorem Coincide.shownAlike {a b : Value} (h : Coincide Eq a b) : a.ShownAlike b := by
  induction h with
  | number h =>
      refine ⟨?_, rfl, rfl, rfl⟩
      rw [display, display, Number.display_congr h]
  | string => exact ⟨rfl, rfl, rfl, rfl⟩
  | array hlength _ ih =>
      obtain ⟨hdisplay, hdefect⟩ := shownAlike_all (forall₂_iff_getElem?.2 ⟨hlength, ih⟩)
      exact ⟨by rw [display, display, hdisplay], rfl, by rw [defect?, defect?, hdefect], rfl⟩
  | @record i j xs ys _ hnames _ ih =>
      obtain ⟨hdisplay, hdefect⟩ := shownAlike_slots (forall₂_of_names hnames ih)
      refine ⟨?_, rfl, by rw [defect?, defect?, hdefect], rfl⟩
      cases xs <;> cases ys <;> first | rfl | cases hnames | rw [display, display, hdisplay]
  | @boolean i j tag p q htag =>
      cases tag with
      | yes | no => exact ⟨rfl, rfl, rfl, rfl⟩
      | empty | head => cases htag
  | list ha hb hlength _ ih => exact ha.shownAlike hb (forall₂_iff_getElem?.2 ⟨hlength, ih⟩)

/-! ## Equal values -/

/-- Plain values that are equal are serialized alike: what they are handed out as differs at most in
the order of the entries of maps; and if the records that correspond in them have their names in the
same order, they have the same written form in every layout and are shown as the same text. -/
theorem equal_serialized {heap : Identity → Option Value} {a b : Value} (ha : a.LivesIn heap)
    (hb : b.LivesIn heap) (hplain : a.IsPlain) (hplain' : b.IsPlain)
    (hequal : structurallyEqual false a b = true) :
    (∃ h h', a.lower = .ok h ∧ b.lower = .ok h' ∧ h.SameButOrder h') ∧
    (KeysAgree a b →
      (∀ indent, ∃ text, ∀ next,
        (Json.ofLifted (Json.Layout.ofIndent indent) a).run next = .ok (text, next) ∧
        (Json.ofLifted (Json.Layout.ofIndent indent) b).run next = .ok (text, next)) ∧
      ∃ text, a.shown = .ok text ∧ b.shown = .ok text) := by
  have hparts := structurallyEqual_iff.1 hequal
  obtain ⟨h, hlower, hwritable⟩ := hplain.exists_lower
  obtain ⟨h', hlower', -⟩ := hplain'.exists_lower
  refine ⟨⟨h, h', hlower, hlower', ?_⟩, fun hkeys => ⟨fun indent => ?_, ?_⟩⟩
  · exact (hplain.coincide ha hb hparts fun _ _ _ _ _ hperm => hperm).sameButOrder hlower hlower'
  · have hcoincide := hplain.coincide ha hb hparts fun i j xs ys h _ => hkeys i j xs ys h
    have hsame : b.lower = .ok h := hcoincide.lower_eq.symm.trans hlower
    obtain ⟨text, hwrite⟩ := hwritable (Json.Layout.ofIndent indent) 0
    have hlift {v : Value} (hv : v.IsPlain) (next : Nat) : v.lift.run next = .ok (v, next) := by
      rw [lift_of_not_isForeign hv.encoded.not_isForeign]
      rfl
    exact ⟨text, fun next => ⟨Json.ofLifted_eq (hlift hplain next) hlower hwrite,
      Json.ofLifted_eq (hlift hplain' next) hsame hwrite⟩⟩
  · have hcoincide := hplain.coincide ha hb hparts fun i j xs ys h _ => hkeys i j xs ys h
    refine ⟨a.display, ?_, ?_⟩
    · rw [shown, hplain.encoded.no_defect]
    · rw [shown, hplain'.encoded.no_defect, hcoincide.shownAlike.display]

/-- A record of zero and one of negative zero. -/
theorem equal_serialized_zero :
    ∃ a b : Value, a = .record ⟨10⟩ [("k", .number ⟨11⟩ 0)] ∧
      b = .record ⟨12⟩ [("k", .number ⟨13⟩ (-0))] ∧ structurallyEqual false a b = true ∧
      (∃ h h', a.lower = .ok h ∧ b.lower = .ok h' ∧ h.SameButOrder h') ∧
      (∃ text, ∀ next,
        (Json.ofLifted (Json.Layout.ofIndent (some 2)) a).run next = .ok (text, next) ∧
        (Json.ofLifted (Json.Layout.ofIndent (some 2)) b).run next = .ok (text, next)) ∧
      ∃ text, a.shown = .ok text ∧ b.shown = .ok text := by
  let x : Value := .number ⟨11⟩ 0
  let y : Value := .number ⟨13⟩ (-0)
  let a : Value := .record ⟨10⟩ [("k", x)]
  let b : Value := .record ⟨12⟩ [("k", y)]
  let heap : Identity → Option Value := fun i => [x, y, a, b].find? (·.identity? = some i)
  have ha : a.LivesIn heap :=
    .record rfl (by decide) (List.forall_mem_singleton.2 (.number rfl))
  have hb : b.LivesIn heap :=
    .record rfl (by decide) (List.forall_mem_singleton.2 (.number rfl))
  have hplain (i j : Identity) {z : Float} (hz : z.isFinite = true) :
      (Value.record i [("k", .number j z)]).IsPlain := by
    refine ⟨.record (by simp [Slots.names]) (List.forall_mem_singleton.2 (.number j z)), ?_, ?_⟩
    · simp [HoldsFunction, IsFunction]
    · simpa using hz
  have hequal : structurallyEqual false a b = true := by
    refine structurallyEqual_iff.2 (.record (by decide) (fun _ => by decide) fun name u v hu hv => ?_)
    cases List.mem_singleton.1 hu
    cases hv
    exact .number (by decide +kernel)
  have hkeys : KeysAgree (.record ⟨10⟩ [("k", .number ⟨11⟩ 0)])
      (.record ⟨12⟩ [("k", .number ⟨13⟩ (-0))]) := by
    intro i j xs ys hfaces
    cases hfaces with
    | here => rfl
    | slot hx hy hfaces =>
        cases List.mem_singleton.1 hx
        cases List.mem_singleton.1 hy
        cases hfaces
  obtain ⟨hlowered, halike⟩ :=
    equal_serialized ha hb (hplain _ _ (by rfl)) (hplain _ _ (by rfl)) hequal
  exact ⟨a, b, rfl, rfl, hequal, hlowered, (halike hkeys).1 (some 2), (halike hkeys).2⟩

end Value

end VariantScript
