import Mathlib.Data.List.Forall2
import VariantScript.Evaluation.Fault
import VariantScript.Proofs.Comparison.Relation
import VariantScript.Proofs.Evaluation.Values

/-!
# Values of two runs side by side

Two runs of scripts hold values that correspond: objects that were made at the same point of both
have identities that stand for each other, and functions with the same text were made in scopes that
stand for each other.  `Value.Matches` says so for any way in which identities and scopes may stand
for each other.

Messages, comparisons and calls of variants do not tell corresponding values apart.
-/

namespace VariantScript

open Syntax

/-- Which identities stand for each other in two runs, and which scopes do for a function with some
body. -/
structure Matching where
  ids : Identity → Identity → Prop
  scopes : Term → ScopeId → ScopeId → Prop

namespace Matching

variable {m m' : Matching}

/-- What matches in the first way matches in the second. -/
structure Within (m m' : Matching) : Prop where
  ids {i j : Identity} (h : m.ids i j) : m'.ids i j
  scopes {body : Term} {s s' : ScopeId} (h : m.scopes body s s') : m'.scopes body s s'

/-- Each identity stands for one other at most. -/
structure OneToOne (m : Matching) : Prop where
  right {i j j' : Identity} (h : m.ids i j) (h' : m.ids i j') : j = j'
  left {i i' j : Identity} (h : m.ids i j) (h' : m.ids i' j) : i = i'

/-- The objects that exist once stand for themselves. -/
def Fixes (m : Matching) : Prop :=
  ∀ i : Identity, i.serial < Identity.firstFree → m.ids i i

/-- The runs in the other order. -/
def flip (m : Matching) : Matching where
  ids i j := m.ids j i
  scopes body s s' := m.scopes body s' s

theorem OneToOne.flip (h : m.OneToOne) : m.flip.OneToOne :=
  ⟨fun hi hj => h.left hi hj, fun hi hj => h.right hi hj⟩

/-- Identities and scopes stand for nothing but themselves. -/
structure Equates (m : Matching) : Prop where
  ids {i j : Identity} (h : m.ids i j) : j = i
  scopes {body : Term} {s s' : ScopeId} (h : m.scopes body s s') : s' = s

end Matching

/-! ## The relation -/

/-- Functions with the same text, made in scopes that stand for each other. -/
structure Closure.Matches (m : Matching) (f g : Closure) : Prop where
  params : g.params = f.params
  body : g.body = f.body
  name : g.name = f.name
  kind : g.kind = f.kind
  scope : m.scopes f.body f.scope g.scope

/-- Values that correspond part by part. -/
inductive Value.Matches (m : Matching) : Value → Value → Prop where
  | number {i j : Identity} {x : Float} (hid : m.ids i j) : Matches m (.number i x) (.number j x)
  | string {text : String} : Matches m (.string text) (.string text)
  | array {i j : Identity} {xs ys : List Value} (hid : m.ids i j) (hlength : xs.length = ys.length)
      (hitems : ∀ (k : Nat) (x y : Value), xs[k]? = some x → ys[k]? = some y → Matches m x y) :
      Matches m (.array i xs) (.array j ys)
  | record {i j : Identity} {xs ys : List (String × Value)} (hid : m.ids i j)
      (hlength : xs.length = ys.length)
      (hnames : ∀ (k : Nat) (x y : String × Value), xs[k]? = some x → ys[k]? = some y → x.1 = y.1)
      (hslots : ∀ (k : Nat) (x y : String × Value), xs[k]? = some x → ys[k]? = some y →
        Matches m x.2 y.2) :
      Matches m (.record i xs) (.record j ys)
  | variant {i j : Identity} {tag : Tag} {p q : Value} (hid : m.ids i j) (hpayload : Matches m p q) :
      Matches m (.variant i tag p) (.variant j tag q)
  | closure {i j : Identity} {f g : Closure} (hid : m.ids i j) (hfunction : f.Matches m g) :
      Matches m (.closure i f) (.closure j g)
  | builtin {operation : Builtin} : Matches m (.builtin operation) (.builtin operation)
  /-- What the surrounding program handed in is the same in both runs. -/
  | foreign {i j : Identity} {data : Host} (hid : m.ids i j) :
      Matches m (.foreign i data) (.foreign j data)

/-- Fields with the same names in the same order, and values that correspond. -/
def Slots.Matches (m : Matching) : Slots → Slots → Prop :=
  List.Forall₂ fun x y => x.1 = y.1 ∧ x.2.Matches m y.2

/-- Two lists are related item by item exactly if they are so at every index. -/
theorem forall₂_iff_getElem? {α β : Type} {R : α → β → Prop} {xs : List α} {ys : List β} :
    List.Forall₂ R xs ys ↔ xs.length = ys.length ∧
      ∀ (k : Nat) (x : α) (y : β), xs[k]? = some x → ys[k]? = some y → R x y := by
  rw [List.forall₂_iff_get]
  refine and_congr_right fun hlength => ⟨fun h k x y hx hy => ?_, fun h k hk hk' => ?_⟩
  · obtain ⟨hk, rfl⟩ := List.getElem?_eq_some_iff.1 hx
    obtain ⟨hk', rfl⟩ := List.getElem?_eq_some_iff.1 hy
    exact h k hk hk'
  · exact h k _ _ (List.getElem?_eq_getElem hk) (List.getElem?_eq_getElem hk')

theorem optionRel_imp {α β : Type} {R S : α → β → Prop} {x : Option α} {y : Option β}
    (h : Option.Rel R x y) (hle : ∀ a b, R a b → S a b) : Option.Rel S x y := by
  cases h with
  | none => exact .none
  | some h => exact .some (hle _ _ h)

section

variable {m m' : Matching} {i j : Identity} {v v' a a' b b' : Value} {vs vs' : List Value}
  {fields fields' : Slots}

/-! ## Parts -/

theorem Closure.Matches.mono {f g : Closure} (h : f.Matches m g) (hle : m.Within m') :
    f.Matches m' g :=
  ⟨h.params, h.body, h.name, h.kind, hle.scopes h.scope⟩

theorem Closure.Matches.label {f g : Closure} (h : f.Matches m g) (unnamed : String) :
    g.label unnamed = f.label unnamed := by
  unfold Closure.label
  rw [h.name]

namespace Value

theorem Matches.mono (h : v.Matches m v') (hle : m.Within m') : v.Matches m' v' := by
  induction h with
  | number hid => exact .number (hle.ids hid)
  | string => exact .string
  | array hid hlength _ ih => exact .array (hle.ids hid) hlength ih
  | record hid hlength hnames _ ih => exact .record (hle.ids hid) hlength hnames ih
  | variant hid _ ih => exact .variant (hle.ids hid) ih
  | closure hid hf => exact .closure (hle.ids hid) (hf.mono hle)
  | builtin => exact .builtin
  | foreign hid => exact .foreign (hle.ids hid)

theorem Matches.flip (h : v.Matches m v') : v'.Matches m.flip v := by
  induction h with
  | number hid => exact .number hid
  | string => exact .string
  | array hid hlength _ ih => exact .array hid hlength.symm fun k x y hx hy => ih k y x hy hx
  | record hid hlength hnames _ ih =>
      exact .record hid hlength.symm (fun k x y hx hy => (hnames k y x hy hx).symm)
        fun k x y hx hy => ih k y x hy hx
  | variant hid _ ih => exact .variant hid ih
  | closure hid hf =>
      refine .closure hid ⟨hf.params.symm, hf.body.symm, hf.name.symm, hf.kind.symm, ?_⟩
      rw [hf.body]
      exact hf.scope
  | builtin => exact .builtin
  | foreign hid => exact .foreign hid

theorem matches_array (hid : m.ids i j) (h : List.Forall₂ (Matches m) vs vs') :
    (Value.array i vs).Matches m (Value.array j vs') :=
  .array hid (forall₂_iff_getElem?.1 h).1 (forall₂_iff_getElem?.1 h).2

theorem Matches.items (h : (Value.array i vs).Matches m (Value.array j vs')) :
    List.Forall₂ (Matches m) vs vs' := by
  cases h with
  | array _ hlength hitems => exact forall₂_iff_getElem?.2 ⟨hlength, hitems⟩

theorem matches_record (hid : m.ids i j) (h : fields.Matches m fields') :
    (Value.record i fields).Matches m (Value.record j fields') :=
  have hslots := forall₂_iff_getElem?.1 h
  .record hid hslots.1 (fun k x y hx hy => (hslots.2 k x y hx hy).1)
    fun k x y hx hy => (hslots.2 k x y hx hy).2

theorem Matches.slots (h : (Value.record i fields).Matches m (Value.record j fields')) :
    fields.Matches m fields' := by
  cases h with
  | record _ hlength hnames hslots =>
      exact forall₂_iff_getElem?.2
        ⟨hlength, fun k x y hx hy => ⟨hnames k x y hx hy, hslots k x y hx hy⟩⟩

theorem Matches.allMono (h : List.Forall₂ (Matches m) vs vs') (hle : m.Within m') :
    List.Forall₂ (Matches m') vs vs' :=
  h.imp fun _ _ hv => hv.mono hle

/-- Where everything stands for itself, every value corresponds to itself. -/
theorem matches_self (hids : ∀ i, m.ids i i) (hscopes : ∀ body s, m.scopes body s s) (v : Value) :
    v.Matches m v := by
  match v with
  | .number i x => exact .number (hids i)
  | .string text => exact .string
  | .array i items =>
      refine matches_array (hids i) (List.forall₂_same.2 fun u hu => ?_)
      exact matches_self hids hscopes u
  | .record i slots =>
      refine matches_record (hids i) (List.forall₂_same.2 fun slot hslot => ⟨rfl, ?_⟩)
      exact matches_self hids hscopes slot.2
  | .variant i tag payload => exact .variant (hids i) (matches_self hids hscopes payload)
  | .closure i f => exact .closure (hids i) ⟨rfl, rfl, rfl, rfl, hscopes f.body f.scope⟩
  | .builtin operation => exact .builtin
  | .foreign i data => exact .foreign (hids i)
termination_by sizeOf v
decreasing_by
  · have := List.sizeOf_lt_of_mem hu
    simp only [array.sizeOf_spec]
    omega
  · have := List.sizeOf_lt_of_mem hslot
    obtain ⟨name, value⟩ := slot
    simp only [record.sizeOf_spec, Prod.mk.sizeOf_spec] at this ⊢
    omega
  · simp only [variant.sizeOf_spec]
    omega

/-- What is known of the parts of two values is known of the parts that correspond. -/
theorem Matches.inter {k k' : Matching} (h : v.Matches m v') (hv : v.Matches k v)
    (hv' : v'.Matches k' v') :
    v.Matches ⟨fun i j => m.ids i j ∧ k.ids i i ∧ k'.ids j j,
      fun body s s' => m.scopes body s s' ∧ k.scopes body s s ∧ k'.scopes body s' s'⟩ v' := by
  induction h with
  | number hid =>
      cases hv with
      | number hv => cases hv' with
        | number hv' => exact .number ⟨hid, hv, hv'⟩
  | string => exact .string
  | array hid hlength _ ih =>
      cases hv with
      | array hv _ hitems => cases hv' with
        | array hv' _ hitems' =>
            exact .array ⟨hid, hv, hv'⟩ hlength fun n x y hx hy =>
              ih n x y hx hy (hitems n x x hx hx) (hitems' n y y hy hy)
  | record hid hlength hnames _ ih =>
      cases hv with
      | record hv _ _ hslots => cases hv' with
        | record hv' _ _ hslots' =>
            exact .record ⟨hid, hv, hv'⟩ hlength hnames fun n x y hx hy =>
              ih n x y hx hy (hslots n x x hx hx) (hslots' n y y hy hy)
  | variant hid _ ih =>
      cases hv with
      | variant hv hpayload => cases hv' with
        | variant hv' hpayload' => exact .variant ⟨hid, hv, hv'⟩ (ih hpayload hpayload')
  | closure hid hf =>
      cases hv with
      | closure hv hg => cases hv' with
        | closure hv' hg' =>
            exact .closure ⟨hid, hv, hv'⟩ ⟨hf.params, hf.body, hf.name, hf.kind,
              hf.scope, hg.scope, hf.body ▸ hg'.scope⟩
  | builtin => exact .builtin
  | foreign hid =>
      cases hv with
      | foreign hv => cases hv' with
        | foreign hv' => exact .foreign ⟨hid, hv, hv'⟩

/-- Values that correspond while everything stands for itself are the same. -/
theorem Matches.eq (h : v.Matches m v') (hm : m.Equates) : v' = v := by
  induction h with
  | number hid => rw [hm.ids hid]
  | string | builtin => rfl
  | @array i j xs ys hid hlength _ ih =>
      have hitems : xs = ys := (congrFun₂ List.forall₂_eq_eq_eq xs ys).mp
        (forall₂_iff_getElem?.2 ⟨hlength, fun k x y hx hy => (ih k x y hx hy).symm⟩)
      rw [hm.ids hid, hitems]
  | @record i j xs ys hid hlength hnames _ ih =>
      have hslots : xs = ys := (congrFun₂ List.forall₂_eq_eq_eq xs ys).mp (forall₂_iff_getElem?.2
        ⟨hlength, fun k x y hx hy => Prod.ext (hnames k x y hx hy) (ih k x y hx hy).symm⟩)
      rw [hm.ids hid, hslots]
  | variant hid _ ih => rw [hm.ids hid, ih]
  | @closure i j f g hid hf =>
      have hg : g = f := by
        obtain ⟨params, body, scope, name, kind⟩ := f
        obtain ⟨rfl, rfl, rfl, rfl, hscope⟩ := hf
        obtain rfl : g.scope = scope := hm.scopes hscope
        rfl
      rw [hm.ids hid, hg]
  | foreign hid => rw [hm.ids hid]

end Value

namespace Slots

theorem Matches.mono (h : fields.Matches m fields') (hle : m.Within m') :
    fields.Matches m' fields' :=
  List.Forall₂.imp (fun _ _ hslot => ⟨hslot.1, hslot.2.mono hle⟩) h

theorem Matches.eq (h : fields.Matches m fields') (hm : m.Equates) : fields' = fields := by
  induction h with
  | nil => rfl
  | cons hslot _ ih => exact congrArg₂ List.cons (Prod.ext hslot.1.symm (hslot.2.eq hm)) ih

theorem Matches.names (h : fields.Matches m fields') : fields'.names = fields.names := by
  induction h with
  | nil => rfl
  | cons hslot _ ih => exact congrArg₂ List.cons hslot.1.symm ih

theorem Matches.get? (h : fields.Matches m fields') (name : String) :
    Option.Rel (Value.Matches m) (fields.get? name) (fields'.get? name) := by
  induction h with
  | nil => exact .none
  | @cons x y xs ys hslot _ ih =>
      obtain ⟨k, v⟩ := x
      obtain ⟨k', v'⟩ := y
      obtain ⟨rfl, hv⟩ := hslot
      unfold Slots.get? at ih ⊢
      rw [List.lookup_cons, List.lookup_cons]
      cases name == k with
      | true => exact .some hv
      | false => exact ih

theorem Matches.has (h : fields.Matches m fields') (name : String) :
    fields'.has name = fields.has name := by
  rw [Bool.eq_iff_iff, Value.has_iff_mem_names, Value.has_iff_mem_names, h.names]

theorem Matches.set (h : fields.Matches m fields') (name : String) (hv : v.Matches m v') :
    (fields.set name v).Matches m (fields'.set name v') := by
  induction h with
  | nil => exact .cons ⟨rfl, hv⟩ .nil
  | @cons x y xs ys hslot hrest ih =>
      obtain ⟨k, u⟩ := x
      obtain ⟨k', u'⟩ := y
      obtain ⟨rfl, hu⟩ := hslot
      unfold Slots.set
      split
      · exact .cons ⟨rfl, hv⟩ hrest
      · exact .cons ⟨rfl, hu⟩ ih

end Slots

/-! ## Telling values apart -/

namespace Value

theorem matches_unit (h : m.Fixes) : unit.Matches m unit :=
  matches_array (h _ (by decide)) .nil

theorem matches_truth (h : m.Fixes) (flag : Bool) : (truth flag).Matches m (truth flag) := by
  cases flag with
  | true => exact .variant (h _ (by decide)) (matches_unit h)
  | false => exact .variant (h _ (by decide)) (matches_unit h)

theorem matches_emptyList (h : m.Fixes) : emptyList.Matches m emptyList :=
  .variant (h _ (by decide)) (matches_unit h)

theorem Matches.truth? (h : v.Matches m v') : v'.truth? = v.truth? := by
  cases h with
  | @variant _ _ tag => cases tag <;> rfl
  | _ => rfl

theorem Matches.isUnit (h : v.Matches m v') : v'.isUnit = v.isUnit := by
  cases h with
  | @array _ _ xs ys _ hlength => cases xs <;> cases ys <;> first | rfl | cases hlength
  | _ => rfl

/-! ## Values in messages -/

/-- The items of a pair. -/
def pair? : Value → Option (Value × Value)
  | .array _ [left, right] => some (left, right)
  | _ => none

theorem pair?_eq_some {u w : Value} (h : v.pair? = some (u, w)) : ∃ i, v = .array i [u, w] := by
  unfold pair? at h
  split at h <;> cases h
  exact ⟨_, rfl⟩

theorem Matches.pair? (h : v.Matches m v') :
    Option.Rel (fun p q => p.1.Matches m q.1 ∧ p.2.Matches m q.2) v.pair? v'.pair? := by
  cases h with
  | @array i j xs ys hid hlength hitems =>
      have hall := (Matches.array hid hlength hitems).items
      match xs, ys, hall with
      | [], [], _ | [_], [_], _ | _ :: _ :: _ :: _, _ :: _ :: _ :: _, _ => exact .none
      | [_, _], [_, _], .cons hleft (.cons hright _) => exact .some ⟨hleft, hright⟩
  | _ => exact .none

theorem Matches.pairBreakdown (h : v.Matches m v') : v'.pairBreakdown = v.pairBreakdown := by
  cases h with
  | array _ hlength => exact congrArg (Breakdown.ofParts 2) hlength.symm
  | @foreign _ _ data => cases data <;> rfl
  | _ => rfl

section

variable (p : Value)

theorem display_head : (variant i .head p).display =
    match p.pair? with
    | some (element, rest) =>
        "list[" ++ String.intercalate ", " (element.display :: rest.displayElements) ++ "]"
    | none => "list[]" := by
  fun_cases pair? p with
  | case1 => rfl
  | case2 hp => rw [display] <;> simp_all

theorem displayElements_head : (variant i .head p).displayElements =
    match p.pair? with
    | some (element, rest) => element.display :: rest.displayElements
    | none => [] := by
  fun_cases pair? p with
  | case1 => rfl
  | case2 hp =>
      rw [displayElements]
      simp_all

theorem defect?_head : (variant i .head p).defect? =
    match p.pair? with
    | some (element, rest) => element.defect?.or rest.chainDefect?
    | none => some p.pairBreakdown := by
  fun_cases pair? p <;> simp [defect?]

theorem chainDefect?_head : (variant i .head p).chainDefect? =
    match p.pair? with
    | some (element, rest) => element.defect?.or rest.chainDefect?
    | none => some p.pairBreakdown := by
  fun_cases pair? p <;> simp [chainDefect?]

end

/-- Values that messages show in the same way, also as the rest of a list. -/
structure ShownAlike (v v' : Value) : Prop where
  display : v'.display = v.display
  displayElements : v'.displayElements = v.displayElements
  defect? : v'.defect? = v.defect?
  chainDefect? : v'.chainDefect? = v.chainDefect?

theorem shownAlike_all (h : List.Forall₂ ShownAlike vs vs') :
    displayAll vs' = displayAll vs ∧ firstDefect? vs' = firstDefect? vs := by
  induction h with
  | nil => exact ⟨rfl, rfl⟩
  | cons hv _ ih =>
      constructor
      · rw [displayAll, displayAll, hv.display, ih.1]
      · rw [firstDefect?, firstDefect?, hv.defect?, ih.2]

theorem shownAlike_slots
    (h : List.Forall₂ (fun x y => x.1 = y.1 ∧ x.2.ShownAlike y.2) fields fields') :
    displaySlots fields' = displaySlots fields ∧ slotDefect? fields' = slotDefect? fields := by
  induction h with
  | nil => exact ⟨rfl, rfl⟩
  | @cons x y _ _ hslot _ ih =>
      obtain ⟨k, v⟩ := x
      obtain ⟨k', v'⟩ := y
      obtain ⟨rfl, hv⟩ := hslot
      constructor
      · rw [displaySlots, displaySlots, hv.display, ih.1]
      · rw [slotDefect?, slotDefect?, hv.defect?, ih.2]

/-- Messages show corresponding values in the same way. -/
theorem Matches.shownAlike {v v' : Value} (h : v.Matches m v') : v.ShownAlike v' := by
  match v, v', h with
  | _, _, .number _ | _, _, .string | _, _, .builtin | _, _, .foreign _ => exact ⟨rfl, rfl, rfl, rfl⟩
  | _, _, .closure _ hf =>
      refine ⟨?_, rfl, rfl, rfl⟩
      simp only [display, displayFunction, hf.label, hf.kind, hf.params]
  | .array _ xs, _, .array _ hlength hitems =>
      obtain ⟨hdisplay, hdefect⟩ := shownAlike_all (forall₂_iff_getElem?.2
        ⟨hlength, fun k x y hx hy => (hitems k x y hx hy).shownAlike⟩)
      exact ⟨by rw [display, display, hdisplay], rfl, by rw [defect?, defect?, hdefect], rfl⟩
  | .record _ xs, .record _ ys, .record _ hlength hnames hslots =>
      obtain ⟨hdisplay, hdefect⟩ := shownAlike_slots (forall₂_iff_getElem?.2
        ⟨hlength, fun k x y hx hy => ⟨hnames k x y hx hy, (hslots k x y hx hy).shownAlike⟩⟩)
      refine ⟨?_, rfl, by rw [defect?, defect?, hdefect], rfl⟩
      cases xs <;> cases ys <;> first | rfl | cases hlength | rw [display, display, hdisplay]
  | .variant _ .yes _, _, .variant _ _ | .variant _ .no _, _, .variant _ _
  | .variant _ .empty _, _, .variant _ _ => exact ⟨rfl, rfl, rfl, rfl⟩
  | .variant _ .head p, .variant _ .head q, .variant _ hpayload =>
      have hpair := hpayload.pair?
      have hbreakdown := hpayload.pairBreakdown
      -- A cell with a pair is shown by its parts, any other one by the kind of what it carries.
      generalize hp : p.pair? = left, hq : q.pair? = right at hpair
      cases hpair with
      | none =>
          constructor <;>
            simp only [display_head, displayElements_head, defect?_head, chainDefect?_head, hp, hq,
              hbreakdown]
      | @some x y hparts =>
          obtain ⟨element, rest⟩ := x
          have hlt : sizeOf element + sizeOf rest < sizeOf p := by
            obtain ⟨k, rfl⟩ := pair?_eq_some hp
            simp only [array.sizeOf_spec, List.cons.sizeOf_spec]
            omega
          have helement : element.ShownAlike _ := hparts.1.shownAlike
          have hrest : rest.ShownAlike _ := hparts.2.shownAlike
          constructor <;>
            simp only [display_head, displayElements_head, defect?_head, chainDefect?_head, hp, hq,
              helement.display, helement.defect?, hrest.displayElements, hrest.chainDefect?]
termination_by sizeOf v
decreasing_by
  · have := List.sizeOf_lt_of_mem (List.mem_of_getElem? hx)
    simp only [array.sizeOf_spec]
    omega
  · have := List.sizeOf_lt_of_mem (List.mem_of_getElem? hx)
    obtain ⟨name, value⟩ := x
    simp only [record.sizeOf_spec, Prod.mk.sizeOf_spec] at this ⊢
    omega
  all_goals
    simp only [variant.sizeOf_spec]
    omega

theorem Matches.display (h : v.Matches m v') : v'.display = v.display :=
  h.shownAlike.display

theorem Matches.defect? (h : v.Matches m v') : v'.defect? = v.defect? :=
  h.shownAlike.defect?

theorem Matches.describe (h : v.Matches m v') : v'.describe = v.describe := by
  cases h with
  | foreign => rfl
  | _ => simp only [Value.describe, Value.display, Value.typeName]

/-! ## Comparing values -/

theorem Matches.isSame_of (hm : m.OneToOne) (ha : a.Matches m a') (hb : b.Matches m b')
    (h : isSame a b = true) : isSame a' b' = true := by
  cases ha <;> cases hb <;> simp only [isSame, decide_eq_true_eq, Bool.or_eq_true,
    Bool.false_eq_true] at h ⊢
  case foreign.foreign hid _ _ _ hid' =>
    refine h.imp (fun heq => ?_) id
    subst heq
    exact hm.right hid hid'
  case string.string | builtin.builtin => exact h
  all_goals
    subst h
    apply hm.right <;> assumption

theorem Matches.isSame (hm : m.OneToOne) (ha : a.Matches m a') (hb : b.Matches m b') :
    isSame a' b' = isSame a b :=
  Bool.eq_iff_iff.2 ⟨ha.flip.isSame_of hm.flip hb.flip, ha.isSame_of hm hb⟩

theorem Matches.strictlyEqual (hm : m.OneToOne) (ha : a.Matches m a') (hb : b.Matches m b') :
    strictlyEqual a' b' = strictlyEqual a b := by
  have hsame := ha.isSame hm hb
  cases ha <;> cases hb <;> first | rfl | exact hsame

theorem Matches.equalParts {legacy : Bool} (hm : m.OneToOne) (ha : a.Matches m a')
    (hb : b.Matches m b') (h : EqualParts legacy a b) : EqualParts legacy a' b' := by
  induction h generalizing a' b' with
  | same hsame => exact .same (ha.isSame_of hm hb hsame)
  | number hxy =>
      cases ha
      cases hb
      exact .number hxy
  | @array i j xs ys hlength hcount _ ih =>
      cases ha with
      | @array _ _ _ xs' _ hxs hxitems =>
          cases hb with
          | @array _ _ _ ys' _ hys hyitems =>
              refine .array (by omega) (fun h => by have := hcount h; omega)
                fun k x' y' hx' hy' => ?_
              have hx : k < xs.length := hxs ▸ (List.getElem?_eq_some_iff.1 hx').1
              have hy : k < ys.length := hys ▸ (List.getElem?_eq_some_iff.1 hy').1
              have hx := List.getElem?_eq_getElem hx
              have hy := List.getElem?_eq_getElem hy
              exact ih k _ _ hx hy (hxitems k _ _ hx hx') (hyitems k _ _ hy hy')
  | @record i j xs ys hnames hcount _ ih =>
      cases ha with
      | @record _ _ _ xs' hid hxs hxnames hxslots =>
          have hxs := (Matches.record hid hxs hxnames hxslots).slots
          cases hb with
          | @record _ _ _ ys' hid hys hynames hyslots =>
              have hys := (Matches.record hid hys hynames hyslots).slots
              refine .record (hxs.names ▸ hys.names ▸ hnames)
                (fun h => hxs.names ▸ hys.names ▸ hcount h) fun name x' y' hx' hy' => ?_
              obtain ⟨k, hk⟩ := List.mem_iff_getElem?.1 hx'
              have hlt : k < xs.length := by
                have := (List.getElem?_eq_some_iff.1 hk).1
                rwa [hxs.length_eq]
              have hslot := (forall₂_iff_getElem?.1 hxs).2 k _ _ (List.getElem?_eq_getElem hlt) hk
              have hname : xs[k] = (name, xs[k].2) := Prod.ext hslot.1 rfl
              have hmem : (name, xs[k].2) ∈ xs := hname ▸ List.getElem_mem hlt
              have hget := hys.get? name
              rw [hy'] at hget
              generalize hy : Slots.get? ys name = y at hget
              cases hget with
              | some hvalue => exact ih name _ _ hmem hy hslot.2 hvalue
  | variant _ ih =>
      cases ha with
      | variant _ hp =>
          cases hb with
          | variant _ hq => exact .variant (ih hp hq)

theorem Matches.structurallyEqual (hm : m.OneToOne) (ha : a.Matches m a') (hb : b.Matches m b')
    (legacy : Bool) : structurallyEqual legacy a' b' = structurallyEqual legacy a b := by
  rw [Bool.eq_iff_iff, structurallyEqual_iff, structurallyEqual_iff]
  exact ⟨ha.flip.equalParts hm.flip hb.flip, ha.equalParts hm hb⟩

end Value

end

/-! ## Answers -/

/-- Two answers of which both are errors that correspond or both are values that do. -/
inductive ExceptRel {ε ε' α α' : Type} (E : ε → ε' → Prop) (R : α → α' → Prop) :
    Except ε α → Except ε' α' → Prop where
  | ok {x : α} {x' : α'} (h : R x x') : ExceptRel E R (.ok x) (.ok x')
  | error {e : ε} {e' : ε'} (h : E e e') : ExceptRel E R (.error e) (.error e')

theorem ExceptRel.imp {ε ε' α α' : Type} {E E' : ε → ε' → Prop} {R R' : α → α' → Prop}
    {r : Except ε α} {r' : Except ε' α'} (h : ExceptRel E R r r') (hE : ∀ e e', E e e' → E' e e')
    (hR : ∀ x x', R x x' → R' x x') : ExceptRel E' R' r r' := by
  cases h with
  | ok h => exact .ok (hR _ _ h)
  | error h => exact .error (hE _ _ h)

/-! ## Dispatching on variants -/

namespace Value

variable {m : Matching}

theorem Matches.hasBranches {slots slots' : Slots} (h : slots.Matches m slots') (family : Family) :
    hasBranches family slots' = hasBranches family slots := by
  unfold Value.hasBranches
  rw [h.names, funext h.has]

theorem Matches.selectBranch {handler handler' : Value} (h : handler.Matches m handler')
    (tag : Tag) :
    ExceptRel Eq (Value.Matches m) (selectBranch tag handler) (selectBranch tag handler') := by
  cases h with
  | @record i j xs ys hid hlength hnames hslots =>
      have hmatches : Slots.Matches m xs ys := (Matches.record hid hlength hnames hslots).slots
      have hget := hmatches.get? tag.name
      unfold Value.selectBranch
      dsimp only
      rw [Matches.hasBranches hmatches, hmatches.names]
      generalize Slots.get? xs tag.name = left, Slots.get? ys tag.name = right at hget
      split
      · cases hget with
        | none => exact .error rfl
        | some hv => exact .ok hv
      · exact .error rfl
  | @array i j xs ys hid hlength hitems =>
      have hall := (Matches.array hid hlength hitems).items
      match xs, ys, hall with
      | [], [], _ | [_], [_], _ => cases tag <;> exact .error rfl
      | [_, _], [_, _], .cons hleft (.cons hright _) =>
          cases tag <;> first | exact .ok hleft | exact .ok hright
      | _ :: _ :: _ :: _, _ :: _ :: _ :: _, _ =>
          cases tag <;> exact .error (congrArg (DispatchError.branchCount _) hlength)
  | _ => exact .error rfl

theorem Matches.ignoresPayload {branch branch' payload payload' : Value}
    (hbranch : branch.Matches m branch') (hpayload : payload.Matches m payload') :
    ignoresPayload branch' payload' = ignoresPayload branch payload := by
  cases hbranch with
  | closure _ hf => simp only [Value.ignoresPayload, hf.params, hpayload.isUnit]
  | _ => rfl

/-- Callees and arguments that correspond. -/
def CallMatches (m : Matching) (c c' : Value × List Value) : Prop :=
  c.1.Matches m c'.1 ∧ List.Forall₂ (Matches m) c.2 c'.2

theorem Matches.dispatch {payload payload' : Value} {args args' : List Value} (tag : Tag)
    (hpayload : payload.Matches m payload') (hargs : List.Forall₂ (Matches m) args args') :
    ExceptRel Eq (CallMatches m) (dispatch tag payload args) (dispatch tag payload' args') := by
  match args, args', hargs with
  | [], [], _ => exact .error rfl
  | [handler], [handler'], .cons hhandler _ =>
      have hselect := hhandler.selectBranch tag
      simp only [Value.dispatch]
      generalize Value.selectBranch tag handler = left, Value.selectBranch tag handler' = right
        at hselect
      cases hselect with
      | error he => exact .error he
      | ok hbranch =>
          dsimp only
          rw [hbranch.ignoresPayload hpayload]
          split
          · exact .ok ⟨hbranch, .nil⟩
          · exact .ok ⟨hbranch, .cons hpayload .nil⟩
  | _ :: _ :: args, _ :: _ :: args', .cons _ (.cons _ hrest) =>
      have hlength := congrArg (· + 2) hrest.length_eq
      exact .error (congrArg (DispatchError.handlerCount tag) hlength)

theorem Matches.resolve {callee callee' : Value} {args args' : List Value}
    (hcallee : callee.Matches m callee') (hargs : List.Forall₂ (Matches m) args args') :
    ExceptRel Eq (CallMatches m) (callee.resolve args) (callee'.resolve args') := by
  induction hsize : sizeOf callee + sizeOf args using Nat.strongRecOn
    generalizing callee callee' args args' with
  | ind n ih =>
      have hother := hcallee
      cases hcallee with
      | @variant _ _ tag p q _ hpayload =>
          have hmatches := hpayload.dispatch tag hargs
          rw [Value.resolve, Value.resolve]
          split <;> rename_i hleft <;> split <;> rename_i hright <;> rw [hleft, hright] at hmatches
          · cases hmatches with
            | ok h => exact ih _ (hsize ▸ sizeOf_dispatch_lt hleft) h.1 h.2 rfl
          · cases hmatches
          · cases hmatches
          · cases hmatches with
            | error he => exact .error he
      | _ =>
          simp only [Value.resolve]
          exact .ok ⟨hother, hargs⟩

end Value

end VariantScript
