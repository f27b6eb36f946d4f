import Mathlib.Data.List.Forall2
import VariantScript.Proofs.Binding.Fitting
import VariantScript.Proofs.Evaluation.Values
import VariantScript.Proofs.Reading.Literals

/-!
# Destructuring

What a pattern asks for, read from left to right and each part before what stands behind it: arrays
with enough items, records, keys that name fields that are there, and names that are new.  The demands
are written down without a value; each is about the part of a value that a path leads to.

A value is bound exactly if all demands are met.  The names are then defined in the order in which
the pattern has them, each with the part at its path.  Otherwise the first demand that is not met
stops the binding, and only the names before it are defined.
-/

namespace VariantScript

open Syntax

/-! ## Parts of values -/

/-- The field that a key of a text names: a bare name names itself, a quoted one what it denotes. -/
def Syntax.Key.target? (k : Key) : Option String :=
  match k.name with
  | .bare name => some name.text
  | .quoted literal => (Text.Quoted.decode? literal.text.toList).map String.ofList
  | .malformed _ | .broken _ => none

/-- A step from a value to one of its parts. -/
inductive PartStep where
  | item (index : Nat)
  | field (key : Key)

/-- The part of a value behind a step. -/
def Value.next? : Value → PartStep → Option Value
  | .array _ items, .item index => items[index]?
  | .record _ slots, .field key => key.target?.bind (Slots.get? slots)
  | _, _ => none

/-- The part of a value that a path leads to. -/
def Value.part? (v : Value) (path : List PartStep) : Option Value :=
  path.foldlM Value.next? v

/-! ## Demands -/

/-- What a pattern asks for. -/
inductive Demand where
  /-- There is an array with at least so many items. -/
  | items (path : List PartStep) (count : Nat)
  /-- There is a record. -/
  | record (path : List PartStep)
  /-- The key names a field. -/
  | key (key : Key)
  /-- The record there has the field that the key names. -/
  | field (path : List PartStep) (key : Key)
  /-- The name that the part there gets is not defined. -/
  | fresh (name : String) (path : List PartStep)

namespace Syntax

mutual

/-- The demands of a pattern on the part at a path. -/
def Pattern.demands (path : List PartStep) : Pattern → List Demand
  | .name _ name => [.fresh name.text path]
  | .array _ patterns => .items path patterns.length :: Pattern.itemDemands path 0 patterns
  | .record _ fields => .record path :: PatternField.demands path fields
  | .unsupported _ | .broken _ => []

/-- The demands of patterns on the items of the array at a path, from an index on. -/
def Pattern.itemDemands (path : List PartStep) (index : Nat) : List Pattern → List Demand
  | [] => []
  | p :: ps => p.demands (path ++ [.item index]) ++ Pattern.itemDemands path (index + 1) ps

/-- The demands of the fields of a pattern on the record at a path. -/
def PatternField.demands (path : List PartStep) : List PatternField → List Demand
  | [] => []
  | .mk _ key pattern :: fields =>
      .key key :: .field path key ::
        (pattern.demands (path ++ [.field key]) ++ PatternField.demands path fields)
  | .broken _ :: fields => PatternField.demands path fields

end

end Syntax

namespace Demand

/-- A value has the shape that a demand asks for.  A new name asks for none. -/
def Fits (value : Value) : Demand → Prop
  | items path count =>
      ∃ id vs, value.part? path = some (.array id vs) ∧ count ≤ vs.length
  | record path => ∃ id slots, value.part? path = some (.record id slots)
  | key k => ∃ name, k.target? = some name
  | field path k => ∃ part, value.part? (path ++ [.field k]) = some part
  | fresh _ _ => True

/-- Why a demand is not met, some names being taken. -/
inductive Breaks (value : Value) (taken : List String) : Demand → Cause → Prop where
  | notAnArray {path : List PartStep} {count : Nat} {part : Value}
      (hpart : value.part? path = some part) (hkind : ∀ id vs, part ≠ .array id vs) :
      Breaks value taken (.items path count) (.notAnArray part)
  | tooFewItems {path : List PartStep} {count : Nat} {id : Identity} {vs : List Value}
      (hpart : value.part? path = some (.array id vs)) (hlength : vs.length < count) :
      Breaks value taken (.items path count) (.tooFewItems count vs.length)
  | notARecord {path : List PartStep} {part : Value} (hpart : value.part? path = some part)
      (hkind : ∀ id slots, part ≠ .record id slots) :
      Breaks value taken (.record path) (.notARecord part)
  | invalidString {key : Key} {literal : Spelling} (hname : key.name = .quoted literal)
      (htarget : key.target? = none) :
      Breaks value taken (.key key) (.invalidString literal.text)
  | keyNotFound {path : List PartStep} {key : Key} {name : String} {id : Identity} {slots : Slots}
      (hpart : value.part? path = some (.record id slots)) (htarget : key.target? = some name)
      (hmissing : slots.get? name = none) :
      Breaks value taken (.field path key) (.keyNotFound name)
  | alreadyDeclared {name : String} {path : List PartStep} (htaken : name ∈ taken) :
      Breaks value taken (.fresh name path) (.alreadyDeclared name)

/-- The name that a demand is about, and the path to its part. -/
def binding? : Demand → Option (String × List PartStep)
  | fresh name path => some (name, path)
  | _ => none

/-- The names that demands are about. -/
def names (ds : List Demand) : List String :=
  (ds.filterMap binding?).map Prod.fst

/-- The bindings of the names that demands are about, in order, to the parts of a value. -/
def Binds (value : Value) (ds : List Demand) (added : Slots) : Prop :=
  List.Forall₂ (fun place slot => slot.1 = place.1 ∧ value.part? place.2 = some slot.2)
    (ds.filterMap binding?) added

variable {value : Value} {taken : List String} {d : Demand} {ds es : List Demand} {cause : Cause}
  {added more : Slots}

theorem names_append (ds es : List Demand) : names (ds ++ es) = names ds ++ names es := by
  simp only [names, List.filterMap_append, List.map_append]

theorem Binds.append (h : Binds value ds added) (h' : Binds value es more) :
    Binds value (ds ++ es) (added ++ more) := by
  unfold Binds
  rw [List.filterMap_append]
  exact List.rel_append h h'

theorem Binds.names_eq (h : Binds value ds added) : added.names = names ds := by
  unfold Binds at h
  unfold names Slots.names
  generalize ds.filterMap binding? = places at h
  induction h with
  | nil => rfl
  | cons h _ ih => rw [List.map_cons, List.map_cons, h.1, ih]

/-- A shape that breaks a demand does so whichever names are taken. -/
theorem Breaks.mono (h : Breaks value [] d cause) : Breaks value taken d cause := by
  cases h with
  | notAnArray hpart hkind => exact .notAnArray hpart hkind
  | tooFewItems hpart hlength => exact .tooFewItems hpart hlength
  | notARecord hpart hkind => exact .notARecord hpart hkind
  | invalidString hname htarget => exact .invalidString hname htarget
  | keyNotFound hpart htarget hmissing => exact .keyNotFound hpart htarget hmissing
  | alreadyDeclared htaken => cases htaken

end Demand

/-! ## Keys -/

/-- A key of a text names its target, or else its literal is said to be no string. -/
theorem Syntax.Key.field_of_isWritten {k : Key} (hk : k.IsWritten) :
    (∃ name, k.target? = some name ∧ k.field = .ok name) ∨
      ∃ literal, k.name = .quoted literal ∧ k.target? = none ∧
        k.field = .error (.ofCause (.invalidString literal.text)) := by
  unfold Key.IsWritten at hk
  unfold Key.target? Key.field
  cases hname : k.name with
  | bare name => exact .inl ⟨_, rfl, rfl⟩
  | malformed | broken =>
      rw [hname] at hk
      exact absurd hk id
  | quoted literal =>
      rw [hname] at hk
      dsimp only [nameOfLiteral]
      rw [decodeLiteral_eq_of_takes hk]
      cases Text.Quoted.decode? literal.text.toList with
      | some cs => exact .inl ⟨_, rfl, rfl⟩
      | none => exact .inr ⟨literal, rfl, rfl, rfl⟩

/-! ## Meeting demands -/

/-- What fits of a value meets demands: all of them, or those before the first one whose shape the
value does not have. -/
inductive Fitting.Meets (value : Value) : List Demand → Fitting → Prop where
  | all {ds : List Demand} {bindings : Slots} (hfits : ∀ d ∈ ds, d.Fits value)
      (hbinds : Demand.Binds value ds bindings) : Meets value ds ⟨bindings, none⟩
  | upTo {before after : List Demand} {d : Demand} {cause : Cause} {bindings : Slots}
      (hfits : ∀ e ∈ before, e.Fits value) (hbinds : Demand.Binds value before bindings)
      (hbreaks : d.Breaks value [] cause) :
      Meets value (before ++ d :: after) ⟨bindings, some (.ofCause cause)⟩

namespace Fitting.Meets

variable {value : Value} {d : Demand} {ds es : List Demand} {f g : Fitting} {cause : Cause}

theorem nothing : Meets value [] .nothing :=
  .all (fun _ h => nomatch h) .nil

theorem misfit (hbreaks : d.Breaks value [] cause) :
    Meets value (d :: ds) (.misfit (.ofCause cause)) :=
  show Meets value ([] ++ d :: ds) _ from .upTo (fun _ h => nomatch h) .nil hbreaks

theorem append (hf : f.Meets value ds) (hg : g.Meets value es) :
    (f.append g).Meets value (ds ++ es) := by
  cases hf with
  | upTo hfits hbinds hbreaks =>
      rw [List.append_assoc, List.cons_append]
      exact .upTo hfits hbinds hbreaks
  | all hfits hbinds =>
      have both {before : List Demand} (h : ∀ e ∈ before, e.Fits value) :
          ∀ e ∈ ds ++ before, e.Fits value :=
        fun e he => (List.mem_append.1 he).elim (hfits e) (h e)
      cases hg with
      | all hfits' hbinds' => exact .all (both hfits') (hbinds.append hbinds')
      | upTo hfits' hbinds' hbreaks =>
          rw [← List.append_assoc]
          exact .upTo (both hfits') (hbinds.append hbinds') hbreaks

/-- A demand that is met and about no name changes nothing. -/
theorem cons (hd : d.Fits value) (hname : d.binding? = none) (hg : g.Meets value ds) :
    g.Meets value (d :: ds) := by
  have hone : Meets value [d] .nothing := by
    refine .all (by simpa using hd) ?_
    unfold Demand.Binds
    rw [List.filterMap_cons_none hname]
    exact .nil
  exact hone.append hg

end Fitting.Meets

theorem Value.part?_append {value part : Value} {path : List PartStep}
    (hpart : value.part? path = some part) (step : PartStep) :
    value.part? (path ++ [step]) = part.next? step := by
  unfold Value.part? at hpart ⊢
  rw [List.foldlM_append, hpart]
  exact bind_pure (part.next? step)

namespace Syntax

open Fitting.Meets

mutual

/-- A part fits a pattern by meeting the demands on it. -/
theorem Pattern.fit_meets {p : Pattern} (hp : p.IsWritten) {value part : Value}
    {path : List PartStep} (hpart : value.part? path = some part) :
    (p.fit part).Meets value (p.demands path) := by
  cases hp with
  | @name pos name =>
      unfold Pattern.fit Pattern.demands
      refine .all (by simp [Demand.Fits]) ?_
      exact .cons ⟨rfl, hpart⟩ .nil
  | @array pos patterns hitems =>
      unfold Pattern.fit Pattern.demands
      cases part with
      | array id vs =>
          dsimp only
          split
          · rename_i hlength
            exact .misfit (.tooFewItems hpart hlength)
          · rename_i hlength
            refine .cons ⟨id, vs, hpart, by omega⟩ rfl ?_
            exact Pattern.fitItems_meets hitems (by omega) fun i => by
              rw [Value.part?_append hpart, Nat.zero_add]
              rfl
      | _ => exact .misfit (.notAnArray hpart fun _ _ h => nomatch h)
  | @record pos fields hfields =>
      unfold Pattern.fit Pattern.demands
      cases part with
      | record id slots =>
          exact .cons ⟨id, slots, hpart⟩ rfl (PatternField.fitFields_meets hfields hpart)
      | _ => exact .misfit (.notARecord hpart fun _ _ h => nomatch h)

theorem Pattern.fitItems_meets {ps : List Pattern} (hps : ∀ p ∈ ps, p.IsWritten) {value : Value}
    {vs : List Value} (hlength : ps.length ≤ vs.length) {path : List PartStep} {index : Nat}
    (hparts : ∀ i, value.part? (path ++ [.item (index + i)]) = vs[i]?) :
    (Pattern.fitItems ps vs).Meets value (Pattern.itemDemands path index ps) := by
  match ps, vs with
  | [], _ =>
      unfold Pattern.fitItems Pattern.itemDemands
      exact .nothing
  | _ :: _, [] => cases hlength
  | p :: ps, v :: vs =>
      unfold Pattern.fitItems Pattern.itemDemands
      refine (Pattern.fit_meets (hps p (.head _)) (hparts 0)).append ?_
      refine Pattern.fitItems_meets (fun p hp => hps p (.tail _ hp))
        (Nat.le_of_succ_le_succ hlength) fun i => ?_
      rw [Nat.add_right_comm, Nat.add_assoc, hparts (i + 1), List.getElem?_cons_succ]

theorem PatternField.fitFields_meets {fs : List PatternField} (hfs : ∀ f ∈ fs, f.IsWritten)
    {value : Value} {id : Identity} {slots : Slots} {path : List PartStep}
    (hpart : value.part? path = some (.record id slots)) :
    (PatternField.fitFields fs slots).Meets value (PatternField.demands path fs) := by
  match fs with
  | [] =>
      unfold PatternField.fitFields PatternField.demands
      exact .nothing
  | .broken b :: fs => cases hfs _ (.head _)
  | .mk pos key pattern :: fs =>
      cases hfs _ (.head _) with
      | mk hkey hpattern =>
          unfold PatternField.fitFields PatternField.demands
          obtain ⟨name, htarget, hfield⟩ | ⟨literal, hname, htarget, hfield⟩ :=
            key.field_of_isWritten hkey
          · rw [hfield]
            dsimp only
            have hnext : value.part? (path ++ [.field key]) = slots.get? name := by
              rw [Value.part?_append hpart]
              show key.target?.bind (Slots.get? slots) = _
              rw [htarget]
              rfl
            refine .cons ⟨name, htarget⟩ rfl ?_
            cases hget : slots.get? name with
            | none => exact .misfit (.keyNotFound hpart htarget hget)
            | some u =>
                rw [hget] at hnext
                exact .cons ⟨u, hnext⟩ rfl ((Pattern.fit_meets hpattern hnext).append
                  (PatternField.fitFields_meets (fun f hf => hfs f (.tail _ hf)) hpart))
          · rw [hfield]
            exact .misfit (.invalidString hname htarget)

end

end Syntax

/-! ## Names -/

namespace Syntax

mutual

theorem Pattern.names_demands (path : List PartStep) (p : Pattern) :
    Demand.names (p.demands path) = p.names := by
  cases p with
  | name | unsupported | broken =>
      unfold Pattern.demands Pattern.names
      rfl
  | array pos patterns =>
      unfold Pattern.demands Pattern.names
      exact Pattern.names_itemDemands path 0 patterns
  | record pos fields =>
      unfold Pattern.demands Pattern.names
      exact PatternField.names_demands path fields

theorem Pattern.names_itemDemands (path : List PartStep) (index : Nat) (ps : List Pattern) :
    Demand.names (Pattern.itemDemands path index ps) = Pattern.namesOfAll ps := by
  match ps with
  | [] =>
      unfold Pattern.itemDemands Pattern.namesOfAll
      rfl
  | p :: ps =>
      unfold Pattern.itemDemands Pattern.namesOfAll
      rw [Demand.names_append, p.names_demands, Pattern.names_itemDemands]

theorem PatternField.names_demands (path : List PartStep) (fs : List PatternField) :
    Demand.names (PatternField.demands path fs) = PatternField.namesOfAll fs := by
  match fs with
  | [] =>
      unfold PatternField.demands PatternField.namesOfAll
      rfl
  | .broken b :: fs =>
      unfold PatternField.demands PatternField.namesOfAll
      exact PatternField.names_demands path fs
  | .mk pos key pattern :: fs =>
      unfold PatternField.demands PatternField.namesOfAll
      rw [← pattern.names_demands (path ++ [.field key]), ← PatternField.names_demands path fs,
        ← Demand.names_append]
      rfl

end

end Syntax

/-- The first binding whose name is taken, between those before it and those behind it. -/
theorem Slots.exists_of_taken? {taken : List String} {bindings : Slots} {name : String}
    (h : bindings.taken? taken = some name) :
    ∃ before v after, bindings = before ++ (name, v) :: after ∧
      bindings.untilTaken taken = before ∧ before.taken? taken = none ∧
      name ∈ taken ++ before.names := by
  induction bindings generalizing taken with
  | nil => cases h
  | cons b rest ih =>
      obtain ⟨other, u⟩ := b
      unfold taken? at h
      split at h
      · rename_i hother
        cases h
        exact ⟨[], u, rest, rfl, if_pos hother, rfl, by simpa [names] using hother⟩
      · rename_i hother
        obtain ⟨before, v, after, rfl, huntil, hbefore, hname⟩ := ih h
        refine ⟨(other, u) :: before, v, after, rfl, ?_, ?_, ?_⟩
        · rw [untilTaken, if_neg hother, huntil]
        · rw [taken?, if_neg hother, hbefore]
        · simpa [names] using hname

namespace Demand

/-- Demands are met by a value where some names are taken. -/
structure AllMet (value : Value) (taken : List String) (ds : List Demand) : Prop where
  fits : ∀ d ∈ ds, d.Fits value
  distinct : (names ds).Nodup
  new : ∀ name ∈ names ds, name ∉ taken

variable {value : Value} {taken : List String} {d : Demand} {ds : List Demand} {cause : Cause}
  {added more : Slots} {name : String} {v : Value}

/-- A shape that breaks a demand is not the one asked for. -/
theorem Breaks.not_fits (h : Breaks value [] d cause) : ¬ d.Fits value := by
  intro hfits
  cases h with
  | notAnArray hpart hkind =>
      obtain ⟨id, vs, harray, -⟩ := hfits
      rw [hpart] at harray
      exact hkind id vs (Option.some.inj harray)
  | tooFewItems hpart hlength =>
      obtain ⟨id, vs, harray, hcount⟩ := hfits
      rw [hpart] at harray
      cases harray
      omega
  | notARecord hpart hkind =>
      obtain ⟨id, slots, hrecord⟩ := hfits
      rw [hpart] at hrecord
      exact hkind id slots (Option.some.inj hrecord)
  | invalidString hname htarget =>
      obtain ⟨name, hsome⟩ := hfits
      rw [htarget] at hsome
      cases hsome
  | @keyNotFound path key name id slots hpart htarget hmissing =>
      obtain ⟨part, hsome⟩ := hfits
      rw [Value.part?_append hpart] at hsome
      change key.target?.bind (Slots.get? slots) = some part at hsome
      rw [htarget, Option.bind_some, hmissing] at hsome
      cases hsome
  | alreadyDeclared htaken => cases htaken

/-- Bindings up to one of them bind the demands up to the one that it is for. -/
theorem Binds.split (h : Binds value ds (added ++ (name, v) :: more)) :
    ∃ before path after, ds = before ++ .fresh name path :: after ∧ Binds value before added := by
  have hbefore := List.forall₂_take_append _ added _ h
  have hbehind := List.forall₂_drop_append _ added _ h
  obtain ⟨early, late, rfl, hearly, hlate⟩ := List.filterMap_eq_append_iff.1
    (List.take_append_drop added.length (ds.filterMap binding?)).symm
  rw [← hlate] at hbehind
  rw [← hearly] at hbefore
  obtain ⟨place, rest, hplace, hrest, hcons⟩ := List.forall₂_cons_right_iff.1 hbehind
  obtain ⟨skipped, d, after, rfl, hskipped, hd, -⟩ := List.filterMap_eq_cons_iff.1 hcons
  refine ⟨early ++ skipped, place.2, after, ?_, ?_⟩
  · cases d with
    | fresh other path =>
        cases hd
        obtain rfl : name = other := hplace.1
        rw [List.append_assoc]
    | _ => cases hd
  · unfold Binds
    rwa [List.filterMap_append, List.filterMap_eq_nil_iff.2 hskipped, List.append_nil]

end Demand

namespace Fitting.Meets

variable {value : Value} {taken : List String} {ds : List Demand} {f : Fitting} {stop : Stop}

/-- Binding succeeds exactly if all demands are met. -/
theorem ending_eq_ok_iff (h : f.Meets value ds) :
    f.ending taken = .ok () ↔ Demand.AllMet value taken ds := by
  unfold Fitting.ending
  cases h with
  | @all ds bindings hfits hbinds =>
      dsimp only
      constructor
      · intro hok
        have hnone : bindings.taken? taken = none := by
          cases htaken : bindings.taken? taken with
          | none => rfl
          | some name =>
              rw [htaken] at hok
              cases hok
        obtain ⟨hdistinct, hnew⟩ := Slots.taken?_eq_none_iff.1 hnone
        rw [hbinds.names_eq] at hdistinct hnew
        exact ⟨hfits, hdistinct, hnew⟩
      · intro hmet
        rw [Slots.taken?_eq_none_iff.2 (by rw [hbinds.names_eq]; exact ⟨hmet.distinct, hmet.new⟩)]
  | @upTo before after d cause bindings hfits hbinds hbreaks =>
      dsimp only
      constructor
      · intro hok
        split at hok <;> cases hok
      · intro hmet
        exact absurd (hmet.fits d (by simp)) hbreaks.not_fits

/-- A binding that succeeds gives every name its part. -/
theorem binds_of_ending (h : f.Meets value ds) (hok : f.ending taken = .ok ()) :
    Demand.Binds value ds (f.bindings.untilTaken taken) := by
  unfold Fitting.ending at hok
  split at hok
  · cases hok
  · rename_i htaken
    rw [Slots.untilTaken_eq_self htaken]
    cases h with
    | all hfits hbinds => exact hbinds
    | upTo => cases hok

/-- A binding that fails stops at the first demand that is not met. -/
theorem exists_of_ending (h : f.Meets value ds) (hstop : f.ending taken = .error stop) :
    ∃ before d after cause, ds = before ++ d :: after ∧ Demand.AllMet value taken before ∧
      d.Breaks value (taken ++ Demand.names before) cause ∧ stop = .ofCause cause ∧
      Demand.Binds value before (f.bindings.untilTaken taken) := by
  unfold Fitting.ending at hstop
  split at hstop
  · rename_i name htaken
    cases hstop
    obtain ⟨added, v, more, hbindings, huntil, hnone, hname⟩ := Slots.exists_of_taken? htaken
    -- The name is one of those that the shape leaves, so the demands before it are met.
    have hprefix : ∃ early late, ds = early ++ late ∧ (∀ d ∈ early, d.Fits value) ∧
        Demand.Binds value early f.bindings := by
      cases h with
      | all hfits hbinds => exact ⟨ds, [], by simp, hfits, hbinds⟩
      | upTo hfits hbinds hbreaks => exact ⟨_, _, rfl, hfits, hbinds⟩
    obtain ⟨early, late, rfl, hfits, hbinds⟩ := hprefix
    rw [hbindings] at hbinds
    obtain ⟨before, path, after, rfl, hbefore⟩ := hbinds.split
    obtain ⟨hdistinct, hnew⟩ := Slots.taken?_eq_none_iff.1 hnone
    rw [hbefore.names_eq] at hdistinct hnew hname
    refine ⟨before, .fresh name path, after ++ late, _, by simp, ⟨?_, hdistinct, hnew⟩,
      .alreadyDeclared hname, rfl, by rwa [huntil]⟩
    exact fun d hd => hfits d (List.mem_append_left _ hd)
  · rename_i htaken
    obtain ⟨hdistinct, hnew⟩ := Slots.taken?_eq_none_iff.1 htaken
    rw [Slots.untilTaken_eq_self htaken]
    cases h with
    | all => cases hstop
    | @upTo before after d cause bindings hfits hbinds hbreaks =>
        cases hstop
        rw [hbinds.names_eq] at hdistinct hnew
        exact ⟨before, d, after, cause, rfl, ⟨hfits, hdistinct, hnew⟩, hbreaks.mono, rfl, hbinds⟩

end Fitting.Meets

/-! ## Showing what does not fit -/

namespace Value

theorem defect?_of_firstDefect? {vs : List Value} (h : firstDefect? vs = none) {v : Value}
    (hv : v ∈ vs) : v.defect? = none := by
  induction vs with
  | nil => cases hv
  | cons u vs ih =>
      obtain ⟨hu, hvs⟩ := Option.or_eq_none_iff.1 h
      rcases List.mem_cons.1 hv with rfl | hv
      · exact hu
      · exact ih hvs hv

theorem defect?_of_slotDefect? {slots : Slots} (h : slotDefect? slots = none) {slot : String × Value}
    (hslot : slot ∈ slots) : slot.2.defect? = none := by
  induction slots with
  | nil => cases hslot
  | cons other slots ih =>
      obtain ⟨hother, hslots⟩ := Option.or_eq_none_iff.1 h
      rcases List.mem_cons.1 hslot with rfl | hslot
      · exact hother
      · exact ih hslots hslot

/-- The parts of a value that can be shown can be shown. -/
theorem defect?_next? {v part : Value} {step : PartStep} (h : v.defect? = none)
    (hnext : v.next? step = some part) : part.defect? = none := by
  unfold next? at hnext
  split at hnext
  · rw [defect?] at h
    exact defect?_of_firstDefect? h (List.mem_of_getElem? hnext)
  · rw [defect?] at h
    obtain ⟨name, -, hget⟩ := Option.bind_eq_some_iff.1 hnext
    exact defect?_of_slotDefect? h (Slots.mem_of_get? hget)
  · cases hnext

theorem defect?_part? {v part : Value} {path : List PartStep} (h : v.defect? = none)
    (hpart : v.part? path = some part) : part.defect? = none := by
  induction path generalizing v with
  | nil =>
      cases hpart
      exact h
  | cons step path ih =>
      obtain ⟨u, hnext, hrest⟩ := Option.bind_eq_some_iff.1 hpart
      exact ih (defect?_next? h hnext) hrest

end Value

/-- Why a demand is not met can be said if the value can be shown. -/
theorem Demand.Breaks.defect? {value : Value} {taken : List String} {d : Demand} {cause : Cause}
    (h : d.Breaks value taken cause) (hvalue : value.defect? = none) : cause.defect? = none := by
  cases h with
  | notAnArray hpart | notARecord hpart => exact Value.defect?_part? hvalue hpart
  | tooFewItems | invalidString | keyNotFound | alreadyDeclared => rfl

theorem Stop.ofCause_eq_fault {cause : Cause} (h : cause.defect? = none) :
    Stop.ofCause cause = .fault ⟨cause, none⟩ := by
  unfold Stop.ofCause
  rw [h]

/-! ## Destructuring -/

/-- A pattern of a text binds a value in a scope exactly if the value has the shape of the pattern at
every path and the names of the pattern are distinct and new.  Then the scope gains these names in the
order of the pattern, each with the part at its path.  Otherwise the error is that of the first demand
that is not met, or the breakdown of showing a part that has no form, and the scope gains the names
before that demand only.  Nothing else changes. -/
theorem bindPattern_destructures {s : ScopeId} {p : Pattern} (hp : p.IsWritten) (value : Value)
    {w : World} {scope : Scope} (hscope : w.scopes[s.index]? = some scope) :
    (((bindPattern s p value).run.run w).1 = .ok () ↔
      (∀ d ∈ p.demands [], d.Fits value) ∧ p.names.Nodup ∧
        ∀ name ∈ p.names, name ∉ scope.vars.names) ∧
    (((bindPattern s p value).run.run w).1 = .ok () →
      ∃ added : Slots, added.names = p.names ∧ Demand.Binds value (p.demands []) added ∧
        (bindPattern s p value).run.run w = (.ok (), w.gain s added)) ∧
    ∀ stop, ((bindPattern s p value).run.run w).1 = .error stop →
      ∃ before d after cause, ∃ added : Slots, p.demands [] = before ++ d :: after ∧
        Demand.AllMet value scope.vars.names before ∧
        d.Breaks value (scope.vars.names ++ Demand.names before) cause ∧
        stop = .ofCause cause ∧ (value.defect? = none → stop = .fault ⟨cause, none⟩) ∧
        added.names = Demand.names before ∧ Demand.Binds value before added ∧
        (bindPattern s p value).run.run w = (.error stop, w.gain s added) := by
  have hmeets : (p.fit value).Meets value (p.demands []) := Pattern.fit_meets hp rfl
  have hnames := p.names_demands []
  rw [Eval.fits_bindPattern s p value w scope hscope]
  refine ⟨⟨fun hok => ?_, fun ⟨hfits, hdistinct, hnew⟩ => ?_⟩, fun hok => ?_, fun stop hstop => ?_⟩
  · obtain ⟨hfits, hdistinct, hnew⟩ := hmeets.ending_eq_ok_iff.1 hok
    rw [hnames] at hdistinct hnew
    exact ⟨hfits, hdistinct, hnew⟩
  · rw [← hnames] at hdistinct hnew
    exact hmeets.ending_eq_ok_iff.2 ⟨hfits, hdistinct, hnew⟩
  · have hbinds := hmeets.binds_of_ending hok
    exact ⟨_, hbinds.names_eq.trans hnames, hbinds, by rw [← hok]⟩
  · obtain ⟨before, d, after, cause, hdemands, hmet, hbreaks, hcause, hbinds⟩ :=
      hmeets.exists_of_ending hstop
    refine ⟨before, d, after, cause, _, hdemands, hmet, hbreaks, hcause, fun hvalue => ?_,
      hbinds.names_eq, hbinds, by rw [← hstop]⟩
    rw [hcause, Stop.ofCause_eq_fault (hbreaks.defect? hvalue)]

/-- An array of an item, a record and one more item, taken apart by `[a, {k: b}]`. -/
theorem bindPattern_destructures_nested :
    ∃ added : Slots, added.names = ["a", "b"] ∧
      (bindPattern ⟨0⟩
          (.array none [.name none ⟨"a", .start⟩,
            .record none [.mk none ⟨none, .bare ⟨"k", .start⟩⟩ (.name none ⟨"b", .start⟩)]])
          (.array ⟨4⟩ [.string "x", .record ⟨5⟩ [("k", .string "y")], .string "z"])).run.run
        ⟨#[⟨none, [("equal", .builtin .equal)], false⟩], 6, false, .absent, #[]⟩ =
      (.ok (), World.gain ⟨#[⟨none, [("equal", .builtin .equal)], false⟩], 6, false, .absent, #[]⟩
        ⟨0⟩ added) := by
  have hwritten : (Pattern.array none [.name none ⟨"a", .start⟩,
      .record none [.mk none ⟨none, .bare ⟨"k", .start⟩⟩ (.name none ⟨"b", .start⟩)]]).IsWritten := by
    refine .array fun p hp => ?_
    rcases List.mem_pair.1 hp with rfl | rfl
    · exact .name
    · refine .record fun f hf => ?_
      rw [List.mem_singleton.1 hf]
      exact .mk trivial .name
  obtain ⟨hiff, hsuccess, -⟩ := bindPattern_destructures hwritten
    (.array ⟨4⟩ [.string "x", .record ⟨5⟩ [("k", .string "y")], .string "z"])
    (s := ⟨0⟩) (w := ⟨#[⟨none, [("equal", .builtin .equal)], false⟩], 6, false, .absent, #[]⟩) rfl
  have hshape : ∀ d ∈ (Pattern.array none [.name none ⟨"a", .start⟩,
      .record none [.mk none ⟨none, .bare ⟨"k", .start⟩⟩ (.name none ⟨"b", .start⟩)]]).demands [],
      d.Fits (.array ⟨4⟩ [.string "x", .record ⟨5⟩ [("k", .string "y")], .string "z"]) := by
    simp only [Pattern.demands, Pattern.itemDemands, PatternField.demands, List.mem_cons,
      List.mem_append, List.not_mem_nil, or_false]
    rintro d (rfl | rfl | rfl | rfl | rfl | rfl)
    · exact ⟨_, _, rfl, by decide⟩
    · trivial
    · exact ⟨_, _, rfl⟩
    · exact ⟨_, rfl⟩
    · exact ⟨_, rfl⟩
    · trivial
  obtain ⟨added, hnames, -, hrun⟩ := hsuccess (hiff.2 ⟨hshape, by decide, by decide⟩)
  exact ⟨added, hnames, hrun⟩

end VariantScript
