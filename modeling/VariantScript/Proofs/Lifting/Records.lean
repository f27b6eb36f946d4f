import Mathlib.Data.List.Forall2
import VariantScript.Evaluation.Evaluate
import VariantScript.Proofs.Comparison.Laws
import VariantScript.Proofs.Lifting.Obstacles
import VariantScript.Proofs.Serialization.Evaluation

/-!
# Records of entries

A record is built of a sequence of entries or by the fields of a term, in both cases by setting one
field after the other: the names keep the order in which they occur first, and each name takes the
value that it is given last.  A record is rebuilt from its own entries, so that it can stand for the
entries that it was built of wherever more of them follow.
-/

namespace VariantScript

open Syntax

/-! ## Setting fields one after the other -/

namespace Slots

/-- Sets fields one after the other. -/
def setAll : Slots → List (String × Value) → Slots
  | slots, [] => slots
  | slots, (name, v) :: fields => (slots.set name v).setAll fields

/-- Fields with different names that do not occur yet go to the end. -/
theorem setAll_of_nodup {slots : Slots} {fields : List (String × Value)}
    (h : (slots.names ++ names fields).Nodup) : slots.setAll fields = slots ++ fields := by
  induction fields generalizing slots with
  | nil => rw [setAll, List.append_nil]
  | cons field fields ih =>
      obtain ⟨name, v⟩ := field
      have hfresh : name ∉ slots.names := fun hmem =>
        (List.nodup_append.1 h).2.2 name hmem name (.head _) rfl
      have hnames : names (slots ++ [(name, v)]) ++ names fields =
          slots.names ++ names ((name, v) :: fields) := by
        simp [names]
      rw [setAll, set_of_notMem hfresh, ih (by rwa [hnames]), List.append_assoc]
      rfl

end Slots

/-! ## Entries -/

namespace Host

/-- The key and the item of an entry: a host list, a tuple or an array of two. -/
def pair? : Host → Option (Host × Host)
  | .list [key, item] | .tuple [key, item] => some (key, item)
  | .value (.array _ [key, item]) => some (key.toHost, item.toHost)
  | _ => none

/-- The text that a key is. -/
def name? : Host → Option String
  | .text name | .value (.string name) => some name
  | _ => none

/-- An entry that makes a field: a pair of a text and an item that becomes the value. -/
def Makes (entry : Host) (field : String × Value) : Prop :=
  ∃ key item, entry.pair? = some (key, item) ∧ key.name? = some field.1 ∧ item.Becomes field.2

/-- Why an entry makes no field. -/
inductive Fails (entry : Host) : MarshalStop → Prop where
  | notAPair (hpair : entry.pair? = none) : Fails entry (MarshalError.notAPair entry.asEntry).stop
  | keyNotText {key item : Host} (hpair : entry.pair? = some (key, item))
      (hname : key.name? = none) : Fails entry (MarshalError.keyNotText key).stop
  | item {key item : Host} {name : String} {stop : MarshalStop}
      (hpair : entry.pair? = some (key, item)) (hname : key.name? = some name)
      (hitem : item.obstacle? = some stop) : Fails entry stop

variable {entry : Host} {entries more : List Host} {slots : Slots}

theorem entryPair_eq (entry : Host) :
    entry.entryPair =
      match entry.pair? with
      | some p => pure p
      | none => Making.refuse (.notAPair entry.asEntry) := by
  cases entry with
  | list items | tuple items => match items with | [] | [_] | [_, _] | _ :: _ :: _ :: _ => rfl
  | value v =>
      cases v with
      | array id items => match items with | [] | [_] | [_, _] | _ :: _ :: _ :: _ => rfl
      | _ => rfl
  | _ => rfl

theorem entryName_eq (key : Host) :
    key.entryName =
      match key.name? with
      | some name => pure name
      | none => Making.refuse (.keyNotText key) := by
  cases key with
  | value v => cases v <;> rfl
  | _ => rfl

end Host

/-! ## Fields that are made -/

namespace Slots

variable {slots slots' : Slots} {fields : List (String × Value)}

theorem nodup_set (h : slots.names.Nodup) (name : String) (v : Value) :
    (slots.set name v).names.Nodup := by
  have hset : (slots.set name v).names =
      if name ∈ slots.names then slots.names else slots.names ++ [name] :=
    names_set slots name v
  rw [hset]
  split
  · exact h
  · rename_i hname
    exact List.nodup_append.2 ⟨h, by simp, by
      rintro k hk _ hkname rfl
      rw [List.mem_singleton.1 hkname] at hk
      exact hname hk⟩

theorem nodup_setAll (h : slots.names.Nodup) (fields : List (String × Value)) :
    (slots.setAll fields).names.Nodup := by
  induction fields generalizing slots with
  | nil => exact h
  | cons field fields ih => exact ih (nodup_set h field.1 field.2)

theorem mem_setAll {field : String × Value} (h : field ∈ slots.setAll fields) :
    field ∈ slots ∨ field ∈ fields := by
  induction fields generalizing slots with
  | nil => exact .inl h
  | cons other fields ih =>
      rcases ih h with hset | hmem
      · rcases mem_set hset with rfl | hmem
        · exact .inr (.head _)
        · exact .inl hmem
      · exact .inr (.tail _ hmem)

/-- Fields with the same names in the same order, the values of which the same host value becomes. -/
def SameItems : Slots → Slots → Prop :=
  List.Forall₂ fun field field' =>
    field.1 = field'.1 ∧ ∃ h : Host, h.Becomes field.2 ∧ h.Becomes field'.2

theorem SameItems.set (h : SameItems slots slots') (name : String) {item : Host} {v v' : Value}
    (hv : item.Becomes v) (hv' : item.Becomes v') :
    SameItems (slots.set name v) (slots'.set name v') := by
  unfold SameItems at h ⊢
  induction h with
  | nil => exact .cons ⟨rfl, item, hv, hv'⟩ .nil
  | @cons field field' slots slots' hfield hrest ih =>
      obtain ⟨k, u⟩ := field
      obtain ⟨k', u'⟩ := field'
      obtain ⟨rfl, hu⟩ := hfield
      unfold Slots.set
      split
      · exact .cons ⟨rfl, item, hv, hv'⟩ hrest
      · exact .cons ⟨rfl, hu⟩ ih

end Slots

namespace Host

variable {entry : Host} {entries : List Host} {slots slots' : Slots}

theorem defect?_toHost (v : Value) : v.toHost.defect? = v.defect? := by
  cases v with
  | foreign id data => rw [Value.toHost, Value.defect?]
  | _ => rfl

theorem firstDefect?_toHost (vs : List Value) :
    firstDefect? (vs.map Value.toHost) = Value.firstDefect? vs := by
  induction vs with
  | nil => rfl
  | cons v vs ih => rw [List.map_cons, firstDefect?, Value.firstDefect?, ih, defect?_toHost]

theorem defect?_asEntry (entry : Host) : entry.asEntry.defect? = entry.defect? := by
  cases entry with
  | value v =>
      cases v with
      | array id items => simp only [asEntry, defect?, Value.defect?, firstDefect?_toHost]
      | _ => rfl
  | _ => rfl

/-- The key of an entry that can be shown can be shown. -/
theorem defect?_of_pair? {key item : Host} (hpair : entry.pair? = some (key, item))
    (h : entry.defect? = none) : key.defect? = none := by
  unfold pair? at hpair
  split at hpair
  · cases hpair
    rw [defect?, firstDefect?] at h
    exact (Option.or_eq_none_iff.1 h).1
  · cases hpair
    rw [defect?, firstDefect?] at h
    exact (Option.or_eq_none_iff.1 h).1
  · cases hpair
    rw [defect?, Value.defect?, Value.firstDefect?] at h
    exact (defect?_toHost _).trans (Option.or_eq_none_iff.1 h).1
  · cases hpair

/-- An entry that can be shown and holds no whole number beyond all doubles is refused. -/
theorem Fails.exists_refused {stop : MarshalStop} (h : entry.Fails stop)
    (hshown : entry.defect? = none)
    (hwholes : ∀ key item, entry.pair? = some (key, item) →
      ∀ n ∈ item.wholes, (Number.ofWhole? n).isSome) : ∃ e, stop = .refused e := by
  cases h with
  | notAPair hpair =>
      refine ⟨.notAPair entry.asEntry, ?_⟩
      rw [MarshalError.stop, show (MarshalError.notAPair entry.asEntry).defect? = none from
        (defect?_asEntry entry).trans hshown]
  | @keyNotText key item hpair hname =>
      refine ⟨.keyNotText key, ?_⟩
      rw [MarshalError.stop, show (MarshalError.keyNotText key).defect? = none from
        defect?_of_pair? hpair hshown]
  | @item key item name stop hpair hname hitem =>
      exact Host.exists_refused (hwholes key item hpair) hitem

end Host

/-! ## Fields of a term -/

namespace Eval

variable {call : Value → List Value → Eval Value} {s : ScopeId} {w w' : World}

/-- The fields of a record are evaluated one after the other, to values under names. -/
inductive FieldsGive (call : Value → List Value → Eval Value) (s : ScopeId) :
    List Field → World → List (String × Value) → World → Prop where
  | nil {w : World} : FieldsGive call s [] w [] w
  | cons {pos : Option Position} {key : Key} {t : Term} {fs : List Field}
      {start valued named w : World} {name : String} {v : Value} {fields : List (String × Value)}
      (hvalue : Gives (evaluate call s t) start v valued)
      (hkey : Gives key.decode valued name named) (hrest : FieldsGive call s fs named fields w) :
      FieldsGive call s (.mk pos key t :: fs) start ((name, v) :: fields) w

theorem FieldsGive.gives {fs : List Field} {fields : List (String × Value)}
    (h : FieldsGive call s fs w fields w') (slots : Slots) :
    Gives (evaluateFields call s fs slots) w (slots.setAll fields) w' := by
  induction h generalizing slots with
  | nil =>
      rw [evaluateFields]
      rfl
  | cons hvalue hkey _ ih =>
      rw [evaluateFields]
      exact hvalue.bind (hkey.bind (ih _))

/-- A record whose fields give values has them set one after the other. -/
theorem FieldsGive.record {fs : List Field} {fields : List (String × Value)}
    (h : FieldsGive call s fs w fields w') (pos : Option Position) :
    ∃ id w'', Gives (evaluate call s (.node pos (.record fs))) w
      (.record id (Slots.setAll [] fields)) w'' := by
  refine ⟨⟨w'.nextSerial⟩, { w' with nextSerial := w'.nextSerial + 1 }, ?_⟩
  rw [evaluate]
  apply Gives.locate
  rw [evaluateForm]
  exact (h.gives []).bind rfl

end Eval

/-! ## Records -/

namespace Value

variable {entries : Value} {es : List Host}

end Value

end VariantScript
