import VariantScript.Evaluation.Evaluate
import VariantScript.Proofs.Evaluation.Endings
import VariantScript.Proofs.Serialization.Data
import VariantScript.Proofs.Serialization.Quoted

/-!
# What the terms of data make

The terms that written data are read as are evaluated without looking at a scope and without calls, so
they make a value alike the data wherever they are evaluated.
-/

namespace VariantScript

open Syntax

namespace Eval

variable {α β : Type} {w w' w'' : World}

theorem gives_pure (x : α) (w : World) : Gives (pure x) w x w :=
  rfl

theorem Gives.bind {act : Eval α} {k : α → Eval β} {x : α} {y : β} (h : Gives act w x w')
    (hk : Gives (k x) w' y w'') : Gives (act >>= k) w y w'' := by
  unfold Gives at h hk ⊢
  rw [run_bind, h]
  exact hk

theorem Gives.locate {act : Eval α} {x : α} (h : Gives act w x w') (pos : Option Position) :
    Gives (Eval.locate pos act) w x w' := by
  unfold Gives at h ⊢
  rw [run_locate, h]
  rfl

end Eval

/-- A field whose name does not occur goes to the end. -/
theorem Slots.set_of_notMem {slots : Slots} {name : String} (h : name ∉ slots.names) (v : Value) :
    slots.set name v = slots ++ [(name, v)] := by
  induction slots with
  | nil => rfl
  | cons slot slots ih =>
      obtain ⟨k, u⟩ := slot
      have hk : k ≠ name := fun hk => h (hk ▸ .head _)
      rw [set, if_neg hk, ih fun hrest => h (.tail _ hrest), List.cons_append]

/-- A term that makes a value alike some data, in every scope and world and whatever calls do. -/
def Syntax.Term.Makes (t : Term) (v : Value) : Prop :=
  ∀ (call : Value → List Value → Eval Value) (s : ScopeId) (w : World),
    ∃ r w', Eval.Gives (evaluate call s t) w r w' ∧ Value.Alike r v

/-- A field that has a name and makes a value alike some data. -/
def Syntax.Field.Makes (f : Field) (slot : String × Value) : Prop :=
  ∃ pos key t, f = .mk pos key t ∧ (∀ w, Eval.Gives key.decode w slot.1 w) ∧ t.Makes slot.2

namespace Syntax.Term

/-- A term makes what its form gives. -/
theorem makes_of_form {pos : Option Position} {form : Form} {v : Value}
    (h : ∀ (call : Value → List Value → Eval Value) (s : ScopeId) (w : World),
      ∃ r w', Eval.Gives (evaluateForm call s form) w r w' ∧ Value.Alike r v) :
    (Term.node pos form).Makes v := by
  intro call s w
  obtain ⟨r, w', hgives, halike⟩ := h call s w
  rw [evaluate]
  exact ⟨r, w', hgives.locate pos, halike⟩

section

variable {text : String} {x y : Float} {i : Identity}

theorem gives_number (hread : Number.read? text.toList = some y) (pos : Position)
    (call : Value → List Value → Eval Value) (s : ScopeId) (w : World) :
    ∃ j w', Eval.Gives (evaluateForm call s (.number ⟨text, pos⟩)) w (.number j y) w' := by
  have hloose := Number.readLoose?_of_read? hread
  rw [evaluateForm]
  simp only [hloose]
  exact ⟨_, _, rfl⟩

theorem makes_number (hread : Number.read? text.toList = some y) (hxy : (y == x) = true)
    (p : Option Position) (pos : Position) :
    (Term.node p (.number ⟨text, pos⟩)).Makes (.number i x) := by
  refine makes_of_form fun call s w => ?_
  obtain ⟨j, w', hgives⟩ := gives_number hread pos call s w
  exact ⟨_, w', hgives, .number hxy⟩

theorem makes_negated (hread : Number.read? text.toList = some y) (hxy : (-y == x) = true)
    (p q : Option Position) (pos pos' : Position) :
    (Term.node p (.unary .negate pos' (.node q (.number ⟨text, pos⟩)))).Makes (.number i x) := by
  refine makes_of_form fun call s w => ?_
  obtain ⟨j, w', hgives⟩ := gives_number hread pos call s w
  rw [evaluateForm, evaluate]
  exact ⟨_, _, (hgives.locate q).bind rfl, .number hxy⟩

end

theorem decodeLiteral_writeText (text : String) :
    decodeLiteral (Json.writeText text) = .ok (.text text) := by
  simp [decodeLiteral, Json.writeText, Text.Quoted.decode?_encode]

theorem makes_string (text : String) (p : Option Position) (pos : Position) :
    (Term.node p (.string ⟨Json.writeText text, pos⟩)).Makes (.string text) := by
  refine makes_of_form fun call s w => ?_
  have hdecode : Eval.Gives (decodeString (Json.writeText text)) w text w := by
    unfold decodeString
    rw [decodeLiteral_writeText]
    rfl
  rw [evaluateForm]
  exact ⟨_, w, hdecode.bind rfl, .string text⟩

theorem makes_truth (flag : Bool) (p : Option Position) :
    (Term.node p (.truth flag)).Makes (Value.truth flag) := by
  refine makes_of_form fun call s w => ?_
  rw [evaluateForm]
  exact ⟨_, w, rfl, .truth flag⟩

theorem gives_evaluateAll {ts : List Term} {vs : List Value} (h : List.Forall₂ Makes ts vs)
    (call : Value → List Value → Eval Value) (s : ScopeId) (w : World) :
    ∃ rs w', Eval.Gives (evaluateAll call s ts) w rs w' ∧ List.Forall₂ Value.Alike rs vs := by
  induction h generalizing w with
  | nil => exact ⟨[], w, by rw [evaluateAll]; rfl, .nil⟩
  | cons hfirst hrest ih =>
      obtain ⟨r, w', hr, halike⟩ := hfirst call s w
      obtain ⟨rs, w'', hrs, hall⟩ := ih w'
      rw [evaluateAll]
      exact ⟨r :: rs, w'', hr.bind (hrs.bind rfl), .cons halike hall⟩

theorem makes_array {ts : List Term} {vs : List Value} (h : List.Forall₂ Makes ts vs)
    (p : Option Position) (i : Identity) : (Term.node p (.array ts)).Makes (.array i vs) := by
  refine makes_of_form fun call s w => ?_
  obtain ⟨rs, w', hrs, hall⟩ := gives_evaluateAll h call s w
  obtain ⟨hlength, hitems⟩ := List.forall₂_iff_zip.1 hall
  rw [evaluateForm]
  exact ⟨_, _, hrs.bind rfl, .array hlength fun p hp => hitems hp⟩

/-- Fields with different names that do not occur yet are put behind the others. -/
theorem gives_evaluateFields {fs : List Field} {slots : Slots}
    (h : List.Forall₂ Field.Makes fs slots) (call : Value → List Value → Eval Value) (s : ScopeId)
    {before : Slots} (hdistinct : (before.names ++ slots.names).Nodup) (w : World) :
    ∃ rs w', Eval.Gives (evaluateFields call s fs before) w (before ++ rs) w' ∧
      Slots.names rs = slots.names ∧
      List.Forall₂ Value.Alike (rs.map Prod.snd) (slots.map Prod.snd) := by
  induction h generalizing before w with
  | nil => exact ⟨[], w, by rw [evaluateFields, List.append_nil]; rfl, rfl, .nil⟩
  | @cons f slot fs slots hfirst hrest ih =>
      obtain ⟨pos, key, t, rfl, hkey, ht⟩ := hfirst
      obtain ⟨name, v⟩ := slot
      obtain ⟨r, w', hr, halike⟩ := ht call s w
      have hfresh : name ∉ before.names := fun hmem =>
        (List.nodup_append.1 hdistinct).2.2 name hmem name (.head _) rfl
      have hnames : Slots.names (before ++ [(name, r)]) ++ Slots.names slots =
          before.names ++ Slots.names ((name, v) :: slots) := by
        simp [Slots.names]
      obtain ⟨rs, w'', hrs, hsame, hall⟩ := @ih (before ++ [(name, r)]) (by rwa [hnames]) w'
      refine ⟨(name, r) :: rs, w'', ?_, congrArg (name :: ·) hsame, .cons halike hall⟩
      rw [List.append_assoc, ← Slots.set_of_notMem hfresh] at hrs
      rw [evaluateFields]
      exact hr.bind ((hkey w').bind hrs)

theorem makes_record {fs : List Field} {slots : Slots} (h : List.Forall₂ Field.Makes fs slots)
    (hdistinct : slots.names.Nodup) (p : Option Position) (i : Identity) :
    (Term.node p (.record fs)).Makes (.record i slots) := by
  refine makes_of_form fun call s w => ?_
  obtain ⟨rs, w', hrs, hsame, hall⟩ := @gives_evaluateFields fs slots h call s [] hdistinct w
  obtain ⟨-, hslots⟩ := List.forall₂_iff_zip.1 hall
  rw [evaluateForm]
  exact ⟨_, _, hrs.bind rfl, .record hsame hdistinct fun p hp => hslots hp⟩

/-- A field with the written form of its name makes what its term makes. -/
theorem makes_field (name : String) {t : Term} {v : Value} (h : t.Makes v)
    (p q : Option Position) (pos : Position) :
    (Field.mk p ⟨q, .quoted ⟨Json.writeText name, pos⟩⟩ t).Makes (name, v) := by
  refine ⟨p, _, t, rfl, fun w => ?_, h⟩
  change Eval.Gives (decodeName (Json.writeText name)) w name w
  unfold decodeName
  rw [decodeLiteral_writeText]
  rfl

end Syntax.Term

end VariantScript
