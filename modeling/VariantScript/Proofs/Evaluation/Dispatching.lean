import VariantScript.Evaluation.Evaluate
import VariantScript.Evaluation.Offered
import VariantScript.Proofs.Comparison.Laws

/-!
# Calling variants

A variant is called with a handler, which offers a value for every branch of its family: a record
under the names of the branches, an array at their places.  Here a call of a variant is described for
any function that makes the calls: a handler of the family has one branch called, once, and anything
else is refused without a call.  The evaluation of a call is such a function, and what is offered to
the surrounding program is another one, which only reports the call.
-/

namespace VariantScript

open Value

/-- Calls a variant that has a tag and a payload, with a function that makes calls. -/
def callVariant {m : Type → Type} [MonadExceptOf Stop m] {α : Type}
    (call : Value → List Value → m α) (tag : Tag) (payload : Value) (args : List Value) : m α :=
  match dispatch tag payload args with
  | .ok (branch, rest) => call branch rest
  | .error e => throw (.fault ⟨.dispatch e, none⟩)

/-- A call of a variant comes down to what the call of its branch comes down to. -/
theorem resolve_variant (id : Identity) (tag : Tag) (payload : Value) (args : List Value) :
    resolve (.variant id tag payload) args =
      dispatch tag payload args >>= fun call => resolve call.1 call.2 := by
  rw [Value.resolve]
  split <;> rename_i hdispatch <;> rw [hdispatch] <;> rfl

/-- A script calls a variant with the function that makes all of its calls. -/
theorem applyValue_variant (enterFunction : Closure → List Value → Eval Value) (id : Identity)
    (tag : Tag) (payload : Value) (args : List Value) :
    applyValue enterFunction (.variant id tag payload) args =
      callVariant (applyValue enterFunction) tag payload args := by
  unfold callVariant
  rw [applyValue, resolve_variant]
  cases dispatch tag payload args with
  | error e => rfl
  | ok call => rfl

/-- The surrounding program is told the call that a variant makes. -/
theorem dispatch_variant (id : Identity) (tag : Tag) (payload : Value) (args : List Value) :
    Offered.dispatch (.variant id tag payload) args =
      callVariant (fun branch rest => pure (branch, rest)) tag payload args := by
  simp only [Offered.dispatch, callVariant]
  cases dispatch tag payload args <;> rfl

/-! ## Handlers -/

/-- A value that offers every branch of a family and nothing else: a record whose names are exactly
those of the branches, or an array with one item for each branch. -/
inductive Value.Handles (family : Family) : Value → Prop where
  | record {id : Identity} {slots : List (String × Value)}
      (hnames : ∀ name, name ∈ Slots.names slots ↔ name ∈ family.branches.map Tag.name) :
      Handles family (.record id slots)
  | array {id : Identity} {items : List Value} (hlength : items.length = family.branches.length) :
      Handles family (.array id items)

/-- What a handler offers for a tag: the field of its name in a record, the item at its place among
the branches of its family in an array. -/
inductive Value.Offers (tag : Tag) : Value → Value → Prop where
  | record {id : Identity} {slots : List (String × Value)} {branch : Value}
      (hslot : Slots.get? slots tag.name = some branch) : Offers tag (.record id slots) branch
  | array {id : Identity} {items : List Value} {branch : Value}
      (hitem : items[tag.family.branches.idxOf tag]? = some branch) :
      Offers tag (.array id items) branch

/-- The branch of a handler that a variant calls and what it calls it with: nothing if the branch is a
function without parameters and the payload is unit, and the payload otherwise. -/
structure Invokes (tag : Tag) (payload handler branch : Value) (rest : List Value) : Prop where
  offered : handler.Offers tag branch
  nothing : rest = [] ↔
    (∃ id f, branch = .closure id f ∧ f.params = []) ∧ ∃ id, payload = .array id []
  something : rest ≠ [] → rest = [payload]

theorem hasBranches_iff (family : Family) (slots : Slots) :
    hasBranches family slots = true ↔
      ∀ name, name ∈ slots.names ↔ name ∈ family.branches.map Tag.name := by
  have hbranch (name : String) :
      (family.branch? name).isSome = true ↔ name ∈ family.branches.map Tag.name := by
    simp [Family.branch?]
  simp only [hasBranches, Bool.and_eq_true, List.all_eq_true, has_iff_mem_names, hbranch]
  constructor
  · rintro ⟨hknown, hthere⟩ name
    refine ⟨hknown name, fun hname => ?_⟩
    obtain ⟨tag, htag, rfl⟩ := List.mem_map.1 hname
    exact hthere tag htag
  · intro hnames
    exact ⟨fun name => (hnames name).1, fun tag htag => (hnames _).2 (List.mem_map_of_mem htag)⟩

/-- A handler of the family has the branch of each of its tags selected. -/
theorem selectBranch_handles {tag : Tag} {handler : Value} (h : handler.Handles tag.family) :
    ∃ branch, selectBranch tag handler = .ok branch ∧ handler.Offers tag branch := by
  cases h with
  | @record id slots hnames =>
      obtain ⟨branch, hslot⟩ := exists_get?_of_mem_names
        ((hnames tag.name).2 (List.mem_map_of_mem tag.mem_branches))
      refine ⟨branch, ?_, .record hslot⟩
      rw [selectBranch, if_pos ((hasBranches_iff tag.family slots).2 hnames), hslot]
  | @array id items hlength =>
      -- Every family has two branches.
      obtain ⟨first, second, rfl⟩ : ∃ first second, items = [first, second] :=
        List.length_eq_two.1 (by cases tag <;> exact hlength)
      cases tag
      all_goals exact ⟨_, rfl, .array rfl⟩

/-- Any other value is refused. -/
theorem selectBranch_refuses {tag : Tag} {handler : Value} (h : ¬ handler.Handles tag.family) :
    ∃ e, selectBranch tag handler = .error e := by
  cases handler with
  | record id slots =>
      refine ⟨.branchNames tag (Slots.names slots), ?_⟩
      rw [selectBranch, if_neg fun hall => h (.record ((hasBranches_iff tag.family slots).1 hall))]
  | array id items =>
      refine ⟨.branchCount tag items.length, ?_⟩
      have hlength : items.length ≠ 2 := fun htwo => h (.array (by cases tag <;> exact htwo))
      match items with
      | [] | [_] | _ :: _ :: _ :: _ => cases tag <;> rfl
      | [_, _] => exact absurd rfl hlength
  | number | string | variant | closure | builtin | foreign => exact ⟨_, rfl⟩

theorem ignoresPayload_iff (branch payload : Value) :
    ignoresPayload branch payload = true ↔
      (∃ id f, branch = .closure id f ∧ f.params = []) ∧ ∃ id, payload = .array id [] := by
  have hunit : payload.isUnit = true ↔ ∃ id, payload = .array id [] := by
    unfold Value.isUnit
    split
    · exact ⟨fun _ => ⟨_, rfl⟩, fun _ => rfl⟩
    · rename_i hother
      exact ⟨fun h => absurd h Bool.false_ne_true, fun ⟨id, hid⟩ => absurd hid (hother id)⟩
  cases branch with
  | closure id f =>
      rw [ignoresPayload, Bool.and_eq_true, List.isEmpty_iff, hunit]
      refine and_congr_left' ⟨fun hparams => ⟨id, f, rfl, hparams⟩, ?_⟩
      rintro ⟨_, _, hclosure, hparams⟩
      cases hclosure
      exact hparams
  | number | string | array | record | variant | builtin | foreign => simp [ignoresPayload]

/-! ## Calls -/

section

variable {α : Type}

/-- With a handler of its family, a variant makes one call. -/
theorem dispatch_handles {tag : Tag} (payload : Value) {handler : Value}
    (h : handler.Handles tag.family) :
    ∃ branch rest, dispatch tag payload [handler] = .ok (branch, rest) ∧
      Invokes tag payload handler branch rest := by
  obtain ⟨branch, hselect, hoffers⟩ := selectBranch_handles h
  refine ⟨branch, if ignoresPayload branch payload then [] else [payload], ?_, hoffers, ?_, ?_⟩
  · simp only [dispatch, hselect]
  · rw [← ignoresPayload_iff]
    split <;> simp_all
  · split
    · exact fun hnothing => absurd rfl hnothing
    · exact fun _ => rfl

/-- With anything but one handler of its family, a variant makes none. -/
theorem dispatch_refuses {tag : Tag} (payload : Value) {args : List Value}
    (h : ¬ ∃ handler, args = [handler] ∧ handler.Handles tag.family) :
    ∃ e, dispatch tag payload args = .error e := by
  match args with
  | [] | _ :: _ :: _ => exact ⟨_, rfl⟩
  | [handler] =>
      obtain ⟨e, he⟩ := selectBranch_refuses fun hhandles => h ⟨handler, rfl, hhandles⟩
      exact ⟨e, by simp only [dispatch, he]⟩

/-- The calls that a variant makes while a function answers them. -/
def invocations (answer : Value → List Value → Except Stop α) (tag : Tag) (payload : Value)
    (args : List Value) : List (Value × List Value) :=
  let noting (branch : Value) (rest : List Value) :
      ExceptT Stop (StateM (List (Value × List Value))) α := do
    modify (· ++ [(branch, rest)])
    ExceptT.mk (pure (answer branch rest))
  ((callVariant noting tag payload args).run.run []).2

theorem invocations_of_ok (answer : Value → List Value → Except Stop α) {tag : Tag}
    {payload branch : Value} {args rest : List Value}
    (h : dispatch tag payload args = .ok (branch, rest)) :
    invocations answer tag payload args = [(branch, rest)] := by
  simp only [invocations, callVariant, h]
  rfl

theorem invocations_of_error (answer : Value → List Value → Except Stop α) {tag : Tag}
    {payload : Value} {args : List Value} {e : DispatchError}
    (h : dispatch tag payload args = .error e) : invocations answer tag payload args = [] := by
  simp only [invocations, callVariant, h]
  rfl

end

/-- The fields of a record in any order offer what an array of the same values offers. -/
theorem get?_of_perm {tag : Tag} {slots : Slots} {values : List Value}
    (hlength : values.length = tag.family.branches.length)
    (h : slots.Perm ((tag.family.branches.map Tag.name).zip values)) :
    slots.get? tag.name = values[tag.family.branches.idxOf tag]? := by
  have hnames : slots.names.Perm (tag.family.branches.map Tag.name) := by
    have hall := h.map Prod.fst
    rwa [List.map_fst_zip (by simp [hlength])] at hall
  have hdistinct : slots.names.Nodup := hnames.nodup_iff.2 (by cases tag <;> decide)
  have hplace : tag.family.branches.idxOf tag < values.length := by
    rw [hlength]
    exact List.idxOf_lt_length_iff.2 tag.mem_branches
  rw [List.getElem?_eq_getElem hplace]
  refine Slots.get?_of_mem hdistinct (h.mem_iff.2 (List.mem_iff_getElem.2
    ⟨tag.family.branches.idxOf tag, by simpa using ⟨hlength ▸ hplace, hplace⟩, ?_⟩))
  simp

/-- Fields in any order are those of a handler of the family. -/
theorem handles_of_perm {family : Family} {slots : Slots} {values : List Value} (id : Identity)
    (hlength : values.length = family.branches.length)
    (h : slots.Perm ((family.branches.map Tag.name).zip values)) :
    (Value.record id slots).Handles family := by
  refine .record fun name => ?_
  have hall := h.map Prod.fst
  rw [List.map_fst_zip (by simp [hlength])] at hall
  exact hall.mem_iff

/-- A record that has the same values under the names of the branches, in any order, makes a variant
call what an array of them in the order of the family makes it call. -/
theorem dispatch_perm {tag : Tag} (payload : Value) {slots : Slots} {values : List Value}
    (i j : Identity) (hlength : values.length = tag.family.branches.length)
    (h : slots.Perm ((tag.family.branches.map Tag.name).zip values)) :
    dispatch tag payload [.record i slots] = dispatch tag payload [.array j values] := by
  have hsame := get?_of_perm hlength h
  obtain ⟨branch, hselect, hoffers⟩ := selectBranch_handles (handles_of_perm i hlength h)
  have harray : (Value.array j values).Handles tag.family := .array hlength
  obtain ⟨branch', hselect', hoffers'⟩ := selectBranch_handles harray
  cases hoffers with
  | record hslot =>
      cases hoffers' with
      | array hitem =>
          cases hslot.symm.trans (hsame.trans hitem)
          simp only [dispatch, hselect, hselect']

/-- Calling a variant.  If the arguments are one handler of its family, one of its branches is called,
once: the one of the variant's tag, without arguments if it is a function without parameters and the
payload is unit, and with the payload otherwise.  With any other arguments there is no call but an
error of marshalling.  Fields in any order make the same call as items in the order of the family. -/
theorem callVariant_calls (tag : Tag) (payload : Value) (args : List Value) :
    (∀ handler, args = [handler] → handler.Handles tag.family →
      ∃ branch rest, Invokes tag payload handler branch rest ∧
        (∀ (m : Type → Type) [MonadExceptOf Stop m] (α : Type) (call : Value → List Value → m α),
          callVariant call tag payload args = call branch rest) ∧
        ∀ (α : Type) (answer : Value → List Value → Except Stop α),
          invocations answer tag payload args = [(branch, rest)]) ∧
    ((¬ ∃ handler, args = [handler] ∧ handler.Handles tag.family) →
      ∃ cause : Cause, cause.kind = .marshal ∧
        (∀ (m : Type → Type) [MonadExceptOf Stop m] (α : Type) (call : Value → List Value → m α),
          callVariant call tag payload args = throw (.fault ⟨cause, none⟩)) ∧
        ∀ (α : Type) (answer : Value → List Value → Except Stop α),
          invocations answer tag payload args = []) ∧
    ∀ (values : List Value) (slots : Slots) (i j : Identity),
      values.length = tag.family.branches.length →
      slots.Perm ((tag.family.branches.map Tag.name).zip values) →
      ∀ (m : Type → Type) [MonadExceptOf Stop m] (α : Type) (call : Value → List Value → m α),
        callVariant call tag payload [.record i slots] =
          callVariant call tag payload [.array j values] := by
  refine ⟨?_, fun hother => ?_, fun values slots i j hlength hperm m _ α call => ?_⟩
  · rintro handler rfl hhandles
    obtain ⟨branch, rest, hdispatch, hinvokes⟩ := dispatch_handles payload hhandles
    refine ⟨branch, rest, hinvokes, fun m _ α call => ?_,
      fun α answer => invocations_of_ok answer hdispatch⟩
    simp only [callVariant, hdispatch]
  · obtain ⟨e, hdispatch⟩ := dispatch_refuses payload hother
    refine ⟨.dispatch e, rfl, fun m _ α call => ?_,
      fun α answer => invocations_of_error answer hdispatch⟩
    simp only [callVariant, hdispatch]
  · simp only [callVariant, dispatch_perm payload i j hlength hperm]

/-- Truth with a record whose fields are not in the order of the family and with an array of the same
values, and truth without a handler. -/
theorem callVariant_calls_truth :
    let yes : Value := .closure ⟨4⟩ ⟨[], .node none (.truth true), ⟨0⟩, none, .arrow⟩
    let no : Value := .number ⟨5⟩ 0
    let handler : Value := .record ⟨6⟩ [("False", no), ("True", yes)]
    let answer (_ : Value) (_ : List Value) : Except Stop Value := .ok Value.unit
    (∃ branch rest, Invokes .yes Value.unit handler branch rest ∧
        invocations answer .yes Value.unit [handler] = [(branch, rest)]) ∧
      invocations answer .yes Value.unit [] = [] ∧
      callVariant (m := Except Stop) answer .yes Value.unit [handler] =
        callVariant (m := Except Stop) answer .yes Value.unit [.array ⟨7⟩ [yes, no]] := by
  intro yes no handler answer
  have hhandles : handler.Handles Tag.yes.family := .record fun name => by
    simp [Slots.names, Tag.family, Family.branches, Tag.name, or_comm]
  obtain ⟨hcalls, -, hsame⟩ := callVariant_calls .yes Value.unit [handler]
  obtain ⟨branch, rest, hinvokes, -, hinvocations⟩ := hcalls handler rfl hhandles
  obtain ⟨-, hrefuses, -⟩ := callVariant_calls .yes Value.unit []
  obtain ⟨cause, -, -, hnone⟩ := hrefuses (by rintro ⟨_, hargs, -⟩; cases hargs)
  exact ⟨⟨branch, rest, hinvokes, hinvocations Value answer⟩, hnone Value answer,
    hsame [yes, no] [("False", no), ("True", yes)] ⟨6⟩ ⟨7⟩ rfl (.swap _ _ _) (Except Stop) Value
      answer⟩

end VariantScript
