import VariantScript.Proofs.Comparison.Relation
import VariantScript.Proofs.Evaluation.Growth

/-!
# How a value fits a pattern

A pattern makes bindings of a value, from left to right, up to the first part of the value that does
not fit.  That says nothing about scopes.  In a scope, the bindings are defined in the same order, up
to the first name that is defined already, be it by the scope or by an earlier binding.  Whichever
comes first stops the binding, and what was defined before stays.
-/

namespace VariantScript

open Syntax

@[simp] theorem Slots.names_append (bindings more : Slots) :
    Slots.names (bindings ++ more) = bindings.names ++ more.names :=
  List.map_append

/-- How an evaluation stops that fails with a cause. -/
def Stop.ofCause (cause : Cause) : Stop :=
  match cause.defect? with
  | some b => .breakdown b
  | none => .fault ⟨cause, none⟩

/-! ## Fitting -/

/-- The bindings that are made from left to right, and why no more are made, if something does not
fit. -/
structure Fitting where
  bindings : Slots
  misfit? : Option Stop

namespace Fitting

/-- Nothing is bound. -/
def nothing : Fitting :=
  ⟨[], none⟩

/-- Nothing fits. -/
def misfit (stop : Stop) : Fitting :=
  ⟨[], some stop⟩

/-- What fits behind something else, which has to fit first. -/
def append (f g : Fitting) : Fitting :=
  match f.misfit? with
  | some stop => ⟨f.bindings, some stop⟩
  | none => ⟨f.bindings ++ g.bindings, g.misfit?⟩

end Fitting

/-- The name that a literal denotes as a key. -/
def nameOfLiteral (literal : String) : Except Stop String :=
  match decodeLiteral literal with
  | .ok (.text s) => .ok s
  | .ok data =>
      match data.keyDefect? with
      | some b => .error (.breakdown b)
      | none => .ok data.display
  | .error cause => .error (.ofCause cause)

namespace Syntax

/-- The field that a key names, or why it names none. -/
def Key.field (k : Key) : Except Stop String :=
  match k.name with
  | .bare name => .ok name.text
  | .quoted literal => nameOfLiteral literal.text
  | .malformed shown => .error (.ofCause (.malformedKey shown))
  | .broken b => .error (.breakdown b)

mutual

/-- How a value fits a pattern. -/
def Pattern.fit : Pattern → Value → Fitting
  | .name _ name, value => ⟨[(name.text, value)], none⟩
  | .array _ patterns, value =>
      match value with
      | .array _ items =>
          if items.length < patterns.length then
            .misfit (.ofCause (.tooFewItems patterns.length items.length))
          else Pattern.fitItems patterns items
      | other => .misfit (.ofCause (.notAnArray other))
  | .record _ fields, value =>
      match value with
      | .record _ slots => PatternField.fitFields fields slots
      | other => .misfit (.ofCause (.notARecord other))
  | .unsupported label, _ => .misfit (.ofCause (.unsupportedPattern label))
  | .broken b, _ => .misfit (.breakdown b)

/-- How values fit patterns side by side. -/
def Pattern.fitItems : List Pattern → List Value → Fitting
  | p :: ps, v :: vs => (p.fit v).append (Pattern.fitItems ps vs)
  | _, _ => .nothing

/-- How the fields of a record fit the fields of a pattern. -/
def PatternField.fitFields : List PatternField → Slots → Fitting
  | .mk _ key pattern :: rest, slots =>
      match key.field with
      | .error stop => .misfit stop
      | .ok name =>
          match slots.get? name with
          | some value => (pattern.fit value).append (PatternField.fitFields rest slots)
          | none => .misfit (.ofCause (.keyNotFound name))
  | .broken b :: _, _ => .misfit (.breakdown b)
  | [], _ => .nothing

end

end Syntax

/-! ## Names of bindings -/

/-- The bindings name the first ones of some names, all of them if everything fits. -/
structure Fitting.Covers (f : Fitting) (names : List String) : Prop where
  before : f.bindings.names <+: names
  all (h : f.misfit? = none) : f.bindings.names = names

namespace Fitting

variable {f g : Fitting} {names more : List String}

theorem covers_nothing : nothing.Covers [] :=
  ⟨List.prefix_rfl, fun _ => rfl⟩

theorem covers_misfit (stop : Stop) : (misfit stop).Covers names :=
  ⟨List.nil_prefix, fun h => nomatch h⟩

theorem Covers.append (hf : f.Covers names) (hg : g.Covers more) :
    (f.append g).Covers (names ++ more) := by
  unfold Fitting.append
  cases hmisfit : f.misfit? with
  | some stop => exact ⟨hf.before.trans (List.prefix_append _ _), fun h => nomatch h⟩
  | none =>
      constructor
      · dsimp only
        rw [Slots.names_append, hf.all hmisfit]
        exact (List.prefix_append_right_inj names).2 hg.before
      · intro hall
        dsimp only
        rw [Slots.names_append, hf.all hmisfit, hg.all hall]

end Fitting

namespace Syntax

mutual

theorem Pattern.fit_covers (p : Pattern) (v : Value) : (p.fit v).Covers p.names := by
  cases p with
  | name pos name =>
      unfold Pattern.fit Pattern.names
      exact ⟨List.prefix_rfl, fun _ => rfl⟩
  | array pos patterns =>
      unfold Pattern.fit Pattern.names
      cases v with
      | array id items =>
          dsimp only
          split
          · exact Fitting.covers_misfit _
          · rename_i hlength
            exact Pattern.fitItems_covers patterns items (by omega)
      | _ => exact Fitting.covers_misfit _
  | record pos fields =>
      unfold Pattern.fit Pattern.names
      cases v with
      | record id slots => exact PatternField.fitFields_covers fields slots
      | _ => exact Fitting.covers_misfit _
  | unsupported | broken =>
      unfold Pattern.fit Pattern.names
      exact Fitting.covers_misfit _

theorem Pattern.fitItems_covers (ps : List Pattern) (vs : List Value) (h : ps.length ≤ vs.length) :
    (Pattern.fitItems ps vs).Covers (Pattern.namesOfAll ps) := by
  match ps, vs with
  | [], _ =>
      unfold Pattern.fitItems Pattern.namesOfAll
      exact Fitting.covers_nothing
  | _ :: _, [] => cases h
  | p :: ps, v :: vs =>
      unfold Pattern.fitItems Pattern.namesOfAll
      exact (Pattern.fit_covers p v).append
        (Pattern.fitItems_covers ps vs (Nat.le_of_succ_le_succ h))

theorem PatternField.fitFields_covers (fs : List PatternField) (slots : Slots) :
    (PatternField.fitFields fs slots).Covers (PatternField.namesOfAll fs) := by
  match fs with
  | [] =>
      unfold PatternField.fitFields PatternField.namesOfAll
      exact Fitting.covers_nothing
  | .broken b :: fs =>
      unfold PatternField.fitFields
      exact Fitting.covers_misfit _
  | .mk pos key pattern :: fs =>
      unfold PatternField.fitFields PatternField.namesOfAll
      cases key.field with
      | error stop => exact Fitting.covers_misfit _
      | ok name =>
          dsimp only
          cases slots.get? name with
          | none => exact Fitting.covers_misfit _
          | some value =>
              exact (Pattern.fit_covers pattern value).append
                (PatternField.fitFields_covers fs slots)

end

end Syntax

/-! ## New names -/

namespace Slots

/-- The bindings before the first one whose name is taken, by others or by an earlier binding. -/
def untilTaken (taken : List String) : Slots → Slots
  | [] => []
  | (name, v) :: rest => if name ∈ taken then [] else (name, v) :: untilTaken (taken ++ [name]) rest

/-- The name of the first binding whose name is taken. -/
def taken? (taken : List String) : Slots → Option String
  | [] => none
  | (name, _) :: rest => if name ∈ taken then some name else taken? (taken ++ [name]) rest

variable {taken : List String} {bindings : Slots} {name : String}

theorem untilTaken_eq_self (h : taken? taken bindings = none) :
    untilTaken taken bindings = bindings := by
  induction bindings generalizing taken with
  | nil => rfl
  | cons b rest ih =>
      obtain ⟨name, v⟩ := b
      unfold taken? at h
      split at h
      · cases h
      · rename_i hname
        rw [untilTaken, if_neg hname, ih h]

/-- No name is taken exactly if the names are new and distinct. -/
theorem taken?_eq_none_iff :
    taken? taken bindings = none ↔ bindings.names.Nodup ∧ ∀ name ∈ bindings.names, name ∉ taken := by
  induction bindings generalizing taken with
  | nil => simp [taken?, names]
  | cons b rest ih =>
      obtain ⟨name, v⟩ := b
      by_cases hname : name ∈ taken
      · simp [taken?, names, hname]
      · simp only [taken?, if_neg hname, ih, names, List.map_cons, List.nodup_cons, List.mem_cons,
          List.mem_append, List.not_mem_nil, or_false]
        constructor
        · rintro ⟨hnodup, hnew⟩
          refine ⟨⟨fun hmem => hnew name hmem (.inr rfl), hnodup⟩, ?_⟩
          rintro other (rfl | hother) htaken
          · exact hname htaken
          · exact hnew other hother (.inl htaken)
        · rintro ⟨⟨hnotin, hnodup⟩, hnew⟩
          refine ⟨hnodup, ?_⟩
          rintro other hother (htaken | rfl)
          · exact hnew other (.inr hother) htaken
          · exact hnotin hother

theorem taken?_append_of_some (more : Slots) (h : taken? taken bindings = some name) :
    taken? taken (bindings ++ more) = some name ∧
      untilTaken taken (bindings ++ more) = untilTaken taken bindings := by
  induction bindings generalizing taken with
  | nil => cases h
  | cons b rest ih =>
      obtain ⟨other, v⟩ := b
      unfold taken? at h
      split at h
      · rename_i hother
        simp [taken?, untilTaken, hother, h]
      · rename_i hother
        obtain ⟨htaken, huntil⟩ := ih h
        simp [taken?, untilTaken, hother, htaken, huntil]

theorem taken?_append_of_none (more : Slots) (h : taken? taken bindings = none) :
    taken? taken (bindings ++ more) = taken? (taken ++ bindings.names) more ∧
      untilTaken taken (bindings ++ more) =
        bindings ++ untilTaken (taken ++ bindings.names) more := by
  induction bindings generalizing taken with
  | nil => simp [names]
  | cons b rest ih =>
      obtain ⟨other, v⟩ := b
      unfold taken? at h
      split at h
      · cases h
      · rename_i hother
        obtain ⟨htaken, huntil⟩ := ih h
        simp [taken?, untilTaken, hother, htaken, huntil, names]

end Slots

/-- How a binding ends in a scope with some names. -/
def Fitting.ending (f : Fitting) (taken : List String) : Except Stop Unit :=
  match f.bindings.taken? taken with
  | some name => .error (.ofCause (.alreadyDeclared name))
  | none =>
      match f.misfit? with
      | some stop => .error stop
      | none => .ok ()

namespace World

/-- The world with more names in a scope. -/
def gain (w : World) (s : ScopeId) (added : Slots) : World :=
  { w with scopes := w.scopes.modify s.index fun scope =>
      { scope with vars := scope.vars ++ added } }

variable {w : World} {s : ScopeId} {scope : Scope} {added : Slots}

theorem gain_nil (w : World) (s : ScopeId) : w.gain s [] = w := by
  have hscopes : (w.gain s []).scopes = w.scopes := by
    apply Array.ext_getElem?
    intro i
    simp only [gain, Array.getElem?_modify, List.append_nil]
    split
    · simp
    · rfl
  exact congrArg (fun scopes => { w with scopes := scopes }) hscopes

theorem gain_gain (w : World) (s : ScopeId) (added more : Slots) :
    (w.gain s added).gain s more = w.gain s (added ++ more) := by
  have hscopes : ((w.gain s added).gain s more).scopes = (w.gain s (added ++ more)).scopes := by
    apply Array.ext_getElem?
    intro i
    simp only [gain, Array.getElem?_modify]
    split
    · cases w.scopes[i]? with
      | none => rfl
      | some scope => simp
    · rfl
  exact congrArg (fun scopes => { w with scopes := scopes }) hscopes

theorem gain_scope (hscope : w.scopes[s.index]? = some scope) (added : Slots) :
    (w.gain s added).scopes[s.index]? = some { scope with vars := scope.vars ++ added } := by
  simp only [gain, Array.getElem?_modify, hscope, if_pos, Option.map_some]

end World

/-! ## Binding -/

namespace Eval

section

variable {α : Type} {s : ScopeId} {act act' : Eval Unit} {f g : Fitting}

/-- An evaluation that defines bindings in a scope of whatever world, up to the first one whose name
is taken. -/
def Fits (s : ScopeId) (act : Eval Unit) (f : Fitting) : Prop :=
  ∀ (w : World) (scope : Scope), w.scopes[s.index]? = some scope →
    act.run.run w =
      (f.ending scope.vars.names, w.gain s (f.bindings.untilTaken scope.vars.names))

theorem run_fail (cause : Cause) (w : World) :
    (fail cause : Eval α).run.run w = (.error (.ofCause cause), w) := by
  unfold fail Stop.ofCause
  cases cause.defect? <;> rfl

theorem fits_pure : Fits s (pure ()) .nothing := by
  intro w scope _
  show (Except.ok (), w) = (.ok (), w.gain s [])
  rw [World.gain_nil]

theorem fits_misfit {stop : Stop} (h : ∀ w, act.run.run w = (.error stop, w)) :
    Fits s act (.misfit stop) := by
  intro w scope _
  rw [h]
  show (Except.error stop, w) = (.error stop, w.gain s [])
  rw [World.gain_nil]

theorem fits_fail (cause : Cause) : Fits s (fail cause) (.misfit (.ofCause cause)) :=
  fits_misfit fun w => run_fail cause w

theorem fits_breakDown (b : Breakdown) : Fits s (breakDown b) (.misfit (.breakdown b)) :=
  fits_misfit fun _ => rfl

theorem Fits.ite {c : Prop} [Decidable c] (h : Fits s act f) (h' : Fits s act' g) :
    Fits s (if c then act else act') (if c then f else g) := by
  split
  · exact h
  · exact h'

theorem fits_define (name : String) (v : Value) :
    Fits s (define s name v) ⟨[(name, v)], none⟩ := by
  intro w scope hscope
  have hrun : (define s name v).run.run w =
      if scope.vars.has name then (.error (.ofCause (.alreadyDeclared name)), w)
      else (.ok (), w.gain s [(name, v)]) := by
    have hget (k : World → Eval Unit) : (get >>= k : Eval Unit).run.run w = (k w).run.run w := rfl
    unfold define
    rw [hget, hscope]
    dsimp only
    by_cases hhas : scope.vars.has name = true
    · rw [if_pos hhas, if_pos hhas, run_fail]
    · rw [if_neg hhas, if_neg hhas]
      rfl
  rw [hrun]
  by_cases hname : name ∈ scope.vars.names
  · rw [if_pos ((Value.has_iff_mem_names _ _).2 hname)]
    simp only [Fitting.ending, Slots.taken?, Slots.untilTaken, if_pos hname, World.gain_nil]
  · rw [if_neg fun hhas => hname ((Value.has_iff_mem_names _ _).1 hhas)]
    simp only [Fitting.ending, Slots.taken?, Slots.untilTaken, if_neg hname]

/-- What is bound next is bound behind what was bound before. -/
theorem Fits.bind (hact : Fits s act f) (hact' : Fits s act' g) :
    Fits s (act >>= fun _ => act') (f.append g) := by
  intro w scope hscope
  rw [run_bind, hact w scope hscope]
  unfold Fitting.append Fitting.ending
  cases htaken : f.bindings.taken? scope.vars.names with
  | some name =>
      obtain ⟨happend, huntil⟩ := Slots.taken?_append_of_some g.bindings htaken
      cases hmisfit : f.misfit? with
      | some stop => simp only [htaken]
      | none => simp only [happend, huntil]
  | none =>
      cases hmisfit : f.misfit? with
      | some stop => simp only [htaken]
      | none =>
          obtain ⟨happend, huntil⟩ := Slots.taken?_append_of_none g.bindings htaken
          have hnext := World.gain_scope hscope (f.bindings.untilTaken scope.vars.names)
          rw [Slots.untilTaken_eq_self htaken] at hnext ⊢
          dsimp only
          rw [hact' _ _ hnext, World.gain_gain, happend, huntil, Slots.names_append]
          rfl

/-- The name of a field does not depend on the world. -/
theorem run_decodeKey (key : Key) (w : World) : key.decode.run.run w = (key.field, w) := by
  unfold Key.decode Key.field
  cases key.name with
  | bare name => rfl
  | malformed shown => exact run_fail _ w
  | broken b => rfl
  | quoted literal =>
      simp only [decodeName, nameOfLiteral]
      rw [run_bind]
      cases decodeLiteral literal.text with
      | error cause =>
          rw [show (Eval.ofExcept (.error cause) : Eval Host) = fail cause from rfl, run_fail]
      | ok data =>
          have hdata : (Eval.ofExcept (.ok data) : Eval Host).run.run w = (.ok data, w) := rfl
          rw [hdata]
          cases data with
          | text s => rfl
          | _ =>
              dsimp only
              generalize Host.keyDefect? _ = defect
              cases defect <;> rfl

/-- What follows on a key. -/
theorem fits_decodeKey {key : Key} {k : String → Eval Unit} {next : String → Fitting}
    (hk : ∀ name, key.field = .ok name → Fits s (k name) (next name)) :
    Fits s (key.decode >>= k)
      (match key.field with
        | .error stop => .misfit stop
        | .ok name => next name) := by
  cases hfield : key.field with
  | error stop =>
      apply fits_misfit
      intro w
      rw [run_bind, run_decodeKey, hfield]
  | ok name =>
      intro w scope hscope
      rw [run_bind, run_decodeKey, hfield]
      exact hk name hfield w scope hscope

end

section

variable (s : ScopeId)

mutual

theorem fits_bindPattern (p : Pattern) (v : Value) : Fits s (bindPattern s p v) (p.fit v) := by
  cases p with
  | name pos name =>
      unfold bindPattern Pattern.fit
      exact fits_define name.text v
  | array pos patterns =>
      unfold bindPattern Pattern.fit
      cases v with
      | array id items => exact (fits_fail _).ite (fits_bindItems patterns items)
      | _ => exact fits_fail _
  | record pos fields =>
      unfold bindPattern Pattern.fit
      cases v with
      | record id slots => exact fits_bindFields fields slots
      | _ => exact fits_fail _
  | unsupported label =>
      unfold bindPattern Pattern.fit
      exact fits_fail _
  | broken b =>
      unfold bindPattern Pattern.fit
      exact fits_breakDown b

theorem fits_bindItems (ps : List Pattern) (vs : List Value) :
    Fits s (bindItems s ps vs) (Pattern.fitItems ps vs) := by
  match ps, vs with
  | [], _ =>
      unfold bindItems Pattern.fitItems
      exact fits_pure
  | _ :: _, [] =>
      unfold bindItems Pattern.fitItems
      exact fits_pure
  | p :: ps, v :: vs =>
      unfold bindItems Pattern.fitItems
      exact (fits_bindPattern p v).bind (fits_bindItems ps vs)

theorem fits_bindFields (fs : List PatternField) (slots : Slots) :
    Fits s (bindFields s fs slots) (PatternField.fitFields fs slots) := by
  match fs with
  | [] =>
      unfold bindFields PatternField.fitFields
      exact fits_pure
  | .broken b :: fs =>
      unfold bindFields PatternField.fitFields
      exact fits_breakDown b
  | .mk pos key pattern :: fs =>
      unfold bindFields PatternField.fitFields
      apply fits_decodeKey
      intro name _
      dsimp only
      cases slots.get? name with
      | some value => exact (fits_bindPattern pattern value).bind (fits_bindFields fs slots)
      | none =>
          apply fits_misfit
          intro w
          rw [run_bind, run_fail]

end

end

end Eval

end VariantScript
