import VariantScript.Proofs.Evaluation.Scopes

/-!
# Values that are met

Whatever value turns up in a session, bound to a name, handed to a call, shown to the observer or
given as a result, it is well formed at every depth: truth values are one of the two that there are,
lists are chains of strings with an end, and records name no field twice.
-/

namespace VariantScript

open Syntax Eval

/-! ## Well-formed values -/

namespace Value

/-- A value is a part of another one, at any depth. -/
inductive Holds : Value → Value → Prop where
  | here {v : Value} : Holds v v
  | item {id : Identity} {items : List Value} {v u : Value} (hv : v ∈ items) (h : Holds v u) :
      Holds (.array id items) u
  | slot {id : Identity} {slots : List (String × Value)} {slot : String × Value} {u : Value}
      (hslot : slot ∈ slots) (h : Holds slot.2 u) : Holds (.record id slots) u
  | payload {id : Identity} {tag : Tag} {payload u : Value} (h : Holds payload u) :
      Holds (.variant id tag payload) u

/-- A list of strings, cell by cell: each cell carries a pair of a string and the rest. -/
inductive IsChain : List String → Value → Prop where
  | empty : IsChain [] Value.emptyList
  | cell {id pair : Identity} {text : String} {texts : List String} {rest : Value}
      (h : IsChain texts rest) :
      IsChain (text :: texts) (.variant id .head (.array pair [.string text, rest]))

/-- A value that is well formed at every depth. -/
structure IsWellFormed (v : Value) : Prop where
  booleans (u : Value) (hu : v.Holds u) (hboolean : u.isBoolean = true) :
    u = Value.truth true ∨ u = Value.truth false
  lists (u : Value) (hu : v.Holds u) (hlist : u.isList = true) : ∃ texts, IsChain texts u
  records (id : Identity) (slots : Slots) (hslots : v.Holds (.record id slots)) :
    (slots.map Prod.fst).Nodup
  builtins (operation : Builtin) (hoperation : v.Holds (.builtin operation)) :
    operation ∈ Builtin.all
  foreign (id : Identity) (data : Host) : ¬ v.Holds (.foreign id data)

/-- A chain can be taken apart into its strings. -/
theorem IsChain.elements {texts : List String} {v : Value} (h : IsChain texts v) :
    v.elements = .ok (texts.map Value.string) := by
  induction h with
  | empty => rfl
  | cell _ ih =>
      rw [Value.elements, ih]
      rfl

theorem IsSound.isChain {v : Value} (h : v.IsSound) (hlist : v.isList = true) :
    ∃ texts, IsChain texts v := by
  induction h with
  | empty => exact ⟨[], .empty⟩
  | cell hrest _ ih =>
      obtain ⟨texts, htexts⟩ := ih hrest
      exact ⟨_, .cell htexts⟩
  | number | string | array | record | yes | no | closure | builtin => cases hlist

theorem IsSound.holds {v u : Value} (h : v.IsSound) (hu : v.Holds u) : u.IsSound := by
  induction hu with
  | here => exact h
  | item hv _ ih => exact ih (h.items _ hv)
  | slot hslot _ ih => exact ih (h.slots.values _ hslot)
  | payload _ ih => exact ih h.payload

/-- A value that a script can hold is well formed. -/
theorem IsSound.isWellFormed {v : Value} (h : v.IsSound) : v.IsWellFormed where
  booleans u hu hboolean := by
    cases h.holds hu with
    | yes => exact .inl rfl
    | no => exact .inr rfl
    | number | string | array | record | empty | cell | closure | builtin => cases hboolean
  lists u hu := (h.holds hu).isChain
  records id slots hslots := (h.holds hslots).slots.names
  builtins operation _ := by cases operation <;> decide
  foreign id data hdata := by cases h.holds hdata

end Value

/-! ## Moments -/

/-- A moment at which a script can be: the term comes from a text, and every value is one that
scripts can hold. -/
def Moment.IsSound : Moment → Prop
  | term _ _ t w => (∃ role, t.IsWritten role) ∧ w.IsSound
  | call _ callee args w => callee.IsSound ∧ (∀ v ∈ args, v.IsSound) ∧ w.IsSound

/-- A value turns up at a moment or in what is evaluated from there. -/
inductive Moment.Meets (b : Moment) : Value → Prop where
  | bound {i : Nat} {scope : Scope} {slot : String × Value}
      (hscope : b.world.scopes[i]? = some scope) (hslot : slot ∈ scope.vars) : Meets b slot.2
  | boundAfter {i : Nat} {scope : Scope} {slot : String × Value}
      (hscope : b.run.2.scopes[i]? = some scope) (hslot : slot ∈ scope.vars) : Meets b slot.2
  | called {n : Nat} {callee : Value} {args : List Value} {w : World}
      (hcall : b = .call n callee args w) : Meets b callee
  | passed {n : Nat} {callee v : Value} {args : List Value} {w : World}
      (hcall : b = .call n callee args w) (hv : v ∈ args) : Meets b v
  | shown {v : Value} (hv : b.Shows v) : Meets b v
  | given {v : Value} (hv : b.run.1 = .ok v) : Meets b v
  | returned {v : Value} (hv : b.run.1 = .error (.returned v)) : Meets b v

namespace Syntax

variable {form : Form} {t : Term}

theorem Form.mem_parts_of_first (h : form.first? = some t) : t ∈ form.parts := by
  cases form <;> cases h <;> simp [Form.parts]

theorem Form.mem_parts_of_next {v : Value} (h : form.next? v = some t) : t ∈ form.parts := by
  cases form <;> simp only [Form.next?, reduceCtorEq] at h
  case ifThen | logical =>
    split at h <;> cases h
    simp [Form.parts]
  case ifThenElse | conditional =>
    obtain ⟨flag, -, rfl⟩ := Option.map_eq_some_iff.1 h
    cases flag <;> simp [Form.parts]
  all_goals
    cases h
    simp [Form.parts]

end Syntax

namespace Eval

theorem Sound.of_gives {α : Type} {lacks returns : Prop} {good : α → World → Prop} {act : Eval α}
    {w w' : World} {x : α} (h : Sound lacks returns good act w) (hgives : Gives act w x w') :
    w'.IsSound ∧ good x w' := by
  obtain ⟨hworld, -, hending⟩ := h
  rw [hgives] at hworld hending
  cases hending with
  | value hx => exact ⟨hworld, hx⟩

end Eval

namespace Moment

variable {n : Nat} {s : ScopeId} {w : World} {a b : Moment} {v : Value}

theorem IsSound.world (h : a.IsSound) : a.world.IsSound := by
  cases a with
  | term => exact h.2
  | call => exact h.2.2

/-- A term that is evaluated ends well. -/
theorem IsSound.term_run {t : Term} (h : (Moment.term n s t w).IsSound) :
    ∃ role, Yields (VariantScript.LacksRemainder n s t w) (MayReturn w s role)
      (evaluate (callAt n) s t) w := by
  obtain ⟨⟨role, ht⟩, hw⟩ := h
  exact ⟨role, sound_evaluate (callsWell n) s ht hw⟩

theorem isSound_of_anyStarts {ts : List Term} (h : AnyStarts n s ts w b) {role : Role}
    (hts : ∀ t ∈ ts, t.IsWritten role) (hw : w.IsSound) : b.IsSound := by
  induction h with
  | head => exact ⟨⟨role, hts _ (.head _)⟩, hw⟩
  | tail ht _ ih =>
      have hsound := sound_evaluate (callsWell n) s (hts _ (.head _)) hw
      exact ih (fun t ht => hts t (.tail _ ht)) (hsound.of_gives ht).1

theorem isSound_of_fieldStarts {fs : List Field} (h : FieldStarts n s fs w b)
    (hfs : ∀ f ∈ fs, f.IsWritten) (hw : w.IsSound) : b.IsSound := by
  induction h with
  | head =>
      cases hfs _ (.head _) with
      | mk _ hvalue => exact ⟨⟨_, hvalue⟩, hw⟩
  | tail hvalue hkey _ ih =>
      cases hfs _ (.head _) with
      | mk hkey' hvalue' =>
          have hw' := ((sound_evaluate (callsWell n) s hvalue' hw).of_gives hvalue).1
          have hdecode : Sound False False (fun _ _ => True) _ _ := sound_decodeKey hkey' hw'
          exact ih (fun f hf => hfs f (.tail _ hf)) (hdecode.of_gives hkey).1

/-- What a script starts from a moment at which it can be is such a moment again. -/
theorem Starts.isSound (h : a.Starts b) (ha : a.IsSound) : b.IsSound := by
  cases h with
  | first hfirst =>
      obtain ⟨⟨role, ht⟩, hw⟩ := ha
      exact ⟨ht.part (Form.mem_parts_of_first hfirst), hw⟩
  | next hfirst hgives hnext =>
      obtain ⟨⟨role, ht⟩, hw⟩ := ha
      obtain ⟨role', ht'⟩ := ht.part (Form.mem_parts_of_first hfirst)
      exact ⟨ht.part (Form.mem_parts_of_next hnext),
        ((sound_evaluate (callsWell _) _ ht' hw).of_gives hgives).1⟩
  | @program n s pos body w w' _ hhoist h =>
      obtain ⟨⟨role, ht⟩, hw⟩ := ha
      cases ht with
      | program hbody =>
          have hsound : Sound False False (fun _ _ => True) (hoist s body) w :=
            sound_hoist s hbody hw
          exact isSound_of_anyStarts h hbody (hsound.of_gives hhoist).1
  | @block n s inner pos body w w' w'' _ hscope hhoist h =>
      obtain ⟨⟨role, ht⟩, hw⟩ := ha
      cases ht with
      | block hbody =>
          have hopen : Sound False False _ _ w := sound_openScope s false hw
          have hsound : Sound False False (fun _ _ => True) (hoist inner body) w' :=
            sound_hoist inner hbody (hopen.of_gives hscope).1
          exact isSound_of_anyStarts h hbody (hsound.of_gives hhoist).1
  | array h =>
      obtain ⟨⟨role, ht⟩, hw⟩ := ha
      cases ht with
      | array hitems => exact isSound_of_anyStarts h hitems hw
  | record h =>
      obtain ⟨⟨role, ht⟩, hw⟩ := ha
      cases ht with
      | record hfields => exact isSound_of_fieldStarts h hfields hw
  | arguments hcallee h =>
      obtain ⟨⟨role, ht⟩, hw⟩ := ha
      cases ht with
      | call hwritten hargs =>
          exact isSound_of_anyStarts h hargs
            ((sound_evaluate (callsWell _) _ hwritten hw).of_gives hcallee).1
  | call hcallee hgives =>
      obtain ⟨⟨role, ht⟩, hw⟩ := ha
      cases ht with
      | call hwritten hargs =>
          obtain ⟨hw', hf⟩ := (sound_evaluate (callsWell _) _ hwritten hw).of_gives hcallee
          obtain ⟨hw'', hvs⟩ := (sound_evaluateAll (callsWell _) _ hargs hw').of_gives hgives
          exact ⟨hf, hvs, hw''⟩
  | dispatch hdispatch =>
      obtain ⟨hcallee, hargs, hw⟩ := ha
      obtain ⟨hbranch, hrest⟩ := Value.hereditary_isSound.dispatch hcallee hargs hdispatch
      exact ⟨hbranch, hrest, hw⟩
  | @body n i f args s w w' w'' _ hscope hparams =>
      obtain ⟨hcallee, hargs, hw⟩ := ha
      obtain ⟨hpatterns, role, -, hbody⟩ := hcallee.function
      have hopen : Sound False False _ _ w := sound_openScope f.scope true hw
      have hbind : Sound False False (fun _ _ => True) (bindItems s f.params args) w' :=
        sound_bindItems s hpatterns hargs (hopen.of_gives hscope).1
      exact ⟨⟨role, hbody⟩, (hbind.of_gives hparams).1⟩

theorem LeadsTo.isSound (h : a.LeadsTo b) (ha : a.IsSound) : b.IsSound := by
  induction h with
  | refl => exact ha
  | tail _ hstarts ih => exact hstarts.isSound ih

/-- Where a script can be it ends in a world and in a value that scripts can hold. -/
theorem IsSound.run (h : a.IsSound) :
    a.run.2.IsSound ∧ ∀ v, a.run.1 = .ok v ∨ a.run.1 = .error (.returned v) → v.IsSound := by
  have of_sound {lacks returns : Prop} {act : Eval Value} {w : World}
      (hsound : Yields lacks returns act w) :
      (act.run.run w).2.IsSound ∧
        ∀ v, (act.run.run w).1 = .ok v ∨ (act.run.run w).1 = .error (.returned v) →
          v.IsSound := by
    obtain ⟨hworld, -, hending⟩ := hsound
    refine ⟨hworld, fun v hv => ?_⟩
    rcases hv with hv | hv <;> rw [hv] at hending <;> cases hending <;> assumption
  cases a with
  | term n s t w =>
      obtain ⟨role, hsound⟩ := h.term_run
      exact of_sound hsound
  | call n callee args w => exact of_sound (callsWell n w callee args h.2.2 h.1 h.2.1)

theorem IsSound.shows (h : a.IsSound) (hv : a.Shows v) : v.IsSound := by
  obtain ⟨n, w, hleads⟩ := hv
  exact (hleads.isSound h).2.1 v (.head _)

/-- Where a script can be it meets only values that scripts can hold. -/
theorem IsSound.meets (h : a.IsSound) (hv : a.Meets v) : v.IsSound := by
  cases hv with
  | bound hscope hslot => exact h.world _ _ hscope _ hslot
  | boundAfter hscope hslot => exact h.run.1 _ _ hscope _ hslot
  | called hcall =>
      subst hcall
      exact h.1
  | passed hcall hv =>
      subst hcall
      exact h.2.1 _ hv
  | shown hv => exact h.shows hv
  | given hv => exact h.run.2 _ (.inl hv)
  | returned hv => exact h.run.2 _ (.inr hv)

end Moment

/-! ## Sessions -/

/-- The value that an event is about. -/
def Event.value? : Event → Option Value
  | observed value | logged value | finished value => some value
  | _ => none

theorem Event.value?_of_shown {e : Event} {v u : Value} (he : e.shown? = some v)
    (hu : e.value? = some u) : u = v := by
  cases e <;> simp_all [Event.shown?, Event.value?]

/-- Events that are about values that scripts can hold. -/
def World.HasSoundEvents (w : World) : Prop :=
  ∀ e ∈ w.events.toList, ∀ v, e.value? = some v → v.IsSound

theorem World.HasSoundEvents.note {w : World} (h : w.HasSoundEvents) {e : Event}
    (he : ∀ v, e.value? = some v → v.IsSound) : (w.note e).HasSoundEvents := by
  intro e' he' v hv
  rw [World.note, Array.toList_push] at he'
  rcases List.mem_append.1 he' with he' | he'
  · exact h e' he' v hv
  · rw [List.mem_singleton.1 he'] at hv
    exact he v hv

namespace Session

variable {s s' s₀ : Session} {a : Moment} {v : Value}

/-- A value turns up in a session: bound to a name, in an event, in the course of evaluating a text,
or as the result of one. -/
inductive Meets (s : Session) : Value → Prop where
  | bound {i : Nat} {scope : Scope} {slot : String × Value}
      (hscope : s.world.scopes[i]? = some scope) (hslot : slot ∈ scope.vars) : Meets s slot.2
  | event {e : Event} {v : Value} (he : e ∈ s.world.events.toList) (hv : e.value? = some v) :
      Meets s v
  | during {s' : Session} {a b : Moment} {v : Value} (hevaluates : s.Evaluates a s')
      (hleads : a.LeadsTo b) (hv : b.Meets v) : Meets s v
  | evaluated {code : String} {v : Value} (hv : (s.evaluateText code).1 = .ok v) : Meets s v
  | ran {code : String} {v : Value} (hv : (s.run code).1 = .ok v) : Meets s v

theorem Evaluates.isSound (h : s.Evaluates a s') (hs : s.IsSound) : a.IsSound := by
  cases h with
  | evaluated hread => exact ⟨⟨_, isWritten_of_read hread⟩, hs.world⟩
  | ran hread => exact ⟨⟨_, isWritten_of_read hread⟩, hs.world.of_scopes rfl⟩

theorem IsSound.result (hs : s.IsSound) {code : String} (hv : (s.evaluateText code).1 = .ok v) :
    v.IsSound := by
  have hends := evaluateText_endsWell hs code
  rw [hv] at hends
  cases hends with
  | value hv => exact hv

theorem run_result (s : Session) (code : String) :
    (s.run code).1 =
      (evaluateText code ⟨s.world.note (.started code.length), s.scope⟩).1 := by
  unfold Session.run
  dsimp only
  split <;> rfl

theorem IsSound.started (hs : s.IsSound) (code : String) :
    IsSound ⟨s.world.note (.started code.length), s.scope⟩ :=
  hs.of_scopes rfl

/-- Evaluating a text adds events about values that scripts can hold. -/
theorem hasSoundEvents_evaluateText (hs : s.IsSound) (h : s.world.HasSoundEvents)
    (code : String) : (s.evaluateText code).2.world.HasSoundEvents := by
  cases hread : Program.read code.toList with
  | error e =>
      unfold evaluateText
      rw [hread]
      exact h
  | ok t =>
      have hsound : (Moment.term callBound s.scope t s.world).IsSound :=
        ⟨⟨_, isWritten_of_read hread⟩, hs.world⟩
      obtain ⟨added, hadded, hshown⟩ := (Moment.grows (.term callBound s.scope t s.world)).events
      rw [evaluateText_of_read s hread]
      intro e he u hu
      have he : e ∈ s.world.events.toList ++ added := by
        rw [← hadded]
        exact he
      rcases List.mem_append.1 he with he | he
      · exact h e he u hu
      · obtain ⟨v, hv, hshows⟩ := hshown e he
        rw [Event.value?_of_shown hv hu]
        exact hsound.shows hshows

theorem hasSoundEvents_run (hs : s.IsSound) (h : s.world.HasSoundEvents) (code : String) :
    (s.run code).2.world.HasSoundEvents := by
  have hstarted : (s.world.note (.started code.length)).HasSoundEvents := h.note nofun
  have hevaluated := hasSoundEvents_evaluateText (hs.started code) hstarted code
  unfold Session.run
  dsimp only
  split
  · rename_i e he
    refine hevaluated.note fun v hv => ?_
    -- A run that ends in a value is told to have finished with that value.
    generalize hresult : (evaluateText code ⟨s.world.note (.started code.length), s.scope⟩).1 = r
      at he
    unfold Event.ofResult? at he
    split at he <;> cases he <;> cases hv
    exact (hs.started code).result hresult
  · exact hevaluated

theorem Reaches.hasSoundEvents (h : s₀.Reaches s) (hs₀ : s₀.IsSound)
    (hevents : s₀.world.HasSoundEvents) : s.world.HasSoundEvents := by
  induction h with
  | here => exact hevents
  | evaluated h code ih => exact hasSoundEvents_evaluateText (h.isSound hs₀) ih code
  | ran h code ih => exact hasSoundEvents_run (h.isSound hs₀) ih code
  | legacy _ _ ih | reset _ ih => exact ih
  | cleared => exact nofun

/-- Where every value is one that scripts can hold, only such values turn up. -/
theorem IsSound.meets (hs : s.IsSound) (hevents : s.world.HasSoundEvents) (hv : s.Meets v) :
    v.IsSound := by
  cases hv with
  | bound hscope hslot => exact hs.world _ _ hscope _ hslot
  | event he hv => exact hevents _ he _ hv
  | during hevaluates hleads hv => exact (hleads.isSound (hevaluates.isSound hs)).meets hv
  | evaluated hv => exact hs.result hv
  | ran hv =>
      rw [run_result] at hv
      exact (hs.started _).result hv

end Session

/-- Every value that turns up in a session is well formed.  Whatever steps the session has taken
since its start, a value that is bound, called, passed, shown or returned in it, or in the course of
any of its evaluations, is well formed at every depth; every part of it can be shown, and every list
in it can be taken apart into strings. -/
theorem reached_isWellFormed {legacy : Bool} {observer : Observer} {session : Session} {v : Value}
    (hsession : (Session.start legacy observer).Reaches session) (hv : session.Meets v) :
    v.IsWellFormed ∧ ∀ u, v.Holds u →
      u.defect? = none ∧
      (u.isList = true → ∃ texts : List String, u.elements = .ok (texts.map Value.string)) := by
  have hstart := Session.isSound_start legacy observer
  have hevents : (Session.start legacy observer).world.HasSoundEvents := nofun
  have hsound : v.IsSound :=
    (hsession.isSound hstart).meets (hsession.hasSoundEvents hstart hevents) hv
  refine ⟨hsound.isWellFormed, fun u hu => ?_⟩
  have hpart := hsound.holds hu
  refine ⟨hpart.defect?, fun hlist => ?_⟩
  obtain ⟨texts, htexts⟩ := hpart.isChain hlist
  exact ⟨texts, htexts.elements⟩

/-- A list that a text makes, at the start of a session. -/
theorem reached_isWellFormed_split :
    ∃ v, ((Session.start false .absent).run "harness.split([\"a b\", \" \"])").1 = .ok v ∧
      v.IsWellFormed := by
  have hruns : ((Session.start false .absent).run
      "harness.split([\"a b\", \" \"])").1.isOk := by decide +kernel
  cases hrun : ((Session.start false .absent).run "harness.split([\"a b\", \" \"])").1 with
  | ok v => exact ⟨v, rfl, (reached_isWellFormed .here (.ran hrun)).1⟩
  | error e =>
      rw [hrun] at hruns
      cases hruns

end VariantScript
