import VariantScript.Proofs.SideBySide.Closed

/-!
# Runs with different observers

A script cannot tell whether the values that it shows are recorded or logged.  An observer that fails
stops it at the first value that it shows; up to there it does what it does with any other observer,
and behind it nothing is evaluated.
-/

namespace VariantScript

open Syntax Eval

/-! ## What is observed -/

namespace World

variable {w : World}

theorem observations_note {e : Event} (he : e.observed? = none) :
    (w.note e).observations = w.observations := by
  simp [observations, note, he]

/-- What an observer records is observed. -/
theorem observations_of_shown {w' : World} {shown : List Value}
    (h : w'.events.toList = w.events.toList ++ shown.map .observed) :
    w'.observations = w.observations ++ shown := by
  have hshown : (shown.map .observed).filterMap Event.observed? = shown := by
    simp [Function.comp_def, Event.observed?]
  rw [observations, h, List.filterMap_append, hshown]
  rfl

end World

namespace Start

variable {events : List Event} {observer observer' : Observer}
  {fits : observer.failure? = none ∨ observer'.failure? = observer.failure?} {p : Pair}

/-- Recording does not fail, so that any other observer may be compared with it. -/
theorem recording_fits (observer : Observer) : Observer.recording.failure? = none ∨
    observer.failure? = Observer.recording.failure? :=
  .inl rfl

theorem failing_differs (text : String) :
    (Observer.failing text).failure? ≠ Observer.recording.failure? :=
  nofun

theorem alone_equates (p : Pair) : ((alone events observer observer' fits).matching p).Equates :=
  ⟨fun h => ((alone_within p).ids h).2, fun h => ((alone_within p).scopes h).2⟩

/-- Where only the second observer fails, nothing has been shown as long as both runs correspond. -/
theorem Holds.nothing_shown (h : (alone events observer observer' fits).Holds p)
    (hfails : observer'.failure? ≠ observer.failure?) :
    p.left.events.toList = events ∧ p.right.events.toList = events := by
  obtain ⟨shown, shown', hshown⟩ := h.events
  have hleft := hshown.left
  have hright := hshown.right
  have hvalues := hshown.values
  obtain rfl := hshown.quiet hfails
  cases hvalues
  exact ⟨hleft.trans (List.append_nil _), hright.trans (List.append_nil _)⟩

end Start

/-! ## Outcomes -/

/-- Failures of the same kind with the same words at the same place. -/
inductive Failure.Alike : Failure → Failure → Prop where
  | syntaxError {e : SyntaxError} : Alike (.syntaxError e) (.syntaxError e)
  | fault {f f' : Fault} (hcause : f.cause.Alike f'.cause) (hlocation : f'.location = f.location) :
      Alike (.fault f) (.fault f')
  | tooDeep : Alike .tooDeep .tooDeep
  | crash {c : Crash} : Alike (.crash c) (.crash c)

/-- The same value, or failures that are alike. -/
def SameOutcome : Except Failure Value → Except Failure Value → Prop :=
  ExceptRel Failure.Alike Eq

theorem sameOutcome_of_matches {m : Matching} (hm : m.Equates) {r r' : Except Stop Value}
    (h : ExceptRel (Stop.Matches m) (Value.Matches m) r r') :
    SameOutcome (r.mapError Failure.ofStop) (r'.mapError Failure.ofStop) := by
  cases h with
  | ok hv => exact .ok (hv.eq hm).symm
  | error he =>
      refine .error ?_
      cases he with
      | fault hcause hlocation => exact .fault hcause hlocation
      | returned hv =>
          obtain rfl := hv.eq hm
          exact .crash
      | tooDeep => exact .tooDeep
      | breakdown => exact .crash

/-! ## Evaluations -/

namespace World.IsClosed

variable {w : World} {s : ScopeId} (n : Nat) (t : Term)

/-- It makes no difference which observer there is if none fails. -/
theorem sameOutcome_observing (h : w.IsClosed) (hs : s.index < w.scopes.size)
    {observer observer' : Observer} (hnone : observer.failure? = none)
    (hnone' : observer'.failure? = none) :
    SameOutcome
      (((evaluate (callAt n) s t).run.run (w.observing observer)).1.mapError Failure.ofStop)
      (((evaluate (callAt n) s t).run.run (w.observing observer')).1.mapError Failure.ofStop) := by
  have fits : observer.failure? = none ∨ observer'.failure? = observer.failure? := .inl hnone
  have hmatch := Start.momentsMatch_alone fits h hs n t
  rcases hmatch.run with htogether | ⟨e, -, hquits⟩
  · exact sameOutcome_of_matches (Start.alone_equates _) htogether.result
  · exact (hquits.eq_tooDeep (hnone'.trans hnone.symm)).1.elim

/-- An observer that fails makes no difference where nothing is shown.  Otherwise it stops the
evaluation at the first value that is shown. -/
theorem observer_fails (h : w.IsClosed) (hs : s.index < w.scopes.size) (text : String) :
    let recorded := (evaluate (callAt n) s t).run.run (w.observing .recording)
    let failing := (evaluate (callAt n) s t).run.run (w.observing (.failing text))
    ∃ shown : List Value, recorded.2.events.toList = w.events.toList ++ shown.map .observed ∧
      (shown = [] →
        SameOutcome (recorded.1.mapError Failure.ofStop) (failing.1.mapError Failure.ofStop)) ∧
      ∀ first rest, shown = first :: rest →
        failing.2.events.toList = w.events.toList ++ [.observed first] ∧
        ∃ location, failing.1 = .error (.fault ⟨.observerFailed text, location⟩) := by
  intro recorded failing
  have hrecording : (w.observing .recording).IsClosed := h.of_same rfl rfl
  obtain ⟨shown, shown', hevents⟩ := (hrecording.together hs n t).holds.events
  have hshown : recorded.2.events.toList = w.events.toList ++ shown.map .observed := hevents.left
  refine ⟨shown, hshown, ?_⟩
  have hmatch := Start.momentsMatch_alone (Start.recording_fits (.failing text)) h hs n t
  rcases hmatch.run with htogether | ⟨e, he, hquits⟩
  · -- Both runs come to their ends, so that nothing has been shown.
    have hnothing : recorded.2.events.toList = w.events.toList :=
      (htogether.holds.nothing_shown (Start.failing_differs text)).1
    obtain rfl : shown = [] := by simpa [hnothing] using hshown
    exact ⟨fun _ => sameOutcome_of_matches (Start.alone_equates _) htogether.result, nofun⟩
  · generalize hworld : (Moment.term n s t (w.observing (.failing text))).run.2 = w' at hquits
    cases hquits with
    | tooDeep hlax => exact hlax.elim
    | @observer q reason v v' location hfails hother _ hq hv hprefix =>
        cases hfails
        obtain ⟨hleft, hright⟩ := hq.nothing_shown (Start.failing_differs text)
        obtain rfl := hv.eq (Start.alone_equates q)
        have hfirst : w.events.toList ++ [.observed v'] <+: recorded.2.events.toList := by
          rw [hleft] at hprefix
          exact hprefix
        rw [hshown, List.prefix_append_right_inj] at hfirst
        cases shown with
        | nil => simp at hfirst
        | cons first rest =>
            obtain rfl : v' = first := by simpa using hfirst
            refine ⟨nofun, fun first' rest' hsame => ?_⟩
            cases hsame
            refine ⟨?_, location, he⟩
            show (Moment.term n s t (w.observing (.failing text))).run.2.events.toList = _
            rw [hworld, World.note, Array.toList_push, hright]

/-- An evaluation with an observer that fails evaluates nothing once a value has been shown. -/
theorem nothing_after_shown (h : w.IsClosed) (hs : s.index < w.scopes.size) {text : String}
    {b : Moment} (hleads : (Moment.term n s t (w.observing (.failing text))).LeadsTo b) :
    b.world.events.toList = w.events.toList := by
  have hmatch := Start.momentsMatch_alone (Start.recording_fits (.failing text)) h hs n t
  obtain ⟨c, -, hc⟩ := hmatch.leadsTo hleads
  exact (hc.holds.nothing_shown (Start.failing_differs text)).2

end World.IsClosed

/-! ## Sessions -/

namespace Session

variable {s : Session}

/-- The session with another observer. -/
def observing (observer : Observer) (s : Session) : Session :=
  { s with world := s.world.observing observer }

theorem run_observations (s : Session) (code : String) :
    (s.run code).2.world.observations =
      (evaluateText code ⟨s.world.note (.started code.length), s.scope⟩).2.world.observations := by
  unfold Session.run
  dsimp only
  split
  · rename_i e he
    refine World.observations_note ?_
    unfold Event.ofResult? at he
    split at he <;> cases he <;> rfl
  · rfl

/-- What a run gives and what is observed in it is what its evaluation gives and shows. -/
theorem run_observing (s : Session) (observer : Observer) {code : String} {t : Term}
    (hread : Program.read code.toList = .ok t) :
    let evaluated := (evaluate (callAt callBound) s.scope t).run.run
      ((s.world.note (.started code.length)).observing observer)
    ((s.observing observer).run code).1 = evaluated.1.mapError Failure.ofStop ∧
      ((s.observing observer).run code).2.world.observations = evaluated.2.observations := by
  intro evaluated
  have hevaluated : evaluateText code
      ⟨(s.observing observer).world.note (.started code.length), s.scope⟩ =
        (evaluated.1.mapError Failure.ofStop, ⟨evaluated.2, s.scope⟩) :=
    evaluateText_of_read _ hread
  refine ⟨(run_result _ code).trans (congrArg Prod.fst hevaluated), ?_⟩
  have hobservations := run_observations (s.observing observer) code
  rw [show (s.observing observer).scope = s.scope from rfl, hevaluated] at hobservations
  exact hobservations

/-- A text that cannot be read is not evaluated. -/
theorem run_unread (s : Session) (observer : Observer) {code : String} {e : SyntaxError}
    (hread : Program.read code.toList = .error e) :
    ((s.observing observer).run code).1 = .error (.syntaxError e) ∧
      ((s.observing observer).run code).2.world.observations = s.world.observations := by
  have hevaluated : evaluateText code
      ⟨(s.observing observer).world.note (.started code.length), s.scope⟩ =
        (.error (.syntaxError e), ⟨(s.observing observer).world.note (.started code.length),
          s.scope⟩) := by
    unfold evaluateText
    rw [hread]
  refine ⟨(run_result _ code).trans (congrArg Prod.fst hevaluated), ?_⟩
  have hobservations := run_observations (s.observing observer) code
  rw [show (s.observing observer).scope = s.scope from rfl, hevaluated] at hobservations
  exact hobservations.trans (World.observations_note rfl)

end Session

theorem message_observerFailed (text : String) :
    (Cause.observerFailed text).message = "debug observer failed: " ++ text := by
  unfold Cause.message
  rfl

/-- Showing values makes no difference.  A text that is run in a session after any steps has the same
outcome whether the values that it shows are recorded or logged.  If the observer records a value and
then fails with a text, the outcome is again the same where recording alone shows nothing; otherwise
the first value that recording alone shows is observed and no other one, and the run stops with the
failure of the observer.  Where the observer fails, nothing begins once a value has been observed. -/
theorem debug_transparent {legacy : Bool} {observer : Observer} {session : Session}
    (hsession : (Session.start legacy observer).Reaches session) (code text : String) :
    let recorded := (session.observing .recording).run code
    let silent := (session.observing .absent).run code
    let failing := (session.observing (.failing text)).run code
    SameOutcome recorded.1 silent.1 ∧
      (∃ shown : List Value,
        recorded.2.world.observations = session.world.observations ++ shown ∧
        (shown = [] → SameOutcome recorded.1 failing.1) ∧
        ∀ first rest, shown = first :: rest →
          failing.2.world.observations = session.world.observations ++ [first] ∧
          ∃ f, failing.1 = .error (.fault f) ∧ f.cause.kind = .runtime ∧
            f.cause.message = "debug observer failed: " ++ text) ∧
      ∀ a after b, (session.observing (.failing text)).Evaluates a after → a.LeadsTo b →
        b.world.observations = session.world.observations := by
  intro recorded silent failing
  have hclosed := hsession.isClosed (Session.isClosed_start legacy observer)
  have hstarted (code : String) : (session.world.note (.started code.length)).IsClosed :=
    hclosed.world.of_same rfl rfl
  have hnoted (code : String) : (session.world.note (.started code.length)).observations =
      session.world.observations := World.observations_note rfl
  refine ⟨?_, ?_, fun a after b hevaluates hleads => ?_⟩
  · cases hread : Program.read code.toList with
    | error e =>
        rw [(session.run_unread .recording hread).1, (session.run_unread .absent hread).1]
        exact .error .syntaxError
    | ok t =>
        rw [(session.run_observing .recording hread).1, (session.run_observing .absent hread).1]
        exact (hstarted code).sameOutcome_observing _ _ hclosed.scope rfl rfl
  · cases hread : Program.read code.toList with
    | error e =>
        refine ⟨[], ?_, fun _ => ?_, nofun⟩
        · rw [List.append_nil]
          exact (session.run_unread .recording hread).2
        · rw [(session.run_unread .recording hread).1,
            (session.run_unread (.failing text) hread).1]
          exact .error .syntaxError
    | ok t =>
        obtain ⟨hrecorded, hobserved⟩ := session.run_observing .recording hread
        obtain ⟨hfailing, hfirst⟩ := session.run_observing (.failing text) hread
        obtain ⟨shown, hshown, hnone, hsome⟩ :=
          (hstarted code).observer_fails callBound t hclosed.scope text
        refine ⟨shown, ?_, fun hempty => ?_, fun first rest hcons => ?_⟩
        · rw [hobserved, World.observations_of_shown hshown, hnoted]
        · rw [hrecorded, hfailing]
          exact hnone hempty
        · obtain ⟨hevents, location, hstops⟩ := hsome first rest hcons
          have hone : _ = _ ++ [first].map Event.observed := hevents
          refine ⟨?_, ⟨.observerFailed text, location⟩, ?_, rfl, message_observerFailed text⟩
          · rw [hfirst, World.observations_of_shown hone, hnoted]
          · rw [hfailing, hstops]
            rfl
  · cases hevaluates with
    | evaluated =>
        exact congrArg (List.filterMap Event.observed?)
          (hclosed.world.nothing_after_shown _ _ hclosed.scope hleads)
    | @ran code =>
        rw [← hnoted code]
        exact congrArg (List.filterMap Event.observed?)
          ((hstarted code).nothing_after_shown _ _ hclosed.scope hleads)

/-- A text that shows two values, run in a new session: the observer that fails sees the first. -/
theorem debug_transparent_nested :
    let session := Session.start false .absent
    let code := "harness.debug([harness.debug(\"a\")])"
    ∃ first second,
      ((session.observing .recording).run code).2.world.observations = [first, second] ∧
      ((session.observing (.failing "no")).run code).2.world.observations = [first] := by
  have hstart : (Session.start false .absent).Reaches (Session.start false .absent) := .here
  have hnone : (Session.start false .absent).world.observations = [] := by decide +kernel
  have htwo : (((Session.start false .absent).observing .recording).run
      "harness.debug([harness.debug(\"a\")])").2.world.observations.length = 2 := by
    decide +kernel
  obtain ⟨-, ⟨shown, hshown, -, hfails⟩, -⟩ :=
    debug_transparent hstart "harness.debug([harness.debug(\"a\")])" "no"
  rw [hnone, List.nil_append] at hshown
  obtain ⟨first, second, rfl⟩ := List.length_eq_two.1 (hshown ▸ htwo)
  obtain ⟨hfirst, -⟩ := hfails first [second] rfl
  rw [hnone] at hfirst
  exact ⟨first, second, hshown, hfirst⟩

end VariantScript
