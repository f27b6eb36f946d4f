import VariantScript.Proofs.Evaluation.Terms
import VariantScript.Proofs.Reading.Source
import VariantScript.Proofs.Reading.Written.Phrase
import VariantScript.Session

/-!
# What escapes a run

A run of a text ends in a value, an error of its syntax, a fault or calls that are nested too
deeply, unless it takes the remainder of an infinite number by a number that is no zero.
-/

namespace VariantScript

open Syntax

/-- How a run may end: it crashes for want of a remainder only if `lacks` holds. -/
inductive EndsWell (lacks : Prop) : Except Failure Value → Prop where
  | value {v : Value} (hv : v.IsSound) : EndsWell lacks (.ok v)
  | syntaxError {e : SyntaxError} : EndsWell lacks (.error (.syntaxError e))
  | fault {f : Fault} (hcause : f.cause.IsOrdinary) : EndsWell lacks (.error (.fault f))
  | tooDeep : EndsWell lacks (.error .tooDeep)
  | noRemainder (hlacks : lacks) : EndsWell lacks (.error (.crash (.breakdown .noRemainder)))

namespace Session

/-- A session whose scope lies in no call. -/
structure IsSound (s : Session) : Prop where
  world : s.world.IsSound
  scope : s.world.Outside s.scope

/-- Every script finds a record of built-in operations, each under a name of its own, and one of them
by itself. -/
theorem forall_rootVars {P : Value → Prop} (harness : Identity)
    (hbuiltin : ∀ operation, P (.builtin operation))
    (hrecord : ∀ slots : Slots, (slots.map Prod.fst).Nodup → (∀ slot ∈ slots, P slot.2) →
      P (.record harness slots)) : ∀ slot ∈ World.rootVars harness, P slot.2 := by
  intro slot hslot
  simp only [World.rootVars, List.mem_cons, List.not_mem_nil, or_false] at hslot
  rcases hslot with rfl | rfl
  · refine hrecord _ (by decide) fun slot hslot => ?_
    obtain ⟨operation, -, rfl⟩ := List.mem_map.1 hslot
    exact hbuiltin operation
  · exact hbuiltin .equal

theorem isSound_rootVars (harness : Identity) :
    ∀ slot ∈ World.rootVars harness, slot.2.IsSound :=
  forall_rootVars harness (fun _ => .builtin) fun _ => .record

theorem isSound_ofWorld {w : World} (hw : w.IsSound) : (ofWorld w).IsSound :=
  ⟨hw.pushed rfl (isSound_rootVars _), World.outside_pushed rfl rfl nofun⟩

theorem isSound_start (legacy : Bool) (observer : Observer) :
    (start legacy observer).IsSound :=
  isSound_ofWorld fun i scope hscope => by simp [World.new] at hscope

/-- The session in which a text is evaluated that is run on its own. -/
def started (code : String) (legacy : Bool) (observer : Observer) : Session :=
  { start legacy observer with
    world := (start legacy observer).world.note (.started code.length) }

theorem isSound_started (code : String) (legacy : Bool) (observer : Observer) :
    (started code legacy observer).IsSound := by
  have hstart := isSound_start legacy observer
  have hextends : (start legacy observer).world.Extends (started code legacy observer).world :=
    .of_scopes rfl
  exact ⟨hstart.world.of_scopes rfl, hextends.outside hstart.scope⟩

/-- Whether the evaluation of a text comes to a remainder that does not exist. -/
def LacksRemainder (s : Session) (code : String) : Prop :=
  ∃ t, Program.read code.toList = .ok t ∧
    VariantScript.LacksRemainder callBound s.scope t s.world

theorem isWritten_of_read {code : String} {t : Term} (h : Program.read code.toList = .ok t) :
    t.IsWritten .program := by
  unfold Program.read at h
  dsimp only at h
  split at h
  · rename_i hprogram _
    cases h
    exact Phrase.written_program (genuine_tokensOf code.toList) hprogram
  all_goals cases h

/-- A text is evaluated to a good end. -/
theorem evaluateText_endsWell {s : Session} (hs : s.IsSound) (code : String) :
    EndsWell (s.LacksRemainder code) (s.evaluateText code).1 := by
  unfold evaluateText
  split
  · rename_i t hread
    have hsound := Eval.sound_evaluate (Eval.callsWell callBound) s.scope (isWritten_of_read hread)
      hs.world
    obtain ⟨-, -, hending⟩ := hsound
    unfold evaluateTerm perform
    generalize (evaluate (callAt callBound) s.scope t).run.run s.world = r at hending
    obtain ⟨result, w⟩ := r
    cases hending with
    | value hv => exact .value hv
    | fault hcause => exact .fault hcause
    -- The scope of the session lies in no call, so no `return` can get here.
    | returned hreturns => exact absurd hs.scope hreturns.2
    | tooDeep => exact .tooDeep
    | noRemainder hlacks => exact .noRemainder ⟨t, hread, hlacks⟩
  · exact .syntaxError

/-- A text that lacks a remainder crashes. -/
theorem LacksRemainder.crashes {s : Session} {code : String} (h : s.LacksRemainder code) :
    (s.evaluateText code).1 = .error (.crash (.breakdown .noRemainder)) := by
  obtain ⟨t, hread, hlacks⟩ := h
  have hbreaks := hlacks.breaks
  unfold Eval.Breaks at hbreaks
  unfold evaluateText
  rw [hread]
  dsimp only
  show Except.mapError Failure.ofStop
    ((evaluate (callAt callBound) s.scope t).run.run s.world).1 = _
  rw [hbreaks]
  rfl

end Session

theorem runText_result (code : String) (legacy : Bool) (observer : Observer) :
    (runText code legacy observer).1 =
      ((Session.started code legacy observer).evaluateText code).1 := by
  unfold runText Session.run
  dsimp only
  split <;> rfl

/-- Faults are contained but for one defect.  The run of a text ends in a value, an error of its
syntax, a fault or calls that are nested too deeply, unless its evaluation comes to the remainder
of an infinite number by a number that is no zero; whenever it does, the run crashes. -/
theorem runText_contained (code : String) (legacy : Bool) (observer : Observer) :
    EndsWell ((Session.started code legacy observer).LacksRemainder code)
        (runText code legacy observer).1 ∧
      ((Session.started code legacy observer).LacksRemainder code →
        (runText code legacy observer).1 = .error (.crash (.breakdown .noRemainder))) := by
  rw [runText_result]
  exact ⟨Session.evaluateText_endsWell (Session.isSound_started code legacy observer) code,
    Session.LacksRemainder.crashes⟩

/-- Runs can crash: an infinite literal has no remainder. -/
theorem exists_runText_crashes :
    ¬ ∀ code legacy observer c, (runText code legacy observer).1 ≠ .error (.crash c) := by
  intro hnever
  -- Only a crash ends a run without an event.
  have hnone : (Event.ofResult? (runText "1e400 % 2" false .recording).1).isNone := by
    decide +kernel
  cases hresult : (runText "1e400 % 2" false .recording).1 with
  | ok v => simp [hresult, Event.ofResult?] at hnone
  | error failure =>
      cases failure with
      | crash c => exact hnever _ _ _ _ hresult
      | syntaxError e => simp [hresult, Event.ofResult?] at hnone
      | fault f => simp [hresult, Event.ofResult?] at hnone
      | tooDeep => simp [hresult, Event.ofResult?] at hnone

end VariantScript
