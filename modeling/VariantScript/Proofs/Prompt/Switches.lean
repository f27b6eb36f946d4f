import VariantScript.Proofs.Binding.Leftovers
import VariantScript.Proofs.Evaluation.Settings
import VariantScript.Proofs.Prompt.Lines

/-!
# Switches in a dialogue

A dialogue answers each input in turn, up to the end of the input.  On the way the switches for legacy
counting and for the way of errors are changed by the accepted switch commands and by nothing else,
and the scope is replaced by the command to reset it and by nothing else.  What is evaluated for an
input finds the switch as it stands at that time, in old functions too.
-/

namespace VariantScript.Prompt

open Syntax

/-! ## Accepted changes -/

/-- What an accepted command does to its switch. -/
inductive Change where
  | on
  | off
  | flip
deriving DecidableEq, Repr

namespace Change

/-- How a switch stands after a change. -/
def apply : Change → Bool → Bool
  | on, _ => true
  | off, _ => false
  | flip, flag => ! flag

/-- The change that an argument asks for: one of the words in either case, or no argument. -/
def ofArg? (arg : String) : Option Change :=
  let word := String.ofList (Text.lower arg.toList)
  if onWords.contains word then some on
  else if offWords.contains word then some off
  else if word.isEmpty then some flip
  else none

end Change

namespace Request

/-- The accepted change that a request makes to the switch of a command. -/
def change? (c : Command) : Request → Option Change
  | command c' arg => if c' = c then Change.ofArg? arg else none
  | _ => none

theorem change?_accepted (c : Command) {arg : String} {change : Change}
    (h : Change.ofArg? arg = some change) : (command c arg).change? c = some change := by
  rw [change?, if_pos rfl, h]

/-- What is not to change a switch: blank lines, texts that are run, words that are no command,
commands without a switch, and arguments that are refused. -/
inductive LeavesSwitches : Request → Prop where
  | nothing : LeavesSwitches nothing
  | code (text : String) : LeavesSwitches (code text)
  | unknown (word : String) : LeavesSwitches (unknown word)
  | clear (arg : String) : LeavesSwitches (command .clear arg)
  | reset (arg : String) : LeavesSwitches (command .reset arg)
  | refused (c : Command) {arg : String} (h : Change.ofArg? arg = none) :
      LeavesSwitches (command c arg)

theorem LeavesSwitches.change?_eq {r : Request} (h : r.LeavesSwitches) {c : Command}
    (hc : c = .legacyKeys ∨ c = .traceback) : r.change? c = none := by
  cases h with
  | nothing | code | unknown => rfl
  | clear | reset => rcases hc with rfl | rfl <;> rfl
  | refused _ h => rw [change?, h, ite_self]

end Request

namespace Input

/-- What an input asks for; an interrupt asks for nothing. -/
def request? : Input → Option Request
  | line text => some (.ofLine (normalize text))
  | interrupt => none

/-- The accepted change that an input makes to the switch of a command. -/
def change? (c : Command) (input : Input) : Option Change :=
  input.request?.bind (Request.change? c)

/-- What comes in and is not to change a switch. -/
def LeavesSwitches (input : Input) : Prop :=
  ∀ r, input.request? = some r → r.LeavesSwitches

variable {input : Input}

theorem change?_of_request {r : Request} (h : input.request? = some r) (c : Command) :
    input.change? c = r.change? c := by
  rw [change?, h]
  rfl

theorem LeavesSwitches.change?_eq (h : input.LeavesSwitches) {c : Command}
    (hc : c = .legacyKeys ∨ c = .traceback) : input.change? c = none := by
  cases hrequest : input.request? with
  | none =>
      rw [change?, hrequest]
      rfl
  | some r => rw [change?_of_request hrequest, (h r hrequest).change?_eq hc]

end Input

/-- What the answer to an input makes of what the prompt keeps. -/
inductive Moves (p : Prompt) (input : Input) : Prompt → Prop where
  | keeps (h : input.LeavesSwitches) (hcode : ∀ code, input.request? ≠ some (.code code))
      (hreset : ∀ arg, input.request? ≠ some (.command .reset arg)) : Moves p input p
  | runs {code : String} (h : input.request? = some (.code code)) :
      Moves p input { p with session := (p.session.clearEvents.run code).2 }
  | resets {arg : String} (h : input.request? = some (.command .reset arg)) :
      Moves p input { p with session := p.session.reset }
  | legacy {arg : String} {change : Change} (h : input.request? = some (.command .legacyKeys arg))
      (harg : Change.ofArg? arg = some change) :
      Moves p input { p with session := p.session.setLegacy (change.apply p.session.world.legacy) }
  | traceback {arg : String} {change : Change} (h : input.request? = some (.command .traceback arg))
      (harg : Change.ofArg? arg = some change) :
      Moves p input { p with traceback := change.apply p.traceback }

section

variable {p p' : Prompt} {input : Input}

theorem Moves.legacy_eq (h : p.Moves input p') :
    p'.session.world.legacy =
      (input.change? .legacyKeys).elim p.session.world.legacy
        (·.apply p.session.world.legacy) := by
  cases h with
  | keeps h =>
      rw [h.change?_eq (.inl rfl)]
      rfl
  | runs h =>
      rw [Input.change?_of_request h]
      exact Session.legacy_run _ _
  | resets h | traceback h =>
      rw [Input.change?_of_request h]
      rfl
  | legacy h harg =>
      rw [Input.change?_of_request h, Request.change?_accepted _ harg]
      rfl

theorem Moves.traceback_eq (h : p.Moves input p') :
    p'.traceback = (input.change? .traceback).elim p.traceback (·.apply p.traceback) := by
  cases h with
  | keeps h =>
      rw [h.change?_eq (.inr rfl)]
      rfl
  | runs h | resets h | legacy h =>
      rw [Input.change?_of_request h]
      rfl
  | traceback h harg =>
      rw [Input.change?_of_request h, Request.change?_accepted _ harg]
      rfl

/-- Only the command to reset the scope replaces it. -/
theorem Moves.scope_eq (h : p.Moves input p')
    (hreset : ∀ arg, input.request? ≠ some (.command .reset arg)) :
    p'.session.scope = p.session.scope := by
  cases h with
  | keeps | legacy | traceback => rfl
  | runs => exact Session.scope_run p.session.clearEvents _
  | resets h => exact absurd h (hreset _)

theorem Moves.of_reset {arg : String} (h : p.Moves input p')
    (hrequest : input.request? = some (.command .reset arg)) :
    p' = { p with session := p.session.reset } := by
  cases h with
  | keeps _ _ hreset => exact absurd hrequest (hreset arg)
  | resets => rfl
  | runs h | legacy h | traceback h => cases h.symm.trans hrequest

theorem Moves.of_code {code : String} (h : p.Moves input p')
    (hrequest : input.request? = some (.code code)) :
    p' = { p with session := (p.session.clearEvents.run code).2 } := by
  cases h with
  | keeps _ hcode => exact absurd hrequest (hcode code)
  | runs h =>
      cases h.symm.trans hrequest
      rfl
  | resets h | legacy h | traceback h => cases h.symm.trans hrequest

/-- The scope of the prompt exists and lies in no other one. -/
def HasScope (p : Prompt) : Prop :=
  ∃ vars, p.session.HasVars vars

theorem hasVars_reset (s : Session) :
    s.reset.HasVars (World.rootVars ⟨s.world.nextSerial⟩) :=
  Array.getElem?_push_size

theorem Moves.hasScope (h : p.Moves input p') (hscope : p.HasScope) : p'.HasScope := by
  obtain ⟨vars, hvars⟩ := hscope
  cases h with
  | keeps | legacy | traceback => exact ⟨vars, hvars⟩
  | @runs code =>
      have hcleared : p.session.clearEvents.HasVars vars := hvars
      obtain ⟨added, hadded⟩ := hcleared.run code
      exact ⟨_, hadded⟩
  | resets => exact ⟨_, hasVars_reset p.session⟩

end

/-! ## Whole dialogues -/

/-- The prompt after some inputs. -/
def after (inputs : List Input) (p : Prompt) : Prompt :=
  inputs.foldl (fun p input => (p.respond input).next) p

/-- One input of a dialogue and what it makes of the prompt, where the switch for legacy counting
stands in some way. -/
structure Proceeds (flag : Bool) (now : Prompt) (input : Input) (next : Prompt) : Prop where
  /-- Nothing but an accepted switch command changes a switch. -/
  kept (h : input.LeavesSwitches) :
    next.session.world.legacy = now.session.world.legacy ∧ next.traceback = now.traceback
  /-- Nothing but the command to reset the scope replaces it. -/
  scope (h : ∀ arg, input.request? ≠ some (.command .reset arg)) :
    next.session.scope = now.session.scope
  /-- The command to reset the scope replaces it by a new one, which lies in no other one and has only
  the names that every script finds. -/
  reset {arg : String} (h : input.request? = some (.command .reset arg)) :
    next.session.scope ≠ now.session.scope ∧
      now.session.world.scopes[next.session.scope.index]? = none ∧
      next.session.names = ["harness", "equal"] ∧
      ∃ harness, next.session.HasVars (World.rootVars harness)
  /-- The switch stands in this way whenever anything is evaluated for the input, and this is how
  `equal` compares. -/
  evaluated {code : String} {t : Term} (h : input.request? = some (.code code))
    (hread : Program.read code.toList = .ok t) :
    ∃ a, now.session.clearEvents.Evaluates a next.session ∧
      ∀ b, a.LeadsTo b → b.world.legacy = flag ∧ b.run.2.legacy = flag ∧
        ∀ n i l r w, b = .call n (.builtin .equal) [.array i [l, r]] w →
          b.run = (.ok (Value.truth (Value.structurallyEqual flag l r)), w)

theorem Moves.proceeds {p p' : Prompt} {input : Input} (h : p.Moves input p')
    (hscope : p.HasScope) : Proceeds p.session.world.legacy p input p' := by
  refine ⟨fun hleaves => ?_, h.scope_eq, fun hrequest => ?_, fun hrequest hread => ?_⟩
  · rw [h.legacy_eq, h.traceback_eq, hleaves.change?_eq (.inl rfl), hleaves.change?_eq (.inr rfl)]
    exact ⟨rfl, rfl⟩
  · obtain rfl := h.of_reset hrequest
    obtain ⟨vars, hvars⟩ := hscope
    have hnew : p.session.world.scopes[p.session.reset.scope.index]? = none :=
      Array.getElem?_eq_none (Nat.le_refl _)
    refine ⟨fun heq => ?_, hnew, ?_, ⟨p.session.world.nextSerial⟩, hasVars_reset p.session⟩
    · have hold : p.session.world.scopes[p.session.scope.index]? = none := heq ▸ hnew
      exact absurd (hold.symm.trans hvars) nofun
    · rw [Session.names, World.names, hasVars_reset p.session]
      rfl
  · obtain rfl := h.of_code hrequest
    refine ⟨_, .ran hread, fun b hb => ?_⟩
    have hbefore : b.world.legacy = p.session.world.legacy := hb.legacy
    refine ⟨hbefore, b.legacy_run.trans hbefore, ?_⟩
    rintro n i l r w rfl
    rw [Moment.run_equal, ← hbefore]
    rfl

end VariantScript.Prompt
