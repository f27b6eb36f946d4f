import VariantScript.Proofs.Faults.Positions
import VariantScript.Proofs.Faults.Raising

/-!
# Where the faults of a session lie

A fault that ends a step of a session lies in a text.  That is the text of the step unless a function
is being called by then.  Otherwise it is the text in which the innermost of these functions is
written, which is one of an earlier step if the function comes from there.
-/

namespace VariantScript

open Syntax Eval

/-! ## Written in a text -/

/-- A term stands in a text. -/
def Syntax.Term.StandsIn (t : Term) (code : String) : Prop :=
  ∃ program, Program.read code.toList = .ok program ∧ program.Has t

/-- A function is written in a text: a term that makes it stands there. -/
def Closure.StandsIn (f : Closure) (code : String) : Prop :=
  ∃ t : Term, t.StandsIn code ∧ t.MakesFunction f

section

variable {t u : Term} {f : Closure} {code : String}

theorem Syntax.Term.StandsIn.has (h : t.StandsIn code) (hu : t.Has u) : u.StandsIn code := by
  obtain ⟨program, hread, ht⟩ := h
  exact ⟨program, hread, ht.trans hu⟩

theorem Closure.StandsIn.body (h : f.StandsIn code) : f.body.StandsIn code := by
  obtain ⟨t, ht, hmakes⟩ := h
  exact ht.has (.single hmakes.body_mem)

theorem Syntax.Term.Encloses.has (h : t.Encloses u) : t.Has u := by
  refine Relation.ReflTransGen.mono (fun t u hu => ?_) _ _ h
  obtain ⟨pos, form⟩ := t
  cases form <;> first | exact hu | cases hu

end

namespace Moment

variable {n : Nat} {s : ScopeId} {t : Term} {w : World} {code : String}

/-- A program without statements does not fail. -/
theorem Fails.ne_program_nil (h : (Moment.term n s t w).Fails) : t.form ≠ .program [] := by
  intro hform
  obtain ⟨pos, form⟩ := t
  obtain rfl : form = .program [] := hform
  obtain ⟨f, hf⟩ := h
  have hrun : (Moment.term n s (.node pos (.program [])) w).run = (.ok Value.unit, w) := by
    show (evaluate (callAt n) s (.node pos (.program []))).run.run w = _
    unfold evaluate evaluateForm evaluateBody
    rfl
  rw [hrun] at hf
  cases hf

/-- What fails is a term that has the place of a token. -/
theorem Fails.place (h : (Moment.term n s t w).Fails) (ht : t.StandsIn code) :
    ∃ p, t.pos = some p ∧ IsPlaceOf (tokensOf code.toList).1 p := by
  obtain ⟨program, hread, hhas⟩ := ht
  exact (Program.place_of_has hread hhas).resolve_right h.ne_program_nil

variable {a m r : Moment} {f : Fault} {p : Position}

theorem Locates.fails (h : a.Locates m r f p) : m.Fails :=
  ⟨f, h.kept m h.reached .refl⟩

/-- The place of a fault is one of any text in which the term stands that has it. -/
theorem Locates.isPlaceOf (h : a.Locates (.term n s t w) r f p) (ht : t.StandsIn code) :
    IsPlaceOf (tokensOf code.toList).1 p := by
  obtain ⟨p', hpos, hp'⟩ := h.fails.place ht
  obtain rfl : p' = p := Option.some.inj (hpos.symm.trans h.place)
  exact hp'

end Moment

/-! ## Sessions -/

namespace Session

/-- A step of a session: its text, and the number from which on objects are new in it. -/
structure Step where
  serial : Nat
  code : String

/-- A session has taken steps since its start, the last one first. -/
inductive Follows : List Step → Session → Prop where
  | started (legacy : Bool) (observer : Observer) : Follows [] (.start legacy observer)
  | evaluated {steps : List Step} {s : Session} (h : Follows steps s) (code : String) :
      Follows (⟨s.world.nextSerial, code⟩ :: steps) (s.evaluateText code).2
  | ran {steps : List Step} {s : Session} (h : Follows steps s) (code : String) :
      Follows (⟨s.world.nextSerial, code⟩ :: steps) (s.run code).2
  | legacy {steps : List Step} {s : Session} (h : Follows steps s) (flag : Bool) :
      Follows steps (s.setLegacy flag)
  | reset {steps : List Step} {s : Session} (h : Follows steps s) : Follows steps s.reset
  | cleared {steps : List Step} {s : Session} (h : Follows steps s) : Follows steps s.clearEvents

/-- A function is written in the text of a step that was taken, or had begun, when it was made. -/
def Wrote (steps : List Step) (i : Identity) (f : Closure) : Prop :=
  ∃ step ∈ steps, step.serial ≤ i.serial ∧ f.StandsIn step.code

/-- A value is bound to a name in a session, or is a part of such a value. -/
def HasValue (s : Session) (v : Value) : Prop :=
  ∃ (i : Nat) (scope : Scope) (slot : String × Value),
    s.world.scopes[i]? = some scope ∧ slot ∈ scope.vars ∧ slot.2.Holds v

/-- What comes from the texts of steps that begin before some object is made. -/
def origin (steps : List Step) (serial : Nat) : Origin where
  terms t := ∃ step ∈ steps, step.serial ≤ serial ∧ t.StandsIn step.code
  functions i f := ∃ step ∈ steps, step.serial ≤ serial ∧ step.serial ≤ i.serial ∧
    f.StandsIn step.code
  serial := serial
  part := by
    rintro t u ⟨step, hstep, hserial, ht⟩ hu
    exact ⟨step, hstep, hserial, ht.has (.single hu)⟩
  made := by
    rintro t i f ⟨step, hstep, hserial, ht⟩ hmakes hi
    exact ⟨step, hstep, hserial, hserial.trans hi, t, ht, hmakes⟩
  body := by
    rintro i f ⟨step, hstep, hserial, -, hf⟩
    exact ⟨step, hstep, hserial, hf.body⟩

variable {steps : List Step} {s after : Session} {a : Moment} {i : Identity} {g : Closure}
  {w : World} {code : String}

theorem wrote_of_origin {serial : Nat} (h : (origin steps serial).functions i g) :
    Wrote steps i g := by
  obtain ⟨step, hstep, -, hserial, hg⟩ := h
  exact ⟨step, hstep, hserial, hg⟩

/-- More steps and later objects leave what comes from the steps so far. -/
theorem isFrom_origin {steps' : List Step} {serial : Nat} (h : w.IsFrom (origin steps serial))
    (hsteps : steps ⊆ steps') : w.IsFrom (origin steps' w.nextSerial) := by
  refine ⟨le_rfl, fun hscope slot hslot => (h.values hscope slot hslot).mono ?_⟩
  rintro i f ⟨step, hstep, hserial, hi, hf⟩
  exact ⟨step, hsteps hstep, hserial.trans h.serial, hi, hf⟩

theorem isFrom_rootVars {o : Origin} (harness : Identity) :
    ∀ slot ∈ World.rootVars harness, slot.2.IsFrom o :=
  forall_rootVars harness (fun _ => .builtin) fun _ _ => .record

theorem isFrom_ofWorld {serial : Nat} (h : w.IsFrom (origin steps serial)) :
    (ofWorld w).world.IsFrom (origin steps (ofWorld w).world.nextSerial) :=
  isFrom_origin (h.pushed rfl (Nat.le_succ _) (isFrom_rootVars _)) (List.Subset.refl _)

/-- The evaluation of a text keeps to the steps so far and to the text. -/
theorem isFrom_term {t : Term} (h : w.IsFrom (origin steps w.nextSerial))
    (hread : Program.read code.toList = .ok t) (n : Nat) (scope : ScopeId) :
    (Moment.term n scope t w).IsFrom (origin (⟨w.nextSerial, code⟩ :: steps) w.nextSerial) :=
  ⟨⟨_, .head _, le_rfl, t, hread, .refl⟩, isFrom_origin h (List.subset_cons_self _ _)⟩

theorem isFrom_evaluateText (h : s.world.IsFrom (origin steps s.world.nextSerial))
    (code : String) :
    (s.evaluateText code).2.world.IsFrom
      (origin (⟨s.world.nextSerial, code⟩ :: steps) (s.evaluateText code).2.world.nextSerial) := by
  cases hread : Program.read code.toList with
  | error e =>
      unfold evaluateText
      rw [hread]
      exact isFrom_origin h (List.subset_cons_self _ _)
  | ok t =>
      have hproceeds := (isFrom_term h hread callBound s.scope).proceeds
      rw [evaluateText_of_read s hread]
      exact isFrom_origin hproceeds.world (List.Subset.refl _)

theorem isFrom_run (h : s.world.IsFrom (origin steps s.world.nextSerial)) (code : String) :
    (s.run code).2.world.IsFrom
      (origin (⟨s.world.nextSerial, code⟩ :: steps) (s.run code).2.world.nextSerial) := by
  have hstarted : (s.world.note (.started code.length)).IsFrom
      (origin steps s.world.nextSerial) := h.of_scopes rfl le_rfl
  have hevaluated := isFrom_evaluateText
    (s := ⟨s.world.note (.started code.length), s.scope⟩) hstarted code
  unfold run
  dsimp only
  split
  · exact hevaluated.of_scopes rfl le_rfl
  · exact hevaluated

/-- All functions of a session come from its steps. -/
theorem Follows.isFrom (h : Follows steps s) :
    s.world.IsFrom (origin steps s.world.nextSerial) := by
  induction h with
  | started => exact isFrom_ofWorld ⟨le_rfl, fun hscope => by simp [World.new] at hscope⟩
  | evaluated _ code ih => exact isFrom_evaluateText ih code
  | ran _ code ih => exact isFrom_run ih code
  | legacy _ _ ih => exact ih.of_scopes rfl le_rfl
  | reset _ ih => exact isFrom_ofWorld ih
  | cleared _ ih => exact ih.of_scopes rfl le_rfl

/-- A function that a session has at hand is written in one of its texts. -/
theorem Follows.wrote (h : Follows steps s) (hvalue : s.HasValue (.closure i g)) :
    Wrote steps i g := by
  obtain ⟨_, scope, slot, hscope, hslot, hholds⟩ := hvalue
  have hfrom := (h.isFrom.values hscope slot hslot).holds hholds
  exact wrote_of_origin hfrom.function

/-- The text in which a place lies at a moment to which a step comes.  Unless a function is being
called then, it is the text of the step.  Otherwise it is any text in which the innermost of these
functions is written: there is one among those of the step and the steps before it, and among the
latter if the session has the function at hand. -/
inductive Places (steps : List Step) (s : Session) (code : String) (a m : Moment) (p : Position) :
    Prop where
  | own (hpart : a.LeadsToPart m) (hplace : IsPlaceOf (tokensOf code.toList).1 p) :
      Places steps s code a m p
  | called {n : Nat} {i : Identity} {g : Closure} {args : List Value} {w : World}
      (hcall : a.LeadsTo (.call n (.closure i g) args w))
      (hsurrounds : (Moment.call n (.closure i g) args w).Surrounds g m)
      (hwrote : Wrote (⟨s.world.nextSerial, code⟩ :: steps) i g)
      (hearlier : s.HasValue (.closure i g) → Wrote steps i g)
      (hplace : ∀ text, g.StandsIn text → IsPlaceOf (tokensOf text.toList).1 p) :
      Places steps s code a m p

theorem Places.of_first {m : Moment} {p : Position} (h : Places [] s code a m p) :
    IsPlaceOf (tokensOf code.toList).1 p := by
  cases h with
  | own _ hplace => exact hplace
  | called _ _ hwrote _ hplace =>
      obtain ⟨step, hstep, -, hg⟩ := hwrote
      obtain rfl := List.mem_singleton.1 hstep
      exact hplace code hg

/-- The place of a fault that leaves a text lies where the term is written that has it. -/
theorem Follows.places {n : Nat} {scope : ScopeId} {t : Term} {m r : Moment} {f : Fault}
    {p : Position} (h : Follows steps s) (ht : t.StandsIn code)
    (hfrom : (Moment.term n scope t w).IsFrom
      (origin (⟨s.world.nextSerial, code⟩ :: steps) s.world.nextSerial))
    (hm : (Moment.term n scope t w).Locates m r f p) :
    Places steps s code (.term n scope t w) m p := by
  cases m with
  | call =>
      have hplace := hm.place
      cases hplace
  | term =>
      rcases hm.reached.part_or_called rfl with hpart | ⟨c, body, hc, hcall, hbody, hstarts, hpart⟩
      · exact .own hpart (hm.isPlaceOf (ht.has hpart.encloses.has))
      · obtain ⟨_, i, g, args, w', _, _, _, rfl, rfl, -⟩ := hstarts.body_of_call hcall hbody
        have hcallee := (hc.isFrom hfrom).1
        refine .called hc ⟨⟨_, _, _, _, rfl⟩, _, hstarts, rfl, hpart⟩
          (wrote_of_origin hcallee.function) h.wrote fun text hg => ?_
        exact hm.isPlaceOf (hg.body.has hpart.encloses.has)

/-- The text of a step that fails with a fault can be read, and its evaluation fails. -/
theorem exists_evaluates_of_fault {f : Fault}
    (hfault : s.evaluateText code = (.error (.fault f), after) ∨
      s.run code = (.error (.fault f), after)) :
    ∃ t w, Program.read code.toList = .ok t ∧
      s.Evaluates (.term callBound s.scope t w) after ∧
      (Moment.term callBound s.scope t w).run.1 = .error (.fault f) ∧
      w.scopes = s.world.scopes ∧ w.nextSerial = s.world.nextSerial := by
  have hevaluated {s : Session} (h : (s.evaluateText code).1 = .error (.fault f)) :
      ∃ t, Program.read code.toList = .ok t ∧
        (Moment.term callBound s.scope t s.world).run.1 = .error (.fault f) := by
    cases hread : Program.read code.toList with
    | error e =>
        unfold evaluateText at h
        rw [hread] at h
        cases h
    | ok t =>
        rw [evaluateText_of_read s hread] at h
        refine ⟨t, rfl, ?_⟩
        generalize (Moment.term callBound s.scope t s.world).run.1 = result at h
        cases result with
        | ok v => cases h
        | error stop =>
            cases stop <;> cases h
            rfl
  rcases hfault with hfault | hfault
  · obtain ⟨t, hread, hrun⟩ := hevaluated (congrArg Prod.fst hfault)
    have hevaluates : s.Evaluates _ _ := .evaluated hread
    rw [hfault] at hevaluates
    exact ⟨t, _, hread, hevaluates, hrun, rfl, rfl⟩
  · obtain ⟨t, hread, hrun⟩ := hevaluated ((run_result s code).symm.trans (congrArg Prod.fst hfault))
    have hevaluates : s.Evaluates _ _ := .ran hread
    rw [hfault] at hevaluates
    exact ⟨t, _, hread, hevaluates, hrun, rfl, rfl⟩

/-- The place of the fault with which a run fails. -/
def placeOfFault? : Except Failure Value → Option Position
  | .error (.fault f) => f.location
  | _ => none

theorem exists_fault_of_place {result : Except Failure Value} {p : Position}
    (h : placeOfFault? result = some p) :
    ∃ f : Fault, result = .error (.fault f) ∧ f.location = some p := by
  unfold placeOfFault? at h
  split at h
  · exact ⟨_, rfl, h⟩
  · cases h

end Session

/-- Where a fault lies that ends a step of a session.

It comes up in one evaluation `r`, and of all that are done in the course of the step just those fail
that are being done by then.  It has the place of the innermost one of these that has a place, `m`,
and whatever encloses that one fails with the fault as it is.  The place lies in the text of the step
or, if a function is being called, where the function is written, maybe in an earlier text.  In the
first step it lies in the text of the step. -/
theorem fault_located {steps : List Session.Step} {session after : Session} {code : String}
    {f : Fault} (hsession : Session.Follows steps session)
    (hfault : session.evaluateText code = (.error (.fault f), after) ∨
      session.run code = (.error (.fault f), after)) :
    ∃ t w m r p, Program.read code.toList = .ok t ∧
      let a := Moment.term callBound session.scope t w
      session.Evaluates a after ∧ a.Locates m r f p ∧ r.Raises ∧
        (∀ b, a.LeadsTo b → (b.Fails ↔ b.LeadsTo r)) ∧
        session.Places steps code a m p ∧
        (steps = [] → IsPlaceOf (tokensOf code.toList).1 p) := by
  obtain ⟨t, w, hread, hevaluates, hrun, hscopes, hserial⟩ :=
    Session.exists_evaluates_of_fault hfault
  have hstands : t.StandsIn code := ⟨t, hread, .refl⟩
  have hw : w.IsFrom (Session.origin steps w.nextSerial) := by
    rw [hserial]
    exact hsession.isFrom.of_scopes hscopes hserial.ge
  have hfrom := Session.isFrom_term hw hread callBound session.scope
  rw [hserial] at hfrom
  have hfails : (Moment.term callBound session.scope t w).Fails := ⟨f, hrun⟩
  obtain ⟨r, hleads, hraises, hall⟩ := hfails.exists_raises
  rcases hraises.locates (hleads.isFrom hfrom) hleads hrun with ⟨-, hnone⟩ | ⟨m, p, hm⟩
  · -- The program itself has a place.
    obtain ⟨p, hpos, -⟩ := hfails.place hstands
    cases hpos.symm.trans (hnone _ .refl hleads)
  · have hplaces := hsession.places hstands hfrom hm
    refine ⟨t, w, m, r, p, hread, hevaluates, hm, hraises, hall, hplaces, ?_⟩
    rintro rfl
    exact hplaces.of_first

/-- A function of the first step fails in the second one, in the first text. -/
theorem fault_located_inEarlierText :
    let session := ((Session.start false .absent).run "let boom = () => missing").2
    ∃ f p, (session.run "boom()").1 = .error (.fault f) ∧ f.location = some p ∧
      ¬ IsPlaceOf (tokensOf "boom()".toList).1 p ∧
      IsPlaceOf (tokensOf "let boom = () => missing".toList).1 p := by
  intro session
  have hplace : Session.placeOfFault? (session.run "boom()").1 = some ⟨1, 18⟩ := by
    decide +kernel
  have helsewhere : ¬ IsPlaceOf (tokensOf "boom()".toList).1 ⟨1, 18⟩ := by
    unfold IsPlaceOf
    decide +kernel
  obtain ⟨f, hfault, hlocation⟩ := Session.exists_fault_of_place hplace
  have hsession : Session.Follows _ session := .ran (.started false .absent) _
  obtain ⟨t, w, m, r, p, -, -, hm, -, -, hplaces, -⟩ :=
    fault_located hsession (.inr (Prod.ext hfault rfl))
  obtain rfl : p = ⟨1, 18⟩ := Option.some.inj (hm.location.symm.trans hlocation)
  refine ⟨f, _, hfault, hlocation, helsewhere, ?_⟩
  cases hplaces with
  | own _ hown => exact absurd hown helsewhere
  | called _ _ hwrote _ hplaces =>
      obtain ⟨step, hstep, -, hg⟩ := hwrote
      simp only [List.mem_cons, List.not_mem_nil, or_false] at hstep
      rcases hstep with rfl | rfl
      · exact absurd (hplaces _ hg) helsewhere
      · exact hplaces _ hg

end VariantScript
