import VariantScript.Proofs.Faults.Evaluations

/-!
# The course of a fault

A fault comes up in one evaluation and leaves all those that are being done then, and no others: of
what an evaluation starts at most one fails, and then it fails itself.  On its way out the fault gets
the place of the first term that has one, and keeps it.
-/

namespace VariantScript

open Syntax Eval

namespace Eval

variable {α : Type} {act : Eval α} {x y : α} {w w₁ w₂ : World}

theorem Gives.unique (h : Gives act w x w₁) (h' : Gives act w y w₂) : x = y ∧ w₁ = w₂ := by
  cases h.symm.trans h'
  exact ⟨rfl, rfl⟩

/-- A place that is there is kept. -/
theorem locate_of_some {f : Fault} {p : Position} (h : f.location = some p) (pos : Option Position) :
    f.locate pos = f := by
  unfold Fault.locate
  rw [h]

theorem location_locate {f : Fault} (h : f.location = none) (pos : Option Position) :
    (f.locate pos).location = pos := by
  unfold Fault.locate
  rw [h]

theorem locate_none (f : Fault) : f.locate none = f := by
  obtain ⟨cause, location⟩ := f
  cases location <;> rfl

end Eval

namespace Moment

variable {n : Nat} {s : ScopeId} {t : Term} {w w' : World} {a b c m r : Moment} {f g : Fault}
  {v : Value} {o : Origin}

/-- The place of the term that is evaluated; a call has none. -/
def pos? : Moment → Option Position
  | term _ _ t _ => t.pos
  | call _ _ _ _ => none

/-- The evaluation fails with a fault. -/
def Fails (a : Moment) : Prop :=
  ∃ f, a.run.1 = .error (.fault f)

/-- A fault comes up in the evaluation itself: it fails, but nothing that it starts does. -/
structure Raises (a : Moment) : Prop where
  fails : a.Fails
  alone (b : Moment) (hstarts : a.Starts b) : ¬ b.Fails

/-! ## Out of an evaluation -/

/-- A fault leaves the evaluation that started the failing one, and gets its place if it has none. -/
theorem Starts.run_of_fault (h : a.Starts b) (hb : b.run.1 = .error (.fault g)) :
    a.run.1 = .error (.fault (g.locate a.pos?)) := by
  cases a with
  | term n s t w =>
      rw [h.run_of_stopped hb]
      rfl
  | call n callee args w =>
      show _ = Except.error (Stop.fault (g.locate none))
      rw [locate_none]
      cases h with
      | dispatch hdispatch =>
          rw [run_dispatch hdispatch]
          exact hb
      | @body n i f args s w w' w'' hlength hscope hparams =>
          have hbody : ((evaluate (callAt n) s f.body).run.run w'').1 = .error (.fault g) := hb
          rw [run_body hlength hscope hparams]
          by_cases hblock : f.body.isBlock = true
          · rw [run_runBody_block hblock, hbody]
            rfl
          · have hterm : Includes (evaluate (callAt n) s f.body) w'' (.term n s f.body w'') :=
              includes_term
            have hincludes := hterm.bind (k := fun v => ofExcept (requireResult v))
              fun v => (quiet_ofExcept _).grows
            unfold runBody
            rw [if_neg hblock, hincludes.stopped _ hb]

theorem Starts.fails (h : a.Starts b) (hb : b.Fails) : a.Fails := by
  obtain ⟨g, hg⟩ := hb
  exact ⟨_, h.run_of_fault hg⟩

theorem LeadsTo.fails (h : a.LeadsTo b) (hb : b.Fails) : a.Fails := by
  induction h with
  | refl => exact hb
  | tail _ hstarts ih => exact ih (hstarts.fails hb)

/-! ## One at a time -/

theorem not_fails_of_gives (h : Gives (evaluate (callAt n) s t) w v w') :
    ¬ (Moment.term n s t w).Fails := by
  rintro ⟨f, hf⟩
  have hgives : (Moment.term n s t w).run = (.ok v, w') := h
  rw [hgives] at hf
  cases hf

theorem anyStarts_unique {ts : List Term} (h : AnyStarts n s ts w b) (h' : AnyStarts n s ts w c)
    (hb : b.Fails) (hc : c.Fails) : b = c := by
  induction h with
  | head =>
      cases h' with
      | head => rfl
      | tail hgives => exact absurd hb (not_fails_of_gives hgives)
  | tail hgives _ ih =>
      cases h' with
      | head => exact absurd hc (not_fails_of_gives hgives)
      | tail hgives' h' =>
          obtain ⟨rfl, rfl⟩ := hgives.unique hgives'
          exact ih h' hb

theorem fieldStarts_unique {fs : List Field} (h : FieldStarts n s fs w b)
    (h' : FieldStarts n s fs w c) (hb : b.Fails) (hc : c.Fails) : b = c := by
  induction h with
  | head =>
      cases h' with
      | head => rfl
      | tail hvalue => exact absurd hb (not_fails_of_gives hvalue)
  | tail hvalue hkey _ ih =>
      cases h' with
      | head => exact absurd hc (not_fails_of_gives hvalue)
      | tail hvalue' hkey' h' =>
          obtain ⟨rfl, rfl⟩ := hvalue.unique hvalue'
          obtain ⟨rfl, rfl⟩ := hkey.unique hkey'
          exact ih h' hb

theorem not_fails_of_gives_all {ts : List Term} {vs : List Value}
    (hgives : Gives (evaluateAll (callAt n) s ts) w vs w') (h : AnyStarts n s ts w b) :
    ¬ b.Fails := by
  rintro ⟨f, hf⟩
  have hstopped := (includes_evaluateAll h).stopped _ hf
  cases hgives.symm.trans hstopped

/-- Of what an evaluation starts, one fails at most. -/
theorem Starts.unique (h : a.Starts b) (h' : a.Starts c) (hb : b.Fails) (hc : c.Fails) : b = c := by
  cases h with
  | first hfirst =>
      cases h' with
      | first hfirst' =>
          cases hfirst.symm.trans hfirst'
          rfl
      | next hfirst' hgives =>
          cases hfirst.symm.trans hfirst'
          exact absurd hb (not_fails_of_gives hgives)
      | program | block | array | record => cases hfirst
      | arguments hcallee | call hcallee =>
          cases hfirst
          exact absurd hb (not_fails_of_gives hcallee)
  | next hfirst hgives hnext =>
      cases h' with
      | first hfirst' =>
          cases hfirst.symm.trans hfirst'
          exact absurd hc (not_fails_of_gives hgives)
      | next hfirst' hgives' hnext' =>
          cases hfirst.symm.trans hfirst'
          obtain ⟨rfl, rfl⟩ := hgives.unique hgives'
          cases hnext.symm.trans hnext'
          rfl
      | program | block | array | record => cases hfirst
      | arguments | call => cases hnext
  | program hhoist h =>
      cases h' with
      | first hfirst | next hfirst => cases hfirst
      | program hhoist' h' =>
          obtain ⟨-, rfl⟩ := hhoist.unique hhoist'
          exact anyStarts_unique h h' hb hc
  | block hscope hhoist h =>
      cases h' with
      | first hfirst | next hfirst => cases hfirst
      | block hscope' hhoist' h' =>
          obtain ⟨rfl, rfl⟩ := hscope.unique hscope'
          obtain ⟨-, rfl⟩ := hhoist.unique hhoist'
          exact anyStarts_unique h h' hb hc
  | array h =>
      cases h' with
      | first hfirst | next hfirst => cases hfirst
      | array h' => exact anyStarts_unique h h' hb hc
  | record h =>
      cases h' with
      | first hfirst | next hfirst => cases hfirst
      | record h' => exact fieldStarts_unique h h' hb hc
  | arguments hcallee h =>
      cases h' with
      | first hfirst =>
          cases hfirst
          exact absurd hc (not_fails_of_gives hcallee)
      | next _ _ hnext => cases hnext
      | arguments hcallee' h' =>
          obtain ⟨-, rfl⟩ := hcallee.unique hcallee'
          exact anyStarts_unique h h' hb hc
      | call hcallee' hargs =>
          obtain ⟨-, rfl⟩ := hcallee.unique hcallee'
          exact absurd hb (not_fails_of_gives_all hargs h)
  | call hcallee hargs =>
      cases h' with
      | first hfirst =>
          cases hfirst
          exact absurd hc (not_fails_of_gives hcallee)
      | next _ _ hnext => cases hnext
      | arguments hcallee' h' =>
          obtain ⟨-, rfl⟩ := hcallee.unique hcallee'
          exact absurd hc (not_fails_of_gives_all hargs h')
      | call hcallee' hargs' =>
          obtain ⟨rfl, rfl⟩ := hcallee.unique hcallee'
          obtain ⟨rfl, rfl⟩ := hargs.unique hargs'
          rfl
  | dispatch hdispatch =>
      cases h' with
      | dispatch hdispatch' =>
          cases hdispatch.symm.trans hdispatch'
          rfl
  | body _ hscope hparams =>
      cases h' with
      | body _ hscope' hparams' =>
          obtain ⟨rfl, rfl⟩ := hscope.unique hscope'
          obtain ⟨-, rfl⟩ := hparams.unique hparams'
          rfl

/-- No evaluation is done in the course of one that it starts. -/
theorem Starts.not_leadsTo (h : a.Starts b) : ¬ b.LeadsTo a := by
  induction a using Moment.induction generalizing b with
  | step a ih =>
      intro hback
      obtain ⟨c, hstarts, hleads⟩ := Relation.TransGen.head'_iff.1 (.tail' hback h)
      exact ih b h hstarts hleads

/-- What fails in the course of an evaluation is the evaluation itself, or lies in the course of the
one that it starts and that fails. -/
theorem LeadsTo.eq_or_within (h : a.LeadsTo c) (hc : c.Fails) (hstarts : a.Starts b)
    (hb : b.Fails) : c = a ∨ b.LeadsTo c := by
  rcases Relation.ReflTransGen.cases_head h with rfl | ⟨d, hd, hleads⟩
  · exact .inl rfl
  · have hfails : d.Fails := LeadsTo.fails hleads hc
    rw [hstarts.unique hd hb hfails]
    exact .inr hleads

theorem Raises.eq_of_leadsTo (hr : r.Raises) (h : r.LeadsTo b) (hb : b.Fails) : b = r := by
  rcases Relation.ReflTransGen.cases_head h with rfl | ⟨d, hd, hleads⟩
  · rfl
  · exact absurd (LeadsTo.fails hleads hb) (hr.alone d hd)

/-- A fault comes up in one evaluation, and those that fail are the ones in whose course that is. -/
theorem Fails.exists_raises (h : a.Fails) :
    ∃ r, a.LeadsTo r ∧ r.Raises ∧ ∀ b, a.LeadsTo b → (b.Fails ↔ b.LeadsTo r) := by
  induction a using Moment.induction with
  | step a ih =>
      by_cases hstarted : ∃ b, a.Starts b ∧ b.Fails
      · obtain ⟨b, hstarts, hb⟩ := hstarted
        obtain ⟨r, hleads, hr, hall⟩ := ih b hstarts hb
        refine ⟨r, .head hstarts hleads, hr, fun c hc => ⟨fun hfails => ?_, fun hcr => ?_⟩⟩
        · rcases hc.eq_or_within hfails hstarts hb with rfl | hwithin
          · exact .head hstarts hleads
          · exact (hall c hwithin).1 hfails
        · exact hcr.fails hr.fails
      · have hr : a.Raises := ⟨h, fun b hstarts hb => hstarted ⟨b, hstarts, hb⟩⟩
        refine ⟨a, .refl, hr, fun c hc => ⟨fun hfails => ?_, fun hca => hca.fails h⟩⟩
        rw [hr.eq_of_leadsTo hc hfails]
        exact .refl

/-! ## Getting a place -/

/-- A fault has the place of the evaluation in which it comes up. -/
theorem Raises.location_eq (hr : r.Raises) (hfrom : r.IsFrom o)
    (hf : r.run.1 = .error (.fault f)) : f.location = r.pos? := by
  have hstarted (b : Moment) (hstarts : r.Starts b) (hb : b.IsFrom o) : b.Proceeds o False := by
    have hnone : ∀ g, b.run.1 ≠ .error (.fault g) := fun g hg => hr.alone b hstarts ⟨g, hg⟩
    have hproceeds := hb.proceeds
    cases b <;> exact hproceeds.of_not_fault hnone
  cases r with
  | term n s t w =>
      obtain ⟨pos, form⟩ := t
      obtain ⟨-, hending⟩ := proceeds_evaluateForm hfrom.2 hfrom.1 hstarted
      have hrun : (Moment.term n s (.node pos form) w).run.1 =
          located pos ((evaluateForm (callAt n) s form).run.run w).1 := by
        show ((evaluate (callAt n) s (.node pos form)).run.run w).1 = _
        unfold evaluate
        rw [run_locate]
      rw [hrun] at hf
      generalize ((evaluateForm (callAt n) s form).run.run w).1 = result at hending hf
      cases hending with
      | value | returned | tooDeep | breakdown => cases hf
      | fault hnone =>
          cases hf
          exact location_locate (hnone.resolve_right id) pos
  | call n callee args w =>
      obtain ⟨-, hending⟩ := proceeds_callAt hfrom.2.2 hfrom.1 hfrom.2.1 hstarted
      have hrun : ((callAt n callee args).run.run w).1 = .error (.fault f) := hf
      rw [hrun] at hending
      cases hending with
      | fault hnone => exact hnone.resolve_right id

/-- A fault that comes up in `r` leaves `a` with the place of `m`, which is the innermost evaluation
with a place of those that are being done then.  From there on it stays as it is. -/
structure Locates (a m r : Moment) (f : Fault) (p : Position) : Prop where
  reached : a.LeadsTo m
  raised : m.LeadsTo r
  place : m.pos? = some p
  location : f.location = some p
  innermost (b : Moment) (hmb : m.LeadsTo b) (hbr : b.LeadsTo r) (hne : b ≠ m) : b.pos? = none
  kept (b : Moment) (hab : a.LeadsTo b) (hbm : b.LeadsTo m) : b.run.1 = .error (.fault f)

/-- A fault that leaves an evaluation has no place if nothing does that is being done when it comes
up; otherwise it has the innermost one. -/
theorem Raises.locates (hr : r.Raises) (hfrom : r.IsFrom o) (h : a.LeadsTo r)
    (hf : a.run.1 = .error (.fault f)) :
    (f.location = none ∧ ∀ b, a.LeadsTo b → b.LeadsTo r → b.pos? = none) ∨
      ∃ m p, a.Locates m r f p := by
  induction h using Relation.ReflTransGen.head_induction_on generalizing f with
  | refl =>
      have hlocation := hr.location_eq hfrom hf
      have heq (b : Moment) (hrb : r.LeadsTo b) (hbr : b.LeadsTo r) : b = r :=
        hr.eq_of_leadsTo hrb (hbr.fails hr.fails)
      cases hpos : r.pos? with
      | none =>
          refine .inl ⟨hlocation.trans hpos, fun b hrb hbr => ?_⟩
          rw [heq b hrb hbr]
          exact hpos
      | some p =>
          refine .inr ⟨r, p, .refl, .refl, hpos, hlocation.trans hpos,
            fun b hrb hbr hne => absurd (heq b hrb hbr) hne, fun b hrb hbr => ?_⟩
          rw [heq b hrb hbr]
          exact hf
  | @head a b hstarts hleads ih =>
      have hb : b.Fails := LeadsTo.fails hleads hr.fails
      obtain ⟨g, hg⟩ := hb
      -- What fails in the course of `a` is `a` itself or lies in the course of `b`.
      have hwithin {c : Moment} (hac : a.LeadsTo c) (hcr : c.LeadsTo r) : c = a ∨ b.LeadsTo c :=
        hac.eq_or_within (hcr.fails hr.fails) hstarts ⟨g, hg⟩
      obtain rfl : f = g.locate a.pos? := by
        rw [hstarts.run_of_fault hg] at hf
        cases hf
        rfl
      rcases ih hg with ⟨hnone, hall⟩ | ⟨m, p, hm⟩
      · cases hpos : a.pos? with
        | none =>
            refine .inl ⟨location_locate hnone _, fun c hac hcr => ?_⟩
            rcases hwithin hac hcr with rfl | hbc
            · exact hpos
            · exact hall c hbc hcr
        | some p =>
            rw [hpos] at hf
            refine .inr ⟨a, p, .refl, .head hstarts hleads, hpos, location_locate hnone _,
              fun c hac hcr hne => ?_, fun c hac hca => ?_⟩
            · exact hall c ((hwithin hac hcr).resolve_left hne) hcr
            · rcases hwithin hac (hca.trans (.head hstarts hleads)) with rfl | hbc
              · exact hf
              · exact absurd (hbc.trans hca) hstarts.not_leadsTo
      · obtain ⟨hreached, hraised, hplace, hlocation, hinnermost, hkept⟩ := hm
        rw [locate_of_some hlocation] at hf ⊢
        refine .inr ⟨m, p, .head hstarts hreached, hraised, hplace, hlocation, hinnermost,
          fun c hac hcm => ?_⟩
        rcases hwithin hac (hcm.trans hraised) with rfl | hbc
        · exact hf
        · exact hkept c hbc hcm

end Moment

end VariantScript
