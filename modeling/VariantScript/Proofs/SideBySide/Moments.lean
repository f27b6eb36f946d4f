import VariantScript.Proofs.SideBySide.Terms

/-!
# Moments of two runs side by side

When two runs go side by side, whatever the second evaluates on the way the first evaluates too: each
moment of the second run has a counterpart in the first, in a corresponding world.
-/

namespace VariantScript

open Syntax Eval

namespace Syntax

theorem Form.mem_ownParts_of_first {form : Form} {t : Term} (h : form.first? = some t) :
    t ∈ form.ownParts := by
  have hmem := Form.mem_parts_of_first h
  cases form <;> first | exact hmem | cases h

theorem Form.mem_ownParts_of_next {form : Form} {t u : Term} {v : Value}
    (hfirst : form.first? = some u) (h : form.next? v = some t) : t ∈ form.ownParts := by
  have hmem := Form.mem_parts_of_next h
  cases form <;> first | exact hmem | cases hfirst

end Syntax

namespace Start

variable {α α' : Type} {b : Start} {p : Pair} {good : Pair → α → α' → Prop} {act : Eval α}
  {act' : Eval α'} {x' : α'} {w' : World}

/-- Where the second run gives a value the first gives one that corresponds. -/
theorem SideBySide.of_gives (h : b.SideBySide good act act' p) (hp : b.Holds p)
    (hgives : Gives act' p.right x' w') :
    ∃ x w, Gives act p.left x w ∧ p.Before ⟨w, w'⟩ ∧ b.Holds ⟨w, w'⟩ ∧ good ⟨w, w'⟩ x x' := by
  unfold Gives at hgives ⊢
  rcases h hp with ⟨hle, hq, hresult⟩ | ⟨e, he, -⟩
  · rw [hgives] at hle hq hresult
    generalize hrun : act.run.run p.left = r at hle hq hresult
    obtain ⟨result, w⟩ := r
    cases hresult with
    | ok hx => exact ⟨_, w, rfl, hle, hq, hx⟩
  · rw [hgives] at he
    cases he

theorem InStep.of_gives (h : b.InStep good act act' p) (hp : b.Holds p)
    (hgives : Gives act' p.right x' w') :
    ∃ x w, Gives act p.left x w ∧ p.Before ⟨w, w'⟩ ∧ b.Holds ⟨w, w'⟩ ∧ good ⟨w, w'⟩ x x' :=
  h.sideBySide.of_gives hp hgives

/-- Moments of two runs that correspond. -/
inductive MomentsMatch (b : Start) : Moment → Moment → Prop where
  | term {n n' : Nat} {s s' : ScopeId} {t : Term} {w w' : World}
      (hn : n' = n ∨ b.lax ∧ n' ≤ n) (hp : b.Holds ⟨w, w'⟩) (hplace : b.Place ⟨w, w'⟩ t s s') :
      MomentsMatch b (.term n s t w) (.term n' s' t w')
  | call {n n' : Nat} {callee callee' : Value} {args args' : List Value} {w w' : World}
      (hn : n' = n ∨ b.lax ∧ n' ≤ n) (hp : b.Holds ⟨w, w'⟩)
      (hcallee : b.value ⟨w, w'⟩ callee callee') (hargs : b.values ⟨w, w'⟩ args args') :
      MomentsMatch b (.call n callee args w) (.call n' callee' args' w')

variable {n n' : Nat} {s s' : ScopeId} {w : World} {a a' c' : Moment}

theorem MomentsMatch.holds (h : b.MomentsMatch a a') : b.Holds ⟨a.world, a'.world⟩ := by
  cases h <;> assumption

/-- Corresponding moments end in step, unless the second run stops before the first does. -/
theorem MomentsMatch.run (h : b.MomentsMatch a a') :
    b.Together ⟨a.world, a'.world⟩ b.value a.run a'.run ∨
      ∃ e, a'.run.1 = .error e ∧
        b.Quits ⟨a.world, a'.world⟩ a.run.2.events.toList e a'.run.2 := by
  cases h with
  | term hn hp hplace => exact sideBySide_evaluate (callsSideBySide b hn) _ hplace hp
  | call hn hp hcallee hargs => exact callsSideBySide b hn _ _ _ _ _ hcallee hargs hp

/-! ## Starting -/

/-- Which part comes next depends only on the truth of the value of the first. -/
theorem next?_congr {m : Matching} {v v' : Value} (h : v.Matches m v') (form : Form) :
    form.next? v' = form.next? v := by
  unfold Form.next?
  rw [h.truth?]

theorem anyStarts_matched (hn : n' = n ∨ b.lax ∧ n' ≤ n) {ts : List Term}
    (h : AnyStarts n' s' ts w' c') (hp : b.Holds ⟨w, w'⟩)
    (hts : ∀ t ∈ ts, b.Place ⟨w, w'⟩ t s s') :
    ∃ c, AnyStarts n s ts w c ∧ b.MomentsMatch c c' := by
  induction h generalizing w with
  | head => exact ⟨_, .head, .term hn hp (hts _ (.head _))⟩
  | tail ht _ ih =>
      have hside := sideBySide_evaluate (callsSideBySide b hn) _ (hts _ (.head _))
      obtain ⟨v, w₁, hv, hle, hq, -⟩ := hside.of_gives hp ht
      obtain ⟨c, hstarts, hc⟩ := ih hq fun t ht => (hts t (.tail _ ht)).mono hle
      exact ⟨c, .tail hv hstarts, hc⟩

theorem fieldStarts_matched (hn : n' = n ∨ b.lax ∧ n' ≤ n) {fs : List Field}
    (h : FieldStarts n' s' fs w' c') (hp : b.Holds ⟨w, w'⟩)
    (hfs : ∀ t ∈ fs.filterMap Field.value?, b.Place ⟨w, w'⟩ t s s') :
    ∃ c, FieldStarts n s fs w c ∧ b.MomentsMatch c c' := by
  induction h generalizing w with
  | head => exact ⟨_, .head, .term hn hp (hfs _ (.head _))⟩
  | tail hvalue hkey _ ih =>
      have hside := sideBySide_evaluate (callsSideBySide b hn) _ (hfs _ (.head _))
      obtain ⟨v, w₁, hv, hle, hq, -⟩ := hside.of_gives hp hvalue
      obtain ⟨name, w₂, hname, hle', hr, hsame⟩ := (inStep_decode _).of_gives hq hkey
      cases hsame
      obtain ⟨c, hstarts, hc⟩ := ih hr fun t ht => (hfs t (.tail _ ht)).mono (hle.trans hle')
      exact ⟨c, .tail hv hname hstarts, hc⟩

/-- Whatever a moment of the second run starts, the corresponding moment of the first run starts a
moment that corresponds to it. -/
theorem MomentsMatch.starts (h : b.MomentsMatch a a') (hstarts : a'.Starts c') :
    ∃ c, a.Starts c ∧ b.MomentsMatch c c' := by
  cases h with
  | @term n n' s s' t w w' hn hp hplace =>
      have hcall := callsSideBySide b hn
      cases hstarts with
      | first hfirst hreturn =>
          have hpart := hplace.part (Form.mem_ownParts_of_first hfirst)
          refine ⟨_, .first hfirst fun value hform => ?_, .term hn hp hpart⟩
          subst hform
          rw [← Place.isInCall hp (hplace.opened rfl)]
          exact hreturn value rfl
      | @next _ _ _ form t t' v' _ _ hfirst ht hnext =>
          have hpart := hplace.part (Form.mem_ownParts_of_first hfirst)
          have hpart' := hplace.part (Form.mem_ownParts_of_next hfirst hnext)
          obtain ⟨v, w₁, hv, hle, hq, hvalue⟩ := (sideBySide_evaluate hcall t hpart).of_gives hp ht
          exact ⟨_, .next hfirst hv ((next?_congr hvalue form).symm.trans hnext),
            .term hn hq (hpart'.mono hle)⟩
      | program hhoist h =>
          obtain ⟨_, w₁, hv, hle, hq, -⟩ :=
            (inStep_hoist (hplace.opened rfl) _ fun t ht =>
              (hplace.part ht).serves).of_gives hp hhoist
          obtain ⟨c, hc, hmatch⟩ := anyStarts_matched hn h hq fun t ht => (hplace.part ht).mono hle
          exact ⟨c, .program hv hc, hmatch⟩
      | @block _ _ inner' _ body _ _ _ _ hscope hhoist h =>
          obtain ⟨inner, w₁, hopen, hle, hq, hinner⟩ :=
            (inStep_openScope hplace.serves.linked fun hp =>
              .inr (Place.isInCall hp (hplace.opened rfl))).of_gives hp hscope
          have hbody := hplace.block hle hinner
          obtain ⟨_, w₂, hv, hle', hr, -⟩ :=
            (inStep_hoist hinner.1 body fun t ht => (hbody t ht).serves).of_gives hq hhoist
          obtain ⟨c, hc, hmatch⟩ := anyStarts_matched hn h hr fun t ht => (hbody t ht).mono hle'
          exact ⟨c, .block hopen hv hc, hmatch⟩
      | array h =>
          obtain ⟨c, hc, hmatch⟩ := anyStarts_matched hn h hp fun t ht => hplace.part ht
          exact ⟨c, .array hc, hmatch⟩
      | @record _ _ _ fields _ _ h =>
          have hfields (t : Term) (ht : t ∈ fields.filterMap Field.value?) :
              b.Place ⟨w, w'⟩ t s s' := hplace.part ht
          obtain ⟨c, hc, hmatch⟩ := fieldStarts_matched hn h hp hfields
          exact ⟨c, .record hc, hmatch⟩
      | arguments hcallee h =>
          obtain ⟨f, w₁, hf, hle, hq, -⟩ :=
            (sideBySide_evaluate hcall _ (hplace.part (.head _))).of_gives hp hcallee
          obtain ⟨c, hc, hmatch⟩ := anyStarts_matched hn h hq fun t ht =>
            (hplace.part (.tail _ ht)).mono hle
          exact ⟨c, .arguments hf hc, hmatch⟩
      | call hcallee hargs =>
          obtain ⟨f, w₁, hf, hle, hq, hvalue⟩ :=
            (sideBySide_evaluate hcall _ (hplace.part (.head _))).of_gives hp hcallee
          obtain ⟨vs, w₂, hvs, hle', hr, hvalues⟩ :=
            (sideBySide_evaluateAll hcall _ fun t ht =>
              (hplace.part (.tail _ ht)).mono hle).of_gives hq hargs
          exact ⟨_, .call hf hvs, .call hn hr (hvalue.mono (within hle')) hvalues⟩
  | @call n n' callee callee' args args' w w' hn hp hcallee hargs =>
      cases hstarts with
      | @dispatch _ _ tag _ _ _ _ _ hdispatch =>
          cases hcallee with
          | @variant _ _ _ payload _ _ hpayload =>
              have hmatch := hpayload.dispatch tag hargs
              rw [hdispatch] at hmatch
              generalize hleft : Value.dispatch tag payload args = left at hmatch
              cases hmatch with
              | ok hparts => exact ⟨_, .dispatch hleft, .call hn hp hparts.1 hparts.2⟩
      | @body m' _ g _ t' _ _ _ hlength hscope hparams =>
          cases hcallee with
          | @closure _ _ f _ _ hf =>
              obtain ⟨m, rfl⟩ : ∃ m, n = m + 1 := Nat.exists_eq_succ_of_ne_zero (by omega)
              have hserves : b.Serves ⟨w, w'⟩ f.body f.scope g.scope := hf.scope
              obtain ⟨t, w₁, hopen, hle, hq, hopened⟩ :=
                (inStep_openScope hserves.linked fun _ => .inl rfl).of_gives hp hscope
              rw [hf.params] at hparams hlength
              obtain ⟨_, w₂, hbind, hle', hr, -⟩ :=
                (inStep_bindItems hopened.1 f.params
                  (Value.Matches.allMono hargs (within hle))).of_gives hq hparams
              rw [hf.body]
              refine ⟨_, .body (hargs.length_eq.trans hlength) hopen hbind, .term ?_ hr ?_⟩
              · exact hn.imp Nat.succ.inj fun hlax => ⟨hlax.1, Nat.le_of_succ_le_succ hlax.2⟩
              · exact ⟨(hserves.opened hle hopened).mono hle', .inl (hopened.1.mono hle')⟩

/-- Each moment to which the second run comes corresponds to one to which the first run comes. -/
theorem MomentsMatch.leadsTo (h : b.MomentsMatch a a') (hleads : a'.LeadsTo c') :
    ∃ c, a.LeadsTo c ∧ b.MomentsMatch c c' := by
  induction hleads with
  | refl => exact ⟨a, .refl, h⟩
  | tail _ hstarts ih =>
      obtain ⟨c, hc, hmatch⟩ := ih
      obtain ⟨d, hd, hmatch'⟩ := hmatch.starts hstarts
      exact ⟨d, .tail hc hd, hmatch'⟩

end Start

end VariantScript
