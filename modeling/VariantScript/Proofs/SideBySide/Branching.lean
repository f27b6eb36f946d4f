import VariantScript.Proofs.SideBySide.SameEffect

/-!
# Truth values as functions

A truth value that is called with a handler chooses between the branches of the handler.  So a
conditional may be written as a call of its condition: with a record that has a function for each
truth value, in either order, or with an array of both functions.  The chosen function opens a scope
for its call, which stays empty; but for this scope, the names of what is new and places the call does
what the conditional does.
-/

namespace VariantScript

open Syntax Eval

/-! ## Handlers -/

namespace Syntax

/-- A function without parameters that gives an expression. -/
inductive Term.Delays : Term → Term → Prop where
  | mk {pos paramsPos : Option Position} {body : Term} :
      Delays (.node pos (.arrow ⟨paramsPos, []⟩ body)) body

/-- A field with the name of a branch and such a function. -/
inductive Field.Delays (tag : Tag) : Field → Term → Prop where
  | mk {pos keyPos : Option Position} {place : Position} {t body : Term} (ht : t.Delays body) :
      Delays tag (.mk pos ⟨keyPos, .bare ⟨tag.name, place⟩⟩ t) body

/-- A handler of truth values with an expression for truth and one for falsehood. -/
inductive Term.Handles : Term → Term → Term → Prop where
  | record {pos : Option Position} {f g : Field} {yes no : Term} (hf : f.Delays .yes yes)
      (hg : g.Delays .no no) : Handles (.node pos (.record [f, g])) yes no
  | swapped {pos : Option Position} {f g : Field} {yes no : Term} (hf : f.Delays .yes yes)
      (hg : g.Delays .no no) : Handles (.node pos (.record [g, f])) yes no
  | array {pos : Option Position} {t u yes no : Term} (ht : t.Delays yes) (hu : u.Delays no) :
      Handles (.node pos (.array [t, u])) yes no

section

variable {t u yes no yes' no' body body' : Term} {f : Field} {tag : Tag}

theorem Term.Delays.replaced (h : t.Delays body) (hbody : body'.unplaced = body.unplaced) :
    ∃ t' : Term, t'.Delays body' ∧ t'.unplaced = t.unplaced := by
  cases h with
  | @mk pos paramsPos =>
      exact ⟨.node pos (.arrow ⟨paramsPos, []⟩ body'), .mk, by simp [hbody]⟩

theorem Field.Delays.replaced (h : f.Delays tag body) (hbody : body'.unplaced = body.unplaced) :
    ∃ f' : Field, f'.Delays tag body' ∧ f'.unplaced = f.unplaced := by
  cases h with
  | @mk pos keyPos place t _ ht =>
      obtain ⟨t', ht', hsame⟩ := ht.replaced hbody
      exact ⟨.mk pos ⟨keyPos, .bare ⟨tag.name, place⟩⟩ t', .mk ht', by simp [hsame]⟩

/-- The expressions of a handler may be replaced by others that are the same without places. -/
theorem Term.Handles.replaced (h : t.Handles yes no) (hyes : yes'.unplaced = yes.unplaced)
    (hno : no'.unplaced = no.unplaced) :
    ∃ t' : Term, t'.Handles yes' no' ∧ t'.unplaced = t.unplaced := by
  cases h with
  | @record pos _ _ _ _ hf hg =>
      obtain ⟨f', hf', hsame⟩ := hf.replaced hyes
      obtain ⟨g', hg', hsame'⟩ := hg.replaced hno
      exact ⟨.node pos (.record [f', g']), .record hf' hg', by simp [hsame, hsame']⟩
  | @swapped pos _ _ _ _ hf hg =>
      obtain ⟨f', hf', hsame⟩ := hf.replaced hyes
      obtain ⟨g', hg', hsame'⟩ := hg.replaced hno
      exact ⟨.node pos (.record [g', f']), .swapped hf' hg', by simp [hsame, hsame']⟩
  | @array pos _ _ _ _ ht hu =>
      obtain ⟨t', ht', hsame⟩ := ht.replaced hyes
      obtain ⟨u', hu', hsame'⟩ := hu.replaced hno
      exact ⟨.node pos (.array [t', u']), .array ht' hu', by simp [hsame, hsame']⟩

end

end Syntax

/-- The world with three identities taken and an empty scope of a call. -/
def World.entered (s : ScopeId) (w : World) : World :=
  (w.spend 3).push ⟨some s, [], true⟩

section

variable {call : Value → List Value → Eval Value} {s : ScopeId} {w : World} {t yes no body : Term}

/-- A truth value that is called with a handler calls the function for it. -/
theorem run_handles (h : t.Handles yes no) :
    ∃ handler, (evaluate call s t).run.run w = (.ok handler, w.spend 3) ∧
      ∀ n flag, ∃ i, callAt n (Value.truth flag) [handler] =
        callAt n (.closure i ⟨[], bif flag then yes else no, s, none, .arrow⟩) [] := by
  cases h with
  | record hf hg =>
      obtain ⟨⟨⟩⟩ := hf
      obtain ⟨⟨⟩⟩ := hg
      exact ⟨_, rfl, fun n flag => by cases flag <;> exact ⟨_, callAt_variant _ _ _ _ _⟩⟩
  | swapped hf hg =>
      obtain ⟨⟨⟩⟩ := hf
      obtain ⟨⟨⟩⟩ := hg
      exact ⟨_, rfl, fun n flag => by cases flag <;> exact ⟨_, callAt_variant _ _ _ _ _⟩⟩
  | array ht hu =>
      cases ht
      cases hu
      exact ⟨_, rfl, fun n flag => by cases flag <;> exact ⟨_, callAt_variant _ _ _ _ _⟩⟩

/-- The value of an expression is one of the language, so that a function gives it as it is. -/
theorem run_runBody_expression {n : Nat} (hbody : body.IsWritten .expression) (hw : w.IsSound) :
    (runBody (callAt n) s body).run.run w = (evaluate (callAt n) s body).run.run w := by
  have hblock : ¬ body.isBlock = true := by cases hbody <;> simp [Term.isBlock]
  have hending := (sound_evaluate (callsWell n) s hbody hw).ending
  unfold runBody
  rw [if_neg hblock, run_bind]
  generalize (evaluate (callAt n) s body).run.run w = r at hending
  obtain ⟨result, w'⟩ := r
  cases result with
  | error e => rfl
  | ok v =>
      cases hending with
      | value hv =>
          dsimp only
          rw [requireResult_of_isSound hv]
          rfl

/-- A function without parameters evaluates its expression in an empty scope. -/
theorem run_closure {n : Nat} {i : Identity} (hbody : body.IsWritten .expression)
    (hw : w.IsSound) :
    (callAt (n + 1) (.closure i ⟨[], body, s, none, .arrow⟩) []).run.run (w.spend 3) =
      (evaluate (callAt n) ⟨w.scopes.size⟩ body).run.run (w.entered s) := by
  rw [callAt_succ_closure]
  refine Eq.trans ?_ (run_runBody_expression hbody ?_)
  · rfl
  · have hspent : (w.spend 3).IsSound := hw.of_scopes rfl
    exact hspent.pushed rfl nofun

/-- A call of a condition stops where the condition does, or else calls the function for its value. -/
theorem run_call {n : Nat} {c : Term} (h : t.Handles yes no) :
    (∀ e w', (evaluate (callAt n) s c).run.run w = (.error e, w') →
      (evaluateForm (callAt n) s (.call c [t])).run.run w = (.error e, w')) ∧
    ∀ flag w', (evaluate (callAt n) s c).run.run w = (.ok (Value.truth flag), w') →
      ∃ i, (evaluateForm (callAt n) s (.call c [t])).run.run w =
        (callAt n (.closure i ⟨[], bif flag then yes else no, s, none, .arrow⟩) []).run.run
          (w'.spend 3) := by
  constructor
  · intro e w' hrun
    rw [evaluateForm, run_bind, hrun]
  · intro flag w' hrun
    obtain ⟨handler, hhandler, hcall⟩ := @run_handles (callAt n) s w' t yes no h
    obtain ⟨i, hi⟩ := hcall n flag
    refine ⟨i, ?_⟩
    have hargs : (evaluateAll (callAt n) s [t]).run.run w' = (.ok [handler], w'.spend 3) := by
      rw [evaluateAll, run_bind, hhandler]
      rfl
    rw [evaluateForm, run_bind, hrun]
    dsimp only
    rw [run_bind, hargs]
    dsimp only
    rw [hi]

/-- A conditional stops where its condition does, or else evaluates the branch for its value. -/
theorem run_conditional {n : Nat} {c : Term} :
    (∀ e w', (evaluate (callAt n) s c).run.run w = (.error e, w') →
      (evaluateForm (callAt n) s (.conditional c yes no)).run.run w = (.error e, w')) ∧
    ∀ flag w', (evaluate (callAt n) s c).run.run w = (.ok (Value.truth flag), w') →
      (evaluateForm (callAt n) s (.conditional c yes no)).run.run w =
        (evaluate (callAt n) s (bif flag then yes else no)).run.run w' := by
  constructor
  · intro e w' hrun
    rw [evaluateForm, run_bind, hrun]
  · intro flag w' hrun
    rw [evaluateForm, run_bind, hrun]
    cases flag <;> rfl

end

/-! ## Empty scopes -/

namespace World

variable {s t : ScopeId} {w : World}

theorem keeps_entered (s : ScopeId) (w : World) : w.Keeps (w.entered s) where
  legacy := rfl
  observer := rfl
  scopes i scope hscope := by
    obtain ⟨hi, hget⟩ := Array.getElem?_eq_some_iff.1 hscope
    simp only [entered, push, spend]
    rw [Array.getElem?_push_lt hi, hget]

theorem entered_size (s : ScopeId) (w : World) :
    (w.entered s).scopes.size = w.scopes.size + 1 := by
  simp [entered, push, spend]

theorem entered_scope (s : ScopeId) (w : World) :
    (w.entered s).scopes[w.scopes.size]? = some ⟨some s, [], true⟩ :=
  Array.getElem?_push_size

/-- In the empty scope a name means what it does around it. -/
theorem lookup?_entered (hs : s.index < w.scopes.size) (name : String) :
    (w.entered s).lookup? ⟨w.scopes.size⟩ name = w.lookup? s name := by
  rw [lookup?_of_scope (s := ⟨w.scopes.size⟩) (w.entered_scope s)]
  simp only [Slots.get?, List.lookup_nil, Option.none_or, if_pos hs]
  exact (keeps_entered s w).lookup? hs name

end World

namespace Start

variable {w r r' : World} {s t t' : ScopeId} {hserial : Identity.firstFree ≤ w.nextSerial}

theorem old_entering (h : t.index < w.scopes.size ∧ (t' = t ∨ t = s ∧ t' = ⟨w.scopes.size⟩)) :
    t.index < w.scopes.size ∧ t'.index < (w.entered s).scopes.size := by
  rw [World.entered_size]
  obtain ⟨hlt, rfl | ⟨rfl, rfl⟩⟩ := h
  · exact ⟨hlt, Nat.lt_succ_of_lt hlt⟩
  · exact ⟨hlt, Nat.lt_succ_self _⟩

/-- Two runs start in a scope and in the empty scope inside it.  Old scopes stand for themselves, and
the scope for the empty one as well; calls may nest less deeply in the second run. -/
def entering (w : World) (s : ScopeId) (hserial : Identity.firstFree ≤ w.nextSerial) : Start :=
  .between w (w.entered s) _ (fun _ _ _ => True) True hserial rfl old_entering

theorem entering_right : (entering w s hserial).right = (entering w s hserial).left + 1 :=
  w.entered_size s

theorem entering_fixes : (entering w s hserial).newNames.Fixes w :=
  newNames_fixes (Nat.le_refl _) (Nat.le_refl _)

theorem holds_entering (hw : w.IsClosed) : (entering w s hw.serial).Holds ⟨w, w.entered s⟩ := by
  refine @holds_between _ _ _ _ _ _ _ old_entering (Nat.le_add_right _ _) rfl
    fun {t t' name} h _ => ?_
  have hsame : (w.entered s).lookup? t' name = w.lookup? t name := by
    obtain ⟨hlt, rfl | ⟨rfl, rfl⟩⟩ := h
    · exact (World.keeps_entered s w).lookup? hlt name
    · exact World.lookup?_entered hlt name
  rw [hsame]
  exact optionRel_imp (hw.lookup? t name) fun _ _ hv =>
    hv.mono (own_within_between (fun t ht => ⟨ht, .inl rfl⟩) fun _ _ => trivial)

theorem place_entering {body : Term} (hbody : body.IsWritten .expression)
    (hs : s.index < w.scopes.size) :
    (entering w s hserial).Place ⟨w, w.entered s⟩ body s ⟨w.scopes.size⟩ :=
  @place_between _ _ _ _ _ _ _ old_entering _ hbody _ _ ⟨hs, .inr ⟨rfl, rfl⟩⟩ fun _ _ => trivial

/-- Of scopes that stand for each other the second one is the first one or the empty one in it. -/
theorem entering_wraps (hkeeps : (w.entered s).Keeps r')
    (ht : (entering w s hserial).Linked ⟨r, r'⟩ t t') :
    r'.Wraps t' ((entering w s hserial).newNames.scopes t) := by
  rcases ht with ⟨hlt, rfl | ⟨rfl, rfl⟩⟩ | hopened
  · rw [entering_fixes.scopes hlt]
    exact .here
  · rw [entering_fixes.scopes hlt]
    exact .call (hkeeps.scopes _ _ (w.entered_scope t)) .here
  · rw [← hopened.eq_renamed (entering_right ▸ Nat.le_succ _)]
    exact .here

/-- Only the empty scope stands for none of its own. -/
theorem Holds.entering_others (h : (entering w s hserial).Holds ⟨r, r'⟩)
    (hkeeps : (w.entered s).Keeps r') {scope : Scope} (hscope : r'.scopes[t.index]? = some scope) :
    (∃ u : ScopeId, u.index < r.scopes.size ∧ (entering w s hserial).newNames.scopes u = t) ∨
      ∃ q, scope = ⟨some q, [], true⟩ := by
  have hlt := (Array.getElem?_eq_some_iff.1 hscope).1
  have hright : (entering w s hserial).right = (entering w s hserial).left + 1 := entering_right
  have hleft : (entering w s hserial).left = w.scopes.size := rfl
  have hsize : _ ≤ r.scopes.size := h.size
  have haligned : r'.scopes.size + _ = r.scopes.size + _ := h.aligned
  rcases Nat.lt_trichotomy t.index w.scopes.size with hold | hempty | hnew
  · exact .inl ⟨t, by omega, entering_fixes.scopes hold⟩
  · rw [hempty, hkeeps.scopes _ _ (w.entered_scope s)] at hscope
    exact .inr ⟨s, (Option.some.inj hscope).symm⟩
  · have hopened : (entering w s hserial).Opened ⟨r, r'⟩ ⟨t.index - 1⟩ t :=
      ⟨by dsimp only; omega, by dsimp only; omega, by dsimp only; omega⟩
    exact .inl ⟨⟨t.index - 1⟩, hopened.lt, (hopened.eq_renamed (by omega)).symm⟩

end Start

/-- An expression has the same effect in an empty scope of a call inside the scope. -/
theorem sameEffect_entered {body : Term} (hbody : body.IsWritten .expression) {w : World}
    (hw : w.IsClosed) {s : ScopeId} (hs : s.index < w.scopes.size) {n : Nat}
    {r r' : Except Stop Value × World} (hrun : (evaluate (callAt (n + 1)) s body).run.run w = r)
    (hrun' : (evaluate (callAt n) ⟨w.scopes.size⟩ body).run.run (w.entered s) = r')
    (hlimit : r'.1 ≠ .error .tooDeep) (pos pos' : Option Position) :
    ∃ ρ, SameEffect ρ w (located pos r.1, r.2) (located pos' r'.1, r'.2) := by
  have hkeeps : w.Keeps r.2 := hrun ▸ World.keeps_of_expression hbody (n + 1) s w
  have hkeeps' : (w.entered s).Keeps r'.2 :=
    hrun' ▸ World.keeps_of_expression hbody n ⟨w.scopes.size⟩ (w.entered s)
  have hcall : (Start.entering w s hw.serial).CallsSideBySide (n + 1) n :=
    Start.callsSideBySide _ (.inr ⟨trivial, Nat.le_succ n⟩)
  have hside := Start.sideBySide_evaluate hcall body (Start.place_entering hbody hs)
    (Start.holds_entering hw)
  rw [hrun, hrun'] at hside
  rcases hside with ⟨-, hq, hends⟩ | ⟨e, he, hquits⟩
  · have hwraps {t t' : ScopeId}
        (ht : (Start.entering w s hw.serial).Linked ⟨r.2, r'.2⟩ t t') :=
      Start.entering_wraps hkeeps' ht
    have hwithin := Start.matching_within hwraps
    refine ⟨_, .of_placed Start.entering_fixes ?_ ?_ ?_ (fun t scope => hq.entering_others hkeeps')
      pos pos'⟩
    · exact hends.mono hwithin
    · exact hq.shown hwithin
    · refine hq.mirrors (Start.entering_right ▸ Nat.le_succ _) hwraps fun t scope ht hscope => ?_
      have hold : w.scopes[t.index]? = some scope := (hkeeps.getElem? ht).symm.trans hscope
      exact ⟨scope, hkeeps'.scopes _ _ ((World.keeps_entered s w).scopes _ _ hold),
        hw.scope_mirrors Start.entering_fixes (fun _ => .here) hold⟩
  · exact absurd ((hquits.eq_tooDeep rfl).2 ▸ he) hlimit

/-! ## Conditionals as calls -/

section

variable {c a b h : Term} {w : World} {s : ScopeId} {n : Nat} {pos pos' : Option Position}

/-- A conditional has the same effect as a call of its condition with a handler that has the same
branches, at the same places. -/
theorem sameEffect_handled (hc : c.IsWritten .expression) (ha : a.IsWritten .expression)
    (hb : b.IsWritten .expression) (hh : h.Handles a b) (hw : w.IsClosed) (hsound : w.IsSound)
    (hs : s.index < w.scopes.size)
    (hboolean : ∀ v w', Gives (evaluate (callAt n) s c) w v w' → v.isBoolean = true)
    (hlimit : ((evaluate (callAt n) s (.node pos' (.call c [h]))).run.run w).1 ≠
      .error .tooDeep) :
    ∃ ρ, SameEffect ρ w ((evaluate (callAt n) s (.node pos (.conditional c a b))).run.run w)
      ((evaluate (callAt n) s (.node pos' (.call c [h]))).run.run w) := by
  rw [evaluate, run_locate] at hlimit ⊢
  rw [evaluate, run_locate]
  obtain ⟨hsound₁, -, hending⟩ := sound_evaluate (callsWell n) s hc hsound
  have htogether := hw.together hs n c
  generalize hrun : (evaluate (callAt n) s c).run.run w = r at hsound₁ hending htogether
  obtain ⟨e | v, w₁⟩ := r
  · rw [run_conditional.1 e w₁ hrun, (run_call hh).1 e w₁ hrun]
    exact ⟨_, .self hw hs hrun pos pos'⟩
  · obtain ⟨flag, rfl⟩ : ∃ flag, v = Value.truth flag := by
      have hv : v.IsSound := by
        cases hending with
        | value hv => exact hv
      rcases hv.isWellFormed.booleans v .here (hboolean v w₁ hrun) with rfl | rfl
      · exact ⟨true, rfl⟩
      · exact ⟨false, rfl⟩
    obtain ⟨i, hcall⟩ := (run_call hh).2 flag w₁ hrun
    rw [hcall] at hlimit ⊢
    rw [run_conditional.2 flag w₁ hrun]
    have hbranch : (bif flag then a else b).IsWritten .expression := by cases flag <;> assumption
    have hw₁ : w₁.IsClosed := htogether.holds.alone_isClosed
    have hs₁ : s.index < w₁.scopes.size := Nat.lt_of_lt_of_le hs htogether.before.left.size_le
    cases n with
    | zero =>
        rw [callAt_zero_closure] at hlimit
        exact absurd rfl hlimit
    | succ m =>
        rw [run_closure hbranch hsound₁] at hlimit ⊢
        obtain ⟨ρ, hsame⟩ := sameEffect_entered hbranch hw₁ hs₁ rfl rfl
          (fun htooDeep => hlimit (congrArg (located pos') htooDeep)) pos pos'
        exact ⟨ρ, hsame.earlier hw hs hrun⟩

/-- Conditionals agree with calls of truth values.  Let the condition of a conditional of a text give
a truth value if it gives any value, in some scope of a world in which a script can be.  Then the
conditional may be written as a call of the condition with a record that has a function for each
branch, in either order, or with an array of both functions.  As long as calls do not nest too deeply,
both end alike, but for the place of an error, show the same values in the same order and leave the
same scopes, up to places, the names of what is new and empty scopes of calls. -/
theorem conditional_dispatches {c' a' b' : Term} (hc : c.IsInText) (ha : a.IsInText)
    (hb : b.IsInText) (hc' : c'.unplaced = c.unplaced) (ha' : a'.unplaced = a.unplaced)
    (hb' : b'.unplaced = b.unplaced) (hh : h.Handles a' b') (hw : w.Occurs)
    (hs : s.index < w.scopes.size)
    (hboolean : ∀ v w', Gives (evaluate (callAt n) s c) w v w' → v.isBoolean = true)
    (hlimit : ((evaluate (callAt n) s (.node pos' (.call c' [h]))).run.run w).1 ≠
      .error .tooDeep) :
    ∃ ρ, SameEffect ρ w ((evaluate (callAt n) s (.node pos (.conditional c a b))).run.run w)
      ((evaluate (callAt n) s (.node pos' (.call c' [h]))).run.run w) := by
  obtain ⟨h₀, hh₀, hsame⟩ := hh.replaced ha'.symm hb'.symm
  have hunplaced : (Term.node pos' (.call c' [h])).unplaced =
      (Term.node pos' (.call c [h₀])).unplaced := by
    simp [hc', hsame]
  have hforgets := forgets_evaluate (callsForget n) s (.node pos' (.call c' [h])) w
  rw [hunplaced, forgets_evaluate (callsForget n) s (.node pos' (.call c [h₀])) w] at hforgets
  obtain ⟨hends, hworld⟩ := Prod.mk.inj hforgets
  have hlimit₀ : ((evaluate (callAt n) s (.node pos' (.call c [h₀]))).run.run w).1 ≠
      .error .tooDeep := fun h => hlimit (eq_tooDeep_of_unplaced hends.symm h)
  obtain ⟨ρ, heffect⟩ := sameEffect_handled hc.isWritten ha.isWritten hb.isWritten hh₀ hw.isClosed
    hw.isSound hs hboolean hlimit₀
  obtain ⟨shown, _, hshown⟩ := (hw.isClosed.together hs n (.node pos' (.call c' [h]))).holds.events
  exact ⟨ρ, heffect.of_unplaced hends.symm hworld.symm ⟨shown, hshown.left⟩⟩

end

/-- An expression that shows a truth value, as the condition and as both branches. -/
theorem conditional_dispatches_shown :
    ∃ e : Term, e.IsInText ∧
      let w := (Session.start false .recording).world
      let f : Term := .node none (.arrow ⟨none, []⟩ e)
      let h : Term := .node none (.record [.mk none ⟨none, .bare ⟨"True", .start⟩⟩ f,
        .mk none ⟨none, .bare ⟨"False", .start⟩⟩ f])
      let called := (evaluate (callAt 1) ⟨0⟩ (.node none (.call e [h]))).run.run w
      called.2.observations.length = 2 ∧
      ∃ ρ, SameEffect ρ w
        ((evaluate (callAt 1) ⟨0⟩ (.node none (.conditional e e e))).run.run w) called := by
  have hruns : (Program.read "harness.debug(true)".toList).toOption.any (fun program =>
      program.form.parts.any fun t => t.form.parts.any fun e =>
        let w := (Session.start false .recording).world
        let f : Term := .node none (.arrow ⟨none, []⟩ e)
        let h : Term := .node none (.record [.mk none ⟨none, .bare ⟨"True", .start⟩⟩ f,
          .mk none ⟨none, .bare ⟨"False", .start⟩⟩ f])
        let called := (evaluate (callAt 1) ⟨0⟩ (.node none (.call e [h]))).run.run w
        e.form.isExpression &&
          (((evaluate (callAt 1) ⟨0⟩ e).run.run w).1.toOption.any Value.isBoolean &&
            called.1.isOk && called.2.observations.length == 2)) = true := by
    decide +kernel
  obtain ⟨e, he, hruns⟩ := exists_isInText hruns
  simp only [Bool.and_eq_true, beq_iff_eq] at hruns
  obtain ⟨⟨hboolean, hok⟩, hshown⟩ := hruns
  have hs : (⟨0⟩ : ScopeId).index < (Session.start false .recording).world.scopes.size := by
    decide +kernel
  refine ⟨e, he, hshown, conditional_dispatches he he he rfl rfl rfl (.record (.mk .mk) (.mk .mk))
    (.between .here) hs (fun v w' hgives => ?_) fun htooDeep => ?_⟩
  · rw [hgives] at hboolean
    exact hboolean
  · rw [htooDeep] at hok
    cases hok

end VariantScript
