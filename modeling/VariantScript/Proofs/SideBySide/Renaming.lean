import VariantScript.Proofs.SideBySide.Between

/-!
# Runs that are the same up to names

Identities and scopes are names that a run takes as it needs them.  Two runs are the same up to a
renaming of what is new if their values, their scopes and what they show correspond under it; what
was there before keeps its name.

An expression that is evaluated a second time does the same as before up to such a renaming.
-/

namespace VariantScript

open Syntax Eval

/-! ## Renamings -/

/-- New names for identities and scopes. -/
structure Renaming where
  ids : Identity → Identity
  scopes : ScopeId → ScopeId

namespace Renaming

/-- Values are the same up to the renaming; a function has the scope of the other one under its new
name, or one that is `around` it. -/
def matching (ρ : Renaming) (around : ScopeId → ScopeId → Prop) : Matching where
  ids i j := j = ρ.ids i
  scopes _ s s' := around s' (ρ.scopes s)

/-- What differs has different new names, and what there is in a world keeps its name. -/
structure Fixes (ρ : Renaming) (w : World) : Prop where
  ids_injective : Function.Injective ρ.ids
  scopes_injective : Function.Injective ρ.scopes
  ids {i : Identity} (hi : i.serial < w.nextSerial) : ρ.ids i = i
  scopes {s : ScopeId} (hs : s.index < w.scopes.size) : ρ.scopes s = s

end Renaming

/-- Scopes with the same names in the same order and with values that are the same up to a renaming,
inside scopes that are so. -/
structure Scope.Mirrors (ρ : Renaming) (around : ScopeId → ScopeId → Prop) (scope scope' : Scope) :
    Prop where
  isCall : scope'.isCall = scope.isCall
  vars : scope.vars.Matches (ρ.matching around) scope'.vars
  parent : Option.Rel (fun q q' => around q' (ρ.scopes q)) scope.parent scope'.parent

/-- Each scope of one world is there in another one under its new name. -/
def World.Mirrors (ρ : Renaming) (around : ScopeId → ScopeId → Prop) (w w' : World) : Prop :=
  ∀ (s : ScopeId) (scope : Scope), w.scopes[s.index]? = some scope →
    ∃ scope', w'.scopes[(ρ.scopes s).index]? = some scope' ∧ scope.Mirrors ρ around scope'

section

variable {ρ : Renaming} {around : ScopeId → ScopeId → Prop} {w : World}

/-- What exists in a world that keeps its names is the same under the renaming. -/
theorem Renaming.Fixes.own_within (h : ρ.Fixes w) (haround : ∀ s, around s s) :
    w.own.Within (ρ.matching around) where
  ids hi := hi.2.trans (h.ids hi.1).symm
  scopes {body s s'} hs := by
    obtain ⟨hlt, rfl⟩ := hs
    show around s' (ρ.scopes s')
    rw [h.scopes hlt]
    exact haround s'

theorem World.IsClosed.scope_mirrors (h : w.IsClosed) (hρ : ρ.Fixes w) (haround : ∀ s, around s s)
    {i : Nat} {scope : Scope} (hscope : w.scopes[i]? = some scope) :
    scope.Mirrors ρ around scope := by
  refine ⟨rfl, (h.values hscope).mono (hρ.own_within haround), ?_⟩
  cases hparent : scope.parent with
  | none => exact .none
  | some q =>
      have hi := (Array.getElem?_eq_some_iff.1 hscope).1
      have hq := h.parents hscope hparent
      refine .some ?_
      rw [hρ.scopes (Nat.lt_trans hq hi)]
      exact haround q

end

/-! ## Two runs -/

namespace Start

variable {b : Start} {p : Pair} {around : ScopeId → ScopeId → Prop}

/-- The names of the second run for what is new in the first. -/
def newNames (b : Start) : Renaming where
  ids := b.rename
  scopes s := if s.index < b.left then s else ⟨s.index + (b.right - b.left)⟩

theorem Opened.eq_renamed (hle : b.left ≤ b.right) {s s' : ScopeId} (h : b.Opened p s s') :
    s' = b.newNames.scopes s := by
  have hnew := h.new
  have haligned := h.aligned
  simp only [newNames, if_neg (Nat.not_lt_of_le hnew)]
  obtain ⟨i⟩ := s'
  exact congrArg ScopeId.mk (by dsimp only at haligned; omega)

theorem newNames_injective (b : Start) : Function.Injective b.newNames.scopes := by
  intro s t h
  obtain ⟨i⟩ := s
  obtain ⟨j⟩ := t
  simp only [newNames] at h
  have hindex := congrArg ScopeId.index h
  refine congrArg ScopeId.mk ?_
  split at hindex <;> split at hindex <;> dsimp only at hindex <;> omega

theorem newNames_old {s : ScopeId} (hs : s.index < b.left) : b.newNames.scopes s = s :=
  if_pos hs

/-- What there is in a world at the start keeps its name. -/
theorem newNames_fixes {w : World} (hids : w.nextSerial ≤ b.serial)
    (hscopes : w.scopes.size ≤ b.left) : b.newNames.Fixes w :=
  ⟨fun _ _ => rename_injective, b.newNames_injective,
    fun hi => rename_old (Nat.lt_of_lt_of_le hi hids),
    fun hs => newNames_old (Nat.lt_of_lt_of_le hs hscopes)⟩

theorem matching_within (hlinked : ∀ {s s'}, b.Linked p s s' → around s' (b.newNames.scopes s)) :
    (b.matching p).Within (b.newNames.matching around) :=
  ⟨fun h => h.2, fun h => hlinked h.linked⟩

/-- Corresponding worlds are the same up to the renaming if their old scopes are. -/
theorem Holds.mirrors (h : b.Holds p) (hle : b.left ≤ b.right)
    (hlinked : ∀ {s s'}, b.Linked p s s' → around s' (b.newNames.scopes s))
    (hold : ∀ (s : ScopeId) (scope : Scope), s.index < b.left →
      p.left.scopes[s.index]? = some scope →
      ∃ scope', p.right.scopes[s.index]? = some scope' ∧ scope.Mirrors b.newNames around scope') :
    p.left.Mirrors b.newNames around p.right := by
  intro s scope hscope
  by_cases hs : s.index < b.left
  · rw [newNames_old hs]
    exact hold s scope hs hscope
  · have hlt := (Array.getElem?_eq_some_iff.1 hscope).1
    have hopened : b.Opened p s (b.newNames.scopes s) :=
      ⟨by omega, hlt, by simp only [newNames, if_neg hs]; omega⟩
    obtain ⟨scope₁, scope', hmatch⟩ := h.opened hopened
    cases hmatch.left.symm.trans hscope
    exact ⟨scope', hmatch.right, hmatch.isCall, hmatch.vars.mono (matching_within hlinked),
      optionRel_imp hmatch.parents fun _ _ hq => hlinked hq.2.2⟩

end Start

/-! ## Repetition -/

/-- Expressions can be repeated.  Let an expression of a text be evaluated twice in a row in any scope
of any world in which a script can be, with whatever observer.  Then both evaluations are the same up
to a renaming of what is new: both give the same value, or stop for the same cause at the same place;
both show the same values in the same order; and each scope that the first one leaves has its like
behind the second one.  What was there before keeps its name, and different objects of the first
evaluation stay different in the second. -/
theorem evaluate_repeatable {e : Term} (he : e.IsInText) {w : World} (hw : w.Occurs)
    {s : ScopeId} (hs : s.index < w.scopes.size) (n : Nat) :
    let first := (evaluate (callAt n) s e).run.run w
    let second := (evaluate (callAt n) s e).run.run first.2
    ∃ ρ : Renaming, ρ.Fixes w ∧ first.2.Mirrors ρ Eq second.2 ∧
      ExceptRel (Stop.Matches (ρ.matching Eq)) (Value.Matches (ρ.matching Eq)) first.1 second.1 ∧
      ∃ shown shown' : List Value,
        first.2.events.toList = w.events.toList ++ shown.map w.observer.event ∧
        second.2.events.toList = first.2.events.toList ++ shown'.map w.observer.event ∧
        List.Forall₂ (Value.Matches (ρ.matching Eq)) shown shown' := by
  intro first second
  have hclosed := hw.isClosed
  have hkeeps : w.Keeps first.2 := World.keeps_of_expression he.isWritten n s w
  have hkeeps' : first.2.Keeps second.2 := World.keeps_of_expression he.isWritten n s first.2
  have hfirst := (hclosed.together hs n e).before
  -- Old scopes stand for themselves, under every name.
  let b : Start := .between w first.2 (fun t t' => t.index < w.scopes.size ∧ t' = t)
    (fun _ _ _ => True) False hclosed.serial hkeeps.observer fun {t t'} h => by
      obtain ⟨hlt, rfl⟩ := h
      exact ⟨hlt, Nat.lt_of_lt_of_le hlt hfirst.left.size_le⟩
  have hown : w.own.Within (b.matching ⟨w, first.2⟩) :=
    Start.own_within_between (fun t ht => ⟨ht, rfl⟩) fun _ _ => trivial
  have hholds : b.Holds ⟨w, first.2⟩ := by
    refine Start.holds_between hfirst.serial hkeeps.legacy fun {t t' name} h _ => ?_
    obtain ⟨hlt, rfl⟩ := h
    rw [hkeeps.lookup? hlt]
    exact optionRel_imp (hclosed.lookup? t' name) fun _ _ hv => hv.mono hown
  have hplace : b.Place ⟨w, first.2⟩ e s s :=
    Start.place_between he.isWritten ⟨hs, rfl⟩ fun _ _ => trivial
  have hcall : b.CallsSideBySide n n := Start.callsSideBySide b (.inl rfl)
  have hside := Start.sideBySide_evaluate hcall e hplace
  have hsame : b.observer'.failure? = b.observer.failure? :=
    congrArg Observer.failure? hkeeps.observer
  obtain ⟨-, hq, hresult⟩ := hside.inStep hsame id hholds
  have hle : b.left ≤ b.right := hfirst.left.size_le
  have hfixes : b.newNames.Fixes w := Start.newNames_fixes (Nat.le_refl _) (Nat.le_refl _)
  have hlinked {t t' : ScopeId} (ht : b.Linked ⟨first.2, second.2⟩ t t') :
      t' = b.newNames.scopes t := by
    rcases ht with ⟨hlt, rfl⟩ | hopened
    · exact (hfixes.scopes hlt).symm
    · exact hopened.eq_renamed hle
  have hwithin := Start.matching_within hlinked
  refine ⟨b.newNames, hfixes, hq.mirrors hle hlinked fun t scope ht hscope => ?_, ?_, ?_⟩
  · have hold : w.scopes[t.index]? = some scope := (hkeeps.getElem? ht).symm.trans hscope
    exact ⟨scope, hkeeps'.scopes _ _ hscope,
      hclosed.scope_mirrors hfixes (fun _ => rfl) hold⟩
  · exact hresult.mono hwithin
  · obtain ⟨shown, shown', hleft, hright, hvalues⟩ := hq.shown hwithin
    refine ⟨shown, shown', hleft, ?_, hvalues⟩
    rw [← hkeeps.observer]
    exact hright

/-- An expression that shows an array with a function, evaluated twice in a new session. -/
theorem evaluate_repeatable_shown :
    ∃ e : Term, e.IsInText ∧
      let w := (Session.start false .recording).world
      let first := (evaluate (callAt 1) ⟨0⟩ e).run.run w
      let second := (evaluate (callAt 1) ⟨0⟩ e).run.run first.2
      first.2.observations.length = 1 ∧
      ∃ ρ : Renaming, ρ.Fixes w ∧ first.2.Mirrors ρ Eq second.2 ∧
        ExceptRel (Stop.Matches (ρ.matching Eq)) (Value.Matches (ρ.matching Eq))
          first.1 second.1 := by
  have hshows : (Program.read "harness.debug([1, x => x])".toList).toOption.any (fun program =>
      program.form.parts.any fun t => t.form.parts.any fun e => e.form.isExpression &&
        ((evaluate (callAt 1) ⟨0⟩ e).run.run
          (Session.start false .recording).world).2.observations.length == 1) = true := by
    decide +kernel
  obtain ⟨e, he, hshown⟩ := Syntax.exists_isInText hshows
  have hs : (⟨0⟩ : ScopeId).index < (Session.start false .recording).world.scopes.size := by
    decide +kernel
  obtain ⟨ρ, hfixes, hscopes, hends, -⟩ := evaluate_repeatable he (.between .here) hs 1
  exact ⟨e, he, beq_iff_eq.1 hshown, ρ, hfixes, hscopes, hends⟩

end VariantScript
