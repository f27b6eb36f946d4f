import VariantScript.Proofs.SideBySide.Places

/-!
# Evaluations with the same effect

Two evaluations from one world have the same effect if they end alike, show the same values and leave
the same scopes behind, up to places of the source text, the names of what is new and empty scopes of
calls that only the second one opens.
-/

namespace VariantScript

open Syntax Eval

/-! ## Empty scopes of calls -/

/-- A scope lies in another one with nothing but empty scopes of calls in between. -/
inductive World.Wraps (w : World) : ScopeId → ScopeId → Prop where
  | here {s : ScopeId} : Wraps w s s
  | call {s q t : ScopeId} (hscope : w.scopes[s.index]? = some ⟨some q, [], true⟩)
      (h : Wraps w q t) : Wraps w s t

theorem World.Wraps.unplaced {w : World} {s t : ScopeId} (h : w.Wraps s t) :
    w.unplaced.Wraps s t := by
  induction h with
  | here => exact .here
  | call hscope _ ih =>
      refine .call ?_ ih
      rw [World.scope_unplaced, hscope]
      rfl

section

variable {ρ : Renaming} {around around' : ScopeId → ScopeId → Prop}

theorem Renaming.matching_mono (hle : ∀ s t, around s t → around' s t) :
    (ρ.matching around).Within (ρ.matching around') :=
  ⟨fun h => h, fun h => hle _ _ h⟩

/-- What an evaluation in a closed world leaves behind is the same under a renaming that keeps it. -/
theorem Renaming.Fixes.mirror_within {w w₁ : World} (h : ρ.Fixes w₁) (haround : ∀ s, around s s) :
    (w.mirror.matching ⟨w₁, w₁⟩).Within (ρ.matching around) :=
  have hown := h.own_within haround
  have halone : (w.mirror.matching ⟨w₁, w₁⟩).Within w₁.own := Start.alone_within ⟨w₁, w₁⟩
  ⟨fun hi => hown.ids (halone.ids hi), fun hs => hown.scopes (halone.scopes hs)⟩

theorem World.Mirrors.mono {w w' : World} (h : w.Mirrors ρ around w')
    (hle : ∀ s t, around s t → around' s t) : w.Mirrors ρ around' w' := by
  intro s scope hscope
  obtain ⟨scope', hscope', hmirrors⟩ := h s scope hscope
  exact ⟨scope', hscope', hmirrors.isCall, hmirrors.vars.mono (Renaming.matching_mono hle),
    optionRel_imp hmirrors.parent fun _ _ hq => hle _ _ hq⟩

end

/-! ## What is shown -/

theorem Observer.event_injective (observer : Observer) : Function.Injective observer.event := by
  intro v v' h
  cases observer <;> cases h <;> rfl

theorem Observer.map_event_unplaced (observer : Observer) (shown : List Value) :
    (shown.map observer.event).map Event.unplaced =
      (shown.map Value.unplaced).map observer.event := by
  simp only [List.map_map]
  refine List.map_congr_left fun v _ => ?_
  cases observer <;> rfl

/-! ## The relation -/

/-- Two evaluations from one world end alike, show the same and leave the same scopes, up to places
and the new names.  Where the first one is in a scope, the second may be in an empty scope of a call
inside it, and it leaves no other scopes than these. -/
structure SameEffect (ρ : Renaming) (w : World) (r r' : Except Stop Value × World) : Prop where
  fixes : ρ.Fixes w
  ends : EndsAlike (ρ.matching r'.2.unplaced.Wraps) r.1 r'.1
  shown : ∃ shown shown' : List Value,
    r.2.events.toList = w.events.toList ++ shown.map w.observer.event ∧
    r'.2.events.toList = w.events.toList ++ shown'.map w.observer.event ∧
    List.Forall₂ (Value.MatchesUnplaced (ρ.matching r'.2.unplaced.Wraps)) shown shown'
  scopes : r.2.unplaced.Mirrors ρ r'.2.unplaced.Wraps r'.2.unplaced
  others (t : ScopeId) (scope : Scope) (hscope : r'.2.unplaced.scopes[t.index]? = some scope) :
    (∃ s : ScopeId, s.index < r.2.scopes.size ∧ ρ.scopes s = t) ∨
      ∃ q, scope = ⟨some q, [], true⟩

namespace SameEffect

variable {ρ : Renaming} {w w₁ : World} {r r' r'' : Except Stop Value × World}

/-- Evaluations have the same effect if they have it even with their places. -/
theorem of_placed (hfixes : ρ.Fixes w)
    (hends : ExceptRel (Stop.Matches (ρ.matching r'.2.Wraps)) (Value.Matches (ρ.matching r'.2.Wraps))
      r.1 r'.1)
    (hshown : ∃ shown shown' : List Value,
      r.2.events.toList = w.events.toList ++ shown.map w.observer.event ∧
      r'.2.events.toList = w.events.toList ++ shown'.map w.observer.event ∧
      List.Forall₂ (Value.Matches (ρ.matching r'.2.Wraps)) shown shown')
    (hscopes : r.2.Mirrors ρ r'.2.Wraps r'.2)
    (hothers : ∀ (t : ScopeId) scope, r'.2.scopes[t.index]? = some scope →
      (∃ s : ScopeId, s.index < r.2.scopes.size ∧ ρ.scopes s = t) ∨
        ∃ q, scope = ⟨some q, [], true⟩)
    (pos pos' : Option Position) :
    SameEffect ρ w (located pos r.1, r.2) (located pos' r'.1, r'.2) := by
  have hwithin : (ρ.matching r'.2.Wraps).Within (ρ.matching r'.2.unplaced.Wraps) :=
    Renaming.matching_mono fun _ _ h => h.unplaced
  refine ⟨hfixes, ?_, ?_, hscopes.unplaced.mono fun _ _ h => h.unplaced, fun t scope hscope => ?_⟩
  · exact endsAlike_located (hends.mono hwithin) pos pos'
  · obtain ⟨shown, shown', hleft, hright, hvalues⟩ := hshown
    exact ⟨shown, shown', hleft, hright, hvalues.imp fun _ _ h => (h.mono hwithin).unplaced⟩
  · rw [World.scope_unplaced] at hscope
    obtain ⟨placed, hplaced, rfl⟩ := Option.map_eq_some_iff.1 hscope
    refine (hothers t placed hplaced).imp_right fun ⟨q, hq⟩ => ⟨q, ?_⟩
    rw [hq]
    rfl

/-- An evaluation in a closed world has the same effect as itself. -/
theorem self (hw : w.IsClosed) {s : ScopeId} (hs : s.index < w.scopes.size) {n : Nat} {t : Term}
    (hrun : (evaluate (callAt n) s t).run.run w = r) (pos pos' : Option Position) :
    SameEffect ⟨id, id⟩ w (located pos r.1, r.2) (located pos' r.1, r.2) := by
  obtain ⟨-, hholds, hends⟩ := hw.together hs n t
  rw [hrun] at hholds hends
  have hfixes (w : World) : (⟨id, id⟩ : Renaming).Fixes w :=
    ⟨fun _ _ h => h, fun _ _ h => h, fun _ => rfl, fun _ => rfl⟩
  have hhere (s : ScopeId) : r.2.Wraps s s := .here
  have hwithin : (w.mirror.matching ⟨r.2, r.2⟩).Within (Renaming.matching ⟨id, id⟩ r.2.Wraps) :=
    (hfixes r.2).mirror_within hhere
  refine of_placed (hfixes w) ?_ ?_ (fun t scope hscope => ?_) (fun t scope hscope => ?_) pos pos'
  · exact hends.mono hwithin
  · exact hholds.shown hwithin
  · exact ⟨scope, hscope, hholds.alone_isClosed.scope_mirrors (hfixes r.2) hhere hscope⟩
  · exact .inl ⟨t, (Array.getElem?_eq_some_iff.1 hscope).1, rfl⟩

/-- What both evaluations have in common at first may be left out. -/
theorem earlier (h : SameEffect ρ w₁ r r') (hw : w.IsClosed) {s : ScopeId}
    (hs : s.index < w.scopes.size) {n : Nat} {t : Term} {x : Except Stop Value}
    (hrun : (evaluate (callAt n) s t).run.run w = (x, w₁)) : SameEffect ρ w r r' := by
  obtain ⟨hle, hholds, -⟩ := hw.together hs n t
  rw [hrun] at hle hholds
  have hwithin := h.fixes.mirror_within (w := w) fun _ => World.Wraps.here (w := r'.2.unplaced)
  obtain ⟨first, first', hfirst, hfirst', hvalues₁⟩ := hholds.shown hwithin
  obtain ⟨shown, shown', hleft, hright, hvalues⟩ := h.shown
  have hobserver : w₁.observer = w.observer := hholds.observer
  refine ⟨?_, h.ends, ⟨first ++ shown, first' ++ shown', ?_, ?_, ?_⟩, h.scopes, h.others⟩
  · exact ⟨h.fixes.ids_injective, h.fixes.scopes_injective,
      fun hi => h.fixes.ids (Nat.lt_of_lt_of_le hi hle.serial),
      fun hs => h.fixes.scopes (Nat.lt_of_lt_of_le hs hle.left.size_le)⟩
  · rw [hleft, hobserver, List.map_append, ← List.append_assoc]
    exact congrArg (· ++ _) hfirst
  · rw [hright, hobserver, List.map_append, ← List.append_assoc]
    exact congrArg (· ++ _) hfirst'
  · exact List.rel_append (hvalues₁.imp fun _ _ hv => hv.unplaced) hvalues

/-- The second evaluation may be replaced by one that is the same without places. -/
theorem of_unplaced (h : SameEffect ρ w r r')
    (hends : unplacedEnd Value.unplaced r''.1 = unplacedEnd Value.unplaced r'.1)
    (hworld : r''.2.unplaced = r'.2.unplaced)
    (hshown : ∃ shown : List Value,
      r''.2.events.toList = w.events.toList ++ shown.map w.observer.event) :
    SameEffect ρ w r r'' := by
  have hscopes := h.scopes
  have hothers := h.others
  have hends' := h.ends.of_unplaced hends
  obtain ⟨shown, shown', hleft, hright, hvalues⟩ := h.shown
  obtain ⟨shown'', hright''⟩ := hshown
  rw [← hworld] at hscopes hothers hends' hvalues
  refine ⟨h.fixes, hends', ⟨shown, shown'', hleft, hright'', ?_⟩, hscopes, hothers⟩
  have hevents := congrArg (fun w : World => w.events.toList) hworld
  simp only [World.unplaced, Array.toList_map, hright'', hright, List.map_append,
    List.append_cancel_left_eq, Observer.map_event_unplaced] at hevents
  have hsame := List.map_injective_iff.2 w.observer.event_injective hevents
  rw [Value.allMatchUnplaced_iff] at hvalues ⊢
  rwa [hsame]

end SameEffect

end VariantScript
