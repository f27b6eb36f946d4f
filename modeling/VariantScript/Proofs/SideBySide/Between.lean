import VariantScript.Proofs.SideBySide.Closed

/-!
# Runs from two worlds

An expression of a text leaves every scope as it was.  So it may be evaluated from two worlds that
have scopes in common, or in two scopes of one world, and both runs go side by side as far as the
names that occur in it mean the same.
-/

namespace VariantScript

open Syntax Eval

/-! ## Expressions -/

namespace Syntax

/-- An expression that stands somewhere in a text. -/
def Term.IsInText (e : Term) : Prop :=
  ∃ (code : String) (program : Term), Program.read code.toList = .ok program ∧ program.Has e ∧
    e.form.isExpression = true

theorem Term.IsInText.isWritten {e : Term} (h : e.IsInText) : e.IsWritten .expression := by
  obtain ⟨code, program, hread, hhas, hform⟩ := h
  obtain ⟨role, hwritten⟩ := hhas.isWritten (Session.isWritten_of_read hread)
  exact hwritten.role_eq hform ▸ hwritten

/-- Some expression of a text is found to have a property among the parts of its statements. -/
theorem exists_isInText {code : String} {good : Term → Bool}
    (h : (Program.read code.toList).toOption.any (fun program => program.form.parts.any fun t =>
      t.form.parts.any fun e => e.form.isExpression && good e) = true) :
    ∃ e : Term, e.IsInText ∧ good e = true := by
  cases hread : Program.read code.toList with
  | error e =>
      rw [hread] at h
      cases h
  | ok program =>
      rw [hread] at h
      obtain ⟨t, ht, hparts⟩ := List.any_eq_true.1 h
      obtain ⟨e, he, hform⟩ := List.any_eq_true.1 hparts
      rw [Bool.and_eq_true] at hform
      have hhas : program.Has e := .head ht (.single he)
      exact ⟨e, ⟨code, program, hread, hhas, hform.1⟩, hform.2⟩

end Syntax

namespace World

variable {w w' : World} {s : ScopeId} {name : String}

theorem Keeps.getElem? (h : w.Keeps w') {i : Nat} (hi : i < w.scopes.size) :
    w'.scopes[i]? = w.scopes[i]? := by
  rw [Array.getElem?_eq_getElem hi]
  exact h.scopes i _ (Array.getElem?_eq_getElem hi)

theorem Keeps.lookup? (h : w.Keeps w') (hs : s.index < w.scopes.size) (name : String) :
    w'.lookup? s name = w.lookup? s name :=
  lookup?_congr (fun _ hi => h.getElem? (Nat.lt_of_le_of_lt hi hs)) name

/-- An expression changes no scope that was there. -/
theorem keeps_of_expression {e : Term} (he : e.IsWritten .expression) (n : Nat) (s : ScopeId)
    (w : World) : w.Keeps ((evaluate (callAt n) s e).run.run w).2 := by
  have haffects := affects_evaluate n s e w
  rw [he.defines] at haffects
  exact Gains.keeps haffects

end World

/-! ## Starts -/

namespace Start

/-- Two runs start from two worlds of which the second is the later one. -/
def between (w w' : World) (old : ScopeId → ScopeId → Prop)
    (agree : ScopeId → ScopeId → String → Prop) (lax : Prop)
    (hserial : Identity.firstFree ≤ w.nextSerial) (hobserver : w'.observer = w.observer)
    (hold : ∀ {s s'}, old s s' → s.index < w.scopes.size ∧ s'.index < w'.scopes.size) : Start where
  serial := w.nextSerial
  shift := w'.nextSerial - w.nextSerial
  left := w.scopes.size
  right := w'.scopes.size
  old := old
  agree := agree
  before := w.events.toList
  before' := w'.events.toList
  observer := w.observer
  observer' := w'.observer
  lax := lax
  firstFree_le := hserial
  old_lt := hold
  fits := .inr (congrArg Observer.failure? hobserver)

section

variable {w w' : World} {old : ScopeId → ScopeId → Prop}
  {agree : ScopeId → ScopeId → String → Prop} {lax : Prop}
  {hserial : Identity.firstFree ≤ w.nextSerial} {hobserver : w'.observer = w.observer}
  {hold : ∀ {s s'}, old s s' → s.index < w.scopes.size ∧ s'.index < w'.scopes.size}

/-- Both worlds correspond if the names on which old scopes agree have corresponding values. -/
theorem holds_between (hlater : w.nextSerial ≤ w'.nextSerial) (hlegacy : w'.legacy = w.legacy)
    (hsettled : ∀ {s s' name}, old s s' → agree s s' name →
      Option.Rel
        (Value.Matches ((between w w' old agree lax hserial hobserver hold).matching ⟨w, w'⟩))
        (w.lookup? s name) (w'.lookup? s' name)) :
    (between w w' old agree lax hserial hobserver hold).Holds ⟨w, w'⟩ where
  legacy := hlegacy
  observer := rfl
  observer' := rfl
  serial := Nat.le_refl _
  shifted := (Nat.add_sub_cancel' hlater).symm
  size := Nat.le_refl _
  aligned := Nat.add_comm _ _
  opened hopened := absurd hopened.lt (Nat.not_lt_of_le hopened.new)
  settled := hsettled
  events := ⟨[], [], by simp [between], by simp [between], .nil, fun _ => rfl⟩

/-- What exists at the start stands for itself if it does so in all scopes that there were. -/
theorem own_within_between (hself : ∀ s : ScopeId, s.index < w.scopes.size → old s s)
    (hnames : ∀ (s : ScopeId) name, agree s s name) :
    w.own.Within ((between w w' old agree lax hserial hobserver hold).matching ⟨w, w'⟩) where
  ids hi := ⟨hi.1, hi.2.trans (rename_old hi.1).symm⟩
  scopes {body s s'} hs := by
    obtain ⟨hlt, rfl⟩ := hs
    have hsettled : old s' s' := hself s' hlt
    exact ⟨.inl hsettled, fun {name} _ => .settled hsettled (hnames s' name)⟩

/-- An expression may be evaluated in old scopes that agree on the names in it. -/
theorem place_between {e : Term} (he : e.IsWritten .expression) {s s' : ScopeId}
    (hs : old s s') (hnames : ∀ name, e.Mentions name → agree s s' name) :
    (between w w' old agree lax hserial hobserver hold).Place ⟨w, w'⟩ e s s' :=
  ⟨⟨.inl hs, fun {name} hname => .settled hs (hnames name hname)⟩, .inr he⟩

end

end Start

end VariantScript
