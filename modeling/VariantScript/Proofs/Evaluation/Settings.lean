import VariantScript.Proofs.Evaluation.Scopes

/-!
# The setting of legacy counting

No script changes how `equal` counts keys.  Whatever is evaluated, and however it ends, finds the
setting with which the whole evaluation started, and leaves it.  The setting belongs to the world and
not to a function, so a function that was made under another setting finds the present one too.
-/

namespace VariantScript

open Syntax

namespace Eval

variable {α : Type} {own : ScopeId} {names : List String} {act : Eval α} {w w' : World} {x : α}

/-- An evaluation that leaves the setting of legacy counting. -/
def KeepsLegacy (act : Eval α) : Prop :=
  ∀ w : World, (act.run.run w).2.legacy = w.legacy

theorem KeepsLegacy.of_affects (h : ∀ w, Affects own names (fun _ => True) act w) :
    KeepsLegacy act :=
  fun w => (h w).legacy

theorem Quiet.keepsLegacy (h : Quiet act) : KeepsLegacy act :=
  fun w => by
    have haffects : Affects ⟨0⟩ [] (fun _ => True) act w := h.affects
    exact haffects.legacy

theorem KeepsLegacy.of_gives (h : KeepsLegacy act) (hgives : Gives act w x w') :
    w'.legacy = w.legacy := by
  have hlegacy := h w
  rwa [hgives] at hlegacy

section

variable (n : Nat) (s : ScopeId)

theorem keepsLegacy_evaluate (t : Term) : KeepsLegacy (evaluate (callAt n) s t) :=
  .of_affects fun w => affects_evaluate n s t w

theorem keepsLegacy_evaluateAll (ts : List Term) : KeepsLegacy (evaluateAll (callAt n) s ts) :=
  .of_affects fun _ => affects_evaluateAll fun t w' _ => affects_evaluate n s t w'

theorem keepsLegacy_hoist (body : List Term) : KeepsLegacy (hoist s body) :=
  .of_affects fun w => affects_hoist s body w

theorem keepsLegacy_bindItems (ps : List Pattern) (vs : List Value) :
    KeepsLegacy (bindItems s ps vs) :=
  .of_affects fun w => affects_bindItems s ps vs w

theorem keepsLegacy_openScope (parent : Option ScopeId) (isCall : Bool) :
    KeepsLegacy (openScope parent isCall) :=
  fun _ => rfl

end

end Eval

open Eval

/-! ## Moments -/

section

variable {n : Nat} {s : ScopeId} {w : World} {b : Moment}

theorem AnyStarts.legacy {ts : List Term} (h : AnyStarts n s ts w b) :
    b.world.legacy = w.legacy := by
  induction h with
  | head => rfl
  | tail ht _ ih => exact ih.trans ((keepsLegacy_evaluate n s _).of_gives ht)

theorem FieldStarts.legacy {fs : List Field} (h : FieldStarts n s fs w b) :
    b.world.legacy = w.legacy := by
  induction h with
  | head => rfl
  | tail hvalue hkey _ ih =>
      rw [ih, (quiet_decodeKey _).keepsLegacy.of_gives hkey,
        (keepsLegacy_evaluate n s _).of_gives hvalue]

end

namespace Moment

variable {a b : Moment}

/-- What is started finds the setting of what starts it. -/
theorem Starts.legacy (h : a.Starts b) : b.world.legacy = a.world.legacy := by
  cases h with
  | first | dispatch => rfl
  | next _ ht _ => exact (keepsLegacy_evaluate _ _ _).of_gives ht
  | program hhoist h => exact h.legacy.trans ((keepsLegacy_hoist _ _).of_gives hhoist)
  | block hscope hhoist h =>
      exact (h.legacy.trans ((keepsLegacy_hoist _ _).of_gives hhoist)).trans
        ((keepsLegacy_openScope _ _).of_gives hscope)
  | array h => exact h.legacy
  | record h => exact h.legacy
  | arguments hcallee h => exact h.legacy.trans ((keepsLegacy_evaluate _ _ _).of_gives hcallee)
  | call hcallee hargs =>
      exact ((keepsLegacy_evaluateAll _ _ _).of_gives hargs).trans
        ((keepsLegacy_evaluate _ _ _).of_gives hcallee)
  | body _ hscope hparams =>
      exact ((keepsLegacy_bindItems _ _ _).of_gives hparams).trans
        ((keepsLegacy_openScope _ _).of_gives hscope)

/-- Every moment of an evaluation finds the setting with which the evaluation started. -/
theorem LeadsTo.legacy (h : a.LeadsTo b) : b.world.legacy = a.world.legacy := by
  induction h with
  | refl => rfl
  | tail _ hstarts ih => exact hstarts.legacy.trans ih

theorem legacy_run (a : Moment) : a.run.2.legacy = a.world.legacy := by
  have hgrows := a.grows
  cases a with
  | term n s t w => exact hgrows.legacy
  | call n callee args w => exact (hgrows ⟨0⟩).legacy

/-- `equal` compares a pair under the setting of the world in which it is called. -/
theorem run_equal (n : Nat) (i : Identity) (l r : Value) (w : World) :
    (Moment.call n (.builtin .equal) [.array i [l, r]] w).run =
      (.ok (Value.truth (Value.structurallyEqual w.legacy l r)), w) := by
  show (callAt n (.builtin .equal) [.array i [l, r]]).run.run w = _
  rw [callAt_builtin]
  have hresult : requireResult (Value.truth (Value.structurallyEqual w.legacy l r)) =
      .ok (Value.truth (Value.structurallyEqual w.legacy l r)) := by
    cases Value.structurallyEqual w.legacy l r <;> rfl
  show (ofExcept (requireResult _)).run.run w = _
  rw [hresult]
  rfl

end Moment

/-! ## Sessions -/

namespace Session

theorem legacy_evaluateText (s : Session) (code : String) :
    (s.evaluateText code).2.world.legacy = s.world.legacy := by
  cases hread : Program.read code.toList with
  | ok t =>
      rw [evaluateText_of_read s hread]
      exact Moment.legacy_run _
  | error e =>
      unfold evaluateText
      rw [hread]

/-- Running a text leaves the setting, however the run ends. -/
theorem legacy_run (s : Session) (code : String) :
    (s.run code).2.world.legacy = s.world.legacy := by
  have hevaluated := legacy_evaluateText ⟨s.world.note (.started code.length), s.scope⟩ code
  unfold run
  dsimp only
  split <;> exact hevaluated

end Session

end VariantScript
