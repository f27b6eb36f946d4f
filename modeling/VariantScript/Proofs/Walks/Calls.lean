import VariantScript.Proofs.Binding.Fitting
import VariantScript.Proofs.Evaluation.Course
import VariantScript.Proofs.SideBySide.Worlds

/-!
# Calls within a limit

A call opens a scope inside the scope of the function and binds the parameters in it.  Names that it
does not bind keep their meaning.  An evaluation that gives a string if the calls on the way fit into
a limit, and ends as too deep otherwise, does so from inside the call to the end of what is around it.
-/

namespace VariantScript

open Syntax Eval

/-! ## Scopes of calls -/

namespace World

/-- The world in which a call has opened a scope and bound some names in it. -/
def called (w : World) (parent : ScopeId) (vars : Slots) : World :=
  (w.push ⟨some parent, [], true⟩).gain ⟨w.scopes.size⟩ vars

variable {w : World} {parent s : ScopeId} {vars : Slots} {name : String} {v : Value}

theorem scope_called :
    (w.called parent vars).scopes[w.scopes.size]? = some ⟨some parent, vars, true⟩ := by
  have hpushed : (w.push ⟨some parent, [], true⟩).scopes[w.scopes.size]? =
      some ⟨some parent, [], true⟩ := Array.getElem?_push_size
  exact gain_scope (s := ⟨w.scopes.size⟩) hpushed vars

/-- A name of the call means its value there. -/
theorem lookup?_called (h : vars.get? name = some v) :
    (w.called parent vars).lookup? ⟨w.scopes.size⟩ name = some v := by
  rw [lookup?_of_scope (s := ⟨w.scopes.size⟩) scope_called, h]
  rfl

/-- In a scope that was there before, a name means what it did. -/
theorem lookup?_before (hs : s.index < w.scopes.size) :
    (w.called parent vars).lookup? s name = w.lookup? s name := by
  refine lookup?_congr (fun i hi => ?_) name
  have hlt : i < w.scopes.size := Nat.lt_of_le_of_lt hi hs
  simp only [called, gain, push, Array.getElem?_modify, Array.getElem?_push]
  rw [if_neg (Nat.ne_of_gt hlt), if_neg (Nat.ne_of_lt hlt)]

/-- Any name that the call does not bind means what it does around the call. -/
theorem lookup?_around (h : vars.get? name = none) (hparent : parent.index < w.scopes.size) :
    (w.called parent vars).lookup? ⟨w.scopes.size⟩ name = w.lookup? parent name := by
  rw [lookup?_of_scope (s := ⟨w.scopes.size⟩) scope_called, h, Option.none_or]
  dsimp only
  rw [if_pos hparent, lookup?_before hparent]

/-- A name that means something is looked for in a scope that exists. -/
theorem lt_of_lookup? (h : w.lookup? s name = some v) : s.index < w.scopes.size := by
  by_contra hlt
  rw [lookup?, Array.getElem?_eq_none (by omega)] at h
  cases h

theorem lookup?_of_scopes {w' : World} (h : w'.scopes = w.scopes) (s : ScopeId) (name : String) :
    w'.lookup? s name = w.lookup? s name :=
  lookup?_congr (fun i _ => by rw [h]) name

/-- A name of the scope around a call that the call does not bind keeps its meaning, there and in the
call. -/
theorem lookup?_kept (h : w.lookup? parent name = some v) (vars : Slots)
    (hvars : vars.get? name = none) (n : Nat) :
    ((w.called parent vars).spend n).lookup? ⟨w.scopes.size⟩ name = some v ∧
      ((w.called parent vars).spend n).lookup? parent name = some v := by
  have hscopes : ((w.called parent vars).spend n).scopes = (w.called parent vars).scopes := rfl
  have hparent : parent.index < w.scopes.size := lt_of_lookup? h
  rw [lookup?_of_scopes hscopes, lookup?_of_scopes hscopes, lookup?_around hvars hparent,
    lookup?_before hparent]
  exact ⟨h, h⟩

end World

/-! ## Ends within a limit -/

/-- The end of an evaluation that gives a string if the calls on the way fit into a limit. -/
def verdict (fits : Prop) [Decidable fits] (text : String) : Except Stop Value :=
  if fits then .ok (.string text) else .error .tooDeep

theorem verdict_congr {fits fits' : Prop} [Decidable fits] [Decidable fits'] (h : fits ↔ fits')
    {text : String} : verdict fits text = verdict fits' text :=
  if_congr h rfl rfl

namespace Eval

variable {α β : Type} {w w' : World}

/-- What follows an evaluation that gives a value. -/
theorem Gives.run_bind {act : Eval α} {x : α} (h : Gives act w x w') (k : α → Eval β) :
    (act >>= k).run.run w = (k x).run.run w' := by
  rw [Eval.run_bind, h]

theorem gives_resolve {s : ScopeId} {name : String} {v : Value} (h : w.lookup? s name = some v) :
    Gives (resolve s name) w v w := by
  have hget : Gives (get : Eval World) w w w := rfl
  unfold Gives resolve
  rw [hget.run_bind, h]
  rfl

section

variable {fits : Prop} [Decidable fits] {text : String}

theorem locate_verdict {act : Eval Value} (h : (act.run.run w).1 = verdict fits text)
    (pos : Option Position) : ((locate pos act).run.run w).1 = verdict fits text := by
  rw [run_locate, h]
  unfold verdict
  split <;> rfl

/-- What follows a string, and gives another one whenever it is reached. -/
theorem bind_verdict {act : Eval Value} {k : Value → Eval Value} {text' : String}
    (h : (act.run.run w).1 = verdict fits text)
    (hk : ∀ w', ((k (.string text)).run.run w').1 = .ok (.string text')) :
    ((act >>= k).run.run w).1 = verdict fits text' := by
  rw [Eval.run_bind]
  generalize act.run.run w = result at h
  obtain ⟨r, w'⟩ := result
  obtain rfl : r = verdict fits text := h
  unfold verdict
  by_cases hfits : fits
  · rw [if_pos hfits, if_pos hfits]
    exact hk w'
  · rw [if_neg hfits, if_neg hfits]

/-- A function whose patterns bind some names ends as its body does where they are bound. -/
theorem enter_verdict {n : Nat} {i : Identity} {f : Closure} {args : List Value} (vars : Slots)
    (hlength : args.length = f.params.length) (hbody : f.body.isBlock = false)
    (hfit : Pattern.fitItems f.params args = ⟨vars, none⟩)
    (hvars : vars.taken? [] = none)
    (h : ((evaluate (callAt n) ⟨w.scopes.size⟩ f.body).run.run (w.called f.scope vars)).1 =
      verdict fits text) :
    ((callAt (n + 1) (.closure i f) args).run.run w).1 = verdict fits text := by
  have hopen : Gives (openScope (some f.scope) true) w ⟨w.scopes.size⟩
      (w.push ⟨some f.scope, [], true⟩) := rfl
  have hpushed : (w.push ⟨some f.scope, [], true⟩).scopes[w.scopes.size]? =
      some ⟨some f.scope, [], true⟩ := Array.getElem?_push_size
  have hbind : Gives (bindItems ⟨w.scopes.size⟩ f.params args) (w.push ⟨some f.scope, [], true⟩) ()
      (w.called f.scope vars) := by
    have hfits := fits_bindItems ⟨w.scopes.size⟩ f.params args _ _ hpushed
    have hending : Fitting.ending ⟨vars, none⟩ [] = .ok () := by
      rw [Fitting.ending, hvars]
    have hnew : vars.untilTaken [] = vars := Slots.untilTaken_eq_self hvars
    rw [hfit] at hfits
    exact hfits.trans (Prod.ext hending (congrArg (World.gain _ _) hnew))
  have hrun : (callAt (n + 1) (.closure i f) args).run.run w = _ :=
    Moment.run_body hlength hopen hbind
  rw [hrun, runBody, if_neg (by simp [hbody])]
  exact bind_verdict h fun _ => rfl

end

end Eval

end VariantScript
