import VariantScript.Evaluation.World
import VariantScript.Proofs.Evaluation.Values

/-!
# How evaluations end

An evaluation of a script from a text leaves a world in which every value is one that scripts can
hold, and in which scopes have only gained names.  It ends in a value, in a fault with an ordinary
cause, in a `return` where one may end it, in calls that are nested too deeply, or in a remainder
that does not exist; no other breakdown is possible.
-/

namespace VariantScript

open Syntax

/-! ## Worlds -/

/-- A world in which every value is one that scripts can hold. -/
def World.IsSound (w : World) : Prop :=
  ∀ (i : Nat) (scope : Scope), w.scopes[i]? = some scope →
    ∀ slot ∈ scope.vars, slot.2.IsSound

/-- A scope that is another one with more names. -/
structure Scope.Extends (scope scope' : Scope) : Prop where
  parent : scope'.parent = scope.parent
  isCall : scope'.isCall = scope.isCall
  vars : scope.vars <+: scope'.vars

/-- A world with more scopes and names than another one. -/
def World.Extends (w w' : World) : Prop :=
  ∀ (i : Nat) (scope : Scope), w.scopes[i]? = some scope →
    ∃ scope', w'.scopes[i]? = some scope' ∧ scope.Extends scope'

namespace World

theorem Extends.refl (w : World) : w.Extends w :=
  fun _ scope h => ⟨scope, h, rfl, rfl, List.prefix_rfl⟩

theorem Extends.trans {w w' w'' : World} (h : w.Extends w') (h' : w'.Extends w'') :
    w.Extends w'' := by
  intro i scope hscope
  obtain ⟨scope', hscope', hext⟩ := h i scope hscope
  obtain ⟨scope'', hscope'', hext'⟩ := h' i scope' hscope'
  exact ⟨scope'', hscope'', hext'.parent.trans hext.parent, hext'.isCall.trans hext.isCall,
    hext.vars.trans hext'.vars⟩

/-- A scope that exists and lies in no call. -/
def Outside (w : World) (s : ScopeId) : Prop :=
  s.index < w.scopes.size ∧ w.isInCall s = false

theorem Extends.isInCall {w w' : World} (h : w.Extends w') {s : ScopeId}
    (hs : s.index < w.scopes.size) : w'.isInCall s = w.isInCall s := by
  -- By induction on the scope, since the scope around it has a smaller number.
  induction hindex : s.index using Nat.strongRecOn generalizing s with
  | ind n ih =>
      have hscope : w.scopes[s.index]? = some w.scopes[s.index] := Array.getElem?_eq_getElem hs
      generalize w.scopes[s.index] = scope at hscope
      obtain ⟨scope', hscope', hext⟩ := h _ _ hscope
      rw [World.isInCall, World.isInCall, hscope, hscope']
      dsimp only
      rw [hext.parent, hext.isCall]
      cases scope.parent with
      | none => rfl
      | some parent =>
          dsimp only
          by_cases hlt : parent.index < s.index
          · rw [if_pos hlt, if_pos hlt, ih parent.index (hindex ▸ hlt) (by omega) rfl]
          · rw [if_neg hlt, if_neg hlt]

theorem Extends.outside {w w' : World} (h : w.Extends w') {s : ScopeId} (hs : w.Outside s) :
    w'.Outside s := by
  refine ⟨?_, by rw [h.isInCall hs.1]; exact hs.2⟩
  obtain ⟨scope', hscope', -⟩ := h _ _ (Array.getElem?_eq_getElem hs.1)
  exact (Array.getElem?_eq_some_iff.1 hscope').1

theorem IsSound.lookup? {w : World} (h : w.IsSound) {s : ScopeId} {name : String}
    {v : Value} (hlookup : w.lookup? s name = some v) : v.IsSound := by
  induction hindex : s.index using Nat.strongRecOn generalizing s with
  | ind n ih =>
      rw [World.lookup?] at hlookup
      split at hlookup
      · cases hlookup
      · rename_i scope hscope
        split at hlookup
        · rename_i value hget
          cases hlookup
          exact h _ _ hscope _ (Slots.mem_of_get? hget)
        · split at hlookup
          · rename_i parent _
            split at hlookup
            · rename_i hlt
              exact ih parent.index (hindex ▸ hlt) hlookup rfl
            · cases hlookup
          · cases hlookup

theorem IsSound.of_scopes {w w' : World} (h : w.IsSound)
    (hscopes : w'.scopes = w.scopes) : w'.IsSound := by
  unfold World.IsSound
  rw [hscopes]
  exact h

theorem Extends.of_scopes {w w' : World} (hscopes : w'.scopes = w.scopes) : w.Extends w' := by
  intro i scope hscope
  exact ⟨scope, by rw [hscopes]; exact hscope, rfl, rfl, List.prefix_rfl⟩

section

variable {w w' : World} {scope : Scope} (hscopes : w'.scopes = w.scopes.push scope)

include hscopes

theorem IsSound.pushed (h : w.IsSound) (hvars : ∀ slot ∈ scope.vars, slot.2.IsSound) :
    w'.IsSound := by
  intro i scope' hscope'
  rw [hscopes, Array.getElem?_push] at hscope'
  split at hscope'
  · cases hscope'
    exact hvars
  · exact h i scope' hscope'

theorem Extends.pushed : w.Extends w' := by
  intro i scope' hscope'
  obtain ⟨hi, hget⟩ := Array.getElem?_eq_some_iff.1 hscope'
  refine ⟨scope', ?_, rfl, rfl, List.prefix_rfl⟩
  rw [hscopes, Array.getElem?_push_lt hi, hget]

/-- A new scope that opens no call lies in one only if the scope around it does. -/
theorem outside_pushed (hcall : scope.isCall = false)
    (hparent : ∀ parent, scope.parent = some parent → w.Outside parent) :
    w'.Outside ⟨w.scopes.size⟩ := by
  constructor
  · rw [hscopes, Array.size_push]
    exact Nat.lt_succ_self _
  · rw [World.isInCall, hscopes, Array.getElem?_push_size]
    dsimp only
    rw [hcall, if_neg (by simp)]
    cases hscope : scope.parent with
    | none => rfl
    | some parent =>
        have houtside := hparent parent hscope
        dsimp only
        rw [if_pos houtside.1, (Extends.pushed hscopes).isInCall houtside.1]
        exact houtside.2

end

end World

/-! ## Endings -/

namespace Eval

variable {α β : Type}

/-- An evaluation that ends in a value and leaves a world. -/
def Gives (act : Eval α) (w : World) (x : α) (w' : World) : Prop :=
  act.run.run w = (.ok x, w')

/-- An evaluation that breaks down for want of a remainder. -/
def Breaks (act : Eval α) (w : World) : Prop :=
  (act.run.run w).1 = .error (.breakdown .noRemainder)

/-- How an evaluation may end: in a good value, in a `return` only if `returns` holds, and for want
of a remainder only if `lacks` holds. -/
inductive Ending (lacks returns : Prop) (good : α → Prop) : Except Stop α → Prop where
  | value {x : α} (hx : good x) : Ending lacks returns good (.ok x)
  | fault {f : Fault} (hcause : f.cause.IsOrdinary) :
      Ending lacks returns good (.error (.fault f))
  | returned {v : Value} (hreturns : returns) (hv : v.IsSound) :
      Ending lacks returns good (.error (.returned v))
  | tooDeep : Ending lacks returns good (.error .tooDeep)
  | noRemainder (hlacks : lacks) :
      Ending lacks returns good (.error (.breakdown .noRemainder))

/-- An evaluation that ends well in a world. -/
structure Sound (lacks returns : Prop) (good : α → World → Prop) (act : Eval α) (w : World) :
    Prop where
  world : (act.run.run w).2.IsSound
  later : w.Extends (act.run.run w).2
  ending : Ending lacks returns (fun x => good x (act.run.run w).2) (act.run.run w).1

/-- An evaluation that ends well, if in a value then in one that scripts can hold. -/
abbrev Yields (lacks returns : Prop) (act : Eval Value) (w : World) : Prop :=
  Sound lacks returns (fun v _ => v.IsSound) act w

variable {lacks lacks' returns returns' : Prop} {good : α → World → Prop} {good' : β → World → Prop}
  {act : Eval α} {w : World}

theorem Ending.mono {good good' : α → Prop} {r : Except Stop α}
    (h : Ending lacks returns good r) (hlacks : lacks → lacks') (hreturns : returns → returns')
    (hgood : ∀ x, good x → good' x) : Ending lacks' returns' good' r := by
  cases h with
  | value hx => exact .value (hgood _ hx)
  | fault hcause => exact .fault hcause
  | returned h hv => exact .returned (hreturns h) hv
  | tooDeep => exact .tooDeep
  | noRemainder h => exact .noRemainder (hlacks h)

/-- An ending without a value does not depend on what values would have been good. -/
theorem Ending.of_error {good : α → Prop} {good' : β → Prop} {e : Stop}
    (h : Ending lacks returns good (.error e)) (hreturns : returns → returns') :
    Ending lacks returns' good' (.error e) := by
  cases h with
  | fault hcause => exact .fault hcause
  | returned h hv => exact .returned (hreturns h) hv
  | tooDeep => exact .tooDeep
  | noRemainder h => exact .noRemainder h

theorem Sound.mono {good' : α → World → Prop} (h : Sound lacks returns good act w)
    (hlacks : lacks → lacks') (hreturns : returns → returns')
    (hgood : ∀ x w', w.Extends w' → good x w' → good' x w') :
    Sound lacks' returns' good' act w :=
  ⟨h.world, h.later, h.ending.mono hlacks hreturns fun x => hgood x _ h.later⟩

theorem sound_pure {x : α} (hw : w.IsSound) (hx : good x w) :
    Sound lacks returns good (pure x) w :=
  ⟨hw, .refl w, .value hx⟩

theorem run_bind (act : Eval α) (k : α → Eval β) (w : World) :
    (act >>= k).run.run w =
      match act.run.run w with
      | (.ok x, w') => (k x).run.run w'
      | (.error e, w') => (.error e, w') := by
  have hbind : (act >>= k).run.run w =
      StateT.run (ExceptT.bindCont k (act.run.run w).1) (act.run.run w).2 := rfl
  rw [hbind]
  rcases act.run.run w with ⟨r, w'⟩
  cases r <;> rfl

theorem Breaks.bind {act : Eval α} {w : World} (h : Breaks act w) (k : α → Eval β) :
    Breaks (act >>= k) w := by
  unfold Breaks at h ⊢
  rw [run_bind]
  generalize act.run.run w = r at h
  obtain ⟨result, w'⟩ := r
  cases h
  rfl

theorem Gives.breaks {act : Eval α} {k : α → Eval β} {w w' : World} {x : α}
    (h : Gives act w x w') (hbreaks : Breaks (k x) w') : Breaks (act >>= k) w := by
  unfold Breaks
  rw [run_bind, h]
  exact hbreaks

/-- Evaluations one after the other end well if the first one does and the second one does in every
world and with every value that the first one may leave. -/
theorem Sound.bind {k : α → Eval β} (h : Sound lacks returns good act w)
    (next : ∀ x w', Gives act w x w' → w.Extends w' → w'.IsSound → good x w' →
      Sound lacks returns good' (k x) w') :
    Sound lacks returns good' (act >>= k) w := by
  obtain ⟨hworld, hextends, hending⟩ := h
  generalize hrun : act.run.run w = r at hworld hextends hending
  obtain ⟨result, w'⟩ := r
  have hbind := run_bind act k w
  rw [hrun] at hbind
  -- Without a value the second evaluation does not happen.
  cases result with
  | error e =>
      constructor
      · rw [hbind]; exact hworld
      · rw [hbind]; exact hextends
      · rw [hbind]; exact hending.of_error id
  | ok x =>
      cases hending with
      | value hx =>
          obtain ⟨hworld', hextends', hending'⟩ := next x w' hrun hextends hworld hx
          constructor
          · rw [hbind]; exact hworld'
          · rw [hbind]; exact hextends.trans hextends'
          · rw [hbind]; exact hending'

theorem sound_fail {cause : Cause} (hw : w.IsSound)
    (hcause : cause.IsOrdinary) :
    Sound lacks returns good (fail cause : Eval α) w := by
  unfold fail
  rw [hcause.defect?]
  exact ⟨hw, .refl w, .fault hcause⟩

theorem sound_ofExcept {e : Except Cause α} (hw : w.IsSound)
    (hok : ∀ x, e = .ok x → good x w) (herror : ∀ c, e = .error c → c.IsOrdinary) :
    Sound lacks returns good (ofExcept e) w := by
  cases e with
  | ok x => exact sound_pure hw (hok x rfl)
  | error c => exact sound_fail hw (herror c rfl)

theorem sound_throw {v : Value} (hw : w.IsSound) (hreturns : returns)
    (hv : v.IsSound) :
    Sound lacks returns good (throw (.returned v) : Eval α) w :=
  ⟨hw, .refl w, .returned hreturns hv⟩

theorem sound_get_bind {k : World → Eval β} (h : Sound lacks returns good' (k w) w) :
    Sound lacks returns good' (get >>= k) w := by
  have hrun : (get >>= k : Eval β).run.run w = (k w).run.run w := rfl
  exact ⟨hrun ▸ h.world, hrun ▸ h.later, hrun ▸ h.ending⟩

/-- An evaluation that leaves the world of another one and changes only how it ends. -/
theorem Sound.changed {act' : Eval β} {change : Except Stop α → Except Stop β}
    (h : Sound lacks returns good act w)
    (hrun : act'.run.run w = (change (act.run.run w).1, (act.run.run w).2))
    (hchange : ∀ r w', Ending lacks returns (fun x => good x w') r →
      Ending lacks returns' (fun y => good' y w') (change r)) :
    Sound lacks returns' good' act' w := by
  refine ⟨?_, ?_, ?_⟩
  · rw [hrun]; exact h.world
  · rw [hrun]; exact h.later
  · rw [hrun]; exact hchange _ _ h.ending

/-- What an evaluation ends in once its faults are placed at a term. -/
def located (pos : Option Position) : Except Stop α → Except Stop α
  | .error (.fault f) => .error (.fault (f.locate pos))
  | other => other

theorem run_locate (pos : Option Position) (act : Eval α) (w : World) :
    (locate pos act).run.run w = (located pos (act.run.run w).1, (act.run.run w).2) := by
  have hbind : (locate pos act).run.run w =
      StateT.run (match (act.run.run w).1 with
        | .error (.fault f) => pure (.error (.fault (f.locate pos)))
        | other => pure other) (act.run.run w).2 := rfl
  rw [hbind]
  rcases (act.run.run w).1 with (_ | _ | _ | _) | _ <;> rfl

theorem Breaks.locate {act : Eval α} {w : World} (h : Breaks act w) (pos : Option Position) :
    Breaks (locate pos act) w := by
  unfold Breaks at h ⊢
  rw [run_locate, h]
  rfl

theorem cause_locate (pos : Option Position) (f : Fault) : (f.locate pos).cause = f.cause := by
  unfold Fault.locate
  split <;> rfl

theorem Sound.locate {pos : Option Position} (h : Sound lacks returns good act w) :
    Sound lacks returns good (locate pos act) w := by
  refine h.changed (run_locate pos act w) fun r w' hending => ?_
  cases hending with
  | value hx => exact .value hx
  | fault hcause => exact .fault (by rw [cause_locate]; exact hcause)
  | returned hreturns hv => exact .returned hreturns hv
  | tooDeep => exact .tooDeep
  | noRemainder h => exact .noRemainder h

/-! ## New objects, scopes and names -/

theorem sound_freshIdentity (hw : w.IsSound) :
    Sound lacks returns (fun _ _ => True) freshIdentity w :=
  ⟨hw.of_scopes rfl, .of_scopes rfl, .value trivial⟩

theorem sound_makeNumber (x : Float) (hw : w.IsSound) :
    Yields lacks returns (makeNumber x) w :=
  (sound_freshIdentity hw).bind fun _ _ _ _ hw' _ => sound_pure hw' .number

theorem sound_makeArray {items : List Value} (hitems : ∀ v ∈ items, v.IsSound)
    (hw : w.IsSound) :
    Yields lacks returns (makeArray items) w :=
  (sound_freshIdentity hw).bind fun _ _ _ _ hw' _ => sound_pure hw' (.array hitems)

theorem sound_makeRecord {slots : Slots} (hslots : slots.IsSound)
    (hw : w.IsSound) :
    Yields lacks returns (makeRecord slots) w :=
  (sound_freshIdentity hw).bind fun _ _ _ _ hw' _ =>
    sound_pure hw' (.record hslots.names hslots.values)

theorem sound_makeClosure {f : Closure} (hf : f.IsWritten)
    (hw : w.IsSound) :
    Yields lacks returns (makeClosure f) w :=
  (sound_freshIdentity hw).bind fun _ _ _ _ hw' _ => sound_pure hw' (.closure hf)

theorem sound_makeList (texts : List String) (hw : w.IsSound) :
    Yields lacks returns (makeList (texts.map Value.string)) w :=
  ⟨hw.of_scopes rfl, .of_scopes rfl, .value (Value.isSound_listFrom w.nextSerial texts).1⟩

/-- Opening a scope inside another one leaves the other scopes as they are. -/
theorem sound_openScope (parent : ScopeId) (isCall : Bool) (hw : w.IsSound) :
    Sound lacks returns
      (fun s w' => isCall = false → w.Outside parent → w'.Outside s)
      (openScope (some parent) isCall) w := by
  refine ⟨hw.pushed rfl (by simp), .pushed rfl, .value fun hcall hparent => ?_⟩
  apply World.outside_pushed rfl hcall
  rintro _ ⟨⟩
  exact hparent

theorem sound_define (s : ScopeId) (name : String) {v : Value} (hv : v.IsSound)
    (hw : w.IsSound) :
    Sound lacks returns (fun _ _ => True) (define s name v) w := by
  unfold define
  apply sound_get_bind
  split
  · exact sound_pure hw trivial
  · rename_i scope hscope
    split
    · exact sound_fail hw trivial
    -- Only the scope itself changes, and it gains one name behind those that it has.
    · have hmodify (i : Nat) : (w.scopes.modify s.index fun scope =>
          { scope with vars := scope.vars ++ [(name, v)] })[i]? =
            if s.index = i then w.scopes[i]?.map fun scope =>
              { scope with vars := scope.vars ++ [(name, v)] } else w.scopes[i]? :=
        Array.getElem?_modify
      refine ⟨fun i scope' hscope' slot hslot => ?_, fun i scope' hscope' => ?_, .value trivial⟩
      · change (w.scopes.modify s.index _)[i]? = some scope' at hscope'
        rw [hmodify] at hscope'
        split at hscope'
        · obtain ⟨old, hold, rfl⟩ := Option.map_eq_some_iff.1 hscope'
          rcases List.mem_append.1 hslot with hslot | hslot
          · exact hw i old hold slot hslot
          · rw [List.mem_singleton.1 hslot]
            exact hv
        · exact hw i scope' hscope' slot hslot
      · show ∃ scope'', (w.scopes.modify s.index _)[i]? = some scope'' ∧ _
        rw [hmodify, hscope']
        split
        · exact ⟨_, rfl, rfl, rfl, List.prefix_append _ _⟩
        · exact ⟨_, rfl, rfl, rfl, List.prefix_rfl⟩

theorem sound_resolve (s : ScopeId) (name : String) (hw : w.IsSound) :
    Yields lacks returns (resolve s name) w := by
  unfold resolve
  apply sound_get_bind
  split
  · rename_i value hlookup
    exact sound_pure hw (hw.lookup? hlookup)
  · exact sound_fail hw trivial

theorem sound_observe (v : Value) (hw : w.IsSound) :
    Sound lacks returns (fun _ _ => True) (observe v) w := by
  unfold observe
  apply sound_get_bind
  have hnote (e : Event) : Sound lacks returns (fun _ _ => True)
      (modify fun w => w.note e : Eval Unit) w :=
    ⟨hw.of_scopes rfl, .of_scopes rfl, .value trivial⟩
  split
  · exact hnote _
  · exact hnote _
  · exact (hnote _).bind fun _ _ _ _ hw' _ => sound_fail hw' trivial

end Eval

end VariantScript
