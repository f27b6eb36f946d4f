import VariantScript.Proofs.Places.Evaluation
import VariantScript.Proofs.SideBySide.Renaming

/-!
# Correspondence up to places

Messages do not show places of the source text.  So what two runs have in common they have in common
without places as well, and a run may be replaced by one that is the same without them.
-/

namespace VariantScript

open Syntax Eval

/-! ## Messages -/

namespace Value

mutual

theorem display_unplaced (v : Value) : v.unplaced.display = v.display := by
  match v with
  | .number _ _ | .string _ | .builtin _ | .foreign _ _ => rfl
  | .array _ items =>
      simp only [unplaced, display]
      rw [displayAll_unplaced items]
  | .record _ [] => rfl
  | .record _ ((name, v) :: slots) =>
      simp only [unplaced, unplacedSlots, display, displaySlots]
      rw [display_unplaced v, displaySlots_unplaced slots]
  | .closure _ f => simp [display, displayFunction, Closure.unplaced, Closure.label]
  | .variant _ .head (.array _ [element, rest]) =>
      simp only [unplaced, unplacedAll, display]
      rw [display_unplaced element, displayElements_unplaced rest]
  | .variant _ .head (.array _ []) | .variant _ .head (.array _ [_])
  | .variant _ .head (.array _ (_ :: _ :: _ :: _))
  | .variant _ .head (.number _ _) | .variant _ .head (.string _) | .variant _ .head (.record _ _)
  | .variant _ .head (.variant _ _ _) | .variant _ .head (.closure _ _)
  | .variant _ .head (.builtin _) | .variant _ .head (.foreign _ _)
  | .variant _ .yes _ | .variant _ .no _ | .variant _ .empty _ => rfl

theorem displayAll_unplaced (vs : List Value) : displayAll (unplacedAll vs) = displayAll vs := by
  match vs with
  | [] => rfl
  | v :: vs =>
      rw [unplacedAll, displayAll, displayAll, display_unplaced v, displayAll_unplaced vs]

theorem displayElements_unplaced (v : Value) : v.unplaced.displayElements = v.displayElements := by
  match v with
  | .variant _ .head (.array _ [element, rest]) =>
      simp only [unplaced, unplacedAll, displayElements]
      rw [display_unplaced element, displayElements_unplaced rest]
  | .variant _ .head (.array _ []) | .variant _ .head (.array _ [_])
  | .variant _ .head (.array _ (_ :: _ :: _ :: _))
  | .variant _ .head (.number _ _) | .variant _ .head (.string _) | .variant _ .head (.record _ _)
  | .variant _ .head (.variant _ _ _) | .variant _ .head (.closure _ _)
  | .variant _ .head (.builtin _) | .variant _ .head (.foreign _ _)
  | .variant _ .yes _ | .variant _ .no _ | .variant _ .empty _
  | .number _ _ | .string _ | .array _ _ | .record _ _ | .closure _ _ | .builtin _
  | .foreign _ _ => rfl

theorem displaySlots_unplaced (slots : Slots) :
    displaySlots (unplacedSlots slots) = displaySlots slots := by
  match slots with
  | [] => rfl
  | (name, v) :: slots =>
      rw [unplacedSlots, displaySlots, displaySlots, display_unplaced v, displaySlots_unplaced slots]

end

theorem describe_unplaced (v : Value) : v.unplaced.describe = v.describe := by
  cases v <;> simp [describe, display, typeName]

end Value

/-- A cause without places is of the same kind and says the same. -/
theorem Cause.alike_unplaced (cause : Cause) : cause.Alike cause.unplaced := by
  refine ⟨?_, ?_, cause.defect?_unplaced⟩
  · cases cause with
    | cannotAdd | cannotCompare =>
        unfold message
        dsimp only [Cause.unplaced]
        rw [Value.display_unplaced, Value.display_unplaced]
    | notAFunction =>
        unfold message
        dsimp only [Cause.unplaced]
        rw [Value.describe_unplaced]
    | expectsNumbers | expectsBoolean | notAnArray | notARecord | noProperty | indexNotWhole
    | keyNotString | cannotIndex | thrown =>
        unfold message
        dsimp only [Cause.unplaced]
        rw [Value.display_unplaced]
    | _ => rfl
  · cases cause <;> rfl

theorem Cause.Alike.trans {c c' c'' : Cause} (h : c.Alike c') (h' : c'.Alike c'') : c.Alike c'' :=
  ⟨h'.message.trans h.message, h'.kind.trans h.kind, h'.defect?.trans h.defect?⟩

theorem Cause.Alike.symm {c c' : Cause} (h : c.Alike c') : c'.Alike c :=
  ⟨h.message.symm, h.kind.symm, h.defect?.symm⟩

/-! ## Correspondence -/

section

variable {ρ : Renaming} {around : ScopeId → ScopeId → Prop}

theorem Value.Matches.unplaced {v v' : Value} (h : v.Matches (ρ.matching around) v') :
    v.unplaced.Matches (ρ.matching around) v'.unplaced := by
  induction h with
  | number hid => exact .number hid
  | string => exact .string
  | @array i j xs ys hid hlength _ ih =>
      simp only [Value.unplaced, Value.unplacedAll_eq]
      refine Value.matches_array hid ?_
      rw [List.forall₂_map_left_iff, List.forall₂_map_right_iff]
      exact forall₂_iff_getElem?.2 ⟨hlength, ih⟩
  | @record i j xs ys hid hlength hnames _ ih =>
      simp only [Value.unplaced, Slots.unplaced_eq]
      refine Value.matches_record hid ?_
      unfold Slots.unplaced Slots.Matches
      rw [List.forall₂_map_left_iff, List.forall₂_map_right_iff]
      exact forall₂_iff_getElem?.2
        ⟨hlength, fun k x y hx hy => ⟨hnames k x y hx hy, ih k x y hx hy⟩⟩
  | variant hid _ ih => exact .variant hid ih
  | closure hid hf =>
      refine .closure hid ⟨?_, ?_, hf.name, hf.kind, hf.scope⟩
      · exact congrArg (List.map Pattern.unplaced) hf.params
      · exact congrArg Term.unplaced hf.body
  | builtin => exact .builtin
  | foreign hid => exact .foreign hid

theorem Slots.Matches.unplaced {slots slots' : Slots}
    (h : slots.Matches (ρ.matching around) slots') :
    slots.unplaced.Matches (ρ.matching around) slots'.unplaced := by
  unfold Slots.unplaced Slots.Matches
  rw [List.forall₂_map_left_iff, List.forall₂_map_right_iff]
  exact h.imp fun _ _ hslot => ⟨hslot.1, hslot.2.unplaced⟩

theorem World.Mirrors.unplaced {w w' : World} (h : w.Mirrors ρ around w') :
    w.unplaced.Mirrors ρ around w'.unplaced := by
  intro s scope hscope
  rw [World.scope_unplaced] at hscope
  obtain ⟨placed, hplaced, rfl⟩ := Option.map_eq_some_iff.1 hscope
  obtain ⟨scope', hscope', hmirrors⟩ := h s placed hplaced
  refine ⟨scope'.unplaced, ?_, hmirrors.isCall, hmirrors.vars.unplaced, hmirrors.parent⟩
  rw [World.scope_unplaced, hscope']
  rfl

end

/-- Stops that are the same up to places: faults of the same kind with the same words, or values that
correspond. -/
inductive Stop.AlikeUnplaced (m : Matching) : Stop → Stop → Prop where
  | fault {f f' : Fault} (hcause : f.cause.Alike f'.cause) : AlikeUnplaced m (.fault f) (.fault f')
  | returned {v v' : Value} (hv : v.unplaced.Matches m v'.unplaced) :
      AlikeUnplaced m (.returned v) (.returned v')
  | tooDeep : AlikeUnplaced m .tooDeep .tooDeep
  | breakdown {b : Breakdown} : AlikeUnplaced m (.breakdown b) (.breakdown b)

/-- Values that correspond up to places. -/
def Value.MatchesUnplaced (m : Matching) (v v' : Value) : Prop :=
  v.unplaced.Matches m v'.unplaced

theorem Value.allMatchUnplaced_iff {m : Matching} {vs vs' : List Value} :
    List.Forall₂ (Value.MatchesUnplaced m) vs vs' ↔
      List.Forall₂ (Value.Matches m) (vs.map Value.unplaced) (vs'.map Value.unplaced) := by
  rw [List.forall₂_map_left_iff, List.forall₂_map_right_iff]
  rfl

/-- Ends of evaluations that correspond up to places. -/
def EndsAlike (m : Matching) : Except Stop Value → Except Stop Value → Prop :=
  ExceptRel (Stop.AlikeUnplaced m) (Value.MatchesUnplaced m)

section

variable {ρ : Renaming} {around : ScopeId → ScopeId → Prop} {m : Matching}
  {r r' r'' : Except Stop Value}

/-- Where a term stands does not matter to how its evaluation ends up to places. -/
theorem endsAlike_located
    (h : ExceptRel (Stop.Matches (ρ.matching around)) (Value.Matches (ρ.matching around)) r r')
    (pos pos' : Option Position) :
    EndsAlike (ρ.matching around) (located pos r) (located pos' r') := by
  cases h with
  | ok hv => exact .ok hv.unplaced
  | error he =>
      cases he with
      | fault hcause =>
          refine .error (.fault ?_)
          rw [cause_locate, cause_locate]
          exact hcause
      | returned hv => exact .error (.returned hv.unplaced)
      | tooDeep => exact .error .tooDeep
      | breakdown => exact .error .breakdown

/-- Whether calls nest too deeply is the same without places. -/
theorem eq_tooDeep_of_unplaced
    (hsame : unplacedEnd Value.unplaced r'' = unplacedEnd Value.unplaced r')
    (h : r' = .error .tooDeep) : r'' = .error .tooDeep := by
  subst h
  unfold unplacedEnd at hsame
  cases r'' with
  | ok v => cases hsame
  | error e =>
      cases e with
      | tooDeep => rfl
      | _ => cases hsame

/-- An end may be replaced by one that is the same without places. -/
theorem EndsAlike.of_unplaced (h : EndsAlike m r r')
    (hsame : unplacedEnd Value.unplaced r'' = unplacedEnd Value.unplaced r') :
    EndsAlike m r r'' := by
  unfold unplacedEnd at hsame
  cases h with
  | ok hv =>
      cases r'' with
      | error e => cases hsame
      | ok v =>
          refine .ok ?_
          unfold Value.MatchesUnplaced
          rw [Except.ok.inj hsame]
          exact hv
  | error he =>
      cases r'' with
      | ok v => cases hsame
      | error e =>
          have he' : e.unplaced = _ := Except.error.inj hsame
          refine .error ?_
          cases he with
          | @fault f f' hcause =>
              cases e with
              | fault g =>
                  have hg : g.cause.unplaced = f'.cause.unplaced :=
                    congrArg Fault.cause (Stop.fault.inj he')
                  exact .fault (hcause.trans
                    (f'.cause.alike_unplaced.trans (hg ▸ g.cause.alike_unplaced.symm)))
              | _ => cases he'
          | returned hv =>
              cases e with
              | returned v =>
                  have hv' : v.unplaced = _ := Stop.returned.inj he'
                  exact .returned (hv' ▸ hv)
              | _ => cases he'
          | tooDeep =>
              cases e with
              | tooDeep => exact .tooDeep
              | _ => cases he'
          | breakdown =>
              cases e with
              | breakdown b =>
                  cases he'
                  exact .breakdown
              | _ => cases he'

end

end VariantScript
