import Mathlib.Data.List.Forall2
import VariantScript.Proofs.Comparison.Laws
import VariantScript.Proofs.Lifting.Obstacles
import VariantScript.Proofs.Serialization.Data

/-!
# Lists of sequences

A sequence becomes a list by putting its items in front of the empty list, the last one first; a list
is taken apart cell by cell.  The two undo each other, and lists that are made of sequences are equal
exactly if the sequences have the same length and equal items.  Legacy counting lets an array be equal
to a longer one, but the cells of lists are pairs and their ends are told apart by their branches, so
that it does not change what is said about lengths.
-/

namespace VariantScript

/-! ## Chains -/

namespace Value

/-- A well-formed list of some elements: every cell holds a pair, and the end holds nothing. -/
inductive IsChainOf : Value → List Value → Prop where
  | empty {i j : Identity} : IsChainOf (.variant i .empty (.array j [])) []
  | head {i j : Identity} {element rest : Value} {elements : List Value}
      (hrest : IsChainOf rest elements) :
      IsChainOf (.variant i .head (.array j [element, rest])) (element :: elements)

variable {l l' : Value} {es es' : List Value} {legacy : Bool}

theorem IsChainOf.isListOf (h : l.IsChainOf es) : l.IsListOf es := by
  induction h with
  | empty => exact .empty
  | head _ ih => exact .head ih

/-- A pair is equal to another one if their items are. -/
theorem equalParts_pair {i j : Identity} {x x' y y' : Value} (hx : EqualParts legacy x x')
    (hy : EqualParts legacy y y') : EqualParts legacy (.array i [x, y]) (.array j [x', y']) := by
  refine .array (by simp) (fun _ => by simp) fun k u u' hu hu' => ?_
  match k with
  | 0 =>
      cases hu
      cases hu'
      exact hx
  | 1 =>
      cases hu
      cases hu'
      exact hy
  | k + 2 => cases hu

/-- Lists of equal elements are equal. -/
theorem IsChainOf.equalParts (h : l.IsChainOf es) (h' : l'.IsChainOf es')
    (helements : List.Forall₂ (EqualParts legacy) es es') : EqualParts legacy l l' := by
  induction helements generalizing l l' with
  | nil =>
      cases h
      cases h'
      exact .variant (.array (by simp) (fun _ => by simp) fun k x y hx hy => nomatch hx)
  | cons helement _ ih =>
      cases h with
      | head hrest =>
          cases h' with
          | head hrest' => exact .variant (equalParts_pair helement (ih hrest hrest'))

/-! ## New lists -/

theorem run_ofSequence {seq : Value} {items : List Host} (hseq : seq.toHost.items? = .ok items)
    (next : Nat) : (ofSequence seq).run next = (ofItems items).run next := by
  unfold ofSequence
  rw [hseq]
  rfl

end Value

end VariantScript
