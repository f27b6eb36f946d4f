import VariantScript.Proofs.Evaluation.WellFormed
import VariantScript.Proofs.Serialization.Evaluation
import VariantScript.Proofs.Splitting.Pieces

/-!
# Splitting in scripts

The built-in operation that splits a text takes a pair of strings and gives a list of strings: the
single characters of the text if the separator is empty, and else the pieces of the text.  Whatever
else it is called with, a fault about types comes up and the world stays as it is.
-/

namespace VariantScript

open Eval

variable {w : World}

/-- A new list of strings is a chain of them. -/
theorem Value.isChain_listFrom (next : Nat) (texts : List String) :
    Value.IsChain texts (Value.listFrom next (texts.map Value.string)).1 := by
  induction texts with
  | nil => exact .empty
  | cons text texts ih => exact .cell ih

/-- A list is made of new objects. -/
theorem Eval.gives_makeList (vs : List Value) (w : World) :
    Gives (makeList vs) w (Value.listFrom w.nextSerial vs).1
      { w with nextSerial := (Value.listFrom w.nextSerial vs).2 } :=
  rfl

/-- A pair of strings is split into a list. -/
theorem gives_runBuiltin_split (w : World) (i : Identity) (text separator : String) :
    Gives (runBuiltin .split (.array i [.string text, .string separator])) w
      (Value.listFrom w.nextSerial ((Text.split text separator).map Value.string)).1
      { w with nextSerial :=
          (Value.listFrom w.nextSerial ((Text.split text separator).map Value.string)).2 } := by
  have hpair : Gives (ofExcept (requirePair .split (.array i [.string text, .string separator]))) w
      (.string text, .string separator) w :=
    rfl
  exact hpair.bind (gives_makeList _ w)

/-- Whether a value is a pair of strings. -/
def Value.IsTextPair (v : Value) : Prop :=
  ∃ i text separator, v = .array i [.string text, .string separator]

/-- What is no pair of strings is not split. -/
theorem run_split_of_not_textPair {arg : Value} (h : ¬ arg.IsTextPair) (w : World) :
    ∃ cause : Cause, cause.kind = .type ∧
      (runBuiltin .split arg).run.run w = (.error (.fault ⟨cause, none⟩), w) := by
  have hnoPair (hpair : requirePair .split arg = .error (.expectsPair .split)) :
      ∃ cause : Cause, cause.kind = .type ∧
        (runBuiltin .split arg).run.run w = (.error (.fault ⟨cause, none⟩), w) := by
    refine ⟨.expectsPair .split, rfl, ?_⟩
    unfold runBuiltin
    rw [hpair]
    rfl
  cases arg with
  | array i items =>
      match items with
      | [left, right] =>
          refine ⟨.expectsStrings, rfl, ?_⟩
          unfold runBuiltin
          cases left with
          | string text =>
              cases right with
              | string separator => exact absurd ⟨i, text, separator, rfl⟩ h
              | _ => rfl
          | _ => rfl
      | [] | [_] | _ :: _ :: _ :: _ => exact hnoPair rfl
  | _ => exact hnoPair rfl

/-- Splitting is exact.  A pair of a text and a separator gives a list of strings: the single
characters of the text in order if the separator is empty, and else at least one piece, where no piece
holds the separator, the pieces with the separator between them are the text, and every cut is at the
leftmost place that is left.  Any other argument is refused with a fault about types. -/
theorem split_exact (w : World) :
    (∀ (i : Identity) (text separator : String), ∃ l w' pieces,
      Gives (runBuiltin .split (.array i [.string text, .string separator])) w l w' ∧
      Value.IsChain pieces l ∧
      (separator = "" → pieces = text.toList.map fun c => String.ofList [c]) ∧
      (separator ≠ "" → separator.intercalate pieces = text ∧
        (∀ piece ∈ pieces, ¬ separator.toList <:+: piece.toList) ∧ pieces ≠ [] ∧
        Text.IsSplit separator.toList text.toList (pieces.map String.toList))) ∧
    ∀ arg : Value, ¬ arg.IsTextPair → ∃ cause : Cause, cause.kind = .type ∧
      (runBuiltin .split arg).run.run w = (.error (.fault ⟨cause, none⟩), w) := by
  refine ⟨fun i text separator => ⟨_, _, Text.split text separator,
    gives_runBuiltin_split w i text separator, Value.isChain_listFrom _ _, ?_, fun hseparator => ?_⟩,
    fun arg harg => run_split_of_not_textPair harg w⟩
  · rintro rfl
    exact Text.split_empty text
  · have hne : separator.toList ≠ [] := fun h => hseparator (String.toList_eq_nil_iff.1 h)
    have hsplit := Text.isSplit_toList_split text hne
    refine ⟨Text.intercalate_split text separator, fun piece hpiece => ?_, ?_, hsplit⟩
    · exact hsplit.not_infix hne _ (List.mem_map_of_mem hpiece)
    · exact fun hnil => hsplit.ne_nil (by rw [hnil, List.map_nil])

example : Text.split "aaab" "aa" = ["", "ab"] := by cbv

/-- The separator stands in the text in two places that overlap, of which the first one counts; a
number is not split. -/
theorem split_exact_overlap :
    (∃ l w' pieces,
      Gives (runBuiltin .split (.array ⟨4⟩ [.string "aaab", .string "aa"])) (.new false .absent) l w' ∧
      Value.IsChain pieces l ∧ "aa".intercalate pieces = "aaab" ∧ pieces ≠ [] ∧
      Text.IsSplit "aa".toList "aaab".toList (pieces.map String.toList)) ∧
    ∃ cause : Cause, cause.kind = .type ∧
      (runBuiltin .split (.number ⟨4⟩ 1)).run.run (.new false .absent) =
        (.error (.fault ⟨cause, none⟩), .new false .absent) := by
  obtain ⟨hsplit, hrefused⟩ := split_exact (.new false .absent)
  obtain ⟨l, w', pieces, hgives, hchain, -, hpieces⟩ := hsplit ⟨4⟩ "aaab" "aa"
  obtain ⟨hjoined, -, hne, hcuts⟩ := hpieces (by decide)
  exact ⟨⟨l, w', pieces, hgives, hchain, hjoined, hne, hcuts⟩,
    hrefused (.number ⟨4⟩ 1) (by rintro ⟨i, text, separator, h⟩; cases h)⟩

end VariantScript
