import Mathlib.Data.List.Infix
import VariantScript.Text.Split

/-!
# The pieces of a text

Between its pieces a text is cut at the leftmost place where the separator stands, and then at the
leftmost one in what is left behind it, until the separator stands nowhere any more.  So the pieces
with the separator between them are the text, and no piece holds the separator; where places overlap,
as in a text that goes on with the end of a separator, the first one counts.
-/

namespace VariantScript.Text

/-! ## Cutting at the leftmost place -/

variable {separator cs rest : List Char} {pieces : List (List Char)}

/-- The pieces of a text between the places where a separator stands, each place being the leftmost
one behind the place before it. -/
inductive IsSplit (separator : List Char) : List Char → List (List Char) → Prop where
  | whole {cs : List Char} (hnowhere : ¬ separator <:+: cs) : IsSplit separator cs [cs]
  | cut {piece rest : List Char} {pieces : List (List Char)}
      (hleftmost : ∀ before after, piece ++ separator ++ rest = before ++ separator ++ after →
        piece.length ≤ before.length)
      (hrest : IsSplit separator rest pieces) :
      IsSplit separator (piece ++ separator ++ rest) (piece :: pieces)

/-- No piece holds the separator. -/
theorem IsSplit.not_infix (h : IsSplit separator cs pieces) (hseparator : separator ≠ []) :
    ∀ piece ∈ pieces, ¬ separator <:+: piece := by
  induction h with
  | whole hnowhere =>
      intro piece hpiece
      rwa [List.mem_singleton.1 hpiece]
  | @cut piece rest pieces hleftmost _ ih =>
      refine List.forall_mem_cons.2 ⟨?_, ih⟩
      rintro ⟨before, after, hpiece⟩
      -- A separator inside of the piece would stand further left than the cut.
      have hle := hleftmost before (after ++ separator ++ rest) (by rw [← hpiece]; simp)
      have hlength : piece.length = before.length + separator.length + after.length := by
        rw [← hpiece, List.length_append, List.length_append]
      have hpos := List.length_pos_iff.2 hseparator
      omega

/-- A character at which no separator starts belongs to the first piece. -/
theorem IsSplit.consFirst (h : IsSplit separator rest pieces) {c : Char}
    (hc : ¬ separator <+: c :: rest) : IsSplit separator (c :: rest) (consFirst c pieces) := by
  cases h with
  | whole hnowhere =>
      refine .whole fun hinfix => ?_
      rcases List.infix_cons_iff.1 hinfix with hfirst | hlater
      · exact hc hfirst
      · exact hnowhere hlater
  | @cut piece rest pieces hleftmost hrest =>
      change IsSplit separator ((c :: piece) ++ separator ++ rest) ((c :: piece) :: pieces)
      refine .cut (fun before after heq => ?_) hrest
      cases before with
      | nil => exact absurd ⟨after, heq.symm⟩ hc
      | cons d before =>
          have htail : piece ++ separator ++ rest = before ++ separator ++ after :=
            (List.cons.inj heq).2
          exact Nat.succ_le_succ (hleftmost before after htail)

/-- What follows a separator at the head of a text. -/
theorem drop_of_isPrefix {c : Char} {behind : List Char} (h : separator ≠ [])
    (hcut : separator ++ behind = c :: rest) : rest.drop (separator.length - 1) = behind := by
  cases separator with
  | nil => exact absurd rfl h
  | cons s separator =>
      obtain ⟨-, rfl⟩ := List.cons.inj hcut
      exact List.drop_left' rfl

theorem isSplit_splitOn (h : separator ≠ []) (cs : List Char) :
    IsSplit separator cs (splitOn separator cs) := by
  induction cs using splitOn.induct separator with
  | case1 =>
      rw [splitOn]
      exact .whole fun hinfix => h (List.infix_nil.1 hinfix)
  | case2 c rest hcut ih =>
      obtain ⟨behind, hbehind⟩ := List.isPrefixOf_iff_prefix.1 hcut
      rw [splitOn, if_pos hcut]
      rw [drop_of_isPrefix h hbehind] at ih ⊢
      rw [← hbehind]
      change IsSplit separator ([] ++ separator ++ behind) ([] :: splitOn separator behind)
      exact .cut (fun _ _ _ => Nat.zero_le _) ih
  | case3 c rest hcut ih =>
      rw [splitOn, if_neg hcut]
      exact ih.consFirst fun hprefix => hcut (List.isPrefixOf_iff_prefix.2 hprefix)

theorem IsSplit.ne_nil (h : IsSplit separator cs pieces) : pieces ≠ [] := by
  cases h <;> exact List.cons_ne_nil _ _

/-- A text is split at a separator that is not empty. -/
theorem isSplit_toList_split (text : String) {separator : String} (h : separator.toList ≠ []) :
    IsSplit separator.toList text.toList ((split text separator).map String.toList) := by
  have hempty : ¬ separator.isEmpty = true := fun hempty =>
    h (String.toList_eq_nil_iff.2 (String.isEmpty_iff.1 hempty))
  have hpieces : ((splitOn separator.toList text.toList).map String.ofList).map String.toList =
      splitOn separator.toList text.toList := by
    simp
  rw [split, if_neg hempty, hpieces]
  exact isSplit_splitOn h text.toList

/-! ## Joining the pieces -/

theorem intercalate_consFirst (separator : List Char) (c : Char) {pieces : List (List Char)}
    (h : pieces ≠ []) :
    separator.intercalate (consFirst c pieces) = c :: separator.intercalate pieces := by
  cases pieces with
  | nil => exact absurd rfl h
  | cons piece pieces =>
      rw [consFirst]
      cases pieces with
      | nil => rw [List.intercalate_singleton, List.intercalate_singleton]
      | cons next pieces =>
          rw [List.intercalate_cons_cons, List.intercalate_cons_cons, List.cons_append,
            List.cons_append]

theorem consFirst_ne_nil (c : Char) (pieces : List (List Char)) : consFirst c pieces ≠ [] := by
  cases pieces <;> exact List.cons_ne_nil _ _

theorem splitOn_ne_nil (separator cs : List Char) : splitOn separator cs ≠ [] := by
  cases cs with
  | nil => rw [splitOn]; exact List.cons_ne_nil _ _
  | cons c rest =>
      rw [splitOn]
      split
      · exact List.cons_ne_nil _ _
      · exact consFirst_ne_nil c _

/-- The pieces with the separator between them are the text. -/
theorem intercalate_splitOn {separator : List Char} (h : separator ≠ []) (cs : List Char) :
    separator.intercalate (splitOn separator cs) = cs := by
  induction cs using splitOn.induct separator with
  | case1 => rw [splitOn, List.intercalate_singleton]
  | case2 c rest hcut ih =>
      obtain ⟨behind, hbehind⟩ := List.isPrefixOf_iff_prefix.1 hcut
      rw [splitOn, if_pos hcut, List.intercalate_cons_of_ne_nil (splitOn_ne_nil _ _), ih,
        drop_of_isPrefix h hbehind, List.nil_append, hbehind]
  | case3 c rest hcut ih =>
      rw [splitOn, if_neg hcut, intercalate_consFirst _ _ (splitOn_ne_nil _ _), ih]

theorem split_empty (text : String) :
    split text "" = text.toList.map fun c => String.ofList [c] :=
  if_pos (by decide)

/-- The parts of a text at an empty separator are its characters. -/
theorem join_split_empty (text : String) : String.join (split text "") = text := by
  apply String.toList_injective
  rw [String.toList_join, split_empty, List.flatMap_map]
  simp only [String.toList_ofList, List.flatMap_singleton']

theorem length_split_empty (text : String) : (split text "").length = text.length := by
  rw [split_empty, List.length_map, String.length_toList]

theorem nil_intercalate (pieces : List (List Char)) : [].intercalate pieces = pieces.flatten := by
  induction pieces with
  | nil => rfl
  | cons piece pieces ih =>
      cases pieces with
      | nil => rw [List.intercalate_singleton, List.flatten_singleton]
      | cons next pieces =>
          rw [List.intercalate_cons_cons, List.append_nil, ih]
          rfl

/-- The parts with the separator between them are the text. -/
theorem intercalate_split (text separator : String) :
    separator.intercalate (split text separator) = text := by
  apply String.toList_injective
  rw [String.toList_intercalate]
  by_cases hempty : separator.isEmpty = true
  · obtain rfl := String.isEmpty_iff.1 hempty
    rw [String.toList_empty, nil_intercalate, ← List.flatMap_def, ← String.toList_join,
      join_split_empty]
  · have hseparator : separator.toList ≠ [] := fun h =>
      hempty (String.isEmpty_iff.2 (String.toList_eq_nil_iff.1 h))
    have hpieces (pieces : List (List Char)) :
        (pieces.map String.ofList).map String.toList = pieces := by
      simp
    rw [split, if_neg hempty, hpieces, intercalate_splitOn hseparator]


end VariantScript.Text
