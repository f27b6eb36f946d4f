/-!
# Blank characters

The characters that count as white space in settings and prompt lines, and the parts of a text that
they delimit.
-/

namespace VariantScript.Text

/-- Whether a character is white space: the separators of lines, fields and words, and the spaces of
every width. -/
def isBlank (c : Char) : Bool :=
  let n := c.toNat
  (0x9 ≤ n && n ≤ 0xD) || (0x1C ≤ n && n ≤ 0x20) || n == 0x85 || n == 0xA0 || n == 0x1680 ||
    (0x2000 ≤ n && n ≤ 0x200A) || n == 0x2028 || n == 0x2029 || n == 0x202F || n == 0x205F ||
    n == 0x3000

theorem isBlank_of_isWhitespace {c : Char} (h : c.isWhitespace) : isBlank c := by
  simp only [Char.isWhitespace, Bool.or_eq_true, decide_eq_true_eq] at h
  rcases h with ((rfl | rfl) | rfl) | rfl <;> decide

/-- The text without the blanks at its head. -/
def trimLeft (cs : List Char) : List Char :=
  cs.dropWhile isBlank

/-- The text without the blanks at its end. -/
def trimRight (cs : List Char) : List Char :=
  (cs.reverse.dropWhile isBlank).reverse

/-- The text without the blanks at both ends. -/
def trim (cs : List Char) : List Char :=
  trimRight (trimLeft cs)

/-- The first word of a text and what follows the blanks behind it. -/
def splitWord (cs : List Char) : List Char × List Char :=
  let cs := trimLeft cs
  (cs.takeWhile (! isBlank ·), trimLeft (cs.dropWhile (! isBlank ·)))

/-- The letters of the basic alphabet in lower case, all else unchanged. -/
def lower (cs : List Char) : List Char :=
  cs.map Char.toLower

end VariantScript.Text
