/-!
# Source positions

A position names a place in a source text by line and column, both counted from one.  Columns count
characters, a tab is one of them, and only a line feed starts a line.
-/

namespace VariantScript

/-- A place in a source text. -/
structure Position where
  line : Nat
  column : Nat
deriving DecidableEq, Repr, Inhabited

namespace Position

/-- The place of the first character of a text. -/
def start : Position := ⟨1, 1⟩

/-- The place behind a character that stands at `p`. -/
def step (p : Position) (c : Char) : Position :=
  if c = '\n' then ⟨p.line + 1, 1⟩ else ⟨p.line, p.column + 1⟩

/-- The place behind a text that starts at `p`. -/
def after (p : Position) (text : List Char) : Position :=
  text.foldl step p

theorem after_append (p : Position) (xs ys : List Char) :
    p.after (xs ++ ys) = (p.after xs).after ys := by
  simp [after]

/-- The note that error messages end with. -/
def note (p : Position) : String :=
  s!" (line {p.line}, col {p.column})"

end Position

end VariantScript
