/-!
# Splitting texts

A text is cut at every place where a separator stands, from left to right and without overlap; the
pieces with the separator between them make up the text again.
-/

namespace VariantScript.Text

/-- Puts a character at the head of the first piece. -/
def consFirst (c : Char) : List (List Char) → List (List Char)
  | [] => [[c]]
  | piece :: pieces => (c :: piece) :: pieces

/-- The pieces of a text between the places where a separator stands.  The separator is not
empty. -/
def splitOn (separator : List Char) : List Char → List (List Char)
  | [] => [[]]
  | c :: rest =>
      if separator.isPrefixOf (c :: rest) then
        [] :: splitOn separator (rest.drop (separator.length - 1))
      else consFirst c (splitOn separator rest)
termination_by cs => cs.length
decreasing_by all_goals simp only [List.length_cons, List.length_drop]; omega

/-- The pieces of a text: its characters if the separator is empty, else what lies between the
places where the separator stands. -/
def split (text separator : String) : List String :=
  if separator.isEmpty then text.toList.map fun c => String.ofList [c]
  else (splitOn separator.toList text.toList).map String.ofList

end VariantScript.Text
