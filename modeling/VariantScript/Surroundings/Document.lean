import VariantScript.Log
import VariantScript.Text.Literal

/-!
# Documents

A document holds elements with markup.  One element, known by its name, takes what is dropped into
the document.
-/

namespace VariantScript.Surroundings

/-- The elements of a document with their markup; no name occurs twice. -/
structure Document where
  elements : List (String × String)
deriving DecidableEq, Repr

namespace Document

/-- Sets the markup of an element: an element that exists keeps its place, a new one goes to the
end. -/
def set (id markup : String) : List (String × String) → List (String × String)
  | [] => [(id, markup)]
  | (k, old) :: rest => if k = id then (k, markup) :: rest else (k, old) :: set id markup rest

/-- The document of a sequence of elements, of which the last for each name counts. -/
def ofList (elements : List (String × String)) : Document :=
  ⟨elements.foldl (fun built (id, markup) => set id markup built) []⟩

/-- The name of the element that takes what is dropped. -/
def dropTarget : String := "the-id-for-dropping-html"

/-- Puts markup into the element that takes it; without such an element the document stays as it is
and a warning is logged. -/
def drop (content : String) (d : Document) : Document × List Log.Entry :=
  if (d.elements.lookup dropTarget).isSome then (⟨set dropTarget content d.elements⟩, [])
  else
    (d, [⟨.warning, .surroundings, s!"nothing found with id {Text.literal dropTarget}"⟩])

end Document

end VariantScript.Surroundings
