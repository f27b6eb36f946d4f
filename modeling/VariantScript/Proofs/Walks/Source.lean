import VariantScript.Proofs.Joining.Tokens
import VariantScript.Proofs.Places.Reading

/-!
# The text of a walk over a list

A program that splits a text and walks over the list of the parts, joining them again.  The text and
the separator stand in it as string literals.  Whatever they are, the program is the same tree up to
places and these two literals.
-/

namespace VariantScript.Walk

open Syntax

/-- The program, up to the first literal. -/
def opening : String :=
  "const join = xs => xs([_ => \"\", ([h, t]) => h + join(t)]); join(harness.split(["

/-- The program that splits a text at a separator and joins the parts. -/
def program (text separator : String) : String :=
  opening ++ Json.writeText text ++ ", " ++ Json.writeText separator ++ "]))"

/-! ## Words -/

/-- The words up to the first literal. -/
def openingWords : List Word :=
  [⟨.keyword .constWord, "const"⟩, ⟨.name, "join"⟩, ⟨.equal, "="⟩, ⟨.name, "xs"⟩, ⟨.arrow, "=>"⟩,
    ⟨.name, "xs"⟩, ⟨.lpar, "("⟩, ⟨.lsqb, "["⟩, ⟨.name, "_"⟩, ⟨.arrow, "=>"⟩, ⟨.string, "\"\""⟩,
    ⟨.comma, ","⟩, ⟨.lpar, "("⟩, ⟨.lsqb, "["⟩, ⟨.name, "h"⟩, ⟨.comma, ","⟩, ⟨.name, "t"⟩,
    ⟨.rsqb, "]"⟩, ⟨.rpar, ")"⟩, ⟨.arrow, "=>"⟩, ⟨.name, "h"⟩, ⟨.plus, "+"⟩, ⟨.name, "join"⟩,
    ⟨.lpar, "("⟩, ⟨.name, "t"⟩, ⟨.rpar, ")"⟩, ⟨.rsqb, "]"⟩, ⟨.rpar, ")"⟩, ⟨.semicolon, ";"⟩] ++
  [⟨.name, "join"⟩, ⟨.lpar, "("⟩, ⟨.name, "harness"⟩, ⟨.dot, "."⟩, ⟨.name, "split"⟩, ⟨.lpar, "("⟩,
    ⟨.lsqb, "["⟩]

/-- The words of the program, with the literals in their places. -/
def words (first second : String) : List Word :=
  openingWords ++
    [⟨.string, first⟩, ⟨.comma, ","⟩, ⟨.string, second⟩, ⟨.rsqb, "]"⟩, ⟨.rpar, ")"⟩, ⟨.rpar, ")"⟩]

theorem wordsOf_opening : wordsOf opening.toList = (openingWords, []) := by
  decide +kernel

theorem wordsOf_program (text separator : String) :
    wordsOf (program text separator).toList =
      (words (Json.writeText text) (Json.writeText separator), []) := by
  have hslash : '/' ∉ opening.toList := by decide +kernel
  have hquote : ∃ cs, (Json.writeText text).toList = '"' :: cs := by
    rw [Json.writeText, String.toList_ofList]
    exact ⟨_, rfl⟩
  have hopening (rest : List Char) :
      wordsOf (opening.toList ++ ((Json.writeText text).toList ++ rest)) =
        wordsBefore openingWords ((Json.writeText text).toList ++ rest) := by
    obtain ⟨cs, hcs⟩ := hquote
    rw [hcs, List.cons_append, wordsOf_quote hslash (by rw [wordsOf_opening]), wordsOf_opening]
  have hclosing : wordsOf [']', ')', ')'] = ([⟨.rsqb, "]"⟩, ⟨.rpar, ")"⟩, ⟨.rpar, ")"⟩], []) := by
    decide +kernel
  have hcomma (rest : List Char) :
      wordsOf (',' :: ' ' :: rest) = wordsBefore [⟨.comma, ","⟩] rest := by
    have hmark : (TokenKind.comma, ',') ∈ writtenMarks := by decide
    rw [wordsOf_mark hmark, wordsBefore, wordsOf_blank rfl]
    rfl
  have htext : (program text separator).toList = opening.toList ++ ((Json.writeText text).toList ++
      (',' :: ' ' :: ((Json.writeText separator).toList ++ [']', ')', ')']))) := by
    simp [program]
  rw [htext, hopening, wordsBefore, Json.wordsOf_writeText, wordsBefore, hcomma, wordsBefore,
    Json.wordsOf_writeText, wordsBefore, hclosing]
  rfl

/-! ## The tree -/

/-- A form at the start of the text. -/
def node (form : Form) : Term :=
  .node (some .start) form

/-- A name at the start of the text. -/
def named (name : String) : Pattern :=
  .name (some .start) ⟨name, .start⟩

/-- A reference at the start of the text. -/
def reference (name : String) : Term :=
  node (.reference ⟨name, .start⟩)

/-- What is done with an empty list: the empty string is given. -/
def emptyBranch : Term :=
  node (.string ⟨"\"\"", .start⟩)

/-- What is done with a head: it is put in front of the rest, which is joined. -/
def headBranch : Term :=
  node (.binary .add .start (reference "h") (node (.call (reference "join") [reference "t"])))

/-- The body of the walk, which chooses between both. -/
def body : Term :=
  node (.call (reference "xs") [node (.array
    [node (.arrow ⟨some .start, [named "_"]⟩ emptyBranch),
      node (.arrow ⟨some .start, [.array (some .start) [named "h", named "t"]]⟩ headBranch)])])

/-- The list of the parts, with the literals in their places. -/
def parts (first second : String) : Term :=
  node (.call (node (.member (reference "harness") ⟨"split", .start⟩))
    [node (.array [node (.string ⟨first, .start⟩), node (.string ⟨second, .start⟩)])])

/-- The statements of the program. -/
def statements (first second : String) : List Term :=
  [node (.declaration (named "join") (node (.arrow ⟨some .start, [named "xs"]⟩ body))),
    node (.expressionStatement (node (.call (reference "join") [parts first second])))]

/-- The tree of the program without its places. -/
def tree (first second : String) : Term :=
  node (.program (statements first second))

/-- The words of the program as tokens without their places. -/
def tokens (first second : String) : List Token :=
  (words first second).map fun w => ⟨w.kind, w.text, .start⟩

theorem outcome_statements_tokens (first second : String) :
    (Phrase.statements (tokens first second)).outcome = .ok (statements first second, []) := by
  cbv

theorem unplaced_tree (first second : String) : (tree first second).unplaced = tree first second := by
  rfl

/-- Whatever text and separator are, the program is its tree up to places. -/
theorem read_program (text separator : String) :
    ∃ t, Program.read (program text separator).toList = .ok t ∧
      t.unplaced = tree (Json.writeText text) (Json.writeText separator) := by
  have hwords := wordsOf_program text separator
  rw [← wordsOf_tokensOf] at hwords
  obtain ⟨hsame, hleft⟩ := Prod.mk.inj hwords
  have htokens : (tokensOf (program text separator).toList).1.map Token.word =
      (tokens (Json.writeText text) (Json.writeText separator)).map Token.word := by
    rw [hsame, tokens, List.map_map]
    exact (List.map_id' _).symm
  obtain ⟨t, ht, hunplaced⟩ := Program.read_alike (Token.map_unplaced_of_word htokens) hleft
    (outcome_statements_tokens _ _)
  exact ⟨t, ht, hunplaced.trans (unplaced_tree _ _)⟩

end VariantScript.Walk
