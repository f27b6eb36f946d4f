import VariantScript.Syntax.Token

/-!
# Lexemes

A source text is cut into lexemes: tokens, blanks and comments.  At each place the first terminal, in
a fixed order, that matches there is taken with all that it matches; where none matches, the cutting
ends.  Lexemes are not empty and lie side by side, so the lexemes and what is left make up the text.
-/

namespace VariantScript.Syntax

/-- What a lexeme is an instance of. -/
inductive Terminal where
  | token (kind : TokenKind)
  | blanks
  | lineComment
  | blockComment
deriving DecidableEq, Repr

namespace Terminal

/-- How many characters at the head of a text are digits. -/
def digitsLength (cs : List Char) : Nat :=
  (cs.takeWhile Char.isDigit).length

/-- The length of an exponent part at the head of a text, zero if there is none. -/
def exponentLength : List Char → Nat
  | c :: rest =>
      if c = 'e' ∨ c = 'E' then
        match rest with
        | s :: digits =>
            if s = '+' ∨ s = '-' then
              if digitsLength digits = 0 then 0 else digitsLength digits + 2
            else if digitsLength (s :: digits) = 0 then 0
            else digitsLength (s :: digits) + 1
        | [] => 0
      else 0
  | [] => 0

/-- The length of a number at the head of a text: digits with an exponent, or a decimal with a point
and perhaps an exponent, or digits alone. -/
def numberLength (cs : List Char) : Nat :=
  let whole := digitsLength cs
  let rest := cs.drop whole
  if 0 < whole ∧ 0 < exponentLength rest then whole + exponentLength rest
  else
    match rest with
    | '.' :: fraction =>
        let part := digitsLength fraction
        if whole = 0 ∧ part = 0 then 0
        else whole + 1 + part + exponentLength (fraction.drop part)
    | _ => whole

/-- Whether a name may start with a character. -/
def isNameStart (c : Char) : Bool :=
  c.isAlpha || c = '_' || c = '$'

/-- Whether a name may go on with a character. -/
def isNamePart (c : Char) : Bool :=
  isNameStart c || c.isDigit

/-- The length of a name at the head of a text. -/
def nameLength : List Char → Nat
  | c :: rest => if isNameStart c then 1 + (rest.takeWhile isNamePart).length else 0
  | [] => 0

/-- The distance to just behind the closing quote of a string on this line.  A quote closes the
string unless an odd run of backslashes stands before it. -/
def closingDistance (escaped : Bool) : List Char → Option Nat
  | [] => none
  | c :: rest =>
      if c = '\n' then none
      else if c = '"' ∧ ¬ escaped then some 1
      else (closingDistance (c = '\\' && ! escaped) rest).map (· + 1)

/-- The length of a string at the head of a text. -/
def stringLength : List Char → Nat
  | '"' :: rest => (closingDistance false rest).elim 0 (· + 1)
  | _ => 0

/-- The distance to just behind the mark that ends a block comment. -/
def commentEndDistance : List Char → Option Nat
  | '*' :: '/' :: _ => some 2
  | _ :: rest => (commentEndDistance rest).map (· + 1)
  | [] => none

/-- The length of a block comment at the head of a text. -/
def blockCommentLength : List Char → Nat
  | '/' :: '*' :: rest => (commentEndDistance rest).elim 0 (· + 2)
  | _ => 0

/-- The length of a line comment at the head of a text. -/
def lineCommentLength : List Char → Nat
  | '/' :: '/' :: rest => 2 + (rest.takeWhile (· ≠ '\n')).length
  | _ => 0

/-- Whether a character is a blank of the language. -/
def isBlank (c : Char) : Bool :=
  c = ' ' || c = '\t' || c = '\x0c' || c = '\r' || c = '\n'

/-- The length of the first of some marks that stands at the head of a text. -/
def markLength (marks : List (List Char)) (cs : List Char) : Nat :=
  ((marks.find? fun mark => mark.isPrefixOf cs).map List.length).getD 0

/-- The marks of a kind of token that is spelled in fixed ways. -/
def marks : TokenKind → List (List Char)
  | .eqOp => [['=', '=', '='], ['!', '=', '='], ['=', '='], ['!', '=']]
  | .relOp => [['<', '='], ['>', '='], ['<'], ['>']]
  | .arrow => [['=', '>']]
  | .orOr => [['|', '|']]
  | .andAnd => [['&', '&']]
  | .plus => [['+']]
  | .minus => [['-']]
  | .mulOp => [['*'], ['/'], ['%']]
  | .bang => [['!']]
  | .semicolon => [[';']]
  | .equal => [['=']]
  | .lpar => [['(']]
  | .rpar => [[')']]
  | .lbrace => [['\x7b']]
  | .rbrace => [['\x7d']]
  | .comma => [[',']]
  | .lsqb => [['[']]
  | .rsqb => [[']']]
  | .colon => [[':']]
  | .qmark => [['?']]
  | .dot => [['.']]
  | .number | .name | .string | .keyword _ => []

/-- The length of what a terminal matches at the head of a text, zero if it does not match. -/
def matchLength (t : Terminal) (cs : List Char) : Nat :=
  match t with
  | .token .number => numberLength cs
  | .token .name => nameLength cs
  | .token .string => stringLength cs
  | .token kind => markLength (marks kind) cs
  | .blanks => (cs.takeWhile isBlank).length
  | .lineComment => lineCommentLength cs
  | .blockComment => blockCommentLength cs

/-- The order in which terminals are tried. -/
def order : List Terminal :=
  [.token .number, .token .name, .token .string, .blockComment, .blanks, .lineComment,
    .token .eqOp, .token .relOp, .token .arrow, .token .orOr, .token .andAnd, .token .plus,
    .token .minus, .token .mulOp, .token .bang, .token .semicolon, .token .equal, .token .lpar,
    .token .rpar, .token .lbrace, .token .rbrace, .token .comma, .token .lsqb, .token .rsqb,
    .token .colon, .token .qmark, .token .dot]

end Terminal

/-- The first lexeme of a text, cut from the rest. -/
structure Cut (cs : List Char) where
  terminal : Terminal
  text : List Char
  rest : List Char
  text_ne : text ≠ []
  text_append : text ++ rest = cs

theorem Cut.rest_lt {cs : List Char} (c : Cut cs) : c.rest.length < cs.length := by
  have h := congrArg List.length c.text_append
  have hne := List.length_pos_iff.2 c.text_ne
  rw [List.length_append] at h
  omega

/-- Cuts off what a terminal matches, if it matches. -/
def Terminal.cut? (t : Terminal) (cs : List Char) : Option (Cut cs) :=
  if h : 0 < t.matchLength cs ∧ cs ≠ [] then
    some {
      terminal := t
      text := cs.take (t.matchLength cs)
      rest := cs.drop (t.matchLength cs)
      text_ne := by
        have filled := List.length_pos_iff.2 h.2
        rw [← List.length_pos_iff, List.length_take]
        omega
      text_append := List.take_append_drop _ _ }
  else none

/-- Cuts off the first lexeme, if a terminal matches. -/
def nextCut? (cs : List Char) : Option (Cut cs) :=
  Terminal.order.findSome? fun t => t.cut? cs

/-- A piece of a source text. -/
structure Lexeme where
  terminal : Terminal
  text : List Char
deriving DecidableEq, Repr

namespace Lexeme

/-- The lexemes of a text, and what is left from the first place where no terminal matches. -/
def ofText (cs : List Char) : List Lexeme × List Char :=
  match nextCut? cs with
  | none => ([], cs)
  | some cut =>
      let (lexemes, left) := ofText cut.rest
      (⟨cut.terminal, cut.text⟩ :: lexemes, left)
termination_by cs.length
decreasing_by exact cut.rest_lt

/-- The token that a lexeme at a place is, if it is one. -/
def token? (l : Lexeme) (p : Position) : Option Token :=
  match l.terminal with
  | .token .name =>
      let text := String.ofList l.text
      match Keyword.ofSpelling? text with
      | some word => some ⟨.keyword word, text, p⟩
      | none => some ⟨.name, text, p⟩
  | .token kind => some ⟨kind, String.ofList l.text, p⟩
  | _ => none

/-- The tokens among lexemes that lie side by side from a place on. -/
def tokens (p : Position) : List Lexeme → List Token
  | [] => []
  | l :: ls =>
      match l.token? p with
      | some t => t :: tokens (p.after l.text) ls
      | none => tokens (p.after l.text) ls

/-- The characters of lexemes that lie side by side. -/
def joined (ls : List Lexeme) : List Char :=
  ls.flatMap text

end Lexeme

end VariantScript.Syntax
