import VariantScript.Syntax.Lexeme
import VariantScript.Syntax.Phrase

/-!
# Programs

Reading a source text: cutting it into lexemes, taking the tokens among them and reading a program
from these.  A text that is no program is refused at the earliest place where no program can go on
like it: at a token, at a character that starts no lexeme, or at the end.
-/

namespace VariantScript.Syntax

/-- Why a text is no program. -/
inductive SyntaxError where
  /-- At this character no terminal matches; the line around it is kept up to forty characters on
  both sides. -/
  | unexpectedCharacter (char : Char) (pos : Position) (before after : List Char)
  | unexpectedToken (token : Token)
  | unexpectedEnd
deriving DecidableEq, Repr

namespace SyntaxError

/-- How far the context of a character reaches on each side. -/
def contextSpan : Nat := 40

/-- How wide a text is once its tabs are blown up to columns of eight, `column` characters into the
line. -/
def expandedWidth (column : Nat) : List Char → Nat
  | [] => 0
  | c :: rest =>
      if c = '\t' then
        let gap := 8 - column % 8
        gap + expandedWidth (column + gap) rest
      else 1 + expandedWidth (if c = '\n' ∨ c = '\r' then 0 else column + 1) rest

/-- The end of the last line of a text, at most as long as the context. -/
def contextBefore (text : List Char) : List Char :=
  ((text.reverse.take contextSpan).takeWhile (· ≠ '\n')).reverse

/-- The start of the first line of a text, at most as long as the context. -/
def contextAfter (text : List Char) : List Char :=
  (text.take contextSpan).takeWhile (· ≠ '\n')

/-- What is said about the error. -/
def message : SyntaxError → String
  | unexpectedCharacter char pos before after =>
      s!"No terminal matches '{char}' in the current parser context, " ++
        s!"at line {pos.line} col {pos.column}\n\n" ++
        String.ofList (before ++ after) ++ "\n" ++
        String.ofList (List.replicate (expandedWidth 0 before) ' ') ++ "^"
  | unexpectedToken token =>
      s!"Unexpected token {showToken token.kind.terminalName token.text} " ++
        s!"at line {token.pos.line}, column {token.pos.column}."
  | unexpectedEnd => "Unexpected end-of-input."

/-- Where the error lies; the end has no place. -/
def pos? : SyntaxError → Option Position
  | unexpectedCharacter _ pos _ _ => some pos
  | unexpectedToken token => some token.pos
  | unexpectedEnd => none

end SyntaxError

/-- The tokens of a text, and what is left from the first place where no terminal matches. -/
def tokensOf (source : List Char) : List Token × List Char :=
  let (lexemes, left) := Lexeme.ofText source
  (Lexeme.tokens .start lexemes, left)

/-- The error at the place where the tokens of a text end. -/
def endError (source left : List Char) : SyntaxError :=
  match left with
  | [] => .unexpectedEnd
  | c :: _ =>
      let taken := source.take (source.length - left.length)
      .unexpectedCharacter c (Position.start.after taken)
        (SyntaxError.contextBefore taken) (SyntaxError.contextAfter left)

/-- The program that a text is. -/
def Program.read (source : List Char) : Except SyntaxError Term :=
  let (tokens, left) := tokensOf source
  match Phrase.program tokens, left with
  | .ok program, [] => .ok program
  | .ok _, _ => .error (endError source left)
  | .error (t :: _), _ => .error (.unexpectedToken t)
  | .error [], _ => .error (endError source left)

end VariantScript.Syntax
