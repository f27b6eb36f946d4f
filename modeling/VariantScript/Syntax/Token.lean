import VariantScript.Position
import VariantScript.Text.Literal

/-!
# Tokens

The words and marks of the script language.  A name whose whole text is a keyword is that keyword
and no name any more.
-/

namespace VariantScript.Syntax

/-- The reserved words. -/
inductive Keyword where
  | constWord
  | letWord
  | varWord
  | returnWord
  | throwWord
  | functionWord
  | elseWord
  | ifWord
  | trueWord
  | falseWord
deriving DecidableEq, Repr

namespace Keyword

/-- All reserved words. -/
def all : List Keyword :=
  [constWord, letWord, varWord, returnWord, throwWord, functionWord, elseWord, ifWord, trueWord,
    falseWord]

/-- How a reserved word is spelled. -/
def spelling : Keyword → String
  | constWord => "const"
  | letWord => "let"
  | varWord => "var"
  | returnWord => "return"
  | throwWord => "throw"
  | functionWord => "function"
  | elseWord => "else"
  | ifWord => "if"
  | trueWord => "true"
  | falseWord => "false"

/-- The reserved word that a text spells. -/
def ofSpelling? (text : String) : Option Keyword :=
  all.find? fun k => k.spelling == text

/-- The name of the keyword in error messages. -/
def terminalName : Keyword → String
  | constWord => "CONST"
  | letWord => "LET"
  | varWord => "VAR"
  | returnWord => "RETURN"
  | throwWord => "THROW"
  | functionWord => "FUNCTION"
  | elseWord => "ELSE"
  | ifWord => "IF"
  | trueWord => "TRUE"
  | falseWord => "FALSE"

end Keyword

/-- The kinds of tokens. -/
inductive TokenKind where
  | number
  | name
  | string
  | eqOp
  | relOp
  | arrow
  | orOr
  | andAnd
  | plus
  | minus
  | mulOp
  | bang
  | semicolon
  | equal
  | lpar
  | rpar
  | lbrace
  | rbrace
  | comma
  | lsqb
  | rsqb
  | colon
  | qmark
  | dot
  | keyword (word : Keyword)
deriving DecidableEq, Repr

/-- The name of a kind of token in error messages and trees. -/
def TokenKind.terminalName : TokenKind → String
  | .number => "NUMBER"
  | .name => "NAME"
  | .string => "STRING"
  | .eqOp => "EQ_OP"
  | .relOp => "REL_OP"
  | .arrow => "__ANON_0"
  | .orOr => "__ANON_1"
  | .andAnd => "__ANON_2"
  | .plus => "PLUS"
  | .minus => "MINUS"
  | .mulOp => "MUL_OP"
  | .bang => "BANG"
  | .semicolon => "SEMICOLON"
  | .equal => "EQUAL"
  | .lpar => "LPAR"
  | .rpar => "RPAR"
  | .lbrace => "LBRACE"
  | .rbrace => "RBRACE"
  | .comma => "COMMA"
  | .lsqb => "LSQB"
  | .rsqb => "RSQB"
  | .colon => "COLON"
  | .qmark => "QMARK"
  | .dot => "DOT"
  | .keyword word => word.terminalName

/-- A token: its kind, its source text and where that starts. -/
structure Token where
  kind : TokenKind
  text : String
  pos : Position
deriving DecidableEq, Repr

/-- How error messages show a token of a named kind. -/
def showToken (terminal text : String) : String :=
  s!"Token({Text.literal terminal}, {Text.literal text})"

end VariantScript.Syntax
