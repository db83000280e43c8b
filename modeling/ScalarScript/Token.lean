import ScalarScript.Decimal.Style
import ScalarScript.Text.Quoted

/-!
# Tokens

A token is a lexeme with the line it starts on. Comments and blanks are lexemes too: they are
never read from a text, but a list of tokens made by hand may hold them, and the grammar then
refuses them.
-/

namespace ScalarScript

inductive Lexeme where
  | number (value : Float)
  | name (text : String)
  | plus
  | minus
  | star
  | slash
  | caret
  | leftParen
  | rightParen
  | equals
  | comma
  | semicolon
  | newLine
  | lineComment
  | blockComment
  | blank
  deriving DecidableEq

namespace Lexeme

/-- Whether a statement may end here. -/
def isSeparator : Lexeme → Bool
  | semicolon | newLine => true
  | _ => false

/-- How a message names the lexeme. -/
def text : Lexeme → String
  | number x => s!"Number({NumberStyle.marked.write x})"
  | name s => s!"Identifier({Text.quoted s})"
  | plus => "Plus"
  | minus => "Minus"
  | star => "Star"
  | slash => "Slash"
  | caret => "Caret"
  | leftParen => "LParen"
  | rightParen => "RParen"
  | equals => "Equals"
  | comma => "Comma"
  | semicolon => "Semicolon"
  | newLine => "NewLine"
  | lineComment => "Comment"
  | blockComment => "MultiLineComment"
  | blank => "Ignored"

end Lexeme

structure Token where
  lexeme : Lexeme
  line : Nat
  deriving DecidableEq

end ScalarScript
