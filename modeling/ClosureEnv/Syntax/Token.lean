import ClosureEnv.Syntax.Span
import ClosureEnv.Text.Quoted

/-!
# Tokens

The words of the language. A malformed stretch of the source is a token too, which carries what
is wrong with it, so that it is reported only when the parser reaches it.
-/

namespace ClosureEnv.Syntax

/-- What is wrong with a malformed stretch of the source. -/
inductive LexicalError where
  /-- Digits whose number does not fit a signed 64-bit integer. -/
  | intRange (digits : String)
  /-- A text without its closing quote. -/
  | unterminatedText
  /-- A character that starts no token. -/
  | unexpectedChar (c : Char)
  deriving DecidableEq, Repr

/-- The wording of a lexical error. -/
def LexicalError.message : LexicalError → String
  | intRange digits => "integer literal out of range: " ++ digits
  | unterminatedText => "unterminated string literal"
  | unexpectedChar c => "unexpected character '" ++ c.toString ++ "'"

/-- The kinds of token. -/
inductive TokenKind where
  | ident (text : String)
  | int (value : Nat)
  | str (value : String)
  | kwFn | kwLet | kwMut | kwIf | kwElse | kwWhile | kwReturn | kwTrue | kwFalse | kwNil
  | lParen | rParen | lBrace | rBrace | comma | colon | semicolon | arrow
  /-- Delimits the parameters of a closure. -/
  | pipe
  /-- Logical or; in front of an expression, the empty parameter list of a closure. -/
  | orOr
  | andAnd | bang
  | eq | eqEq | bangEq | lt | le | gt | ge
  | plus | minus | star | slash
  /-- A malformed stretch. -/
  | error (cause : LexicalError)
  /-- The end of the source. -/
  | eof
  deriving DecidableEq, Repr

namespace TokenKind

/-- The kind of token as messages name it. -/
def describe : TokenKind → String
  | ident s => "Ident(" ++ Text.quoted s ++ ")"
  | int n => "Int(" ++ toString n ++ ")"
  | str s => "Str(" ++ Text.quoted s ++ ")"
  | kwFn => "KwFn"
  | kwLet => "KwLet"
  | kwMut => "KwMut"
  | kwIf => "KwIf"
  | kwElse => "KwElse"
  | kwWhile => "KwWhile"
  | kwReturn => "KwReturn"
  | kwTrue => "KwTrue"
  | kwFalse => "KwFalse"
  | kwNil => "KwNil"
  | lParen => "LParen"
  | rParen => "RParen"
  | lBrace => "LBrace"
  | rBrace => "RBrace"
  | comma => "Comma"
  | colon => "Colon"
  | semicolon => "Semicolon"
  | arrow => "Arrow"
  | pipe => "Pipe"
  | orOr => "OrOr"
  | andAnd => "AndAnd"
  | bang => "Bang"
  | eq => "Eq"
  | eqEq => "EqEq"
  | bangEq => "BangEq"
  | lt => "Lt"
  | le => "Le"
  | gt => "Gt"
  | ge => "Ge"
  | plus => "Plus"
  | minus => "Minus"
  | star => "Star"
  | slash => "Slash"
  | error e => "Error(" ++ Text.quoted e.message ++ ")"
  | eof => "Eof"

/-- The keyword that a word is, if any. -/
def keyword? : String → Option TokenKind
  | "fn" => some kwFn
  | "let" => some kwLet
  | "mut" => some kwMut
  | "if" => some kwIf
  | "else" => some kwElse
  | "while" => some kwWhile
  | "return" => some kwReturn
  | "true" => some kwTrue
  | "false" => some kwFalse
  | "nil" => some kwNil
  | _ => none

/-- A word is a keyword or an identifier. -/
def ofWord (word : String) : TokenKind :=
  (keyword? word).getD (ident word)

/-- The tokens of two characters. -/
def ofPair? : Char → Char → Option TokenKind
  | '|', '|' => some orOr
  | '&', '&' => some andAnd
  | '=', '=' => some eqEq
  | '!', '=' => some bangEq
  | '<', '=' => some le
  | '>', '=' => some ge
  | '-', '>' => some arrow
  | _, _ => none

/-- The tokens of one character. -/
def ofChar? : Char → Option TokenKind
  | '(' => some lParen
  | ')' => some rParen
  | '\x7b' => some lBrace
  | '\x7d' => some rBrace
  | ',' => some comma
  | ':' => some colon
  | ';' => some semicolon
  | '|' => some pipe
  | '=' => some eq
  | '+' => some plus
  | '-' => some minus
  | '*' => some star
  | '/' => some slash
  | '<' => some lt
  | '>' => some gt
  | '!' => some bang
  | _ => none

end TokenKind

/-- A token and where it stands. -/
structure Token where
  kind : TokenKind
  span : Span
  deriving DecidableEq, Repr

instance : Inhabited Token := ⟨⟨.eof, ⟨0, 0⟩⟩⟩

end ClosureEnv.Syntax
