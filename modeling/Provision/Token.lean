import Provision.Number.Layout
import Provision.Span
import Provision.Text.Quoted

/-!
# Tokens

The words of the language. `Token.describe` is the form in which a message names a token.
-/

namespace Provision

inductive Keyword where
  | schema
  | resource
  | component
  | input
  | output
  | variable
  | function
  | alias
  | truth
  | falsity
  | nothing
deriving Repr, DecidableEq

def Keyword.text : Keyword → String
  | .schema => "schema"
  | .resource => "resource"
  | .component => "component"
  | .input => "input"
  | .output => "output"
  | .variable => "var"
  | .function => "fun"
  | .alias => "type"
  | .truth => "true"
  | .falsity => "false"
  | .nothing => "null"

def Keyword.all : List Keyword :=
  [.schema, .resource, .component, .input, .output, .variable, .function, .alias,
    .truth, .falsity, .nothing]

def Keyword.ofText? (s : String) : Option Keyword := Keyword.all.find? (·.text == s)

/-- Whether the word starts a declaration; such a word may also name a property or a key. -/
def Keyword.isDeclaration : Keyword → Bool
  | .truth | .falsity | .nothing => false
  | _ => true

def Keyword.label : Keyword → String
  | .schema => "KwSchema"
  | .resource => "KwResource"
  | .component => "KwComponent"
  | .input => "KwInput"
  | .output => "KwOutput"
  | .variable => "KwVar"
  | .function => "KwFun"
  | .alias => "KwType"
  | .truth => "KwTrue"
  | .falsity => "KwFalse"
  | .nothing => "KwNull"

/-- Brackets, separators and operators. -/
inductive Punct where
  | openParen
  | closeParen
  | openBrace
  | closeBrace
  | openBracket
  | closeBracket
  | comma
  | colon
  | semicolon
  | dot
  | atSign
  | bar
  | assign
  | plus
  | minus
  | star
  | slash
  | equal
  | notEqual
  | less
  | lessEqual
  | greater
  | greaterEqual
  | both
  | either
  | bang
deriving Repr, DecidableEq

def Punct.label : Punct → String
  | .openParen => "LParen"
  | .closeParen => "RParen"
  | .openBrace => "LBrace"
  | .closeBrace => "RBrace"
  | .openBracket => "LBracket"
  | .closeBracket => "RBracket"
  | .comma => "Comma"
  | .colon => "Colon"
  | .semicolon => "Semicolon"
  | .dot => "Dot"
  | .atSign => "At"
  | .bar => "Pipe"
  | .assign => "Eq"
  | .plus => "Plus"
  | .minus => "Minus"
  | .star => "Star"
  | .slash => "Slash"
  | .equal => "EqEq"
  | .notEqual => "BangEq"
  | .less => "Lt"
  | .lessEqual => "Le"
  | .greater => "Gt"
  | .greaterEqual => "Ge"
  | .both => "AndAnd"
  | .either => "OrOr"
  | .bang => "Bang"

/-- Why a stretch of source text is no token. -/
inductive Fault where
  | unterminatedString
  | invalidNumber (digits : String)
  | unexpectedByte (byte : Char)
deriving Repr, DecidableEq

def Fault.message : Fault → String
  | .unterminatedString => "unterminated string"
  | .invalidNumber digits => s!"invalid number '{digits}'"
  | .unexpectedByte byte => s!"unexpected character '{byte}'"

/-- A word of the language, a stretch that is none, or the end of the source. -/
inductive Token where
  | eof
  | fault (cause : Fault)
  | punct (mark : Punct)
  | ident (text : String)
  | keyword (word : Keyword)
  | int (value : Nat)
  | float (value : Number)
  | str (text : String)
deriving Repr, DecidableEq

def Token.describe : Token → String
  | .eof => "Eof"
  | .fault cause => s!"Error({Text.quote cause.message})"
  | .punct mark => mark.label
  | .ident text => s!"Ident({Text.quote text})"
  | .keyword word => word.label
  | .int value => s!"Int({value})"
  | .float value => s!"Float({Number.Layout.listing.write value})"
  | .str text => s!"Str({Text.quote text})"

/-- A token with the stretch of source that it was read from. -/
structure Lexeme where
  token : Token
  span : Span
deriving Repr, DecidableEq

end Provision
