import Provision.Number.Read
import Provision.Text.Utf8
import Provision.Token

/-!
# Lexer

`Token.scan` cuts a source text into tokens. It reads the bytes of the text, each seen as the
character of the same number; only inside a string literal do bytes form characters again. Between
tokens stand gaps: white space, comments to the end of the line, and block comments. Each token
starts right behind a gap and takes the longest stretch of its class.
-/

namespace Provision

namespace Gap

inductive Mode where
  | blank
  | line
  | block

def isBlank (b : Char) : Bool :=
  (9 ≤ b.toNat && b.toNat ≤ 13) || b == ' ' || b == '\x85' || b == '\xa0'

/-- Skips a gap that begins at offset `pos`: the offset behind it, and the bytes from there on. A
line comment ends before its newline, which is white space; a block comment without an end runs to
the end of the source. -/
def skip : Mode → (pos : Nat) → List Char → Nat × List Char
  | _, pos, [] => (pos, [])
  | .blank, pos, '/' :: '/' :: rest => skip .line (pos + 2) rest
  | .blank, pos, '/' :: '*' :: rest => skip .block (pos + 2) rest
  | .blank, pos, b :: rest => if isBlank b then skip .blank (pos + 1) rest else (pos, b :: rest)
  | .line, pos, b :: rest => skip (if b = '\n' then .blank else .line) (pos + 1) rest
  | .block, pos, '*' :: '/' :: rest => skip .blank (pos + 2) rest
  | .block, pos, _ :: rest => skip .block (pos + 1) rest

end Gap

namespace Token

def double? : Char → Char → Option Punct
  | '&', '&' => some .both
  | '|', '|' => some .either
  | '=', '=' => some .equal
  | '!', '=' => some .notEqual
  | '<', '=' => some .lessEqual
  | '>', '=' => some .greaterEqual
  | _, _ => none

def single? : Char → Option Punct
  | '(' => some .openParen
  | ')' => some .closeParen
  | '{' => some .openBrace
  | '}' => some .closeBrace
  | '[' => some .openBracket
  | ']' => some .closeBracket
  | ',' => some .comma
  | ':' => some .colon
  | ';' => some .semicolon
  | '.' => some .dot
  | '@' => some .atSign
  | '|' => some .bar
  | '+' => some .plus
  | '-' => some .minus
  | '*' => some .star
  | '/' => some .slash
  | '=' => some .assign
  | '<' => some .less
  | '>' => some .greater
  | '!' => some .bang
  | _ => none

def unescape (b : Char) : Char :=
  match b with
  | 'n' => '\n'
  | 't' => '\t'
  | other => other

/-- Reads a string literal behind its opening quote: its bytes, and how many bytes it takes with
the closing quote. There is none when the source ends first. -/
def readString? (q : Char) : List Char → Option (List Char × Nat)
  | [] => none
  | b :: rest =>
    if b = q then some ([], 1)
    else if b = '\\' then
      match rest with
      | [] => none
      | e :: tail => (readString? q tail).map fun (content, n) => (unescape e :: content, n + 2)
    else (readString? q rest).map fun (content, n) => (b :: content, n + 1)

/-- The string literal that opens with the quote `q` before `rest`, and its width. -/
def readString (q : Char) (rest : List Char) : Token × Nat :=
  match readString? q rest with
  | some (content, n) => (.str (String.ofList (Text.decode content)), n + 1)
  | none => (.fault .unterminatedString, rest.length + 1)

/-- The first whole number that no integer literal can hold. -/
def intCeiling : Nat := Nat.pow 2 63

def ofDigits (ds : List Char) : Token :=
  let n := Number.digitsValue ds
  if n < intCeiling then .int n else .fault (.invalidNumber (String.ofList ds))

/-- The numeral at the start of `cs`, and its width. A point belongs to it only between digits. -/
def readNumber (cs : List Char) : Token × Nat :=
  let whole := cs.takeWhile Char.isDigit
  match cs.dropWhile Char.isDigit with
  | '.' :: rest =>
    let fraction := rest.takeWhile Char.isDigit
    if fraction.isEmpty then (ofDigits whole, whole.length)
    else (.float (Number.ofDigits false whole fraction 0), whole.length + 1 + fraction.length)
  | _ => (ofDigits whole, whole.length)

def isWordStart (b : Char) : Bool := b.isAlpha || b == '_'

def isWordPart (b : Char) : Bool := b.isAlphanum || b == '_'

def readWord (cs : List Char) : Token × Nat :=
  let letters := cs.takeWhile isWordPart
  let text := String.ofList letters
  let token := match Keyword.ofText? text with
    | some word => .keyword word
    | none => .ident text
  (token, letters.length)

/-- The token that starts with the byte `b` before `rest`, and its width in bytes. -/
def read (b : Char) (rest : List Char) : Token × Nat :=
  match rest.head?.bind (double? b) with
  | some mark => (.punct mark, 2)
  | none =>
    match single? b with
    | some mark => (.punct mark, 1)
    | none =>
      if b = '"' ∨ b = '\'' then readString b rest
      else if b.isDigit then readNumber (b :: rest)
      else if isWordStart b then readWord (b :: rest)
      else (.fault (.unexpectedByte b), 1)

/-- The tokens of the bytes from offset `pos` on. Every token takes at least a byte, so `steps`
need not exceed the number of bytes. -/
def scanFrom : (steps : Nat) → (pos : Nat) → List Char → List Lexeme
  | 0, _, _ => []
  | steps + 1, pos, bytes =>
    match Gap.skip .blank pos bytes with
    | (_, []) => []
    | (start, b :: rest) =>
      let (token, width) := read b rest
      ⟨token, ⟨start, start + width⟩⟩ :: scanFrom steps (start + width) ((b :: rest).drop width)

/-- The tokens of a source, given as its bytes, without the end of the source. -/
def scanBytes (bytes : List Char) : List Lexeme := scanFrom bytes.length 0 bytes

/-- The tokens of a source text, without the end of the source. -/
def scan (source : String) : List Lexeme := scanBytes (Text.encode source.toList)

end Token

end Provision
