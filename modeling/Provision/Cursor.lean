import Provision.Expr
import Provision.Token

/-!
# Reading tokens

A `Cursor` is a place in the tokens of a source. `Parse` is a reader that moves a cursor or gives
up with a `ParseError`; the readers of this module take single tokens and names.
-/

namespace Provision

inductive ParseError where
  | expectedDeclaration (found : Token)
  | expectedIdentifier (found : Token)
  | expectedName (found : Token)
  | expected (wanted found : Token)
  | notAnExpression (found : Token)
  | fault (cause : Fault) (offset : Nat)
  | nestedTooDeep
  /-- The reader ran out of steps; with the steps that `Program.parse` allows this is no answer. -/
  | stalled
deriving Repr, DecidableEq

/-- How deep expressions may be nested in the source. -/
def maxNesting : Nat := 256

def ParseError.message : ParseError → String
  | .expectedDeclaration found => s!"expected a declaration, found {found.describe}"
  | .expectedIdentifier found => s!"expected identifier, found {found.describe}"
  | .expectedName found => s!"expected a name, found {found.describe}"
  | .expected wanted found => s!"expected {wanted.describe}, found {found.describe}"
  | .notAnExpression found => s!"unexpected token in expression: {found.describe}"
  | .fault cause offset => s!"{cause.message} at offset {offset}"
  | .nestedTooDeep => s!"expression nesting exceeds limit of {maxNesting}"
  | .stalled => "no progress"

/-- A place in the tokens of a source. -/
structure Cursor where
  /-- The tokens still to be read. -/
  rest : List Lexeme
  /-- The length of the source. -/
  size : Nat
  /-- Where the token read last ends. -/
  last : Nat

namespace Cursor

def atEnd (c : Cursor) : Lexeme := ⟨.eof, ⟨c.size, c.size⟩⟩

def current (c : Cursor) : Lexeme := c.rest.headD c.atEnd

def following (c : Cursor) : Lexeme := c.rest.tail.headD c.atEnd

def advance (c : Cursor) : Cursor :=
  { c with rest := c.rest.tail, last := c.current.span.stop }

def isSeparator (t : Token) : Bool := t == .punct .semicolon || t == .punct .comma

/-- Steps over separators at the head of `tokens`, the token before them ending at `last`. -/
def dropSeparators : (tokens : List Lexeme) → (last : Nat) → List Lexeme × Nat
  | [], last => ([], last)
  | t :: rest, last =>
    if isSeparator t.token then dropSeparators rest t.span.stop else (t :: rest, last)

def skipSeparators (c : Cursor) : Cursor :=
  let (rest, last) := dropSeparators c.rest c.last
  { c with rest, last }

end Cursor

abbrev Parse := StateT Cursor (Except ParseError)

namespace Parse

def current : Parse Lexeme := return (← get).current

def token : Parse Token := return (← get).current.token

def following : Parse Token := return (← get).following.token

def start : Parse Nat := return (← get).current.span.start

def advance : Parse Unit := modify Cursor.advance

/-- Moves behind any separators: `;` and `,` are optional between members. -/
def skipSeparators : Parse Unit := modify Cursor.skipSeparators

def isAt (mark : Punct) : Parse Bool := return (← token) == .punct mark

/-- The span from an offset to the end of the token read last. -/
def spanFrom (start : Nat) : Parse Span := return ⟨start, (← get).last⟩

def expect (wanted : Token) : Parse Span := do
  let found ← current
  if found.token = wanted then
    advance
    return found.span
  else throw (.expected wanted found.token)

def expectMark (mark : Punct) : Parse Unit := do
  let _ ← expect (.punct mark)

def ident : Parse Ident := do
  let found ← current
  match found.token with
  | .ident text =>
    advance
    return ⟨text, found.span⟩
  | other => throw (.expectedIdentifier other)

/-- The name that a token stands for: an identifier, a string, or a word that starts
declarations. -/
def nameOf? : Token → Option String
  | .ident text => some text
  | .str text => some text
  | .keyword word => if word.isDeclaration then some word.text else none
  | _ => none

def name : Parse Ident := do
  let found ← current
  match nameOf? found.token with
  | some text =>
    advance
    return ⟨text, found.span⟩
  | none => throw (.expectedName found.token)

end Parse

end Provision
