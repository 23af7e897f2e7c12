import Provision.Expr.Parser
import Provision.Token.Lexer
import Provision.TypeExpr.Parser

/-!
# Reading programs

`Program.parse` reads a source text. Every reader has a number of steps that it may be nested
deep; since each of them takes a token after a few calls at most, a small multiple of the number of
tokens is enough for all of them.
-/

namespace Provision

open Parse

def NamedArg.parseList : (steps : Nat) → Parse (List NamedArg)
  | 0 => throw .stalled
  | steps + 1 => do
    let start ← start
    let name ← ident
    expectMark .assign
    let value ← Expr.parse steps 0 0
    let arg : NamedArg := ⟨name, value, ← spanFrom start⟩
    if ← isAt .comma then
      advance
      return arg :: (← NamedArg.parseList steps)
    else return [arg]

def Parse.isAtAssignment : Parse Bool := do
  match ← token with
  | .ident _ => return (← following) == .punct .assign
  | _ => return false

/-- Reads the arguments of a decoration behind the opening parenthesis. -/
def Arguments.parse (steps : Nat) : Parse Arguments := do
  if ← isAt .closeParen then return .empty
  else if ← isAtAssignment then return .named (← NamedArg.parseList steps)
  else
    let start ← start
    match ← Expr.parseList steps 0 with
    | [single] => return .value single
    | values => return .value (.array values (← spanFrom start))

/-- Reads the decorations before a declaration or a property. -/
def Decoration.parseList : (steps : Nat) → Parse (List Decoration)
  | 0 => throw .stalled
  | steps + 1 => do
    if ← isAt .atSign then
      let start ← start
      advance
      let name ← ident
      let args ← do
        if ← isAt .openParen then
          advance
          let args ← Arguments.parse steps
          expectMark .closeParen
          pure args
        else pure Arguments.bare
      let decoration : Decoration := ⟨name, args, ← spanFrom start⟩
      return decoration :: (← Decoration.parseList steps)
    else return []

def Expr.parseInitializer (steps : Nat) : Parse (Option Expr) := do
  if ← isAt .assign then
    advance
    return some (← Expr.parse steps 0 0)
  else return none

/-- Reads the properties of a schema up to its closing brace. -/
def SchemaProperty.parseList : (steps : Nat) → Parse (List SchemaProperty)
  | 0 => throw .stalled
  | steps + 1 => do
    skipSeparators
    if ← isAt .closeBrace then return []
    else
      let start ← start
      let decorations ← Decoration.parseList steps
      let type ← TypeExpr.parse steps
      let name ← Parse.name
      let default ← Expr.parseInitializer steps
      let property : SchemaProperty := ⟨decorations, type, name, default, ← spanFrom start⟩
      return property :: (← SchemaProperty.parseList steps)

def Init.parseList : (steps : Nat) → Parse (List Init)
  | 0 => throw .stalled
  | steps + 1 => do
    skipSeparators
    if ← isAt .closeBrace then return []
    else
      let start ← start
      let name ← Parse.name
      expectMark .assign
      let value ← Expr.parse steps 0 0
      let init : Init := ⟨name, value, ← spanFrom start⟩
      return init :: (← Init.parseList steps)

def Init.parseBody (steps : Nat) : Parse (List Init) := do
  expectMark .openBrace
  let inits ← Init.parseList steps
  expectMark .closeBrace
  return inits

/-- Reads one or more parameters with commas between them. -/
def Param.parseList : (steps : Nat) → Parse (List Param)
  | 0 => throw .stalled
  | steps + 1 => do
    let start ← start
    let type ← TypeExpr.parse steps
    let name ← ident
    let param : Param := ⟨type, name, ← spanFrom start⟩
    if ← isAt .comma then
      advance
      return param :: (← Param.parseList steps)
    else return [param]

namespace Decl

variable (steps : Nat) (decorations : List Decoration) (start : Nat)

def parseSchema : Parse Decl := do
  let name ← ident
  expectMark .openBrace
  let properties ← SchemaProperty.parseList steps
  expectMark .closeBrace
  return .schema ⟨decorations, name, properties, ← spanFrom start⟩

def parseResource : Parse Decl := do
  let schema ← ident
  let name ← ident
  let body ← Init.parseBody steps
  return .resource ⟨decorations, schema, name, body, ← spanFrom start⟩

def parseInstance (component : Ident) : Parse Decl := do
  let name ← ident
  let body ← Init.parseBody steps
  return .inst ⟨decorations, component, name, body, ← spanFrom start⟩

def parseInput : Parse Decl := do
  let type ← TypeExpr.parse steps
  let name ← ident
  let default ← Expr.parseInitializer steps
  return .input ⟨decorations, type, name, default, ← spanFrom start⟩

def parseOutput : Parse Decl := do
  let type ← TypeExpr.parse steps
  let name ← ident
  let value ← Expr.parseInitializer steps
  return .output ⟨decorations, type, name, value, ← spanFrom start⟩

/-- Reads a variable behind its keyword; without a type the name stands right before `=`. -/
def parseVar : Parse Decl := do
  let type ← do
    if ← isAtAssignment then pure none else some <$> TypeExpr.parse steps
  let name ← ident
  expectMark .assign
  let value ← Expr.parse steps 0 0
  return .var ⟨decorations, type, name, value, ← spanFrom start⟩

def parseFunction : Parse Decl := do
  let name ← ident
  expectMark .openParen
  let params ← do
    if ← isAt .closeParen then pure [] else Param.parseList steps
  expectMark .closeParen
  let result ← do
    if ← isAt .openBrace then pure none else some <$> TypeExpr.parse steps
  expectMark .openBrace
  let body ← Expr.parse steps 0 0
  skipSeparators
  expectMark .closeBrace
  return .function ⟨decorations, name, params, result, body, ← spanFrom start⟩

def parseAlias : Parse Decl := do
  let name ← ident
  expectMark .assign
  let type ← TypeExpr.parse steps
  return .alias ⟨decorations, name, type, ← spanFrom start⟩

mutual

def parse : (steps : Nat) → Parse Decl
  | 0 => throw .stalled
  | steps + 1 => do
    let start ← Parse.start
    let decorations ← Decoration.parseList steps
    match ← token with
    | .keyword .schema => advance; parseSchema steps decorations start
    | .keyword .resource => advance; parseResource steps decorations start
    | .keyword .component => advance; parseComponent steps decorations start
    | .keyword .input => advance; parseInput steps decorations start
    | .keyword .output => advance; parseOutput steps decorations start
    | .keyword .variable => advance; parseVar steps decorations start
    | .keyword .function => advance; parseFunction steps decorations start
    | .keyword .alias => advance; parseAlias steps decorations start
    | other => throw (.expectedDeclaration other)

/-- Reads a component behind its keyword: an instance if a second name follows the first, else a
definition. -/
def parseComponent : (steps : Nat) → List Decoration → (start : Nat) → Parse Decl
  | 0, _, _ => throw .stalled
  | steps + 1, decorations, start => do
    let name ← ident
    match ← token with
    | .ident _ => parseInstance steps decorations start name
    | _ =>
      expectMark .openBrace
      let body ← parseBody steps
      expectMark .closeBrace
      return .component decorations name body (← spanFrom start)

/-- Reads the declarations of a component up to its closing brace. -/
def parseBody : (steps : Nat) → Parse (List Decl)
  | 0 => throw .stalled
  | steps + 1 => do
    skipSeparators
    if ← isAt .closeBrace then return []
    else
      let decl ← parse steps
      return decl :: (← parseBody steps)

end

def parseAll : (steps : Nat) → Parse (List Decl)
  | 0 => throw .stalled
  | steps + 1 => do
    skipSeparators
    if (← token) = .eof then return []
    else
      let decl ← parse steps
      return decl :: (← parseAll steps)

end Decl

namespace Program

def stepsFor (tokens : Nat) : Nat := 4 * tokens + 8

/-- Reads a program from tokens; its span goes from the first token to the end of the source. -/
def parseTokens (tokens : List Lexeme) (size : Nat) : Except ParseError Program := do
  let cursor : Cursor := ⟨tokens, size, 0⟩
  let (items, _) ← (Decl.parseAll (stepsFor tokens.length)).run cursor
  return ⟨items, ⟨cursor.current.span.start, size⟩⟩

def parse (source : String) : Except ParseError Program :=
  let bytes := Text.encode source.toList
  parseTokens (Token.scanBytes bytes) bytes.length

end Program

end Provision
