import Provision.Dependency
import Provision.Problem
import Provision.Scope

/-!
# Diagnostics

The findings of a check. A message never tells where in the source something is; the span does.
-/

namespace Provision

inductive Diagnostic where
  | typeError (problem : Problem) (span : Span)
  | notFound (name : String) (span : Span)
  | declarationExists (name : String) (span : Span)
  /-- A dependency cycle; its first name stands at its end again. -/
  | cycle (path : List String)
  /-- A value that a decorator refuses. -/
  | validation (decorator target : String) (fault : ValueFault)

namespace Diagnostic

/-- The finding that a scope error at a place in the source amounts to. -/
def ofScope (e : ScopeError) (span : Span) : Diagnostic :=
  match e with
  | .notFound name => .notFound name span
  | .declarationExists name => .declarationExists name span

def message : Diagnostic → String
  | .typeError problem _ => problem.message
  | .notFound name _ => (ScopeError.notFound name).message
  | .declarationExists name _ => (ScopeError.declarationExists name).message
  | .cycle path => DependencyGraph.cycleMessage path
  | .validation decorator target fault => s!"@{decorator} on '{target}': {fault.message}"

def span? : Diagnostic → Option Span
  | .typeError _ span => some span
  | .notFound _ span => some span
  | .declarationExists _ span => some span
  | .cycle _ => none
  | .validation _ _ _ => none

def kind : Diagnostic → String
  | .typeError _ _ => "type_error"
  | .notFound _ _ => "not_found"
  | .declarationExists _ _ => "declaration_exists"
  | .cycle _ => "cycle"
  | .validation _ _ _ => "validation"

/-- Whether it is a finding about types or decorators. -/
def isTypeError : Diagnostic → Bool
  | .typeError _ _ => true
  | _ => false

def isCycle : Diagnostic → Bool
  | .cycle _ => true
  | _ => false

def textOf (ds : List Diagnostic) : String := "\n".intercalate (ds.map message)

def occursIn (needle : List Char) : List Char → Bool
  | [] => needle.isEmpty
  | c :: cs => needle.isPrefixOf (c :: cs) || occursIn needle cs

/-- Whether the message of some finding contains a text. -/
def mentions (ds : List Diagnostic) (needle : String) : Bool :=
  ds.any fun d => occursIn needle.toList d.message.toList

end Diagnostic

end Provision
