import Provision.Checker
import Provision.Decl.Parser
import Provision.Outline.Program
import Provision.Report

/-!
# The command line

What the program is asked to do by its arguments, and what it answers: the texts for its two
outputs and its exit code. Reading the file is left to the caller.
-/

namespace Provision

inductive Format where
  | pretty
  | json
deriving Repr, DecidableEq

def Format.ofName? : String → Option Format
  | "pretty" => some .pretty
  | "json" => some .json
  | _ => none

inductive Action where
  | check (skipDefaults : Bool)
  | parse
deriving Repr, DecidableEq

structure Command where
  action : Action
  file : String
  format : Format := .pretty
deriving Repr, DecidableEq

inductive Request where
  | run (command : Command)
  | help
  /-- Arguments that make no request. -/
  | misuse
deriving Repr, DecidableEq

structure Outcome where
  code : Nat
  output : String := ""
  errors : String := ""
deriving Repr, DecidableEq

/-! ### Arguments -/

/-- The arguments of an action, each at most once. -/
structure Options where
  file : Option String := none
  format : Option Format := none
  skipDefaults : Bool := false
deriving Repr, DecidableEq

namespace Options

def addFile (o : Options) (file : String) : Except Request Options :=
  if o.file.isSome then .error .misuse else .ok { o with file := some file }

def addFormat (o : Options) (name : String) : Except Request Options :=
  match o.format, Format.ofName? name with
  | none, some format => .ok { o with format := some format }
  | _, _ => .error .misuse

/-- Takes the wish to leave defaults unchecked, where there is something to check. -/
def addSkip (o : Options) (checks : Bool) : Except Request Options :=
  if checks && !o.skipDefaults then .ok { o with skipDefaults := true } else .error .misuse

/-- Reads the arguments of an action, added to those before them. After `--` all are files. -/
def read (checks : Bool) : Options → List String → Except Request Options
  | o, [] => .ok o
  | o, "--" :: rest => rest.foldlM addFile o
  | o, "--format" :: name :: rest => do read checks (← o.addFormat name) rest
  | o, arg :: rest =>
    if arg = "--skip-defaults" then do read checks (← o.addSkip checks) rest
    else if arg = "--help" || arg.startsWith "-h" then .error .help
    else if arg.startsWith "--format=" then do
      read checks (← o.addFormat (arg.drop 9).toString) rest
    else if arg.startsWith "-" && arg != "-" then .error .misuse
    else do read checks (← o.addFile arg) rest

end Options

namespace Request

/-- The request that the arguments of an action make. -/
def ofOptions (checks : Bool) (args : List String) : Request :=
  match Options.read checks {} args with
  | .error request => request
  | .ok o =>
    match o.file with
    | none => .misuse
    | some file =>
      let action : Action := if checks then .check o.skipDefaults else .parse
      .run { action, file, format := o.format.getD .pretty }

def ofArgs : List String → Request
  | "check" :: args => ofOptions true args
  | "parse" :: args => ofOptions false args
  | ["help"] | ["help", "check"] | ["help", "parse"] | ["help", "help"] => .help
  | arg :: _ => if arg = "--help" || arg.startsWith "-h" then .help else .misuse
  | [] => .misuse

end Request

/-! ### Files -/

inductive SourceFault where
  | missing
  | isDirectory
  /-- The file cannot be read for a reason that the system gives. -/
  | unreadable (reason : String)
  | notUtf8
  | tooLarge (size : Nat)
deriving Repr, DecidableEq

namespace SourceFault

def maxSize : Nat := 1000000

def message (file : String) : SourceFault → String
  | .missing => s!"failed to read '{file}': No such file or directory (os error 2)"
  | .isDirectory => s!"failed to read '{file}': Is a directory (os error 21)"
  | .unreadable reason => s!"failed to read '{file}': {reason}"
  | .notUtf8 => s!"failed to read '{file}': stream did not contain valid UTF-8"
  | .tooLarge size => s!"source file exceeds {maxSize / 1000000}MB limit ({size} bytes)"

end SourceFault

def sourceText (content : ByteArray) : Except SourceFault String :=
  match String.fromUTF8? content with
  | none => .error .notUtf8
  | some src =>
    if content.size > SourceFault.maxSize then .error (.tooLarge content.size) else .ok src

/-! ### Answers -/

namespace Outcome

def success (output : String) : Outcome := { code := 0, output }

def failure (message : String) : Outcome := { code := 1, errors := s!"Error: {message}\n" }

end Outcome

namespace Command

def answerCheck (file : String) (format : Format) (skipDefaults : Bool) (p : Program) : Outcome :=
  let checker := { Checker.builtin with validateDefaults := !skipDefaults }
  match checker.check p, format with
  | .ok checked, .pretty => .success (Report.programText checked)
  | .ok checked, .json => .success ((Report.program checked).render ++ "\n")
  | .error ds, .pretty => { code := 1, errors := Report.unlines (Report.findingLines file ds) }
  | .error ds, .json => { code := 1, output := (Report.findings ds).render ++ "\n" }

def answerParse (format : Format) (p : Program) : Outcome :=
  match format with
  | .pretty => .success (p.outline.listing ++ "\n")
  | .json => .success (p.outline.toJson.render ++ "\n")

/-- The answer to a command whose file has the given content. -/
def run (c : Command) (content : Except SourceFault ByteArray) : Outcome :=
  match content.bind sourceText with
  | .error fault => .failure (fault.message c.file)
  | .ok src =>
    match Program.parse src with
    | .error e => .failure e.message
    | .ok p =>
      match c.action with
      | .check skipDefaults => answerCheck c.file c.format skipDefaults p
      | .parse => answerParse c.format p

end Command

def usage : String := Report.unlines [
  "Usage: provision check [--format pretty|json] [--skip-defaults] FILE",
  "       provision parse [--format pretty|json] FILE"]

/-- The answer to a request, with `read` for the content of files. -/
def Request.answer {m : Type → Type} [Monad m] (read : String → m (Except SourceFault ByteArray)) :
    Request → m Outcome
  | .run command => do return command.run (← read command.file)
  | .help => return .success usage
  | .misuse => return { code := 2, errors := usage }

end Provision
