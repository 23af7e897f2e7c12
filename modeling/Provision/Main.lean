import Provision.CommandLine

/-!
# The program

Reads the file that the arguments name, and prints the answer.
-/

namespace Provision

def sourceFault (e : IO.Error) : SourceFault :=
  match e with
  | .noFileOrDirectory _ _ _ => .missing
  | .inappropriateType _ _ _ => .isDirectory
  | other => .unreadable (toString other)

def readSource (file : String) : IO (Except SourceFault ByteArray) := do
  try return .ok (← IO.FS.readBinFile file)
  catch e => return .error (sourceFault e)

end Provision

def main (args : List String) : IO UInt32 := do
  let outcome ← (Provision.Request.ofArgs args).answer Provision.readSource
  IO.print outcome.output
  IO.eprint outcome.errors
  return outcome.code.toUInt32
