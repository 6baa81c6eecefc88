import CelEdit.CommandLine.Run

/-!
# The program
-/

namespace CelEdit.CommandLine

/-- The number of an error of the system, which may come negated. -/
def errorNumber (code : UInt32) : Nat := min code.toNat (UInt32.size - code.toNat)

def readErrorOf : IO.Error → ReadError
  | .noFileOrDirectory .. => .notFound
  | .permissionDenied .. => .denied
  | .inappropriateType _ code details =>
    match errorNumber code with
    | 20 => .notDirectory
    | 21 => .isDirectory
    | _ => .other details
  | .invalidArgument _ code details =>
    if errorNumber code = 36 then .nameTooLong else .other details
  | e => .other (toString e)

def readFile (name : String) : IO (String × Except ReadError String) := do
  try
    let bytes ← IO.FS.readBinFile name
    match String.fromUTF8? bytes with
    | some text => pure (name, .ok text)
    | none => pure (name, .error .notText)
  catch e => pure (name, .error (readErrorOf e))

def usage : String :=
  "usage: celedit [--max-iterations N] unparse FILE | dump FILE |\n" ++
  "  replace FILE --target ID --with FILE | mangle FILE [--iter-prefix S] [--accu-prefix S]\n"

end CelEdit.CommandLine

open CelEdit.CommandLine in
def main (args : List String) : IO UInt32 := do
  let names := match Invocation.parse? args with
    | some invocation => invocation.command.files
    | none => []
  let texts ← names.mapM readFile
  let outcome := run ⟨⟨texts⟩, fun _ => "not a document"⟩ args
  if outcome.code = 2 then (← IO.getStderr).putStr usage
  (← IO.getStdout).putStr outcome.stdout
  (← IO.getStderr).putStr outcome.stderr
  pure (UInt32.ofNat outcome.code)
