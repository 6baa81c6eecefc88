import CelEdit.Decimal.Numeral
import CelEdit.NodeId

/-!
# Command line arguments

A command is a name, its options and one file. Options stand anywhere after the command, as
`--name value` or `--name=value`; a value that follows its name does not start with a dash, unless it
is the dash alone. After `--` only files follow. The limit on iterations may also stand before the
command, and the one after it wins.
-/

namespace CelEdit.CommandLine

inductive Command where
  | unparse (file : String)
  | dump (file : String)
  | replace (file : String) (target : NodeId) (donor : String)
  | mangle (file : String) (iterPrefix accuPrefix : String)
deriving DecidableEq

/-- The files that a command reads, in order. -/
def Command.files : Command → List String
  | .unparse file => [file]
  | .dump file => [file]
  | .replace file _ donor => [file, donor]
  | .mangle file _ _ => [file]

structure Invocation where
  maxIterations : Nat
  command : Command
deriving DecidableEq

def defaultBudget : Nat := 1000

/-- The arguments of a command, sorted into options and files. -/
structure Parsed where
  options : List (String × String)
  files : List String
  rest : List String

/-- Whether an argument is the name of an option. -/
def startsOption (arg : String) : Bool :=
  match arg.toList with
  | '-' :: _ :: _ => true
  | _ => false

/-- The name and, after an equals sign, the value of a long option. -/
def longOption? (arg : String) : Option (String × Option String) :=
  match arg.toList with
  | '-' :: '-' :: cs =>
    let name := String.ofList (cs.takeWhile (· ≠ '='))
    match cs.dropWhile (· ≠ '=') with
    | [] => some (name, none)
    | _ :: value => some (name, some (String.ofList value))
  | _ => none

/-- Sorts arguments. Only the named options are known, each at most once; without room for files
the first argument that is not an option ends the sorting. -/
def sortArguments (known : List String) (takesFiles : Bool) :
    (options : List (String × String)) → (files : List String) → List String → Option Parsed
  | options, files, [] => some ⟨options, files, []⟩
  | options, files, "--" :: args =>
    if takesFiles then some ⟨options, files ++ args, []⟩
    else if args.isEmpty then some ⟨options, files, []⟩ else none
  | options, files, arg :: args =>
    if startsOption arg then
      match longOption? arg with
      | none => none
      | some (name, given) =>
        if name ∈ known ∧ (options.lookup name).isNone then
          match given, args with
          | some value, args => sortArguments known takesFiles (options ++ [(name, value)]) files args
          | none, value :: args =>
            if startsOption value then none
            else sortArguments known takesFiles (options ++ [(name, value)]) files args
          | none, [] => none
        else none
    else if takesFiles then sortArguments known takesFiles options (files ++ [arg]) args
    else some ⟨options, files, arg :: args⟩

/-- A decimal number below the limit; one plus sign may lead. -/
def parseNumber (limit : Nat) (text : String) : Option Nat :=
  let digits := match text.toList with
    | '+' :: cs => cs
    | cs => cs
  if digits ≠ [] ∧ digits.all Char.isDigit then
    if digitsValue digits < limit then some (digitsValue digits) else none
  else none

/-- A file name is not empty. -/
def parseFile (name : String) : Option String := if name.isEmpty then none else some name

def singleFile : List String → Option String
  | [name] => parseFile name
  | _ => none

/-- The number of iterations that the options ask for. -/
def limitOption (options : List (String × String)) (default : Nat) : Option Nat :=
  match options.lookup "max-iterations" with
  | some text => parseNumber UInt64.size text
  | none => some default

/-- Reads what follows the name of a command. -/
def parseCommand (known : List String) (args : List String) (default : Nat)
    (build : List (String × String) → String → Option Command) : Option Invocation := do
  let parsed ← sortArguments ("max-iterations" :: known) true [] [] args
  let file ← singleFile parsed.files
  let limit ← limitOption parsed.options default
  let command ← build parsed.options file
  pure ⟨limit, command⟩

def parseNamed (default : Nat) : (name : String) → (args : List String) → Option Invocation
  | "unparse", args => parseCommand [] args default fun _ file => some (.unparse file)
  | "dump", args => parseCommand [] args default fun _ file => some (.dump file)
  | "replace", args => parseCommand ["target", "with"] args default fun options file => do
    let target ← (options.lookup "target").bind (parseNumber UInt64.size)
    let donor ← (options.lookup "with").bind parseFile
    pure (.replace file ⟨UInt64.ofNat target⟩ donor)
  | "mangle", args => parseCommand ["iter-prefix", "accu-prefix"] args default fun options file =>
    some (.mangle file ((options.lookup "iter-prefix").getD "@it")
      ((options.lookup "accu-prefix").getD "@ac"))
  | _, _ => none

/-- Reads all arguments; none means that they cannot be understood. -/
def Invocation.parse? (args : List String) : Option Invocation := do
  let parsed ← sortArguments ["max-iterations"] false [] [] args
  let limit ← limitOption parsed.options defaultBudget
  match parsed.rest with
  | name :: args => parseNamed limit name args
  | [] => none

end CelEdit.CommandLine
