import CelEdit.CommandLine.Arguments
import CelEdit.CommandLine.Files
import CelEdit.Document.Reader
import CelEdit.Document.Writer
import CelEdit.Edit.Mangle
import CelEdit.Edit.Replace
import CelEdit.Expr.Dump

/-!
# Running commands

A command reads its files, does its work and prints one text. What goes wrong after the arguments
have been understood is reported on one line.
-/

namespace CelEdit.CommandLine

/-- What a finished run leaves: the exit code and the two output texts. -/
structure Outcome where
  code : Nat
  stdout : String
  stderr : String
deriving DecidableEq

/-- Why a command fails. -/
inductive CommandError where
  | unreadable (file : String) (e : ReadError)
  | invalidDocument (reason : String)
  | edit (e : EditError)
  | unparse (e : UnparseError)
deriving DecidableEq

def CommandError.message : CommandError → String
  | .unreadable file e => file ++ ": " ++ e.message
  | .invalidDocument reason => "invalid AST JSON: " ++ reason
  | .edit e => e.message
  | .unparse e => e.message

/-- The line that a failure prints. -/
def CommandError.report (e : CommandError) : String := "error: " ++ e.message ++ "\n"

/-- What a run finds outside: the files, and the words in which a text is refused that is not a
document. -/
structure Surroundings where
  files : Files
  refusal : String → String

def readDocument (outside : Surroundings) (file : String) : Except CommandError Ast :=
  match outside.files.read file with
  | .error e => .error (.unreadable file e)
  | .ok text =>
    match Ast.parse? text with
    | some ast => .ok ast
    | none => .error (.invalidDocument (outside.refusal text))

/-- The pretty document of an edited workspace. -/
def printWorkspace (w : Workspace) : String := String.ofList w.freeze.toJson.pretty

def Command.run (outside : Surroundings) (budget : Nat) : Command → Except CommandError String
  | .unparse file => do
    let ast ← readDocument outside file
    (Workspace.ofAst ast).unparse.mapError .unparse
  | .dump file => do
    let ast ← readDocument outside file
    pure ast.expr.dump
  | .replace file target donor => do
    let host ← readDocument outside file
    let donor ← readDocument outside donor
    let result ← (Workspace.replaceBy budget (.ofAst host) (.ofAst donor) target).mapError
      .edit
    pure (printWorkspace result)
  | .mangle file iterPrefix accuPrefix => do
    let ast ← readDocument outside file
    let (result, _) ← ((Workspace.ofAst ast).mangle budget iterPrefix accuPrefix).mapError .edit
    pure (printWorkspace result)

/-- Runs the program. Arguments that cannot be understood end it with code two. -/
def run (outside : Surroundings) (args : List String) : Outcome :=
  match Invocation.parse? args with
  | none => ⟨2, "", ""⟩
  | some invocation =>
    match invocation.command.run outside invocation.maxIterations with
    | .ok text => ⟨0, text ++ "\n", ""⟩
    | .error e => ⟨1, "", e.report⟩

end CelEdit.CommandLine
