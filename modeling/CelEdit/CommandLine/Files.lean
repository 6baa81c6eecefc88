/-!
# Files

The files that a run may read, as a table that is filled before the run. Where the text of a file
could not be had, the table has the reason.
-/

namespace CelEdit.CommandLine

/-- Why a path cannot be read. -/
inductive ReadError where
  | notFound
  | denied
  | notDirectory
  | isDirectory
  | nameTooLong
  | notText
  | other (reason : String)
deriving DecidableEq

def ReadError.message : ReadError → String
  | .notFound => "No such file or directory (os error 2)"
  | .denied => "Permission denied (os error 13)"
  | .notDirectory => "Not a directory (os error 20)"
  | .isDirectory => "Is a directory (os error 21)"
  | .nameTooLong => "File name too long (os error 36)"
  | .notText => "stream did not contain valid UTF-8"
  | .other reason => reason

/-- What reading each of the named files gave. -/
structure Files where
  table : List (String × Except ReadError String)

def Files.read (files : Files) (name : String) : Except ReadError String :=
  (files.table.lookup name).getD (.error .notFound)

end CelEdit.CommandLine
