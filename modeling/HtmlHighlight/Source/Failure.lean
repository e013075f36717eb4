import HtmlHighlight.Report

/-!
# Failures

Why a source could not be read, and how that is told: `LoadError.message` in words, `LoadError.report` as
the line that a user sees and `ReadFailure.toRecord` as the log has it.
-/

namespace HtmlHighlight

/-- Why a file or standard input could not be read as text. -/
inductive ReadFailure where
  | notFound
  | permissionDenied
  | notDirectory
  | isDirectory
  | nameTooLong
  | nulInName
  | notUtf8
  /-- Any other failure, by the number and the words the system has for it. -/
  | other (code : Nat) (reason : String)
  deriving DecidableEq, Repr

namespace ReadFailure

/-- The sort of failure in words. -/
def description : ReadFailure → String
  | notFound => "entity not found"
  | permissionDenied => "permission denied"
  | notDirectory => "not a directory"
  | isDirectory => "is a directory"
  | nameTooLong => "invalid filename"
  | nulInName => "invalid input parameter"
  | notUtf8 => "invalid data"
  | other _ _ => "uncategorized error"

/-- The sort of failure as one word. -/
def label : ReadFailure → String
  | notFound => "NotFound"
  | permissionDenied => "PermissionDenied"
  | notDirectory => "NotADirectory"
  | isDirectory => "IsADirectory"
  | nameTooLong => "InvalidFilename"
  | nulInName => "InvalidInput"
  | notUtf8 => "InvalidData"
  | other _ _ => "Uncategorized"

/-- The number of a failure that the system reported. -/
def code? : ReadFailure → Option Nat
  | notFound => some 2
  | permissionDenied => some 13
  | notDirectory => some 20
  | isDirectory => some 21
  | nameTooLong => some 36
  | nulInName => none
  | notUtf8 => none
  | other code _ => some code

/-- What went wrong, in full. -/
def reason : ReadFailure → String
  | notFound => "No such file or directory"
  | permissionDenied => "Permission denied"
  | notDirectory => "Not a directory"
  | isDirectory => "Is a directory"
  | nameTooLong => "File name too long"
  | nulInName => "file name contained an unexpected NUL byte"
  | notUtf8 => "stream did not contain valid UTF-8"
  | other _ reason => reason

/-- A failure with all that is known of it, as the log shows it. -/
def toRecord (f : ReadFailure) : Text :=
  let shared := "kind: ".toList ++ f.label.toList ++ ", message: \"".toList ++ f.reason.toList ++
    "\" \x7d".toList
  match f.code? with
  | some code => "Os \x7b code: ".toList ++ Text.ofNat code ++ ", ".toList ++ shared
  | none => "Error \x7b ".toList ++ shared

end ReadFailure

/-- A failure to load a source, in words. -/
structure LoadError where
  problem : Text
  details : Text
  filename : Text
  deriving DecidableEq, Repr

namespace LoadError

/-- The error for a file that could not be read. -/
def ofFile (filename : Text) : ReadFailure → LoadError
  | .notFound => ⟨"File not found".toList, [], filename⟩
  | f => ⟨"Failed reading".toList, f.description.toList, filename⟩

/-- The error for standard input that could not be read. -/
def ofStdin (f : ReadFailure) : LoadError :=
  ⟨"Failed reading standard input".toList, f.description.toList, ['-']⟩

/-- The problem, with its details if there are any. -/
def message (e : LoadError) : Text :=
  if e.details = [] then e.problem else e.problem ++ ": ".toList ++ e.details

/-- The line that reports the error. -/
def report (e : LoadError) : Text :=
  reportLine (some e.filename) e.message

end LoadError

end HtmlHighlight
