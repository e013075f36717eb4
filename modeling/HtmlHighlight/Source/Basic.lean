import HtmlHighlight.Source.Failure

/-!
# Sources

A source is a file or standard input. Reading one takes the bytes that the surroundings have for it and
decodes them as UTF-8; bytes that are no UTF-8 are a failure like any other.
-/

namespace HtmlHighlight

/-- What a run can see of the world around it. -/
structure Environment where
  /-- The bytes of the file of the given name. -/
  readFile : Text → Except ReadFailure ByteArray
  /-- The bytes on standard input. -/
  stdin : ByteArray
  /-- Whether standard output is a terminal. -/
  stdoutIsTerminal : Bool := false

/-- The text that bytes stand for in UTF-8. -/
def decodeUtf8 (bytes : ByteArray) : Except ReadFailure Text :=
  match String.fromUTF8? bytes with
  | some s => .ok s.toList
  | none => .error .notUtf8

/-- Where HTML source is read from. -/
inductive Source where
  | stdin
  | file (name : Text)
  deriving DecidableEq, Repr

namespace Source

/-- The source that an operand of the command line names. -/
def ofOperand (operand : Text) : Source :=
  if operand = ['-'] then stdin else file operand

/-- The operand that names a source. -/
def operand : Source → Text
  | stdin => ['-']
  | file name => name

@[simp] theorem operand_ofOperand (operand : Text) : (ofOperand operand).operand = operand := by
  unfold ofOperand
  split <;> simp_all [Source.operand]

/-- The title of a page for which none is given. -/
def defaultTitle : Source → Text
  | stdin => "stdin".toList
  | file name => name

/-- The text of a source. -/
def read (env : Environment) : Source → Except ReadFailure Text
  | stdin => decodeUtf8 env.stdin
  | file name => env.readFile name >>= decodeUtf8

/-- The error to report if a source could not be read. -/
def loadError : Source → ReadFailure → LoadError
  | stdin => .ofStdin
  | file name => .ofFile name

/-- The text of a source, or the error to report. -/
def load (env : Environment) (source : Source) : Except LoadError Text :=
  (source.read env).mapError source.loadError

end Source

end HtmlHighlight
