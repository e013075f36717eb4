import HtmlHighlight.Source.Failure

/-!
# The debug log

Each entry names the part of the program that it comes from and says what was done. Its line begins with
the time at which it is written, and characters that could steer a terminal are spelled out in it.
-/

namespace HtmlHighlight

/-- An entry of the debug log. -/
structure LogEntry where
  origin : String
  message : Text
  deriving DecidableEq, Repr

namespace LogEntry

/-- How a character of a message is written. -/
def messageChar (c : Char) : Text :=
  if c = '\x1b' then "\\x1b".toList
  else if c = '\x07' then "\\x07".toList
  else if c = '\x08' then "\\x08".toList
  else if c = '\x0c' then "\\x0c".toList
  else if c = '\x7f' then "\\x7f".toList
  else if 0x80 ≤ c.toNat ∧ c.toNat ≤ 0x9f then
    "\\u\x7b".toList ++ Nat.toDigits 16 c.toNat ++ "\x7d".toList
  else [c]

/-- An entry whose message is plain text. -/
def note (origin : String) (message : Text) : LogEntry :=
  ⟨origin, message.flatMap messageChar⟩

/-- A number of things, `noun` being the word for one of them. -/
def counted (n : Nat) (noun : String) : Text :=
  Text.ofNat n ++ ' ' :: noun.toList ++ if n = 1 then [] else ['s']

/-! ## The entries of a run -/

/-- Reading begins. -/
def reading (operand : Text) : LogEntry :=
  note "tagtint" ("Reading ".toList ++ operand)

/-- A file has been read. -/
def loaded (filename content : Text) : LogEntry :=
  note "tagtint::loading"
    ("Loaded ".toList ++ Text.ofNat content.byteSize ++ " bytes from ".toList ++ filename)

/-- Reading has failed. -/
def failed (f : ReadFailure) : LogEntry :=
  ⟨"tagtint::loading", Ansi.italic "error".toList ++ Ansi.dim "=".toList ++ f.toRecord⟩

/-- Highlighting begins. -/
def highlighting (source : Text) : LogEntry :=
  note "tagtint::highlighting"
    ("Highlighting ".toList ++ Text.ofNat source.byteSize ++ " bytes".toList)

/-- Tags have been marked. -/
def tagsMarked (count : Nat) : LogEntry :=
  note "tagtint::highlighting::tags" ("Coloured ".toList ++ counted count "tag")

/-- A page is complete. -/
def pageComplete (page : Text) : LogEntry :=
  note "tagtint::output" ("Rendered page of ".toList ++ Text.ofNat page.byteSize ++ " bytes".toList)

/-- A preview is written without control sequences. -/
def plainOutput : LogEntry :=
  note "tagtint" "Output is not a terminal; writing plain text".toList

/-- The line for an entry written at `time`. -/
def line (time : Text) (e : LogEntry) : Text :=
  Ansi.dim time ++ ' ' :: Ansi.blue "DEBUG".toList ++ ' ' :: Ansi.dim e.origin.toList ++
    Ansi.dim ":".toList ++ ' ' :: e.message ++ ['\n']

end LogEntry

end HtmlHighlight
