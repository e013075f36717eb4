import HtmlHighlight.CommandLine.Grammar

/-!
# Help pages

A help page says what a command does and how it is called, and explains its operand and its switches in
two columns. Explanations are filled to the width of a page, each line of one beginning below the first.
-/

namespace HtmlHighlight.CommandLine.Help

/-- The width of a page. -/
def pageWidth : Nat := 100

/-- Puts words on lines of at most `width` characters, the first of them after `line`. A word that is
longer than that has a line of its own. -/
def fill (width : Nat) (line : Text) : List Text → List Text
  | [] => [line]
  | word :: words =>
    if line.length + 1 + word.length ≤ width then fill width (line ++ ' ' :: word) words
    else line :: fill width word words

/-- The lines of a text filled to `width`. -/
def filled (width : Nat) (s : Text) : List Text :=
  match s.splitOn ' ' with
  | [] => []
  | word :: words => fill width word words

/-- A heading and the rows below it, each an entry with its explanation. -/
structure Section where
  heading : String
  rows : List (Text × Text)

namespace Section

/-- The width of the entries. -/
def entryWidth (sec : Section) : Nat :=
  sec.rows.foldl (fun width row => max width row.1.length) 0

/-- A row, its explanation beside the entry. -/
def rowText (entryWidth : Nat) (row : Text × Text) : Text :=
  let margin := List.replicate (entryWidth + 4) ' '
  let lines := filled (pageWidth - margin.length) row.2
  "  ".toList ++ row.1 ++ List.replicate (entryWidth - row.1.length) ' ' ++ "  ".toList ++
    ('\n' :: margin).intercalate lines ++ ['\n']

/-- A section with its heading. -/
def toText (sec : Section) : Text :=
  sec.heading.toList ++ ":\n".toList ++ sec.rows.flatMap (rowText sec.entryWidth)

end Section

/-- A switch as an entry. A switch without a letter leaves the place of the letter free. -/
def switchEntry (s : Switch) : Text :=
  let letter := match s.letter? with
    | some c => ['-', c, ',', ' ']
    | none => [' ', ' ', ' ', ' ']
  letter ++ s.display

/-- The commands of the program. -/
def commandSection : Section :=
  ⟨"Commands", Command.all.map fun c => (c.name.toList, c.purpose.toList)⟩

/-- The switches of a command, or of the program itself. -/
def switchSection (c? : Option Command) : Section :=
  ⟨"Options", (switches c?).map fun s => (switchEntry s, s.purpose.toList)⟩

/-- The sections on what can follow the name of a command, or of the program itself. -/
def operandSections : Option Command → List Section
  | none => [commandSection]
  | some c => c.sourcePurpose?.toList.map fun purpose =>
    ⟨"Arguments", [(operandName.toList, purpose.toList)]⟩

/-- What a command, or the program itself, does. -/
def purpose : Option Command → String
  | none => "Colourize HTML source for display."
  | some c => c.purpose

/-- The help page of a command, or of the program itself. -/
def page (c? : Option Command) : Text :=
  let remark := match c?.bind Command.remark? with
    | none => []
    | some remark => [remark.toList ++ ['\n']]
  ['\n'].intercalate ([(purpose c?).toList ++ ['\n'], usage c? ++ ['\n']] ++
    (operandSections c? ++ [switchSection c?]).map Section.toText ++ remark)

end HtmlHighlight.CommandLine.Help
