import HtmlHighlight.Text.Basic

/-!
# The grammar of the command line

The commands of the program, the switches that each one takes and the words that explain them. A command
that reads a source takes its name as its only operand. Every switch but `--title` stands for itself.
-/

namespace HtmlHighlight.CommandLine

/-- The name of the program. -/
def programName : String := "tagtint"

/-- The version of the program. -/
def version : String := "v0.1.0"

/-- What can be switched on, or given as a named value. -/
inductive Switch where
  | debug
  | wrap
  | title
  | rawControlChars
  | help
  | version
  deriving DecidableEq, Repr

namespace Switch

/-- The long name of a switch, without its dashes. -/
def name : Switch → String
  | debug => "debug"
  | wrap => "wrap"
  | title => "title"
  | rawControlChars => "raw-control-chars"
  | help => "help"
  | version => "version"

/-- The one-letter name of a switch. -/
def letter? : Switch → Option Char
  | rawControlChars => some 'R'
  | help => some 'h'
  | version => some 'V'
  | _ => none

/-- Whether a value follows the switch. -/
def takesValue : Switch → Bool
  | title => true
  | _ => false

/-- A switch as messages and help show it. -/
def display (s : Switch) : Text :=
  "--".toList ++ s.name.toList ++ if s.takesValue then " <".toList ++ s.name.toList ++ ['>'] else []

/-- What a switch does. -/
def purpose : Switch → String
  | debug => "Log what each pass is doing to standard error."
  | wrap => "Wrap the result in <pre><code> for direct inclusion in a page."
  | title => "Title for the page. Defaults to the filename."
  | rawControlChars =>
    "Emit ANSI escape codes for syntax highlighting even if output is redirected to a pipe or file."
  | help => "Print help"
  | version => "Print version"

end Switch

/-- The commands of the program. -/
inductive Command where
  | highlight
  | page
  | preview
  | stylesheet
  deriving DecidableEq, Repr

namespace Command

/-- All commands, in the order in which help shows them. -/
def all : List Command :=
  [highlight, page, preview, stylesheet]

/-- The word that calls a command. -/
def name : Command → String
  | highlight => "highlight"
  | page => "page"
  | preview => "show"
  | stylesheet => "stylesheet"

/-- The command that a word calls. -/
def ofName? (word : Text) : Option Command :=
  all.find? fun c => c.name.toList == word

/-- What a command does. -/
def purpose : Command → String
  | highlight => "Annotate HTML source with <span> markers for each token"
  | page => "Produce a standalone HTML page showing the colourized source"
  | preview => "Preview the colourized source in the terminal"
  | stylesheet => "Print the default CSS for the highlight classes"

/-- What the source that a command reads is for. -/
def sourcePurpose? : Command → Option String
  | highlight =>
    some "The file containing the HTML you want to colourize, or '-' for standard input."
  | page => some "The file containing the HTML you want to show, or '-' for standard input."
  | preview => some "The file containing the HTML you want to preview, or '-' for standard input."
  | stylesheet => none

/-- Whether a command reads a source. -/
def takesSource (c : Command) : Bool :=
  c.sourcePurpose?.isSome

/-- The switches that only this command has. -/
def ownSwitches : Command → List Switch
  | highlight => [.wrap]
  | page => [.title]
  | preview => [.rawControlChars]
  | stylesheet => []

/-- What help says at its end. -/
def remark? : Command → Option String
  | preview => some "Entities &lt; and &gt; already present in the source are shown as < and >."
  | _ => none

end Command

/-- The switches of a command, or of the program itself, in the order in which help shows them. -/
def switches (c? : Option Command) : List Switch :=
  .debug :: (c?.map Command.ownSwitches).getD [] ++ [.help, .version]

/-- How a source is shown as an operand. -/
def operandName : String := "<filename>"

/-- The name of the program, or of one of its commands, as help and messages show it. -/
def callName (separator : Char) (c? : Option Command) : Text :=
  programName.toList ++ match c? with
    | none => []
    | some c => separator :: c.name.toList

/-- How a command, or the program itself, is called. -/
def usage (c? : Option Command) : Text :=
  "Usage: ".toList ++ callName ' ' c? ++ " [OPTIONS]".toList ++ match c? with
    | none => " [COMMAND]".toList
    | some c => if c.takesSource then ' ' :: operandName.toList else []

/-- The text that names the version. -/
def versionText (c? : Option Command) : Text :=
  callName '-' c? ++ ' ' :: version.toList ++ ['\n']

end HtmlHighlight.CommandLine
