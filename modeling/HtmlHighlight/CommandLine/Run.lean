import HtmlHighlight.CommandLine.Help
import HtmlHighlight.CommandLine.Parse
import HtmlHighlight.Highlight
import HtmlHighlight.Log
import HtmlHighlight.Page.Template
import HtmlHighlight.Renderer.Terminal

/-!
# Running the program

A run of the program is a function of its surroundings, its arguments and what fills in the template of a page.
Its outcome holds what is written to standard output, the log and the complaint that follows the log on standard
error. A task that reads a source writes nothing to standard output unless the source could be read, and a page is
written only if its template could be filled in.
-/

namespace HtmlHighlight.CommandLine

/-- What comes of a run. -/
structure Outcome where
  status : UInt32 := 0
  output : Text := []
  log : List LogEntry := []
  /-- What is said on standard error after the log. -/
  complaint : Text := []

namespace Outcome

/-- What is written to standard error, each line of the log beginning with `time`. -/
def errorOutput (time : Text) (o : Outcome) : Text :=
  o.log.flatMap (LogEntry.line time) ++ o.complaint

/-- The outcome without its log. -/
def quiet (o : Outcome) : Outcome :=
  { o with log := [] }

/-- The outcome with other entries in front of its log. -/
def after (log : List LogEntry) (o : Outcome) : Outcome :=
  { o with log := log ++ o.log }

end Outcome

/-- The status of a run that could not read its source or fill in its template. -/
def failureStatus : UInt32 := 1

/-- The status of a run whose command line is wrong. -/
def usageStatus : UInt32 := 2

/-- A text with a line feed after it. -/
def asLine (s : Text) : Text :=
  s ++ ['\n']

/-- What the log says about reading a source, with what became of it. -/
def readingLog (source : Source) : Except ReadFailure Text → List LogEntry
  | .error f => [.reading source.operand, .failed f]
  | .ok content =>
    match source with
    | .stdin => [.reading source.operand]
    | .file name => [.reading source.operand, .loaded name content]

/-- What the log says about highlighting a source. -/
def highlightingLog (r : Renderer) (content : Text) : List LogEntry :=
  [.highlighting content, .tagsMarked (r.tagCount content)]

/-- What is said about a source that could not be read. -/
def loadComplaint (e : LoadError) : Text :=
  asLine e.report ++ asLine (Ansi.dim "Unable to continue.".toList)

/-- Reads a source and goes on with its text. -/
def withSource (env : Environment) (source : Source) (go : Text → Outcome) : Outcome :=
  let content := source.read env
  let log := readingLog source content
  match content with
  | .error f =>
    { status := failureStatus, log := log, complaint := loadComplaint (source.loadError f) }
  | .ok content => (go content).after log

/-- Writes highlighted source for web pages, in a block of its own if `wrap`. -/
def writeHighlighted (wrap : Bool) (content : Text) : Outcome :=
  let result := highlightHtml content
  { output := asLine (if wrap then codeBlock result else result), log := highlightingLog .html content }

/-- Writes a page with highlighted source, or says why its template cannot be filled in. -/
def writePage (engine : TemplateEngine) (title content : Text) : Outcome :=
  let log := highlightingLog .html content
  match (⟨title, highlightHtml content⟩ : Page).fillIn engine with
  | .ok page => { output := page, log := log ++ [.pageComplete page] }
  | .error e => { status := failureStatus, log := log, complaint := asLine e.report }

/-- Writes a preview of highlighted source, with control sequences if `coloured`. -/
def writePreview (coloured : Bool) (content : Text) : Outcome :=
  if coloured then
    { output := asLine (Renderer.terminal.highlight content), log := highlightingLog .terminal content }
  else
    { output := asLine (plainPreview content), log := .plainOutput :: highlightingLog .plain content }

/-- What is said if no command is given. -/
def hintText : Text :=
  "usage: tagtint [COMMAND] ...\nTry '--help' for more information.\n".toList

/-- Does what is asked for. -/
def Task.run (engine : TemplateEngine) (env : Environment) : Task → Outcome
  | hint => { output := hintText }
  | help c? => { output := Help.page c? }
  | version c? => { output := versionText c? }
  | highlight wrap source => withSource env source (writeHighlighted wrap)
  | page title? source => withSource env source (writePage engine (title?.getD source.defaultTitle))
  | preview raw source => withSource env source (writePreview (raw || env.stdoutIsTerminal))
  | stylesheet => { output := Stylesheet.text }

/-- Does what is asked for, keeping the log only if it is wanted. -/
def Invocation.run (engine : TemplateEngine) (env : Environment) (i : Invocation) : Outcome :=
  let o := i.task.run engine env
  if i.debug then o else o.quiet

/-- What is said about a wrong command line. -/
def usageComplaint (c? : Option Command) (e : UsageError) : Text :=
  asLine ("error: ".toList ++ e.message) ++ '\n' :: asLine (usage c?) ++
    "\nFor more information, try '--help'.\n".toList

/-- Runs the program, with the given engine for the template of a page. -/
def runWith (engine : TemplateEngine) (env : Environment) (args : List Text) : Outcome :=
  match parse args with
  | .ok i => i.run engine env
  | .error (c?, e) => { status := usageStatus, complaint := usageComplaint c? e }

/-- Runs the program with the engine that reads a template from left to right. -/
def run (env : Environment) (args : List Text) : Outcome :=
  runWith .scanning env args

end HtmlHighlight.CommandLine
