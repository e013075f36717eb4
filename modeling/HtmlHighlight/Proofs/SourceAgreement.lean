import HtmlHighlight.CommandLine.Run
import HtmlHighlight.Proofs.PageParts
import HtmlHighlight.Source.Workspace

/-!
# The same bytes in a file and on standard input

A command that reads a source does the same with the bytes of a file and with these bytes on standard input, whatever
fills in the template of a page (`CommandLine.Call.outcome_file_eq_outcome_stdin`):

* `Reading.arguments_append`: what an operand adds to the switches before it does not depend on the source that
  it names, so the two command lines ask for the same (`Call.parse_words`);
* `Call.outcome_of_read_ok`, `Call.outcome_of_read_error`: of a source only its text reaches what is written,
  and without a text nothing is;
* `Call.write_cases`: with a text only a page can fail, if its template cannot be filled in, and then nothing is written
  to standard output either;
* `exists_decodeUtf8_eq_ok`, `decodeUtf8_eq_error`: both sources hold a text for the same bytes.
-/

namespace HtmlHighlight

theorem exists_decodeUtf8_eq_ok {bytes : ByteArray} (h : bytes.IsValidUTF8) :
    ∃ content, decodeUtf8 bytes = .ok content := by
  refine ⟨(String.fromUTF8 bytes h).toList, ?_⟩
  rw [decodeUtf8, String.fromUTF8?, dif_pos h]

theorem decodeUtf8_eq_error {bytes : ByteArray} (h : ¬ bytes.IsValidUTF8) :
    decodeUtf8 bytes = .error .notUtf8 := by
  rw [decodeUtf8, String.fromUTF8?, dif_neg h]

namespace CommandLine

namespace Reading

/-- An argument that is read as an operand or a value: a dash begins it only if it is that dash alone. -/
def IsOperand (argument : Text) : Prop :=
  ∀ c rest, argument ≠ '-' :: c :: rest

theorem isOperand_of_head? {a : Text} (h : a.head? ≠ some '-') : IsOperand a := by
  rintro c rest rfl
  exact h rfl

theorem isOperand_dash : IsOperand ['-'] :=
  fun _ _ h => List.cons_ne_nil _ _ (List.cons_eq_cons.1 h).2.symm

theorem argument_of_isOperand {a : Text} (h : IsOperand a) (c? : Option Command) {r : Reading}
    (hr : r.operandsOnly = false) :
    r.argument c? a = match r.pending? with
      | some (s, none) => .ok { r with pending? := some (s, some a) }
      | _ => r.operand c? a := by
  rw [Reading.argument, if_neg (by simp [hr])]
  · rfl
  · exact h '-' []
  · exact fun body => h '-' body
  · exact h

/-- An operand after switches that can be settled is the operand of the command. -/
theorem arguments_append {c : Command} (hc : c.takesSource = true) {options : List Text} {r r' : Reading}
    (hoptions : options.foldlM (Reading.argument (some c)) {} = .ok r) (honly : r.operandsOnly = false)
    (hnone : r.operand? = none) (hsettle : r.settle = .ok r') (hpending : r'.pending? = none) {a : Text}
    (ha : IsOperand a) : arguments c (options ++ [a]) = .ok { r' with operand? := some a } := by
  have hoperand : r.argument (some c) a = .ok { r' with operand? := some a } := by
    rw [argument_of_isOperand ha (some c) honly]
    split
    next s hp =>
      -- a switch that waits for its value cannot be settled
      rw [settle, hp] at hsettle
      cases hsettle
    next => simp [Reading.operand, hc, hnone, hsettle, bind, Except.bind, pure, Except.pure]
  have hsettled : settle { r' with operand? := some a } = .ok { r' with operand? := some a } := by
    rw [settle]
    simp only [hpending]
  rw [arguments, List.foldlM_append, hoptions]
  simp [hoperand, hsettled, bind, Except.bind, pure, Except.pure]

/-- A value for the switch that names the title of a page. -/
theorem foldlM_title {title : Text} (h : IsOperand title) :
    ["--title".toList, title].foldlM (Reading.argument (some .page)) {} =
      .ok { pending? := some (.title, some title) } := by
  have hswitch : Reading.argument (some .page) {} "--title".toList = .ok { pending? := some (.title, none) } :=
    rfl
  rw [List.foldlM_cons, hswitch]
  simp [argument_of_isOperand h, bind, Except.bind, pure, Except.pure]

end Reading

theorem parseCommand_append {c : Command} (options : List Text) (hc : c.takesSource = true) {r r' : Reading}
    (hoptions : options.foldlM (Reading.argument (some c)) {} = .ok r) (honly : r.operandsOnly = false)
    (hnone : r.operand? = none) (hsettle : r.settle = .ok r') (hpending : r'.pending? = none) {a : Text}
    (ha : Reading.IsOperand a) (debug : Bool) :
    parseCommand debug c (options ++ [a]) =
      .ok ⟨debug || .debug ∈ r'.flags, Reading.task c { r' with operand? := some a }⟩ := by
  rw [parseCommand, Reading.arguments_append hc hoptions honly hnone hsettle hpending ha]

/-- A call of a command that reads a source, up to its operand. -/
inductive Call where
  | highlight (wrap : Bool)
  | preview (raw : Bool)
  | page (title : Text) (noSwitch : title.head? ≠ some '-')

namespace Call

/-- The arguments before the operand. -/
def words : Call → List Text
  | highlight false => ["highlight".toList]
  | highlight true => ["highlight".toList, "--wrap".toList]
  | preview false => ["show".toList]
  | preview true => ["show".toList, "-R".toList]
  | page title _ => ["page".toList, "--title".toList, title]

/-- What is asked for, given the source. -/
def task (source : Source) : Call → Task
  | highlight wrap => .highlight wrap source
  | preview raw => .preview raw source
  | page title _ => .page (some title) source

/-- Whether the call writes a page, whose template has to be filled in. -/
def writesPage : Call → Bool
  | page _ _ => true
  | _ => false

variable (call : Call) (engine : TemplateEngine)

/-- What comes of the text of a source. -/
def write (stdoutIsTerminal : Bool) : Text → Outcome :=
  match call with
  | highlight wrap => writeHighlighted wrap
  | preview raw => writePreview (raw || stdoutIsTerminal)
  | page title _ => writePage engine title

/-- What comes of the call with an operand. -/
def outcome (env : Environment) (operand : Text) : Outcome :=
  runWith engine env (call.words ++ [operand])

theorem run_task (env : Environment) (source : Source) :
    (call.task source).run engine env = withSource env source (call.write engine env.stdoutIsTerminal) := by
  cases call <;> rfl

theorem parse_words {a : Text} (ha : Reading.IsOperand a) :
    parse (call.words ++ [a]) = .ok ⟨false, call.task (Source.ofOperand a)⟩ := by
  cases call with
  | highlight wrap =>
    cases wrap with
    | false => exact parseCommand_append [] rfl rfl rfl rfl rfl rfl ha false
    | true =>
      have hwrap : ["--wrap".toList].foldlM (Reading.argument (some .highlight)) {} = .ok { flags := [.wrap] } :=
        rfl
      exact parseCommand_append _ rfl hwrap rfl rfl rfl rfl ha false
  | preview raw =>
    cases raw with
    | false => exact parseCommand_append [] rfl rfl rfl rfl rfl rfl ha false
    | true =>
      have hraw : ["-R".toList].foldlM (Reading.argument (some .preview)) {} =
          .ok { flags := [.rawControlChars] } := rfl
      exact parseCommand_append _ rfl hraw rfl rfl rfl rfl ha false
  | page title noSwitch =>
    have htitle := Reading.foldlM_title (Reading.isOperand_of_head? noSwitch)
    exact parseCommand_append _ rfl htitle rfl rfl rfl rfl ha false

theorem outcome_eq (env : Environment) {a : Text} (ha : Reading.IsOperand a) :
    call.outcome engine env a =
      (withSource env (Source.ofOperand a) (call.write engine env.stdoutIsTerminal)).quiet := by
  rw [outcome, runWith, parse_words call ha]
  show ((call.task (Source.ofOperand a)).run engine env).quiet = _
  rw [run_task]

variable {env : Environment} {a content : Text}

/-- With the text of its source a call does what it does with that text, and keeps no log of it. -/
theorem outcome_of_read_ok (ha : Reading.IsOperand a) (h : (Source.ofOperand a).read env = .ok content) :
    call.outcome engine env a = (call.write engine env.stdoutIsTerminal content).quiet := by
  rw [outcome_eq call engine env ha, withSource, h]
  rfl

/-- Without it, nothing is written but what is said about the source. -/
theorem outcome_of_read_error {f : ReadFailure} (ha : Reading.IsOperand a)
    (h : (Source.ofOperand a).read env = .error f) :
    call.outcome engine env a =
      { status := failureStatus, complaint := loadComplaint ((Source.ofOperand a).loadError f) } := by
  rw [outcome_eq call engine env ha, withSource, h]
  rfl

/-- A call with a text succeeds, or it is to write a page whose template cannot be filled in: then it says why and
writes nothing to standard output. -/
theorem write_cases (stdoutIsTerminal : Bool) (content : Text) :
    (call.write engine stdoutIsTerminal content).status = 0 ∨
      ∃ title e, call.writesPage = true ∧ (⟨title, highlightHtml content⟩ : Page).fillIn engine = .error e ∧
        call.write engine stdoutIsTerminal content =
          { status := failureStatus, log := highlightingLog .html content, complaint := asLine e.report } := by
  cases call with
  | highlight wrap => exact .inl rfl
  | preview raw =>
    rw [write, writePreview]
    split <;> exact .inl rfl
  | page title _ =>
    rw [write, writePage]
    cases hpage : (⟨title, highlightHtml content⟩ : Page).fillIn engine with
    | ok page => exact .inl rfl
    | error e => exact .inr ⟨title, e, rfl, hpage, rfl⟩

theorem status_write_eq_zero (hengine : call.writesPage = true → engine.SubstitutesOnce) (stdoutIsTerminal : Bool)
    (content : Text) : (call.write engine stdoutIsTerminal content).status = 0 := by
  rcases call.write_cases engine stdoutIsTerminal content with h | ⟨title, e, hpage, he, -⟩
  · exact h
  · rw [Page.fillIn_eq (hengine hpage)] at he
    cases he

/-- A call with the name of a file and one with a dash, and on standard input the bytes of the file, end with
the same status and write the same to standard output, which is of the same kind for both, whatever fills in the
template of a page. If the bytes are UTF-8 they succeed, a page if what fills in its template substitutes once;
otherwise they fail. A call that does not succeed writes nothing. -/
theorem outcome_file_eq_outcome_stdin {fileEnv stdinEnv : Environment} {name : Text} {bytes : ByteArray}
    (hname : name.head? ≠ some '-') (hfile : fileEnv.readFile name = .ok bytes)
    (hstdin : stdinEnv.stdin = bytes) (hterminal : fileEnv.stdoutIsTerminal = stdinEnv.stdoutIsTerminal) :
    (call.outcome engine fileEnv name).status = (call.outcome engine stdinEnv ['-']).status ∧
    (call.outcome engine fileEnv name).output = (call.outcome engine stdinEnv ['-']).output ∧
    (bytes.IsValidUTF8 → (call.writesPage = true → engine.SubstitutesOnce) →
      (call.outcome engine fileEnv name).status = 0 ∧ (call.outcome engine stdinEnv ['-']).status = 0) ∧
    (¬ bytes.IsValidUTF8 →
      ((call.outcome engine fileEnv name).status = 1 ∧ (call.outcome engine fileEnv name).output = []) ∧
      (call.outcome engine stdinEnv ['-']).status = 1 ∧ (call.outcome engine stdinEnv ['-']).output = []) ∧
    ((call.outcome engine fileEnv name).status = 0 ∨
      (call.outcome engine fileEnv name).status = 1 ∧ (call.outcome engine fileEnv name).output = []) := by
  have hoperand : Reading.IsOperand name := Reading.isOperand_of_head? hname
  have hreadFile : (Source.ofOperand name).read fileEnv = decodeUtf8 bytes := by
    have hne : name ≠ ['-'] := by
      rintro rfl
      exact hname rfl
    rw [Source.ofOperand, if_neg hne, Source.read, hfile]
    rfl
  have hreadStdin : (Source.ofOperand ['-']).read stdinEnv = decodeUtf8 bytes := by
    rw [Source.ofOperand, if_pos rfl, Source.read, hstdin]
  by_cases hvalid : bytes.IsValidUTF8
  · obtain ⟨content, hcontent⟩ := exists_decodeUtf8_eq_ok hvalid
    have hf := call.outcome_of_read_ok engine hoperand (hreadFile.trans hcontent)
    have hd := call.outcome_of_read_ok engine Reading.isOperand_dash (hreadStdin.trans hcontent)
    rw [← hterminal, ← hf] at hd
    refine ⟨by rw [hd], by rw [hd], fun _ hengine => ?_, fun hn => absurd hvalid hn, ?_⟩
    · have hstatus := call.status_write_eq_zero engine hengine fileEnv.stdoutIsTerminal content
      rw [hd, hf]
      exact ⟨hstatus, hstatus⟩
    · rw [hf]
      rcases call.write_cases engine fileEnv.stdoutIsTerminal content with hstatus | ⟨_, _, -, -, hfails⟩
      · exact .inl hstatus
      · rw [hfails]
        exact .inr ⟨rfl, rfl⟩
  · have herror := decodeUtf8_eq_error hvalid
    rw [call.outcome_of_read_error engine hoperand (hreadFile.trans herror),
      call.outcome_of_read_error engine Reading.isOperand_dash (hreadStdin.trans herror)]
    exact ⟨rfl, rfl, fun hv => absurd hv hvalid, fun _ => ⟨⟨rfl, rfl⟩, rfl, rfl⟩, .inr ⟨rfl, rfl⟩⟩

/-- A workspace with one file whose bytes stand on standard input, too. -/
def inBoth (bytes : ByteArray) : Environment :=
  (Workspace.ofNames [("a.html".toList, bytes)] []).environment bytes

/-- Pages for a tag, and for a byte that begins a character and ends none. -/
theorem outcome_file_eq_outcome_stdin_cutOff :
    "a.html".toList.head? ≠ some '-' ∧ TemplateEngine.scanning.SubstitutesOnce ∧
    (inBoth "<p>".toUTF8).readFile "a.html".toList = .ok "<p>".toUTF8 ∧
    (inBoth "<p>".toUTF8).stdin = "<p>".toUTF8 ∧ "<p>".toUTF8.IsValidUTF8 ∧
    ((page "a".toList (by decide)).outcome .scanning (inBoth "<p>".toUTF8) "a.html".toList).status = 0 ∧
    ((page "a".toList (by decide)).outcome .scanning (inBoth "<p>".toUTF8) ['-']).status = 0 ∧
    (inBoth ⟨#[0x3c, 0xc3]⟩).readFile "a.html".toList = .ok ⟨#[0x3c, 0xc3]⟩ ∧
    (inBoth ⟨#[0x3c, 0xc3]⟩).stdin = ⟨#[0x3c, 0xc3]⟩ ∧ ¬ (⟨#[0x3c, 0xc3]⟩ : ByteArray).IsValidUTF8 ∧
    ((page "a".toList (by decide)).outcome .scanning (inBoth ⟨#[0x3c, 0xc3]⟩) "a.html".toList).status = 1 ∧
    ((page "a".toList (by decide)).outcome .scanning (inBoth ⟨#[0x3c, 0xc3]⟩) "a.html".toList).output = [] ∧
    ((page "a".toList (by decide)).outcome .scanning (inBoth ⟨#[0x3c, 0xc3]⟩) ['-']).status = 1 ∧
    ((page "a".toList (by decide)).outcome .scanning (inBoth ⟨#[0x3c, 0xc3]⟩) ['-']).output = [] := by
  have hname : "a.html".toList.head? ≠ some '-' := by decide
  have hengine := TemplateEngine.substitutesOnce_scanning
  have hfile : (inBoth "<p>".toUTF8).readFile "a.html".toList = .ok "<p>".toUTF8 := rfl
  have hvalid : "<p>".toUTF8.IsValidUTF8 := String.isValidUTF8 _
  obtain ⟨-, -, hsucceeds, -⟩ :=
    outcome_file_eq_outcome_stdin (page "a".toList (by decide)) .scanning hname hfile rfl rfl
  obtain ⟨hs, hs'⟩ := hsucceeds hvalid fun _ => hengine
  have hcut : (inBoth ⟨#[0x3c, 0xc3]⟩).readFile "a.html".toList = .ok ⟨#[0x3c, 0xc3]⟩ := rfl
  have hinvalid : ¬ (⟨#[0x3c, 0xc3]⟩ : ByteArray).IsValidUTF8 := by decide
  obtain ⟨-, -, -, hfails, -⟩ :=
    outcome_file_eq_outcome_stdin (page "a".toList (by decide)) .scanning hname hcut rfl rfl
  obtain ⟨⟨ht, ho⟩, ht', ho'⟩ := hfails hinvalid
  exact ⟨hname, hengine, hfile, rfl, hvalid, hs, hs', hcut, rfl, hinvalid, ht, ho, ht', ho'⟩

end Call

end CommandLine

end HtmlHighlight
