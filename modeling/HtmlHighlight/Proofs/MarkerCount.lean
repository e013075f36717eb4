import HtmlHighlight.Proofs.SourceAgreement
import HtmlHighlight.Proofs.TagSequence

/-!
# The number of marked tags

The number of tags in the debug log is the number of markers around names of tags in the output, whatever the source
spells out itself and however earlier markers are cut.

* `Text.occurrences_append_cons`, `Text.occurrences_append_concat`: a mark cannot be read across a character that it
  holds at its beginning only, or at its end only. The marker before a name begins and ends with a bracket, so its
  occurrences may be counted on the two sides of every bracket of another marker.
* `Renderer.nameMarkers_render_le`, `Renderer.countNames_le_nameMarkers_render`: writing the tokens of a text makes one
  such marker for each name, and no other.
* `CommandLine.debugHighlight_eq`: keeping a log changes nothing else about a run.
-/

namespace HtmlHighlight

namespace Text

/-! ## Counting on two sides of a cut -/

theorem occurrences_cons (mark : Text) (c : Char) (s : Text) :
    occurrences mark (c :: s) = (if mark <+: c :: s then 1 else 0) + occurrences mark s := rfl

theorem occurrences_append_cons {c d : Char} (mark : Text) (h : c ∉ mark) (a b : Text) :
    occurrences (d :: mark) (a ++ c :: b) = occurrences (d :: mark) a + occurrences (d :: mark) (c :: b) := by
  induction a with
  | nil => simp [occurrences]
  | cons x a ih =>
    have hiff : d :: mark <+: x :: (a ++ c :: b) ↔ d :: mark <+: x :: a := by
      rw [List.cons_prefix_cons, List.cons_prefix_cons]
      refine and_congr_right fun _ => ⟨prefix_of_prefix_append_cons h, fun hp => ?_⟩
      exact hp.trans (List.prefix_append a _)
    rw [List.cons_append, occurrences_cons, occurrences_cons _ x, ih]
    simp only [hiff, Nat.add_assoc]

theorem occurrences_append_concat {c : Char} (mark : Text) (h : c ∉ mark) (a b : Text) :
    occurrences (mark ++ [c]) (a ++ [c] ++ b) =
      occurrences (mark ++ [c]) (a ++ [c]) + occurrences (mark ++ [c]) b := by
  -- at each place before the cut the mark is read up to the cut at most
  have hiff : ∀ a : Text, mark ++ [c] <+: a ++ [c] ++ b ↔ mark ++ [c] <+: a ++ [c] := by
    intro a
    refine ⟨fun hp => ?_, fun hp => hp.trans (List.prefix_append _ b)⟩
    obtain ⟨rest, hr⟩ := hp
    simp only [List.append_assoc, List.singleton_append] at hr
    obtain ⟨a', rfl, ha⟩ := exists_of_append_eq_append_cons h hr
    rw [List.append_assoc, List.prefix_append_right_inj]
    cases a' with
    | nil => exact List.prefix_refl _
    | cons d a' =>
      obtain ⟨rfl, -⟩ := List.cons_eq_cons.1 ha
      exact List.prefix_append [c] _
  induction a with
  | nil =>
    have hnil := hiff []
    simp only [List.nil_append, List.singleton_append] at hnil ⊢
    rw [occurrences_cons, occurrences_cons _ c []]
    simp only [hnil, occurrences, Nat.add_zero]
  | cons x a ih =>
    have hx := hiff (x :: a)
    simp only [List.cons_append] at hx ih ⊢
    rw [occurrences_cons, occurrences_cons _ x (a ++ [c]), ih]
    simp only [hx, Nat.add_assoc]

theorem occurrences_add_le (mark a b : Text) :
    occurrences mark a + occurrences mark b ≤ occurrences mark (a ++ b) := by
  induction a with
  | nil => simp [occurrences]
  | cons x a ih =>
    have hp : mark <+: x :: a → mark <+: x :: (a ++ b) := fun hp => hp.trans (List.prefix_append (x :: a) b)
    have hle : (if mark <+: x :: a then 1 else 0) ≤ if mark <+: x :: (a ++ b) then 1 else 0 := by
      split
      next h => rw [if_pos (hp h)]
      next => exact Nat.zero_le _
    rw [List.cons_append, occurrences_cons, occurrences_cons _ x (a ++ b)]
    omega

end Text

namespace Token

/-- The number of tokens that are names of tags. -/
def countNames (ts : List Token) : Nat :=
  (stylings [.tagName] ts).length

theorem countNames_plain (s : Text) (ts : List Token) : countNames (.plain s :: ts) = countNames ts := rfl

theorem countNames_styled (k : Kind) (s : Text) (ts : List Token) :
    countNames (.styled k s :: ts) = (if k = .tagName then 1 else 0) + countNames ts := by
  cases k <;> simp [countNames, stylings, styling?, Nat.add_comm]

theorem countNames_append (ts us : List Token) : countNames (ts ++ us) = countNames ts + countNames us := by
  rw [countNames, stylings_append, List.length_append]
  rfl

/-- Where each match has the same number of names, so many are in a text for each match. -/
theorem countNames_tokenize {α : Type} {p : Pattern α} {tokens : α → List Token} {n : Nat}
    (h : ∀ m, countNames (tokens m) = n) (s : Text) : countNames (p.tokenize tokens s) = (p.hits s).length * n := by
  have hm : ∀ m, (stylings [.tagName] (tokens m)).length = n := h
  rw [countNames, stylings_tokenize, List.length_flatMap]
  simp [hm]

end Token

namespace Renderer

open Token (countNames)

/-! ## Markers before names -/

/-- The number of markers before names of tags in a text. -/
def nameMarkers (s : Text) : Nat :=
  Text.occurrences (spanStart .tagName) s

theorem spanStart_tagName_eq_cons : spanStart .tagName = '<' :: "span class=\"highlight-tag-name\">".toList := rfl

theorem spanStart_tagName_eq_concat :
    spanStart .tagName = "<span class=\"highlight-tag-name\"".toList ++ ['>'] := rfl

theorem nameMarkers_append_lt (a b : Text) : nameMarkers (a ++ '<' :: b) = nameMarkers a + nameMarkers ('<' :: b) := by
  simp only [nameMarkers, spanStart_tagName_eq_cons]
  exact Text.occurrences_append_cons _ (by decide) a b

theorem nameMarkers_append_gt (a b : Text) :
    nameMarkers (a ++ ['>'] ++ b) = nameMarkers (a ++ ['>']) + nameMarkers b := by
  simp only [nameMarkers, spanStart_tagName_eq_concat]
  exact Text.occurrences_append_concat _ (by decide) a b

theorem nameMarkers_eq_zero {s : Text} (h : '<' ∉ s) : nameMarkers s = 0 := by
  rw [nameMarkers, spanStart_tagName_eq_cons]
  exact Text.occurrences_eq_zero h _

theorem nameMarkers_add_le (a b : Text) : nameMarkers a + nameMarkers b ≤ nameMarkers (a ++ b) :=
  Text.occurrences_add_le _ a b

theorem nameMarkers_spanStart_append (k : Kind) (s : Text) :
    nameMarkers (spanStart k ++ s) = (if k = .tagName then 1 else 0) + nameMarkers s := by
  have hend : spanStart k = "<span class=\"".toList ++ k.cssClass.toList ++ ['"'] ++ ['>'] := by
    cases k <;> rfl
  have hk : nameMarkers (spanStart k) = if k = .tagName then 1 else 0 := by
    cases k <;> decide
  rw [← hk, hend, nameMarkers_append_gt]

theorem nameMarkers_spanEnd_append (s : Text) : nameMarkers (spanEnd ++ s) = nameMarkers s := by
  have hend : nameMarkers spanEnd = 0 := by decide
  have hcut := nameMarkers_append_gt "</span".toList s
  rw [show "</span".toList ++ ['>'] = spanEnd from rfl, hend, Nat.zero_add] at hcut
  exact hcut

/-- A marker around a piece parts what stands before it, the piece and what stands after it. -/
theorem nameMarkers_style (a : Text) (k : Kind) (s b : Text) :
    nameMarkers (a ++ (html.style k s ++ b)) =
      nameMarkers a + ((if k = .tagName then 1 else 0) + (nameMarkers s + nameMarkers b)) := by
  have hstart (t : Text) : nameMarkers (a ++ (spanStart k ++ t)) = nameMarkers a + nameMarkers (spanStart k ++ t) := by
    rw [spanStart_eq, List.cons_append, nameMarkers_append_lt]
  have hend : nameMarkers (s ++ (spanEnd ++ b)) = nameMarkers s + nameMarkers (spanEnd ++ b) := by
    rw [spanEnd_eq, List.cons_append, nameMarkers_append_lt]
  rw [html_style, List.append_assoc, List.append_assoc, hstart, nameMarkers_spanStart_append, hend,
    nameMarkers_spanEnd_append]

/-- Writing tokens makes no more markers before names than there are names, besides those in the text itself. -/
theorem nameMarkers_render_le (a : Text) (ts : List Token) :
    nameMarkers (a ++ html.render ts) ≤ nameMarkers (a ++ Token.contents ts) + countNames ts := by
  induction ts generalizing a with
  | nil => exact Nat.le_refl _
  | cons t ts ih =>
    rw [render_cons, Token.contents_cons]
    cases t with
    | plain s =>
      have hs := ih (a ++ s)
      rw [List.append_assoc, List.append_assoc] at hs
      exact hs
    | styled k s =>
      have hs := ih []
      have hcut := nameMarkers_add_le a (s ++ Token.contents ts)
      have hcut' := nameMarkers_add_le s (Token.contents ts)
      show nameMarkers (a ++ (html.style k s ++ html.render ts)) ≤ nameMarkers (a ++ (s ++ Token.contents ts)) + _
      rw [nameMarkers_style, Token.countNames_styled]
      simp only [List.nil_append] at hs
      omega

theorem countNames_le_nameMarkers_render (ts : List Token) : countNames ts ≤ nameMarkers (html.render ts) := by
  induction ts with
  | nil => exact Nat.le_refl _
  | cons t ts ih =>
    rw [render_cons]
    cases t with
    | plain s =>
      have hcut := nameMarkers_add_le s (html.render ts)
      rw [Token.countNames_plain]
      exact ih.trans (Nat.le_of_add_left_le hcut)
    | styled k s =>
      have hcut := nameMarkers_style [] k s (html.render ts)
      rw [List.nil_append] at hcut
      rw [renderToken, hcut, Token.countNames_styled]
      omega

/-- In a text without such markers, writing its tokens makes one for each name. -/
theorem nameMarkers_render {ts : List Token} (h : nameMarkers (Token.contents ts) = 0) :
    nameMarkers (html.render ts) = countNames ts := by
  have hle := nameMarkers_render_le [] ts
  rw [List.nil_append, List.nil_append, h, Nat.zero_add] at hle
  exact Nat.le_antisymm hle (countNames_le_nameMarkers_render ts)

/-! ## The passes -/

theorem countNames_comments (s : Text) : countNames (Comment.tokenize s) = 0 :=
  Token.countNames_tokenize (n := 0) (fun _ => rfl) s

theorem countNames_runs (s : Text) : countNames (TextRun.tokenize s) = 0 := by
  refine Token.countNames_tokenize (n := 0) (fun run => ?_) s
  rw [TextRun.tokens]
  split <;> rfl

theorem countNames_attributes (s : Text) : countNames (Attribute.tokenize s) = 0 := by
  refine Token.countNames_tokenize (n := 0) (fun a => ?_) s
  obtain ⟨spacing, name, _ | value⟩ := a <;> rfl

theorem countNames_tag (t : Tag) : countNames t.tokens = 1 := by
  rw [Tag.tokens]
  simp only [Token.countNames_append, countNames_attributes]
  cases t.isSelfClosing <;> rfl

theorem countNames_tags (s : Text) : countNames (Tag.tokenize s) = Tag.count s := by
  rw [Tag.tokenize, Token.countNames_tokenize countNames_tag, Nat.mul_one]
  rfl

/-- The passes before that over tags make no marker before a name, in whatever pieces they leave their own. -/
theorem nameMarkers_markBeforeTags {s : Text} (h : '<' ∉ s) : nameMarkers (html.markBeforeTags s) = 0 := by
  have hcomments : nameMarkers (html.markComments s) = 0 := by
    rw [markComments, nameMarkers_render, countNames_comments]
    rw [Comment.contents_tokenize]
    exact nameMarkers_eq_zero h
  rw [markBeforeTags, markText, nameMarkers_render, countNames_runs]
  rw [TextRun.contents_tokenize]
  exact hcomments

/-- The output for web pages has a marker before a name for each tag that is marked, for every source. -/
theorem nameMarkers_highlightHtml (source : Text) : nameMarkers (highlightHtml source) = html.tagCount source := by
  have hnone : nameMarkers (html.markBeforeTags (prepare source)) = 0 :=
    nameMarkers_markBeforeTags (Entity.not_mem_encode source.unindent).1
  show nameMarkers (html.render (Tag.tokenize (html.markBeforeTags (prepare source)))) = _
  rw [nameMarkers_render, countNames_tags, tagCount]
  rw [Tag.contents_tokenize]
  exact hnone

end Renderer

namespace LogEntry

/-! ## What the log says -/

theorem messageChar_of_printable {c : Char} (h : 0x20 ≤ c.toNat ∧ c.toNat < 0x7f) : messageChar c = [c] := by
  have hne : ∀ d : Char, ¬ (0x20 ≤ d.toNat ∧ d.toNat < 0x7f) → c ≠ d := by
    rintro d hd rfl
    exact hd h
  rw [messageChar, if_neg (hne _ (by decide)), if_neg (hne _ (by decide)), if_neg (hne _ (by decide)),
    if_neg (hne _ (by decide)), if_neg (hne _ (by decide)), if_neg (by omega)]

/-- Printable text is logged as it is. -/
theorem note_of_printable (origin : String) {message : Text}
    (h : ∀ c ∈ message, 0x20 ≤ c.toNat ∧ c.toNat < 0x7f) : note origin message = ⟨origin, message⟩ := by
  have hflat : message.flatMap messageChar = message.flatMap fun c => [c] :=
    List.flatMap_congr fun c hc => messageChar_of_printable (h c hc)
  rw [note, hflat, List.flatMap_singleton']

theorem printable_ofNat (n : Nat) : ∀ c ∈ Text.ofNat n, 0x20 ≤ c.toNat ∧ c.toNat < 0x7f := by
  intro c hc
  have hdigit : c.isDigit = true := Nat.isDigit_of_mem_toDigits (by decide) (by decide) hc
  have hrange : 48 ≤ c.toNat ∧ c.toNat ≤ 57 := by simpa [Char.isDigit, UInt32.le_iff_toNat_le] using hdigit
  omega

/-- The entry for marked tags gives their number in digits, and has one tag in the singular. -/
theorem tagsMarked_eq (n : Nat) :
    tagsMarked n = ⟨"tagtint::highlighting::tags",
      "Coloured ".toList ++ Text.ofNat n ++ " tag".toList ++ if n = 1 then [] else ['s']⟩ := by
  have hmessage : "Coloured ".toList ++ counted n "tag" =
      "Coloured ".toList ++ Text.ofNat n ++ " tag".toList ++ if n = 1 then [] else ['s'] := by
    simp [counted]
  rw [tagsMarked, hmessage]
  refine note_of_printable _ fun c hc => ?_
  have hfirst : ∀ d ∈ "Coloured ".toList, 0x20 ≤ d.toNat ∧ d.toNat < 0x7f := by simp
  have hnoun : ∀ d ∈ " tag".toList, 0x20 ≤ d.toNat ∧ d.toNat < 0x7f := by simp
  rcases List.mem_append.1 hc with hc | hc
  · rcases List.mem_append.1 hc with hc | hc
    · rcases List.mem_append.1 hc with hc | hc
      · exact hfirst c hc
      · exact printable_ofNat n c hc
    · exact hnoun c hc
  · split at hc
    · cases hc
    · rw [List.mem_singleton.1 hc]
      decide

end LogEntry

namespace CommandLine

/-! ## A run with its log -/

variable (engine : TemplateEngine)

/-- What comes of highlighting a file with a debug log. -/
def debugHighlight (env : Environment) (name : Text) : Outcome :=
  runWith engine env ["--debug".toList, "highlight".toList, name]

theorem debugHighlight_eq (env : Environment) {name : Text} (h : Reading.IsOperand name) :
    debugHighlight engine env name = withSource env (Source.ofOperand name) (writeHighlighted false) := by
  have hparse : parse ["--debug".toList, "highlight".toList, name] =
      .ok ⟨true, .highlight false (Source.ofOperand name)⟩ :=
    parseCommand_append [] rfl rfl rfl rfl rfl rfl h true
  rw [debugHighlight, runWith, hparse]
  rfl

/-- Highlighting with a log what could be read logs four steps and writes the highlighted source. -/
theorem debugHighlight_of_read {env : Environment} {name content : Text} (hname : name.head? ≠ some '-')
    (hread : (Source.file name).read env = .ok content) :
    debugHighlight engine env name =
      { output := asLine (highlightHtml content)
        log := [.reading name, .loaded name content, .highlighting content,
          .tagsMarked (Renderer.html.tagCount content)] } := by
  have hsource : Source.ofOperand name = .file name := by
    refine if_neg ?_
    rintro rfl
    exact hname rfl
  rw [debugHighlight_eq engine env (Reading.isOperand_of_head? hname), hsource, withSource, hread]
  rfl

theorem nameMarkers_asLine (s : Text) : Renderer.nameMarkers (asLine s) = Renderer.nameMarkers s := by
  have hcut : Renderer.nameMarkers (s ++ ['\n']) = Renderer.nameMarkers s + Renderer.nameMarkers ['\n'] := by
    simp only [Renderer.nameMarkers, Renderer.spanStart_tagName_eq_cons]
    exact Text.occurrences_append_cons _ (by decide) s []
  have hend : Renderer.nameMarkers ['\n'] = 0 := Renderer.nameMarkers_eq_zero (by decide)
  rw [asLine, hcut, hend, Nat.add_zero]

/-- What the log of such a run says of tags is one entry. -/
theorem filter_debugHighlight_log {env : Environment} {name content : Text} (hname : name.head? ≠ some '-')
    (hread : (Source.file name).read env = .ok content) :
    (debugHighlight engine env name).log.filter (·.origin = "tagtint::highlighting::tags") =
      [.tagsMarked (Renderer.html.tagCount content)] := by
  rw [debugHighlight_of_read engine hname hread]
  simp [LogEntry.reading, LogEntry.loaded, LogEntry.highlighting, LogEntry.tagsMarked, LogEntry.note]

/-- What is logged is written to standard error. -/
theorem line_infix_errorOutput {o : Outcome} {entry : LogEntry} (h : entry ∈ o.log) (time : Text) :
    entry.line time <:+: o.errorOutput time := by
  obtain ⟨before, after, hlog⟩ := List.append_of_mem h
  refine ⟨before.flatMap (LogEntry.line time), after.flatMap (LogEntry.line time) ++ o.complaint, ?_⟩
  rw [Outcome.errorOutput, hlog, List.flatMap_append, List.flatMap_cons]
  simp only [List.append_assoc]

/-- For a file with UTF-8 in it, highlighting with a debug log ends with the same status and writes the same as without.
What the log says of tags is one entry, whose line stands on standard error, with the number of markers around names of
tags in the output. -/
theorem debugHighlight_agrees {env : Environment} {name : Text} {bytes : ByteArray}
    (hname : name.head? ≠ some '-') (hfile : env.readFile name = .ok bytes) (hvalid : bytes.IsValidUTF8) :
    (debugHighlight engine env name).status = (runWith engine env ["highlight".toList, name]).status ∧
    (debugHighlight engine env name).output = (runWith engine env ["highlight".toList, name]).output ∧
    (debugHighlight engine env name).status = 0 ∧
    ∃ n, n = Text.occurrences "<span class=\"highlight-tag-name\">".toList (debugHighlight engine env name).output ∧
      (debugHighlight engine env name).log.filter (·.origin = "tagtint::highlighting::tags") =
        [⟨"tagtint::highlighting::tags",
          "Coloured ".toList ++ Text.ofNat n ++ " tag".toList ++ if n = 1 then [] else ['s']⟩] ∧
      ∀ time, LogEntry.line time ⟨"tagtint::highlighting::tags",
          "Coloured ".toList ++ Text.ofNat n ++ " tag".toList ++ if n = 1 then [] else ['s']⟩ <:+:
        (debugHighlight engine env name).errorOutput time := by
  obtain ⟨content, hcontent⟩ := exists_decodeUtf8_eq_ok hvalid
  have hread : (Source.file name).read env = .ok content := by
    rw [Source.read, hfile]
    exact hcontent
  have hquiet : runWith engine env ["highlight".toList, name] = (debugHighlight engine env name).quiet := by
    have hoperand : Reading.IsOperand name := Reading.isOperand_of_head? hname
    rw [debugHighlight_eq engine env hoperand]
    exact (Call.highlight false).outcome_eq engine env hoperand
  have hstatus : (debugHighlight engine env name).status = 0 := by rw [debugHighlight_of_read engine hname hread]
  have hcount : Renderer.html.tagCount content = Renderer.nameMarkers (debugHighlight engine env name).output := by
    rw [debugHighlight_of_read engine hname hread]
    show _ = Renderer.nameMarkers (asLine (highlightHtml content))
    rw [nameMarkers_asLine, Renderer.nameMarkers_highlightHtml]
  have hfilter := filter_debugHighlight_log engine hname hread
  have hmem : LogEntry.tagsMarked (Renderer.html.tagCount content) ∈ (debugHighlight engine env name).log :=
    List.mem_of_mem_filter (hfilter ▸ List.mem_singleton_self _)
  refine ⟨by rw [hquiet]; rfl, by rw [hquiet]; rfl, hstatus, _, hcount, ?_, fun time => ?_⟩
  · rw [hfilter, LogEntry.tagsMarked_eq]
  · rw [← LogEntry.tagsMarked_eq]
    exact line_infix_errorOutput hmem time

/-- A workspace with one file. Its first tag has the marker of a comment cut in it, and its third is spelled out with
entities. -/
def cutMarker : Environment :=
  (Workspace.ofNames [("a.html".toList, "<a <!-- x -->><b>&lt;i&gt;</b>".toUTF8)] []).environment .empty

theorem debugHighlight_agrees_cutMarker :
    "a.html".toList.head? ≠ some '-' ∧
    cutMarker.readFile "a.html".toList = .ok "<a <!-- x -->><b>&lt;i&gt;</b>".toUTF8 ∧
    "<a <!-- x -->><b>&lt;i&gt;</b>".toUTF8.IsValidUTF8 ∧
    (debugHighlight .scanning cutMarker "a.html".toList).status = 0 ∧
    (debugHighlight .scanning cutMarker "a.html".toList).log.filter (·.origin = "tagtint::highlighting::tags") =
      [⟨"tagtint::highlighting::tags", "Coloured 4 tags".toList⟩] := by
  have hname : "a.html".toList.head? ≠ some '-' := by decide
  have hfile : cutMarker.readFile "a.html".toList = .ok "<a <!-- x -->><b>&lt;i&gt;</b>".toUTF8 := rfl
  have hvalid : "<a <!-- x -->><b>&lt;i&gt;</b>".toUTF8.IsValidUTF8 := String.isValidUTF8 _
  obtain ⟨-, -, hstatus, n, hn, hlog, -⟩ := debugHighlight_agrees .scanning hname hfile hvalid
  have hfour : n = 4 := by
    rw [hn]
    decide +kernel
  subst hfour
  exact ⟨hname, hfile, hvalid, hstatus, hlog⟩

end CommandLine

end HtmlHighlight
