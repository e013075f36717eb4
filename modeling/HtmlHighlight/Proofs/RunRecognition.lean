import HtmlHighlight.Proofs.Backtracking
import HtmlHighlight.Proofs.Boundaries
import HtmlHighlight.Proofs.ReadingRules

/-!
# Where runs of text stand

The runs that a search finds are all occurrences of a text without ampersands between two brackets
(`TextRun.finds_iff_occursIn`): the search may be cut before a closing bracket, so nothing before an occurrence has a
say in it, and no two overlap (`TextRun.OccursIn.eq_or_apart`). Whether a run is styled depends on the first occurrence
of its string in the whole text (`TextRun.beforeComment_iff`), so all runs of one string are written alike.
-/

namespace HtmlHighlight

namespace TextRun

/-! ## The rule for runs -/

/-- A run of text with its brackets stands in a text between the two given ones. -/
structure OccursIn (run : TextRun) (whole before rest : Text) : Prop where
  eq_append : whole = before ++ (run.source ++ rest)
  content_ne_nil : run.content ≠ []
  not_mem : '&' ∉ run.content

instance (run : TextRun) (whole before rest : Text) : Decidable (run.OccursIn whole before rest) :=
  decidable_of_iff (whole = before ++ (run.source ++ rest) ∧ run.content ≠ [] ∧ '&' ∉ run.content)
    ⟨fun ⟨hs, hn, ha⟩ => ⟨hs, hn, ha⟩, fun ⟨hs, hn, ha⟩ => ⟨hs, hn, ha⟩⟩

/-- A run begins at a closing bracket that one character at least and an opening bracket follow, with no ampersand
between the two. -/
def rule : Rule TextRun where
  Begins _ s := ∃ content rest, s = Entity.gt ++ content ++ Entity.lt ++ rest ∧ content ≠ [] ∧ '&' ∉ content
  Spans s run rest := run.OccursIn s [] rest

/-- A run of whitespace. -/
def Blank (run : TextRun) : Prop :=
  ∀ c ∈ run.content, isBlank c = true

theorem allBlank_iff {run : TextRun} : run.content.allBlank = true ↔ run.Blank :=
  List.all_eq_true

instance (run : TextRun) : Decidable run.Blank :=
  decidable_of_iff _ allBlank_iff

/-- The string of a run occurs first in a text where `!--` follows it. -/
def FirstBeforeComment (whole : Text) (run : TextRun) : Prop :=
  ∃ a z, whole = a ++ run.source ++ ("!--".toList ++ z) ∧ Text.FirstAt a run.source ("!--".toList ++ z)

theorem front?_iff_occursIn {s : Text} {run : TextRun} {rest : Text} :
    front? s = some (run, rest) ↔ run.OccursIn s [] rest := by
  rw [front?_eq_some_iff]
  exact ⟨fun ⟨hs, hn, ha⟩ => ⟨hs, hn, ha⟩, fun ⟨hs, hn, ha⟩ => ⟨hs, hn, ha⟩⟩

theorem rule_describes : rule.Describes pattern fun _ _ => True where
  start _ := trivial
  skip _ _ := trivial
  next _ _ := trivial
  begins_iff {_ s} _ := by
    rw [pattern_front?, Option.isSome_iff_exists]
    constructor
    · rintro ⟨content, rest, hs, hn, ha⟩
      exact ⟨(⟨content⟩, rest), front?_eq_some_iff.2 ⟨hs, hn, ha⟩⟩
    · rintro ⟨⟨run, rest⟩, h⟩
      exact ⟨run.content, rest, front?_eq_some_iff.1 h⟩
  spans_iff := front?_iff_occursIn.symm

theorem parts_source (before : Text) (run : TextRun) (rest : Text) :
    pattern.Parts before (run.source ++ rest) := by
  rw [source, List.append_assoc, List.append_assoc]
  exact parts_gt before _

theorem OccursIn.front? {whole before rest : Text} {run : TextRun} (h : run.OccursIn whole before rest) :
    pattern.front? (run.source ++ rest) = some (run, rest) :=
  front?_eq_some_iff.2 ⟨rfl, h.content_ne_nil, h.not_mem⟩

/-- The search finds all runs that stand in a text. -/
theorem finds_iff_occursIn {whole before rest : Text} {run : TextRun} :
    pattern.Finds whole before run rest ↔ run.OccursIn whole before rest := by
  constructor
  · intro h
    have hf : front? (run.source ++ rest) = some (run, rest) := h.front?
    obtain ⟨-, hn, ha⟩ := front?_eq_some_iff.1 hf
    exact ⟨h.eq_append, hn, ha⟩
  · intro h
    have hfinds := (Pattern.Finds.here h.front?).append_left (parts_source before run rest)
    rwa [List.append_nil, ← h.eq_append] at hfinds

/-- Two runs that stand in a text are the same one, or one ends before the other begins. -/
theorem OccursIn.eq_or_apart {whole a y b z : Text} {run other : TextRun} (h : run.OccursIn whole a y)
    (h' : other.OccursIn whole b z) :
    (a = b ∧ run = other ∧ y = z) ∨ a.length + run.source.length ≤ b.length ∨
      b.length + other.source.length ≤ a.length := by
  have hf := finds_iff_occursIn.2 h
  have hf' := finds_iff_occursIn.2 h'
  rcases hf.trichotomy hf' with ⟨rfl, rfl⟩ | ⟨c, hc⟩ | ⟨c, hc⟩
  · exact .inl ⟨List.append_cancel_right (h.eq_append.symm.trans h'.eq_append), rfl, rfl⟩
  · exact .inr (.inl (hf.length_le hf' hc))
  · exact .inr (.inr (hf'.length_le hf hc))

theorem beforeComment_iff {whole : Text} {run : TextRun} :
    run.beforeComment whole = true ↔ run.FirstBeforeComment whole := by
  rw [beforeComment]
  constructor
  · intro h
    cases hc : Text.cutAt? run.source whole with
    | none =>
      rw [hc] at h
      cases h
    | some q =>
      obtain ⟨a, rest⟩ := q
      rw [hc] at h
      obtain ⟨z, hz⟩ := Option.isSome_iff_exists.1 h
      rw [Text.after?_eq_some_iff, Comment.opening, List.append_assoc, List.append_cancel_left_eq] at hz
      subst hz
      exact ⟨a, z, Text.cutAt?_eq_some_iff.1 hc⟩
  · rintro ⟨a, z, hw, hfirst⟩
    have ho : Entity.lt ++ ("!--".toList ++ z) = Comment.opening ++ z := rfl
    rw [Text.cutAt?_eq_some_iff.2 ⟨hw, hfirst⟩]
    dsimp only
    rw [ho, Text.after?_append]
    rfl

instance (whole : Text) (run : TextRun) : Decidable (run.FirstBeforeComment whole) :=
  decidable_of_iff _ beforeComment_iff

/-! ## The regular expression for runs -/

/-- The expression from the text of a run on. -/
def contentRegex : Regex :=
  .seq (.group (.atLeastOne true (· ≠ '&'))) (.group (.text Entity.lt))

/-- The regular expression for runs: a closing bracket, as few characters as possible, of which none is an ampersand,
and an opening bracket. -/
def regex : Regex :=
  .seq (.group (.text Entity.gt)) contentRegex

/-- What the groups of the expression hold for a run. -/
def groups (run : TextRun) : List (Option Text) :=
  [some Entity.gt, some run.content, some Entity.lt]

theorem tryWays_contentRegex {β : Type} (s : Text) (k : Regex.Way → Option β) :
    contentRegex.tryWays s k =
      if s.takeWhile (· ≠ '&') = [] then none
      else (Text.after? Entity.lt (s.dropWhile (· ≠ '&'))).bind fun rest =>
        k ⟨s.takeWhile (· ≠ '&') ++ Entity.lt, [some (s.takeWhile (· ≠ '&')), some Entity.lt], rest⟩ := by
  rw [contentRegex, Regex.tryWays_seq, Regex.tryWays_group]
  simp only [Regex.tryWays_group, Regex.tryWays_text]
  rw [Regex.tryWays_atLeastOne]
  · rfl
  · -- an opening bracket begins with an ampersand
    rintro - x c rest - - hc
    dsimp only
    rw [Entity.lt_eq, Text.after?_cons_eq_none (by simpa using hc)]
    rfl

/-- The first of the ways in which the expression reads a text is the run that is read. -/
theorem head?_ways_regex (s : Text) :
    (regex.ways s).head? = (front? s).map fun (run, rest) => ⟨run.source, run.groups, rest⟩ := by
  rw [Regex.head?_ways, regex, Regex.tryWays_seq, Regex.tryWays_group, Regex.tryWays_text, front?]
  simp only [tryWays_contentRegex]
  cases Text.after? Entity.gt s with
  | none => rfl
  | some u =>
    rw [Option.bind_some]
    dsimp only
    split
    · rfl
    · cases Text.after? Entity.lt (u.dropWhile (· ≠ '&')) with
      | none => rfl
      | some rest => simp [source, groups, Regex.Way.append]

/-- A run as a match of the expression. -/
def toMatch (run : TextRun) : Regex.Match :=
  ⟨run.source, run.groups, pattern.source_ne_nil run⟩

end TextRun

namespace Renderer

variable (r : Renderer)

/-- A match of the expression for runs in `whole` as the renderer marks it, group by group. -/
def writeRunMatch (whole : Text) (m : Regex.Match) : Text :=
  match m.groups with
  | [some opening, some content, some closing] =>
    if content.allBlank || TextRun.beforeComment whole ⟨content⟩ then m.matched
    else opening ++ r.style .text content ++ closing
  | _ => m.matched

theorem writeRunMatch_toMatch (whole : Text) (run : TextRun) :
    r.writeRunMatch whole run.toMatch = r.writeRun whole run := rfl

/-- A run in `whole` as the renderer marks it: it stays as it is if it is blank, or if it stands before a comment where
its string occurs first. -/
def writeRunByFirst (whole : Text) (run : TextRun) : Text :=
  if run.Blank ∨ run.FirstBeforeComment whole then run.source
  else Entity.gt ++ r.style .text run.content ++ Entity.lt

theorem writeRun_eq_writeRunByFirst (whole : Text) (run : TextRun) :
    r.writeRun whole run = r.writeRunByFirst whole run := by
  rw [writeRun, writeRunByFirst]
  congr 1
  rw [Bool.or_eq_true, TextRun.beforeComment_iff, TextRun.allBlank_iff]

/-- What is written for a run depends on its string only, and not on where it stands. -/
theorem markText_eq_of_occursIn {whole before rest : Text} {run : TextRun} (h : run.OccursIn whole before rest) :
    r.markText whole = TextRun.pattern.replace (r.writeRun whole) before ++ r.writeRun whole run ++
      TextRun.pattern.replace (r.writeRun whole) rest := by
  calc r.markText whole
      = TextRun.pattern.replace (r.writeRun whole) (before ++ (run.source ++ rest)) := by
        rw [markText_eq_replace, ← h.eq_append]
    _ = TextRun.pattern.replace (r.writeRun whole) before ++
          TextRun.pattern.replace (r.writeRun whole) (run.source ++ rest) :=
        TextRun.pattern.replace_append _ (TextRun.parts_source before run rest)
    _ = TextRun.pattern.replace (r.writeRun whole) before ++ r.writeRun whole run ++
          TextRun.pattern.replace (r.writeRun whole) rest := by
        rw [TextRun.pattern.replace_of_front? _ h.front?, List.append_assoc]

/-- Marking the runs of a text is replacing the matches of the regular expression for runs, and it is reading the text
from the left by the rule for runs. The runs are all that stand in the text, of which no two overlap, and what is
written for each depends on its string only. -/
theorem markText_eq_iff_writes (whole : Text) :
    r.markText whole = TextRun.regex.pattern.replace (r.writeRunMatch whole) whole ∧
    (∀ written, r.markText whole = written ↔ TextRun.rule.Writes (r.writeRunByFirst whole) [] whole written) ∧
    (∀ (run : TextRun) (before rest : Text),
      TextRun.pattern.Finds whole before run rest ↔ run.OccursIn whole before rest) ∧
    (∀ (run other : TextRun) (a y b z : Text), run.OccursIn whole a y → other.OccursIn whole b z →
      (a = b ∧ run = other ∧ y = z) ∨ a.length + run.source.length ≤ b.length ∨
        b.length + other.source.length ≤ a.length) ∧
    ∀ (run : TextRun) (before rest : Text), run.OccursIn whole before rest →
      r.markText whole = TextRun.pattern.replace (r.writeRunByFirst whole) before ++ r.writeRunByFirst whole run ++
        TextRun.pattern.replace (r.writeRunByFirst whole) rest := by
  have hwrite : r.writeRun whole = r.writeRunByFirst whole := funext (r.writeRun_eq_writeRunByFirst whole)
  refine ⟨?_, fun written => ?_, fun _ _ _ => TextRun.finds_iff_occursIn,
    fun _ _ _ _ _ _ h h' => h.eq_or_apart h', fun _ _ _ h => ?_⟩
  · rw [markText_eq_replace]
    exact (Regex.replace_eq_replace TextRun.toMatch TextRun.head?_ways_regex (r.writeRunMatch_toMatch whole) whole).symm
  · rw [markText_eq_replace, hwrite]
    exact TextRun.rule_describes.writes_iff whole written
  · rw [← hwrite]
    exact r.markText_eq_of_occursIn h

/-- The second of two equal runs is written as the first, which stands before a comment. -/
theorem markText_eq_iff_writes_repeated :
    (⟨"x".toList⟩ : TextRun).OccursIn "&gt;x&lt;!--&gt;x&lt;b".toList [] "!--&gt;x&lt;b".toList ∧
    (⟨"x".toList⟩ : TextRun).OccursIn "&gt;x&lt;!--&gt;x&lt;b".toList "&gt;x&lt;!--".toList "b".toList ∧
    html.markText "&gt;x&lt;!--&gt;x&lt;b".toList =
      TextRun.pattern.replace (html.writeRunByFirst "&gt;x&lt;!--&gt;x&lt;b".toList) "&gt;x&lt;!--".toList ++
        "&gt;x&lt;".toList ++
        TextRun.pattern.replace (html.writeRunByFirst "&gt;x&lt;!--&gt;x&lt;b".toList) "b".toList := by
  have hfirst : (⟨"x".toList⟩ : TextRun).OccursIn "&gt;x&lt;!--&gt;x&lt;b".toList [] "!--&gt;x&lt;b".toList := by
    decide +kernel
  have hsecond : (⟨"x".toList⟩ : TextRun).OccursIn "&gt;x&lt;!--&gt;x&lt;b".toList "&gt;x&lt;!--".toList
      "b".toList := by decide +kernel
  obtain ⟨-, -, -, -, hwritten⟩ := html.markText_eq_iff_writes "&gt;x&lt;!--&gt;x&lt;b".toList
  have hcopied : html.writeRunByFirst "&gt;x&lt;!--&gt;x&lt;b".toList ⟨"x".toList⟩ = "&gt;x&lt;".toList := by
    decide +kernel
  exact ⟨hfirst, hsecond, (hwritten _ _ _ hsecond).trans (by rw [hcopied])⟩

end Renderer

end HtmlHighlight
