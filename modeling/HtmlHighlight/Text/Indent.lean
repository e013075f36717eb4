import HtmlHighlight.Text.Blank

/-!
# Indentation

`Text.unindent` keeps the lines from the first to the last that is not blank, and takes away the
indentation that all of those share. Only spaces and tabs indent; a line is blank if it holds nothing but
blank characters of any kind. `Text.mem_of_mem_unindent` says that no character but line feeds is added.
-/

namespace HtmlHighlight

/-- The characters that indent a line. -/
def isIndent (c : Char) : Bool :=
  c = ' ' || c = '\t'

theorem isBlank_of_isIndent {c : Char} (h : isIndent c = true) : isBlank c = true := by
  simp only [isIndent, Bool.or_eq_true, decide_eq_true_eq] at h
  rcases h with rfl | rfl <;> rfl

namespace Text

/-- The lines of a text, without the line feeds between them. -/
def lines (s : Text) : List Text :=
  s.splitOn '\n'

/-- The text with the given lines. -/
def ofLines (ls : List Text) : Text :=
  ['\n'].intercalate ls

@[simp] theorem ofLines_lines (s : Text) : ofLines s.lines = s :=
  List.intercalate_splitOn '\n'

theorem lines_ne_nil (s : Text) : s.lines ≠ [] :=
  List.splitOn_ne_nil '\n' s

/-- No line holds a line feed. -/
theorem not_mem_of_mem_lines {s l : Text} (h : l ∈ s.lines) : '\n' ∉ l := by
  induction s generalizing l with
  | nil =>
    obtain rfl : l = [] := by simpa [lines] using h
    simp
  | cons c s ih =>
    obtain ⟨first, ls, hl⟩ := List.exists_cons_of_ne_nil (lines_ne_nil s)
    rw [lines, List.splitOn_cons_eq_if_modifyHead, ← lines] at h
    rw [hl] at h ih
    split at h
    next =>
      rcases List.mem_cons.1 h with rfl | h
      · simp
      · exact ih h
    next hc =>
      rcases List.mem_cons.1 h with rfl | h
      · simpa [Ne.symm (by simpa using hc)] using ih List.mem_cons_self
      · exact ih (List.mem_cons_of_mem first h)

/-- A text put together from lines has these lines. -/
theorem lines_ofLines {ls : List Text} (hne : ls ≠ []) (h : ∀ l ∈ ls, '\n' ∉ l) : (ofLines ls).lines = ls :=
  List.splitOn_intercalate '\n' h hne

/-- The number of spaces and tabs that a line starts with. -/
def indentation (line : Text) : Nat :=
  (line.takeWhile isIndent).length

/-- The indentation that all lines share; blank lines have no say in it. -/
def commonIndentation? (ls : List Text) : Option Nat :=
  ((ls.filter fun line => !line.allBlank).map indentation).min?

/-- A line without its first `width` characters of indentation, or without all it has. -/
def outdent (width : Nat) (line : Text) : Text :=
  line.drop (min width line.indentation)

/-- A text without its outer blank lines, the blank characters at its end and the indentation that its
lines share. -/
def unindent (s : Text) : Text :=
  let ls := s.trimEnd.lines.dropWhile allBlank
  match commonIndentation? ls with
  | none => []
  | some width => ofLines (ls.map (outdent width))

/-- Putting lines together adds line feeds only. -/
theorem mem_ofLines_iff {ls : List Text} {c : Char} (hc : c ≠ '\n') : c ∈ ofLines ls ↔ ∃ l ∈ ls, c ∈ l := by
  induction ls with
  | nil => simp [ofLines]
  | cons l ls ih =>
    rw [ofLines] at ih ⊢
    cases ls with
    | nil => simp
    | cons m ls =>
      rw [List.intercalate_cons_cons, List.mem_append, List.mem_append, ih]
      simp [hc]

/-- Taking away indentation adds no characters. -/
theorem mem_of_mem_unindent {s : Text} {c : Char} (hc : c ≠ '\n') (h : c ∈ s.unindent) : c ∈ s := by
  rw [unindent] at h
  split at h
  next => simp at h
  next width _ =>
    obtain ⟨_, ho, hcl⟩ := (mem_ofLines_iff hc).1 h
    obtain ⟨l, hl, rfl⟩ := List.mem_map.1 ho
    have hcl' : c ∈ l := List.mem_of_mem_drop hcl
    have ht : c ∈ s.trimEnd := by
      rw [← ofLines_lines s.trimEnd, mem_ofLines_iff hc]
      exact ⟨l, (List.dropWhile_sublist _).mem hl, hcl'⟩
    rw [trimEnd, List.mem_reverse] at ht
    exact List.mem_reverse.1 ((List.dropWhile_sublist _).mem ht)

end Text

end HtmlHighlight
