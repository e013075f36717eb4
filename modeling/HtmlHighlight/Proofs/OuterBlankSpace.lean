import HtmlHighlight.Text.Indent
import Mathlib.Data.List.DropRight

/-!
# Outer blank space

A text that is not blank has a first and a last line that are not blank (`Text.exists_core`). All before the first of
them and all after the last is outer blank space, as are the blank characters at the end of the last one. What
`Text.unindent` starts with is the lines between (`Text.Core.dropWhile_lines_trimEnd`).

The lines of a text are found by cutting it at one of them: `Text.ofLines_append_cons` writes a text as what stands
before a line, the line, and what stands after it.
-/

namespace HtmlHighlight

namespace Text

/-! ## Blank characters at the end -/

theorem allBlank_append (s t : Text) : (s ++ t).allBlank = (s.allBlank && t.allBlank) :=
  List.all_append

theorem allBlank_eq_false_iff {s : Text} : s.allBlank = false ↔ ∃ c ∈ s, isBlank c = false := by
  simp [allBlank]

theorem ne_nil_of_not_allBlank {s : Text} (h : s.allBlank = false) : s ≠ [] := by
  rintro rfl
  cases h

theorem trimEnd_eq_rdropWhile (s : Text) : s.trimEnd = s.rdropWhile isBlank := rfl

/-- What is taken away at the end of a text is blank. -/
theorem exists_eq_trimEnd_append (s : Text) : ∃ t, t.allBlank = true ∧ s = s.trimEnd ++ t := by
  refine ⟨s.rtakeWhile isBlank, List.all_eq_true.2 fun c hc => List.mem_rtakeWhile_imp hc, ?_⟩
  rw [trimEnd_eq_rdropWhile, List.rdropWhile_append_rtakeWhile]

theorem allBlank_trimEnd (s : Text) : s.trimEnd.allBlank = s.allBlank := by
  obtain ⟨t, ht, hs⟩ := exists_eq_trimEnd_append s
  conv_rhs => rw [hs, allBlank_append, ht, Bool.and_true]

theorem mem_of_mem_trimEnd {s : Text} {c : Char} (h : c ∈ s.trimEnd) : c ∈ s :=
  (List.rdropWhile_prefix isBlank s).subset h

/-- The last character that is left is not blank. -/
theorem isBlank_of_mem_getLast?_trimEnd {s : Text} {c : Char} (h : c ∈ s.trimEnd.getLast?) : isBlank c = false := by
  obtain ⟨hne, rfl⟩ := List.mem_getLast?_eq_getLast h
  exact Bool.eq_false_iff.2 (List.rdropWhile_last_not isBlank s hne)

theorem trimEnd_eq_self {s : Text} (h : ∀ c ∈ s.getLast?, isBlank c = false) : s.trimEnd = s := by
  rw [trimEnd_eq_rdropWhile, List.rdropWhile_eq_self_iff]
  intro hne
  rw [h _ (List.getLast_mem_getLast? hne)]
  exact Bool.false_ne_true

theorem trimEnd_eq_nil {s : Text} (h : s.allBlank = true) : s.trimEnd = [] := by
  rw [trimEnd_eq_rdropWhile, List.rdropWhile_eq_nil_iff]
  exact List.all_eq_true.1 h

theorem trimEnd_append_of_allBlank (s : Text) {t : Text} (h : t.allBlank = true) : (s ++ t).trimEnd = s.trimEnd := by
  have hall : ∀ c ∈ t.reverse, isBlank c = true := fun c hc => List.all_eq_true.1 h c (List.mem_reverse.1 hc)
  rw [trimEnd, List.reverse_append, List.dropWhile_append_of_pos hall, trimEnd]

theorem trimEnd_append_of_not_allBlank (s : Text) {t : Text} (h : t.allBlank = false) :
    (s ++ t).trimEnd = s ++ t.trimEnd := by
  obtain ⟨u, hu, ht⟩ := exists_eq_trimEnd_append t
  have hne : t.trimEnd ≠ [] := ne_nil_of_not_allBlank (by rw [allBlank_trimEnd, h])
  calc (s ++ t).trimEnd
      = (s ++ t.trimEnd ++ u).trimEnd := by rw [List.append_assoc, ← ht]
    _ = (s ++ t.trimEnd).trimEnd := trimEnd_append_of_allBlank _ hu
    _ = s ++ t.trimEnd := by
        refine trimEnd_eq_self fun c hc => ?_
        rw [List.getLast?_append_of_ne_nil _ hne] at hc
        exact isBlank_of_mem_getLast?_trimEnd hc

/-! ## A text cut at one of its lines -/

theorem ofLines_cons (l : Text) (ls : List Text) : ofLines (l :: ls) = l ++ ls.flatMap ('\n' :: ·) := by
  induction ls generalizing l with
  | nil => simp [ofLines]
  | cons m ls ih =>
    simp only [ofLines] at ih ⊢
    rw [List.intercalate_cons_cons, ih, List.flatMap_cons, List.append_assoc]
    rfl

theorem ofLines_append_cons (ls : List Text) (l : Text) (ms : List Text) :
    ofLines (ls ++ l :: ms) = ls.flatMap (· ++ ['\n']) ++ (l ++ ms.flatMap ('\n' :: ·)) := by
  induction ls with
  | nil => exact ofLines_cons l ms
  | cons k ls ih =>
    rw [ofLines] at ih ⊢
    rw [List.cons_append, List.intercalate_cons_of_ne_nil (by simp), ih, List.flatMap_cons]
    simp only [List.append_assoc]

theorem allBlank_flatMap_lf (ls : List Text) : allBlank (ls.flatMap ('\n' :: ·)) = ls.all allBlank := by
  have hlf : ∀ l : Text, allBlank ('\n' :: l) = l.allBlank := fun _ => rfl
  rw [allBlank, List.all_flatMap]
  exact congrArg ls.all (funext hlf)

theorem allBlank_ofLines (ls : List Text) : (ofLines ls).allBlank = ls.all allBlank := by
  cases ls with
  | nil => rfl
  | cons l ls => rw [ofLines_cons, allBlank_append, allBlank_flatMap_lf, List.all_cons]

/-- A text is blank if all its lines are. -/
theorem allBlank_eq_all_lines (s : Text) : s.allBlank = s.lines.all allBlank := by
  conv_lhs => rw [← ofLines_lines s, allBlank_ofLines]

/-! ## The lines between -/

/-- The lines of a text from the first to the last that is not blank are `inner` and then `last`. -/
structure Core (s : Text) (above inner : List Text) (last : Text) (below : List Text) : Prop where
  lines_eq : s.lines = above ++ (inner ++ [last]) ++ below
  above_blank : ∀ l ∈ above, l.allBlank = true
  below_blank : ∀ l ∈ below, l.allBlank = true
  first_not_blank : ∀ l ∈ (inner ++ [last]).head?, l.allBlank = false
  last_not_blank : last.allBlank = false

/-- A text that is not blank has a first and a last line that are not blank. -/
theorem exists_core {s : Text} (h : s.allBlank = false) : ∃ above inner last below, Core s above inner last below := by
  -- from the first line that is not blank
  have htail : s.lines.dropWhile allBlank ≠ [] := by
    rw [Ne, List.dropWhile_eq_nil_iff]
    intro hall
    rw [allBlank_eq_all_lines, List.all_eq_true.2 hall] at h
    cases h
  have hfirst := List.head_dropWhile_not allBlank htail
  -- up to the last one
  have hinit : (s.lines.dropWhile allBlank).rdropWhile allBlank ≠ [] := by
    rw [Ne, List.rdropWhile_eq_nil_iff]
    intro hall
    rw [hall _ (List.head_mem htail)] at hfirst
    cases hfirst
  have hblock := List.dropLast_concat_getLast hinit
  have hlast := List.rdropWhile_last_not allBlank _ hinit
  refine ⟨s.lines.takeWhile allBlank, ((s.lines.dropWhile allBlank).rdropWhile allBlank).dropLast, _,
    (s.lines.dropWhile allBlank).rtakeWhile allBlank, ?_, ?_, ?_, ?_, Bool.eq_false_iff.2 hlast⟩
  · rw [hblock, List.append_assoc, List.rdropWhile_append_rtakeWhile, List.takeWhile_append_dropWhile]
  · exact fun l hl => List.all_eq_true.1 List.all_takeWhile l hl
  · exact fun l hl => List.mem_rtakeWhile_imp hl
  · intro l hl
    obtain ⟨tail, htail'⟩ := List.rdropWhile_prefix allBlank (s.lines.dropWhile allBlank)
    have hl' : (s.lines.dropWhile allBlank).head? = some l := by
      rw [← htail', List.head?_append_of_ne_nil _ hinit, ← hblock, Option.mem_def.1 hl]
    rwa [(List.head_eq_iff_head?_eq_some htail).2 hl'] at hfirst

namespace Core

variable {s : Text} {above inner : List Text} {last : Text} {below : List Text}

theorem not_mem_of_mem (h : Core s above inner last below) {l : Text} (hl : l ∈ inner ++ [last]) : '\n' ∉ l := by
  refine not_mem_of_mem_lines (s := s) ?_
  rw [h.lines_eq]
  exact List.mem_append_left below (List.mem_append_right above hl)

theorem lines_trimEnd (h : Core s above inner last below) :
    s.trimEnd.lines = above ++ (inner ++ [last.trimEnd]) := by
  have hbelow : allBlank (below.flatMap ('\n' :: ·)) = true := by
    rw [allBlank_flatMap_lf, List.all_eq_true]
    exact h.below_blank
  have hlast : (last ++ below.flatMap ('\n' :: ·)).allBlank = false := by
    rw [allBlank_append, h.last_not_blank, Bool.false_and]
  have hlines : s.lines = (above ++ inner) ++ last :: below := by
    rw [h.lines_eq]
    simp only [List.append_assoc, List.singleton_append]
  have hs : s.trimEnd = ofLines ((above ++ inner) ++ [last.trimEnd]) := by
    calc s.trimEnd
        = (ofLines ((above ++ inner) ++ last :: below)).trimEnd := by rw [← hlines, ofLines_lines]
      _ = (above ++ inner).flatMap (· ++ ['\n']) ++ last.trimEnd := by
          rw [ofLines_append_cons, trimEnd_append_of_not_allBlank _ hlast, trimEnd_append_of_allBlank _ hbelow]
      _ = ofLines ((above ++ inner) ++ [last.trimEnd]) := by
          rw [ofLines_append_cons, List.flatMap_nil, List.append_nil]
  rw [hs, lines_ofLines (by simp), List.append_assoc]
  intro l hl
  rcases List.mem_append.1 hl with hl | hl
  · refine not_mem_of_mem_lines (s := s) ?_
    rw [hlines]
    exact List.mem_append_left _ hl
  · rw [List.mem_singleton.1 hl]
    exact fun hc => h.not_mem_of_mem (by simp) (mem_of_mem_trimEnd hc)

theorem last_not_blank_trimEnd (h : Core s above inner last below) : last.trimEnd.allBlank = false := by
  rw [allBlank_trimEnd, h.last_not_blank]

theorem first_not_blank_trimEnd (h : Core s above inner last below) :
    ∀ l ∈ (inner ++ [last.trimEnd]).head?, l.allBlank = false := by
  intro l hl
  cases inner with
  | nil =>
    obtain rfl : last.trimEnd = l := by simpa using hl
    exact h.last_not_blank_trimEnd
  | cons first inner => exact h.first_not_blank l hl

/-- What is left of a text without its outer blank space. -/
theorem dropWhile_lines_trimEnd (h : Core s above inner last below) :
    s.trimEnd.lines.dropWhile allBlank = inner ++ [last.trimEnd] := by
  obtain ⟨first, ls, hls⟩ := List.exists_cons_of_ne_nil (show inner ++ [last.trimEnd] ≠ [] by simp)
  have hfirst := h.first_not_blank_trimEnd first (by rw [hls]; rfl)
  rw [h.lines_trimEnd, List.dropWhile_append_of_pos h.above_blank, hls,
    List.dropWhile_cons_of_neg (by simp [hfirst])]

end Core

/-- Of a blank text nothing is left. -/
theorem unindent_of_allBlank {s : Text} (h : s.allBlank = true) : s.unindent = [] := by
  rw [unindent, trimEnd_eq_nil h]
  rfl

end Text

end HtmlHighlight
