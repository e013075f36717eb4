import HtmlHighlight.Proofs.OuterBlankSpace

/-!
# Common indentation

What `Text.unindent` takes from a line is characters of its indentation (`Text.exists_eq_append_outdent`), so it changes
neither whether the line is blank nor what stands after the indentation. It takes the indentation that the lines which
are not blank share, and that is the smallest that one of them has (`Text.SharesIndentation`).

`Text.Core.lines_unindent` puts this together with what is known of the outer blank space: the lines of an unindented
text are the lines between, each without the common indentation.
-/

namespace HtmlHighlight

namespace Text

/-! ## Taking indentation from a line -/

theorem indentation_append {indent : Text} (h : ∀ c ∈ indent, isIndent c = true) (line : Text) :
    (indent ++ line).indentation = indent.length + line.indentation := by
  rw [indentation, List.takeWhile_append_of_pos h, List.length_append, indentation]

theorem allBlank_of_isIndent {indent : Text} (h : ∀ c ∈ indent, isIndent c = true) : indent.allBlank = true :=
  List.all_eq_true.2 fun c hc => isBlank_of_isIndent (h c hc)

theorem allBlank_append_of_isIndent {indent : Text} (h : ∀ c ∈ indent, isIndent c = true) (line : Text) :
    (indent ++ line).allBlank = line.allBlank := by
  rw [allBlank_append, allBlank_of_isIndent h, Bool.true_and]

/-- What is taken from a line is indentation, as much as the line has of it and no more than `k` characters. -/
theorem exists_eq_append_outdent (k : Nat) (line : Text) :
    ∃ indent : Text, indent.length = min k line.indentation ∧ (∀ c ∈ indent, isIndent c = true) ∧
      line = indent ++ outdent k line := by
  have hle : min k line.indentation ≤ (line.takeWhile isIndent).length := Nat.min_le_right ..
  have htake : line.take (min k line.indentation) = (line.takeWhile isIndent).take (min k line.indentation) := by
    calc line.take (min k line.indentation)
        = (line.takeWhile isIndent ++ line.dropWhile isIndent).take (min k line.indentation) := by
          rw [List.takeWhile_append_dropWhile]
      _ = (line.takeWhile isIndent).take (min k line.indentation) := List.take_append_of_le_length hle
  refine ⟨line.take (min k line.indentation), ?_, ?_, ?_⟩
  · rw [htake, List.length_take_of_le hle]
  · rw [htake]
    exact fun c hc => List.all_eq_true.1 List.all_takeWhile c (List.mem_of_mem_take hc)
  · rw [outdent, List.take_append_drop]

theorem outdent_of_le {k : Nat} {line : Text} (h : k ≤ line.indentation) : outdent k line = line.drop k := by
  rw [outdent, Nat.min_eq_left h]

theorem allBlank_outdent (k : Nat) (line : Text) : (outdent k line).allBlank = line.allBlank := by
  obtain ⟨indent, -, hindent, hline⟩ := exists_eq_append_outdent k line
  conv_rhs => rw [hline, allBlank_append_of_isIndent hindent]

theorem indentation_outdent (k : Nat) (line : Text) : (outdent k line).indentation = line.indentation - k := by
  obtain ⟨indent, hlen, hindent, hline⟩ := exists_eq_append_outdent k line
  have hsum : line.indentation = indent.length + (outdent k line).indentation := by
    conv_lhs => rw [hline, indentation_append hindent]
  omega

/-- A line that is not blank is indented the same without the blank characters at its end. -/
theorem indentation_trimEnd {line : Text} (h : line.allBlank = false) : line.trimEnd.indentation = line.indentation := by
  obtain ⟨t, -, ht⟩ := exists_eq_trimEnd_append line
  have hne : (line.trimEnd.takeWhile isIndent).length ≠ line.trimEnd.length := by
    intro hlen
    have hall : ∀ c ∈ line.trimEnd, isIndent c = true := by
      rw [← List.IsPrefix.eq_of_length (List.takeWhile_prefix isIndent) hlen]
      exact fun c hc => List.all_eq_true.1 List.all_takeWhile c hc
    have hblank := allBlank_of_isIndent hall
    rw [allBlank_trimEnd, h] at hblank
    cases hblank
  conv_rhs => rw [indentation, ht, List.takeWhile_append, if_neg hne]
  rw [indentation]

/-! ## The indentation that lines share -/

/-- The lines that are not blank are indented by at least `k`, and one of them by no more. -/
structure SharesIndentation (ls : List Text) (k : Nat) : Prop where
  le : ∀ l ∈ ls, l.allBlank = false → k ≤ l.indentation
  exists_eq : ∃ l ∈ ls, l.allBlank = false ∧ l.indentation = k

theorem commonIndentation?_eq_some_iff {ls : List Text} {k : Nat} :
    commonIndentation? ls = some k ↔ SharesIndentation ls k := by
  rw [commonIndentation?, List.min?_eq_some_iff]
  simp only [List.mem_map, List.mem_filter, Bool.not_eq_true', forall_exists_index, and_imp]
  constructor
  · rintro ⟨⟨l, ⟨hl, hb⟩, he⟩, hle⟩
    exact ⟨fun m hm hmb => hle _ m hm hmb rfl, l, hl, hb, he⟩
  · rintro ⟨hle, l, hl, hb, he⟩
    refine ⟨⟨l, ⟨hl, hb⟩, he⟩, ?_⟩
    rintro _ m hm hmb rfl
    exact hle m hm hmb

/-- Lines of which one is not blank share an indentation. -/
theorem exists_sharesIndentation {ls : List Text} {l : Text} (hl : l ∈ ls) (hb : l.allBlank = false) :
    ∃ k, SharesIndentation ls k := by
  cases hc : commonIndentation? ls with
  | some k => exact ⟨k, commonIndentation?_eq_some_iff.1 hc⟩
  | none =>
    rw [commonIndentation?, List.min?_eq_none_iff, List.map_eq_nil_iff, List.filter_eq_nil_iff] at hc
    exact absurd (hc l hl) (by simp [hb])

namespace Core

variable {s : Text} {above inner : List Text} {last : Text} {below : List Text} {k : Nat}

theorem exists_sharesIndentation (h : Core s above inner last below) : ∃ k, SharesIndentation (inner ++ [last]) k :=
  Text.exists_sharesIndentation (List.mem_append_right inner (List.mem_singleton_self last)) h.last_not_blank

theorem commonIndentation?_trimEnd (h : Core s above inner last below) :
    commonIndentation? (inner ++ [last.trimEnd]) = commonIndentation? (inner ++ [last]) := by
  simp only [commonIndentation?, List.filter_append, List.map_append, List.filter_singleton, h.last_not_blank,
    h.last_not_blank_trimEnd, Bool.not_false, cond_true, List.map_singleton, indentation_trimEnd h.last_not_blank]

theorem sharesIndentation_trimEnd (h : Core s above inner last below) :
    SharesIndentation (inner ++ [last.trimEnd]) k ↔ SharesIndentation (inner ++ [last]) k := by
  rw [← commonIndentation?_eq_some_iff, h.commonIndentation?_trimEnd, commonIndentation?_eq_some_iff]

/-- The unindented text has the lines between, the last without the blank characters at its end, and each without the
indentation they share. -/
theorem unindent_eq (h : Core s above inner last below) (hk : SharesIndentation (inner ++ [last]) k) :
    s.unindent = ofLines ((inner ++ [last.trimEnd]).map (outdent k)) := by
  rw [unindent, h.dropWhile_lines_trimEnd]
  simp only [h.commonIndentation?_trimEnd, commonIndentation?_eq_some_iff.2 hk]

theorem lines_unindent (h : Core s above inner last below) (hk : SharesIndentation (inner ++ [last]) k) :
    s.unindent.lines = (inner ++ [last.trimEnd]).map (outdent k) := by
  rw [h.unindent_eq hk, lines_ofLines (by simp)]
  intro l hl hc
  obtain ⟨m, hm, rfl⟩ := List.mem_map.1 hl
  have hcm : '\n' ∈ m := List.mem_of_mem_drop hc
  rcases List.mem_append.1 hm with hm | hm
  · exact h.not_mem_of_mem (List.mem_append_left _ hm) hcm
  · rw [List.mem_singleton.1 hm] at hcm
    exact h.not_mem_of_mem (by simp) (mem_of_mem_trimEnd hcm)

end Core

end Text

end HtmlHighlight
