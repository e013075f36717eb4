import HtmlHighlight.Proofs.CommonIndentation
import Mathlib.Data.List.Forall2
import Mathlib.Order.Bounds.Defs

/-!
# The lines of an unindented text

The lines of an unindented text are those of the text from the first to the last that is not blank, one for one and in
order. Each loses the same number of characters of indentation, as far as it has them (`Text.Loses`), and that number is
the largest that all lines which are not blank have (`Text.Core.isGreatest`). So a line that is not blank keeps what it
is indented more than another (`Text.Core.forall₂_indentation`), and all characters that are not blank are kept in order
(`Text.withoutBlanks_unindent`).
-/

namespace HtmlHighlight

namespace Text

/-! ## What a line loses -/

/-- `left` is what a line has left when it loses `k` characters of indentation: a line that is not blank has as many, and
a blank one loses what it has of them. -/
structure Loses (k : Nat) (line left : Text) : Prop where
  of_not_blank : line.allBlank = false → k ≤ line.indentation ∧ left = line.drop k
  of_blank : line.allBlank = true → left = line.drop (min k line.indentation)

theorem loses_outdent {k : Nat} {line : Text} (h : line.allBlank = false → k ≤ line.indentation) :
    Loses k line (outdent k line) where
  of_not_blank hb := ⟨h hb, outdent_of_le (h hb)⟩
  of_blank _ := rfl

/-- No line that is not blank is indented less than all lose. -/
theorem le_indentation_of_forall₂ {j : Nat} {ls lefts : List Text} (h : List.Forall₂ (Loses j) ls lefts) :
    ∀ l ∈ ls, l.allBlank = false → j ≤ l.indentation := by
  induction h with
  | nil => simp
  | cons hl _ ih => exact List.forall_mem_cons.2 ⟨fun hb => (hl.of_not_blank hb).1, ih⟩

theorem outdent_trimEnd (k : Nat) {line : Text} (h : line.allBlank = false) :
    outdent k line.trimEnd = (outdent k line).trimEnd := by
  obtain ⟨indent, hlen, -, hline⟩ := exists_eq_append_outdent k line
  have hout : (outdent k line).allBlank = false := by rw [allBlank_outdent, h]
  have htrim : line.trimEnd = indent ++ (outdent k line).trimEnd := by
    conv_lhs => rw [hline, trimEnd_append_of_not_allBlank indent hout]
  rw [outdent, indentation_trimEnd h, ← hlen, htrim, List.drop_left]

/-! ## Characters that are not blank -/

/-- The characters of a text that are not blank, in order. -/
def withoutBlanks (s : Text) : Text :=
  s.filter (!isBlank ·)

theorem withoutBlanks_append (s t : Text) : (s ++ t).withoutBlanks = s.withoutBlanks ++ t.withoutBlanks :=
  List.filter_append s t

theorem withoutBlanks_eq_nil {s : Text} (h : s.allBlank = true) : s.withoutBlanks = [] := by
  rw [withoutBlanks, List.filter_eq_nil_iff]
  intro c hc
  simp [List.all_eq_true.1 h c hc]

theorem withoutBlanks_trimEnd (s : Text) : s.trimEnd.withoutBlanks = s.withoutBlanks := by
  obtain ⟨t, ht, hs⟩ := exists_eq_trimEnd_append s
  conv_rhs => rw [hs, withoutBlanks_append, withoutBlanks_eq_nil ht, List.append_nil]

theorem withoutBlanks_outdent (k : Nat) (line : Text) : (outdent k line).withoutBlanks = line.withoutBlanks := by
  obtain ⟨indent, -, hindent, hline⟩ := exists_eq_append_outdent k line
  conv_rhs => rw [hline, withoutBlanks_append, withoutBlanks_eq_nil (allBlank_of_isIndent hindent), List.nil_append]

theorem withoutBlanks_ofLines (ls : List Text) : (ofLines ls).withoutBlanks = ls.flatMap withoutBlanks := by
  cases ls with
  | nil => rfl
  | cons l ls =>
    have hlf : ∀ m : Text, ('\n' :: m).filter (!isBlank ·) = m.withoutBlanks := fun _ => rfl
    rw [ofLines_cons, withoutBlanks_append, List.flatMap_cons, withoutBlanks, withoutBlanks, List.filter_flatMap]
    simp only [hlf]

theorem flatMap_withoutBlanks_eq_nil {ls : List Text} (h : ∀ l ∈ ls, l.allBlank = true) :
    ls.flatMap withoutBlanks = [] := by
  rw [List.flatMap_eq_nil_iff]
  exact fun l hl => withoutBlanks_eq_nil (h l hl)

/-! ## Line by line -/

namespace Core

variable {s : Text} {above inner : List Text} {last : Text} {below : List Text} {k : Nat}

theorem lines_unindent_eq_append (h : Core s above inner last below) (hk : SharesIndentation (inner ++ [last]) k) :
    s.unindent.lines = inner.map (outdent k) ++ [(outdent k last).trimEnd] := by
  rw [h.lines_unindent hk, List.map_append, List.map_singleton, outdent_trimEnd k h.last_not_blank]

theorem forall₂_loses (hk : SharesIndentation (inner ++ [last]) k) :
    List.Forall₂ (Loses k) (inner ++ [last]) (inner.map (outdent k) ++ [outdent k last]) := by
  rw [← List.map_singleton, ← List.map_append, List.forall₂_map_right_iff, List.forall₂_same]
  exact fun l hl => loses_outdent (hk.le l hl)

/-- The lines lose as many characters of indentation as they can. -/
theorem isGreatest (hk : SharesIndentation (inner ++ [last]) k) :
    IsGreatest {j | ∃ lefts, List.Forall₂ (Loses j) (inner ++ [last]) lefts} k := by
  refine ⟨⟨_, forall₂_loses hk⟩, ?_⟩
  rintro j ⟨lefts, hj⟩
  obtain ⟨l, hl, hb, rfl⟩ := hk.exists_eq
  exact le_indentation_of_forall₂ hj l hl hb

theorem forall₂_indentation (h : Core s above inner last below) (hk : SharesIndentation (inner ++ [last]) k) :
    List.Forall₂ (fun line left => line.allBlank = false → line.indentation = k + left.indentation)
      (inner ++ [last]) s.unindent.lines := by
  have hline : ∀ l ∈ inner ++ [last], l.allBlank = false → l.indentation = k + (outdent k l).indentation := by
    intro l hl hb
    have hle := hk.le l hl hb
    rw [indentation_outdent]
    omega
  have hlast : last.indentation = k + (outdent k last).trimEnd.indentation := by
    have hb : (outdent k last).allBlank = false := by rw [allBlank_outdent, h.last_not_blank]
    rw [indentation_trimEnd hb]
    exact hline last (by simp) h.last_not_blank
  rw [h.lines_unindent_eq_append hk]
  refine List.rel_append ?_ (.cons (fun _ => hlast) .nil)
  rw [List.forall₂_map_right_iff, List.forall₂_same]
  exact fun l hl => hline l (List.mem_append_left _ hl)

end Core

/-- The characters that are not blank are kept in order. -/
theorem withoutBlanks_unindent (s : Text) : s.unindent.withoutBlanks = s.withoutBlanks := by
  cases hs : s.allBlank with
  | true => rw [unindent_of_allBlank hs, withoutBlanks_eq_nil hs]; rfl
  | false =>
    obtain ⟨above, inner, last, below, h⟩ := exists_core hs
    obtain ⟨k, hk⟩ := h.exists_sharesIndentation
    have hout : ∀ l, withoutBlanks (outdent k l) = withoutBlanks l := withoutBlanks_outdent k
    calc s.unindent.withoutBlanks
        = (inner ++ [last.trimEnd]).flatMap withoutBlanks := by
          rw [h.unindent_eq hk, withoutBlanks_ofLines, List.flatMap_map]
          simp only [hout]
      _ = (inner ++ [last]).flatMap withoutBlanks := by
          simp only [List.flatMap_append, List.flatMap_singleton, withoutBlanks_trimEnd]
      _ = s.lines.flatMap withoutBlanks := by
          simp only [h.lines_eq, List.flatMap_append, flatMap_withoutBlanks_eq_nil h.above_blank,
            flatMap_withoutBlanks_eq_nil h.below_blank, List.nil_append, List.append_nil]
      _ = s.withoutBlanks := by rw [← withoutBlanks_ofLines, ofLines_lines]

/-- The lines of an unindented text are those of the text from the first to the last that is not blank, each of which
loses the same number of characters of indentation, as far as it has them; the last line also loses the blank characters
at its end. That number is as large as it can be. Lines that are not blank keep what they are indented more than others,
and the characters that are not blank are kept in order. -/
theorem unindent_keeps_lines (s : Text) (h : ∃ c ∈ s, isBlank c = false) :
    ∃ above inner last below k kept left,
      Core s above inner last below ∧
      List.Forall₂ (Loses k) (inner ++ [last]) (kept ++ [left]) ∧
      s.unindent.lines = kept ++ [left.trimEnd] ∧
      IsGreatest {j | ∃ lefts, List.Forall₂ (Loses j) (inner ++ [last]) lefts} k ∧
      List.Forall₂ (fun line left => line.allBlank = false → line.indentation = k + left.indentation)
        (inner ++ [last]) s.unindent.lines ∧
      s.unindent.withoutBlanks = s.withoutBlanks := by
  obtain ⟨above, inner, last, below, hcore⟩ := exists_core (allBlank_eq_false_iff.2 h)
  obtain ⟨k, hk⟩ := hcore.exists_sharesIndentation
  exact ⟨above, inner, last, below, k, inner.map (outdent k), outdent k last, hcore, Core.forall₂_loses hk,
    hcore.lines_unindent_eq_append hk, Core.isGreatest hk, hcore.forall₂_indentation hk, withoutBlanks_unindent s⟩

/-- A text with a blank line above that holds a no-break space, and within it one that is indented less than the
others. -/
theorem unindent_keeps_lines_blank :
    (∃ c ∈ "\u00a0\n  \tx \n \r\n   y\u3000\n".toList, isBlank c = false) ∧
    ∃ above inner last below k kept left,
      Core "\u00a0\n  \tx \n \r\n   y\u3000\n".toList above inner last below ∧
      List.Forall₂ (Loses k) (inner ++ [last]) (kept ++ [left]) ∧
      lines "x \n\r\ny".toList = kept ++ [left.trimEnd] ∧
      IsGreatest {j | ∃ lefts, List.Forall₂ (Loses j) (inner ++ [last]) lefts} k := by
  have h : ∃ c ∈ "\u00a0\n  \tx \n \r\n   y\u3000\n".toList, isBlank c = false :=
    ⟨'x', by simp, by decide⟩
  have hshort : unindent "\u00a0\n  \tx \n \r\n   y\u3000\n".toList = "x \n\r\ny".toList := by decide +kernel
  obtain ⟨above, inner, last, below, k, kept, left, hcore, hloses, hlines, hgreatest, -⟩ := unindent_keeps_lines _ h
  exact ⟨h, above, inner, last, below, k, kept, left, hcore, hloses, hshort ▸ hlines, hgreatest⟩

end Text

end HtmlHighlight
