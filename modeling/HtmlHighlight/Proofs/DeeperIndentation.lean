import HtmlHighlight.Proofs.CommonIndentation

/-!
# Indenting a text further

How far a text is indented as a whole does not matter to `Text.unindent`: with `n` spaces or tabs in front of each of its
lines, not necessarily the same ones, it gives the same result (`Text.unindent_of_deepens`). The lines that are not blank
stay where they are in the text, since a line is blank with its new indentation if it was before (`Text.Core.deepen`);
they now share `n` characters more (`Text.SharesIndentation.deepen`), and each line loses these in addition to what it
lost before (`Text.Deepens.outdent_eq`).
-/

namespace HtmlHighlight

namespace Text

/-- The first of two texts is indentation of `n` characters for the second, which is a line. -/
structure Deepens (n : Nat) (q : Text × Text) : Prop where
  length_eq : q.1.length = n
  isIndent : ∀ c ∈ q.1, isIndent c = true

/-- A line with something in front of it. -/
def inFront (q : Text × Text) : Text :=
  q.1 ++ q.2

namespace Deepens

variable {n : Nat} {q : Text × Text}

theorem allBlank_eq (h : Deepens n q) : (inFront q).allBlank = q.2.allBlank :=
  allBlank_append_of_isIndent h.isIndent q.2

theorem indentation_eq (h : Deepens n q) : (inFront q).indentation = n + q.2.indentation := by
  rw [inFront, indentation_append h.isIndent, h.length_eq]

theorem trimEnd_eq (hb : q.2.allBlank = false) : (inFront q).trimEnd = inFront (q.1, q.2.trimEnd) :=
  trimEnd_append_of_not_allBlank q.1 hb

/-- What is taken from a line with `n` more characters of indentation are these and what was taken from it before. -/
theorem outdent_eq (h : Deepens n q) (k : Nat) : outdent (n + k) (inFront q) = outdent k q.2 := by
  rw [outdent, h.indentation_eq, Nat.add_min_add_left, inFront, ← List.drop_drop, ← h.length_eq, List.drop_left, outdent]

end Deepens

variable {n k : Nat}

theorem SharesIndentation.deepen {qs : List (Text × Text)} (hqs : ∀ q ∈ qs, Deepens n q)
    (h : SharesIndentation (qs.map Prod.snd) k) : SharesIndentation (qs.map inFront) (n + k) := by
  constructor
  · intro l hl hb
    obtain ⟨q, hq, rfl⟩ := List.mem_map.1 hl
    rw [(hqs q hq).allBlank_eq] at hb
    rw [(hqs q hq).indentation_eq]
    exact Nat.add_le_add_left (h.le q.2 (List.mem_map_of_mem hq) hb) n
  · obtain ⟨l, hl, hb, hk⟩ := h.exists_eq
    obtain ⟨q, hq, rfl⟩ := List.mem_map.1 hl
    refine ⟨inFront q, List.mem_map_of_mem hq, ?_, ?_⟩
    · rw [(hqs q hq).allBlank_eq, hb]
    · rw [(hqs q hq).indentation_eq, hk]

/-- The lines from the first to the last that is not blank are the same ones, with their new indentation. -/
theorem Core.deepen {s t : Text} {above inner : List Text} {last : Text} {below : List Text} {qs : List (Text × Text)}
    (h : Core s above inner last below) (hqs : ∀ q ∈ qs, Deepens n q) (hs : s.lines = qs.map Prod.snd)
    (ht : t.lines = qs.map inFront) :
    ∃ as is q bs, qs = as ++ (is ++ [q]) ++ bs ∧ is.map Prod.snd = inner ∧ q.2 = last ∧
      Core t (as.map inFront) (is.map inFront) (inFront q) (bs.map inFront) := by
  have hsplit := hs.symm.trans h.lines_eq
  obtain ⟨front, bs, rfl, hfront, hbs⟩ := List.map_eq_append_iff.1 hsplit
  obtain ⟨as, block, rfl, has, hblock⟩ := List.map_eq_append_iff.1 hfront
  obtain ⟨is, tail, rfl, his, htail⟩ := List.map_eq_append_iff.1 hblock
  obtain ⟨q, rfl, hq⟩ := List.map_eq_singleton_iff.1 htail
  have hblank : ∀ q' ∈ as ++ (is ++ [q]) ++ bs, (inFront q').allBlank = q'.2.allBlank :=
    fun q' hq' => (hqs q' hq').allBlank_eq
  refine ⟨as, is, q, bs, rfl, his, hq, ?_, ?_, ?_, ?_, ?_⟩
  · rw [ht]
    simp only [List.map_append, List.map_singleton]
  · intro l hl
    obtain ⟨q', hq', rfl⟩ := List.mem_map.1 hl
    rw [hblank q' (by simp [hq'])]
    exact h.above_blank _ (has ▸ List.mem_map_of_mem hq')
  · intro l hl
    obtain ⟨q', hq', rfl⟩ := List.mem_map.1 hl
    rw [hblank q' (by simp [hq'])]
    exact h.below_blank _ (hbs ▸ List.mem_map_of_mem hq')
  · intro l hl
    rw [← List.map_singleton, ← List.map_append, List.head?_map] at hl
    obtain ⟨q', hq', rfl⟩ := Option.map_eq_some_iff.1 hl
    rw [hblank q' (List.mem_append_left bs (List.mem_append_right as (List.mem_of_head? hq')))]
    refine h.first_not_blank q'.2 ?_
    rw [← hblock, List.head?_map, hq']
    rfl
  · rw [hblank q (by simp), hq, h.last_not_blank]

/-- A text whose lines are those of another with `n` more characters of indentation each is unindented to the same. -/
theorem unindent_of_deepens {s t : Text} {qs : List (Text × Text)} (hqs : ∀ q ∈ qs, Deepens n q)
    (hs : s.lines = qs.map Prod.snd) (ht : t.lines = qs.map inFront) : t.unindent = s.unindent := by
  cases hsb : s.allBlank with
  | true =>
    have htb : t.allBlank = true := by
      rw [allBlank_eq_all_lines, hs, List.all_map, List.all_eq_true] at hsb
      rw [allBlank_eq_all_lines, ht, List.all_map, List.all_eq_true]
      intro q hq
      rw [Function.comp_apply, (hqs q hq).allBlank_eq]
      exact hsb q hq
    rw [unindent_of_allBlank hsb, unindent_of_allBlank htb]
  | false =>
    obtain ⟨above, inner, last, below, h⟩ := exists_core hsb
    obtain ⟨k, hk⟩ := h.exists_sharesIndentation
    obtain ⟨as, is, q, bs, rfl, rfl, rfl, h'⟩ := h.deepen hqs hs ht
    have hblock : ∀ q' ∈ is ++ [q], Deepens n q' :=
      fun q' hq' => hqs q' (List.mem_append_left bs (List.mem_append_right as hq'))
    have hk' : SharesIndentation (is.map inFront ++ [inFront q]) (n + k) := by
      rw [← List.map_singleton, ← List.map_append] at hk ⊢
      exact hk.deepen hblock
    -- the last line without the blank characters at its end
    have hq : Deepens n (q.1, q.2.trimEnd) := ⟨(hblock q (by simp)).length_eq, (hblock q (by simp)).isIndent⟩
    rw [h'.unindent_eq hk', h.unindent_eq hk, Deepens.trimEnd_eq h.last_not_blank]
    simp only [List.map_append, List.map_map, List.map_singleton, hq.outdent_eq]
    congr 2
    exact List.map_congr_left fun q' hq' => (hblock q' (by simp [hq'])).outdent_eq k

/-- With `n` spaces or tabs in front of each line, chosen anew for each one, a text is unindented to the same. -/
theorem unindent_zipWith_append (s : Text) (n : Nat) (indents : List Text) (hlen : indents.length = s.lines.length)
    (hindents : ∀ p ∈ indents, p.length = n ∧ ∀ c ∈ p, c = ' ' ∨ c = '\t') :
    (ofLines (List.zipWith (· ++ ·) indents s.lines)).unindent = s.unindent := by
  have hzip : List.zipWith (· ++ ·) indents s.lines = (indents.zip s.lines).map inFront := by
    rw [List.map_zip_eq_zipWith]
    rfl
  have hqs : ∀ q ∈ indents.zip s.lines, Deepens n q := by
    intro q hq
    obtain ⟨hn, hc⟩ := hindents q.1 (List.of_mem_zip hq).1
    exact ⟨hn, fun c hcq => by simpa [isIndent] using hc c hcq⟩
  refine unindent_of_deepens hqs (List.map_snd_zip (by omega)).symm ?_
  rw [hzip, lines_ofLines]
  · rw [← hzip, Ne, List.zipWith_eq_nil_iff]
    have hpos := List.length_pos_iff.2 (lines_ne_nil s)
    rintro (hnil | hnil)
    · rw [hnil, List.length_nil] at hlen
      omega
    · exact lines_ne_nil s hnil
  · intro l hl hlf
    obtain ⟨q, hq, rfl⟩ := List.mem_map.1 hl
    rcases List.mem_append.1 hlf with hlf | hlf
    · exact absurd ((hqs q hq).isIndent '\n' hlf) (by decide)
    · exact not_mem_of_mem_lines (List.of_mem_zip hq).2 hlf

/-- The text begins with a blank line that holds a carriage return, and of the blank lines within it one is longer than
the common indentation and one shorter. -/
theorem unindent_zipWith_append_blank :
    [[' ', ' '], ['\t', '\t'], [' ', '\t'], ['\t', ' '], [' ', ' '], ['\t', '\t']].length =
      (lines "\r\n  a \n\n   \n\t b\n".toList).length ∧
    (∀ p ∈ [[' ', ' '], ['\t', '\t'], [' ', '\t'], ['\t', ' '], [' ', ' '], ['\t', '\t']],
      p.length = 2 ∧ ∀ c ∈ p, c = ' ' ∨ c = '\t') ∧
    (ofLines (List.zipWith (· ++ ·)
      [[' ', ' '], ['\t', '\t'], [' ', '\t'], ['\t', ' '], [' ', ' '], ['\t', '\t']]
      (lines "\r\n  a \n\n   \n\t b\n".toList))).unindent = "a \n\n \nb".toList := by
  have hlen : [[' ', ' '], ['\t', '\t'], [' ', '\t'], ['\t', ' '], [' ', ' '], ['\t', '\t']].length =
      (lines "\r\n  a \n\n   \n\t b\n".toList).length := by decide +kernel
  have hindents : ∀ p ∈ [[' ', ' '], ['\t', '\t'], [' ', '\t'], ['\t', ' '], [' ', ' '], ['\t', '\t']],
      p.length = 2 ∧ ∀ c ∈ p, c = ' ' ∨ c = '\t' := by simp
  have hshort : unindent "\r\n  a \n\n   \n\t b\n".toList = "a \n\n \nb".toList := by decide +kernel
  exact ⟨hlen, hindents, (unindent_zipWith_append _ 2 _ hlen hindents).trans hshort⟩

end Text

end HtmlHighlight
