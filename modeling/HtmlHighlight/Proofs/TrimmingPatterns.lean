import HtmlHighlight.Proofs.Backtracking
import HtmlHighlight.Proofs.CommonIndentation
import HtmlHighlight.Proofs.Search

/-!
# Trimming by patterns

The outer blank space of a text can be taken away by two regular expressions: one for blank characters and a line feed
after them, matched at the front, and one for blank characters up to the end of the text. The first takes as many blank
characters as it can and gives them back up to a line feed, so it reads through the last line feed before the first
line that is not blank (`Text.trimFront_ofLines`). The second is tried at one place after the other and matches first
where only blank characters are left (`Text.trimBack_eq_trimEnd`).

`Text.unindent_eq_unindentStepwise` says that unindenting a text is trimming it by these two expressions, one after the
other, and then stripping each line of the smallest indentation of a line that is not blank.
-/

namespace HtmlHighlight

namespace Text

/-- Blank characters, as many as possible, and a line feed. -/
def frontRegex : Regex :=
  .seq (.many false isBlank) (.text ['\n'])

/-- Blank characters, at least one and as many as possible. -/
def backRegex : Regex :=
  .atLeastOne false isBlank

/-- A text without the match of `frontRegex` at its front. -/
def trimFront (s : Text) : Text :=
  match (frontRegex.ways s).head? with
  | some x => x.rest
  | none => s

/-- A text without the first match of `backRegex` that ends where the text ends. -/
def trimBack : Text → Text
  | [] => []
  | c :: s =>
    match (backRegex.ways (c :: s)).find? (·.rest = []) with
    | some _ => []
    | none => c :: trimBack s

/-- A line without the spaces and tabs among its first characters, up to the first that is neither; `limit` is the
number of characters that are looked at. -/
def stripIndentation (limit : Nat) (line : Text) : Text :=
  line.drop ((line.take limit).takeWhile isIndent).length

/-- A text that is trimmed at its front and then at its back, with the smallest indentation of a line that is not blank
stripped off all lines. -/
def unindentStepwise (s : Text) : Text :=
  let ls := (trimBack (trimFront s)).lines
  match ((ls.filter fun line => !line.allBlank).map indentation).min? with
  | none => []
  | some smallest => ofLines (ls.map (stripIndentation smallest))

/-! ## The front -/

/-- What is left after the last line feed in the blank characters that a text begins with. -/
def afterBlankLines? (s : Text) : Option Text :=
  (Regex.many false isBlank).tryWays s fun x => after? ['\n'] x.rest

theorem trimFront_eq (s : Text) : trimFront s = (afterBlankLines? s).getD s := by
  have hrest : ((frontRegex.ways s).head?).map Regex.Way.rest = afterBlankLines? s := by
    rw [Regex.head?_ways, frontRegex, Regex.tryWays_seq, Regex.map_tryWays, afterBlankLines?]
    congr 1
    funext x
    rw [Regex.tryWays_text]
    cases after? ['\n'] x.rest <;> rfl
  rw [trimFront, ← hrest]
  cases (frontRegex.ways s).head? <;> rfl

theorem afterBlankLines?_cons (c : Char) (s : Text) :
    afterBlankLines? (c :: s) = (if isBlank c then afterBlankLines? s else none).or (after? ['\n'] (c :: s)) :=
  Regex.tryWays_greedy_cons isBlank c s _

theorem afterBlankLines?_of_not_mem {l : Text} (h : '\n' ∉ l) : afterBlankLines? l = none := by
  induction l with
  | nil => rfl
  | cons c l ih =>
    simp only [List.mem_cons, not_or] at h
    rw [afterBlankLines?_cons, ih h.2, after?_cons_eq_none (Ne.symm h.1), ite_self]
    rfl

/-- A line that is not blank is the first; a blank one before others is left, if these do not begin with blank lines
themselves. -/
theorem afterBlankLines?_append_cons {l : Text} (h : '\n' ∉ l) (s : Text) :
    afterBlankLines? (l ++ '\n' :: s) = if l.allBlank then (afterBlankLines? s).or (some s) else none := by
  induction l with
  | nil =>
    rw [List.nil_append, afterBlankLines?_cons]
    rfl
  | cons c l ih =>
    simp only [List.mem_cons, not_or] at h
    rw [List.cons_append, afterBlankLines?_cons, ih h.2, after?_cons_eq_none (Ne.symm h.1), Option.or_none]
    cases hc : isBlank c <;> simp [allBlank, hc]

/-- The front is trimmed of all blank lines before the first line that is not blank. -/
theorem trimFront_ofLines {above : List Text} {first : Text} {ls : List Text}
    (hline : ∀ l ∈ above ++ first :: ls, '\n' ∉ l) (habove : ∀ l ∈ above, l.allBlank = true)
    (hfirst : first.allBlank = false) :
    trimFront (ofLines (above ++ first :: ls)) = ofLines (first :: ls) := by
  induction above with
  | nil =>
    have hlf := hline first (by simp)
    rw [List.nil_append, trimFront_eq, ofLines_cons]
    cases ls with
    | nil => rw [List.flatMap_nil, List.append_nil, afterBlankLines?_of_not_mem hlf]; rfl
    | cons l ls =>
      rw [List.flatMap_cons, List.cons_append, afterBlankLines?_append_cons hlf, hfirst]
      rfl
  | cons l above ih =>
    rw [List.cons_append, List.forall_mem_cons] at hline
    rw [List.forall_mem_cons] at habove
    have hrest := ih hline.2 habove.2
    have hcut : ofLines (l :: (above ++ first :: ls)) = l ++ '\n' :: ofLines (above ++ first :: ls) := by
      rw [ofLines, List.intercalate_cons_of_ne_nil (by simp), List.append_assoc]
      rfl
    rw [trimFront_eq] at hrest
    rw [List.cons_append, trimFront_eq, hcut, afterBlankLines?_append_cons hline.1, habove.1, if_pos rfl]
    cases ha : afterBlankLines? (ofLines (above ++ first :: ls)) with
    | none => rwa [ha] at hrest
    | some u => rwa [ha] at hrest

/-- What is left at the front is the end of the text. -/
theorem trimFront_suffix (s : Text) : trimFront s <:+ s := by
  rw [trimFront]
  split
  next x hx => exact ⟨x.matched, (Regex.eq_append_of_mem_ways (List.mem_of_head? hx)).symm⟩
  next => exact List.suffix_refl s

/-! ## The back -/

/-- From a place in a text, blank characters can be read to the end if no others are left. -/
theorem isSome_find?_backRegex (c : Char) (s : Text) :
    ((backRegex.ways (c :: s)).find? (·.rest = [])).isSome = allBlank (c :: s) := by
  have htry : (backRegex.ways (c :: s)).find? (·.rest = []) =
      backRegex.tryWays (c :: s) (Option.guard (·.rest = [])) := by
    rw [List.find?_eq_findSome?_guard, Regex.tryWays]
  -- the end of the text does not stand before a character
  have hholds : Regex.HoldsOn isBlank (c :: s) (Option.guard (·.rest = [])) := by
    intro x d rest _ _ _
    simp [Option.guard]
  rw [htry, backRegex, Regex.tryWays_atLeastOne fun _ => hholds]
  cases hb : allBlank (c :: s) with
  | true =>
    have hall := List.all_eq_true.1 hb
    rw [List.takeWhile_eq_self_iff.2 hall, List.dropWhile_eq_nil_iff.2 hall]
    simp
  | false =>
    have hdrop : (c :: s).dropWhile isBlank ≠ [] := by
      rw [Ne, List.dropWhile_eq_nil_iff]
      intro hall
      rw [allBlank, List.all_eq_true.2 hall] at hb
      cases hb
    split
    · rfl
    · simp [Option.guard, hdrop]

theorem trimEnd_cons (c : Char) (s : Text) :
    trimEnd (c :: s) = if allBlank (c :: s) then [] else c :: trimEnd s := by
  split
  next hb => exact trimEnd_eq_nil hb
  next hb =>
    cases hs : allBlank s with
    | false => exact trimEnd_append_of_not_allBlank [c] hs
    | true =>
      have hc : isBlank c = false := by
        rw [← List.singleton_append, allBlank_append, hs, Bool.and_true, Bool.not_eq_true] at hb
        simpa [allBlank] using hb
      have hself : trimEnd [c] = [c] := trimEnd_eq_self (by simpa using hc)
      rw [← List.singleton_append, trimEnd_append_of_allBlank [c] hs, hself, trimEnd_eq_nil hs]

theorem trimBack_eq_trimEnd (s : Text) : trimBack s = s.trimEnd := by
  induction s with
  | nil => rfl
  | cons c s ih =>
    have hback := isSome_find?_backRegex c s
    rw [trimBack, trimEnd_cons, ← hback, ih]
    cases (backRegex.ways (c :: s)).find? (·.rest = []) <;> rfl

/-! ## Unindenting step by step -/

theorem stripIndentation_eq_outdent (k : Nat) (line : Text) : stripIndentation k line = outdent k line := by
  rw [stripIndentation, outdent, indentation, ← List.length_take, List.take_takeWhile]

theorem Core.trimFront {s : Text} {above inner : List Text} {last : Text} {below : List Text}
    (h : Core s above inner last below) : Core (trimFront s) [] inner last below := by
  obtain ⟨first, tail, hblock⟩ := List.exists_cons_of_ne_nil (show inner ++ [last] ≠ [] by simp)
  have hfirst : first.allBlank = false := h.first_not_blank first (by rw [hblock]; rfl)
  have hlines : s.lines = above ++ first :: (tail ++ below) := by
    rw [h.lines_eq, hblock, List.append_assoc, List.cons_append]
  have hline : ∀ l ∈ above ++ first :: (tail ++ below), '\n' ∉ l := by
    rw [← hlines]
    exact fun l => not_mem_of_mem_lines
  have hfront : Text.trimFront s = ofLines (first :: (tail ++ below)) := by
    rw [← trimFront_ofLines hline h.above_blank hfirst, ← hlines, ofLines_lines]
  refine ⟨?_, by simp, h.below_blank, h.first_not_blank, h.last_not_blank⟩
  rw [hfront, lines_ofLines (List.cons_ne_nil _ _) fun l hl => hline l (List.mem_append_right above hl),
    List.nil_append, hblock, List.cons_append]

/-- Unindenting a text is trimming it by the two expressions and stripping its lines. -/
theorem unindent_eq_unindentStepwise (s : Text) : s.unindent = s.unindentStepwise := by
  cases hs : s.allBlank with
  | true =>
    have hfront : (trimFront s).allBlank = true := by
      obtain ⟨t, ht⟩ := trimFront_suffix s
      rw [← ht, allBlank_append, Bool.and_eq_true] at hs
      exact hs.2
    rw [unindent_of_allBlank hs, unindentStepwise, trimBack_eq_trimEnd, trimEnd_eq_nil hfront]
    rfl
  | false =>
    obtain ⟨above, inner, last, below, h⟩ := exists_core hs
    have hstrip : stripIndentation = outdent := funext fun k => funext (stripIndentation_eq_outdent k)
    rw [unindent, h.dropWhile_lines_trimEnd, unindentStepwise, trimBack_eq_trimEnd, h.trimFront.lines_trimEnd, hstrip]
    rfl

end Text

end HtmlHighlight
