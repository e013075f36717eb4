import HtmlHighlight.Proofs.AdjacentElements
import HtmlHighlight.Proofs.Backtracking
import HtmlHighlight.Proofs.CommentMarks
import HtmlHighlight.Proofs.ReadingRules

/-!
# Where comments stand

A text is scanned for comments by its delimiters alone (`Comment.Scanned`): the scan goes to the first opening, from the
end of that opening to the first closing, and starts again after it; where an opening has no closing it stops, and all
that is left is copied. Each of the three ways in which the scan goes on has its equation in the pass over the text
(`Renderer.markComments_eq_self_of_not_infix`, `markComments_unclosed`, `markComments_scanned`), and every text is
scanned in one of them (`Comment.exists_scanned`). So marking the comments of a text is scanning it, and it is
replacing the matches of the regular expression for comments.
-/

namespace HtmlHighlight

namespace Comment

/-! ## The scan for comments -/

/-- The text that is written for `s` when it is scanned for comments: up to the first opening it is copied, a comment
from there through the first closing after the opening is styled, and the scan starts again after it. An opening without
a closing ends the scan, as the end of the text does, and what is left is copied. -/
inductive Scanned (style : Text → Text) : (s written : Text) → Prop
  | noOpening {s : Text} : ¬ opening <:+: s → Scanned style s s
  | unclosed {before rest : Text} :
    Text.FirstAt before opening rest → ¬ closing <:+: rest →
      Scanned style (before ++ opening ++ rest) (before ++ opening ++ rest)
  | comment {before body rest written : Text} :
    Text.FirstAt before opening (body ++ closing ++ rest) → Text.FirstAt body closing rest →
      Scanned style rest written →
      Scanned style (before ++ opening ++ (body ++ closing ++ rest))
        (before ++ style (opening ++ body ++ closing) ++ written)

/-- Every text can be scanned. -/
theorem exists_scanned (style : Text → Text) (s : Text) : ∃ written, Scanned style s written := by
  induction hn : s.length using Nat.strongRecOn generalizing s with
  | ind n ih =>
    cases ho : Text.cutAt? opening s with
    | none => exact ⟨s, .noOpening (Text.cutAt?_eq_none_iff.1 ho)⟩
    | some q =>
      obtain ⟨before, u⟩ := q
      obtain ⟨rfl, hbefore⟩ := Text.cutAt?_eq_some_iff.1 ho
      cases hc : Text.cutAt? closing u with
      | none => exact ⟨_, .unclosed hbefore (Text.cutAt?_eq_none_iff.1 hc)⟩
      | some q =>
        obtain ⟨body, rest⟩ := q
        obtain ⟨rfl, hbody⟩ := Text.cutAt?_eq_some_iff.1 hc
        have hlen : rest.length < n := by
          have hpos : 0 < opening.length := by decide
          simp only [List.length_append] at hn
          omega
        obtain ⟨written, hw⟩ := ih rest.length hlen rest rfl
        exact ⟨_, .comment hbefore hbody hw⟩

/-- Nothing that is read before the first opening of a text depends on the opening. -/
theorem parts_of_firstAt {before rest : Text} (h : Text.FirstAt before opening rest) :
    pattern.Parts before (opening ++ rest) := by
  intro s hs hne
  obtain ⟨a, rfl⟩ := hs
  -- an opening at a place before the first one
  have hn : ∀ z, s ++ (opening ++ rest) ≠ opening ++ z := by
    intro z hz
    have hle := h a z (by simp only [List.append_assoc, hz])
    have hpos := List.length_pos_iff.2 hne
    simp only [List.length_append] at hle
    omega
  have hfar : front? (s ++ (opening ++ rest)) = none := by
    rw [Option.eq_none_iff_forall_ne_some]
    intro q hq
    obtain ⟨z, hz⟩ := opening_prefix_of_front? hq
    exact hn z hz.symm
  have hnear : front? s = none := by
    rw [Option.eq_none_iff_forall_ne_some]
    intro q hq
    obtain ⟨z, hz⟩ := opening_prefix_of_front? hq
    exact hn (z ++ (opening ++ rest)) (by rw [← hz, List.append_assoc])
  rw [pattern_front?, pattern_front?, hfar, hnear]
  rfl

/-! ## The regular expression for comments -/

/-- The regular expression for comments: an opening, as little as possible, and a closing. -/
def regex : Regex :=
  .seq (.text opening) (.seq (.many true fun _ => true) (.text closing))

/-- The first of the ways in which the expression reads a text is the comment that is read. -/
theorem head?_ways_regex (s : Text) :
    (regex.ways s).head? = (front? s).map fun (c, rest) => ⟨c.source, [], rest⟩ := by
  rw [Regex.head?_ways, regex, Regex.tryWays_seq, Regex.tryWays_text, front?]
  simp only [Regex.tryWays_seq]
  cases Text.after? opening s with
  | none => rfl
  | some u =>
    rw [Option.bind_some, Regex.tryWays_lazy_text, Option.map_map]
    cases Text.cutAt? closing u with
    | none => rfl
    | some q => simp [Regex.Way.append, source]

/-- A comment as a match of the expression. -/
def toMatch (c : Comment) : Regex.Match :=
  ⟨c.source, [], pattern.source_ne_nil c⟩

end Comment

namespace Renderer

variable (r : Renderer)

/-- A match of the expression for comments as the renderer marks it. -/
def writeCommentMatch (m : Regex.Match) : Text :=
  r.style .comment m.matched

theorem markComments_unclosed {before rest : Text} (h : Text.FirstAt before Comment.opening rest)
    (hc : ¬ Comment.closing <:+: rest) :
    r.markComments (before ++ Comment.opening ++ rest) = before ++ Comment.opening ++ rest := by
  refine markComments_eq_self fun a b c he => hc ?_
  -- the opening of a comment stands no earlier than the first one, so its closing stands after that one
  have hle := h a (b ++ Comment.closing ++ c) (by rw [he]; simp only [List.append_assoc])
  have hleft : b ++ Comment.closing ++ c <:+ before ++ Comment.opening ++ rest :=
    ⟨a ++ Comment.opening, by rw [he]; simp only [List.append_assoc]⟩
  have hrest : b ++ Comment.closing ++ c <:+ rest := by
    refine List.suffix_of_suffix_length_le hleft (List.suffix_append ..) ?_
    have hlen := congrArg List.length he
    simp only [List.length_append] at hlen ⊢
    omega
  exact (List.infix_append b Comment.closing c).trans hrest.isInfix

theorem markComments_scanned {before body rest : Text}
    (h : Text.FirstAt before Comment.opening (body ++ Comment.closing ++ rest))
    (hc : Text.FirstAt body Comment.closing rest) :
    r.markComments (before ++ Comment.opening ++ (body ++ Comment.closing ++ rest)) =
      before ++ r.style .comment (Comment.opening ++ body ++ Comment.closing) ++ r.markComments rest := by
  have hbefore : r.markComments before = before := by
    refine r.markComments_eq_self_of_not_infix ?_
    exact Text.not_infix_of_cutAt? (by decide) (Text.cutAt?_eq_some_iff.2 ⟨rfl, h⟩)
  have hf : Comment.pattern.front? (Comment.opening ++ (body ++ Comment.closing ++ rest)) = some (⟨body⟩, rest) := by
    rw [Comment.pattern_front?, Comment.front?_opening, Text.cutAt?_eq_some_iff.2 ⟨rfl, hc⟩]
    rfl
  calc r.markComments (before ++ Comment.opening ++ (body ++ Comment.closing ++ rest))
      = Comment.pattern.replace r.writeComment
          (before ++ (Comment.opening ++ (body ++ Comment.closing ++ rest))) := by
        rw [markComments_eq_replace, List.append_assoc before]
    _ = r.markComments before ++
          Comment.pattern.replace r.writeComment (Comment.opening ++ (body ++ Comment.closing ++ rest)) := by
        rw [Comment.pattern.replace_append _ (Comment.parts_of_firstAt h), markComments_eq_replace]
    _ = before ++ r.style .comment (Comment.opening ++ body ++ Comment.closing) ++ r.markComments rest := by
        rw [hbefore, Comment.pattern.replace_of_front? _ hf, ← markComments_eq_replace, List.append_assoc]
        rfl

theorem markComments_of_scanned {s written : Text} (h : Comment.Scanned (r.style .comment) s written) :
    r.markComments s = written := by
  induction h with
  | noOpening h => exact r.markComments_eq_self_of_not_infix h
  | unclosed h hc => exact r.markComments_unclosed h hc
  | comment h hc _ ih => rw [r.markComments_scanned h hc, ih]

/-- Marking the comments of a text is replacing the matches of the regular expression for comments, and it is scanning
the text for an opening and the first closing after it, again and again, up to an opening that has no closing. -/
theorem markComments_eq_iff_scanned (s : Text) :
    r.markComments s = Comment.regex.pattern.replace r.writeCommentMatch s ∧
      ∀ written, r.markComments s = written ↔ Comment.Scanned (r.style .comment) s written := by
  constructor
  · rw [markComments_eq_replace]
    refine Eq.symm ?_
    exact Regex.replace_eq_replace Comment.toMatch Comment.head?_ways_regex (fun _ => rfl) s
  · intro written
    constructor
    · rintro rfl
      obtain ⟨written, hw⟩ := Comment.exists_scanned (r.style .comment) s
      rwa [r.markComments_of_scanned hw]
    · exact r.markComments_of_scanned

-- the dashes of an opening are no part of a closing, and an opening inside a comment opens nothing
example : html.markComments "&lt;!--&gt;&lt;!--x--&gt;&lt;!--".toList =
    "<span class=\"highlight-comment\">&lt;!--&gt;&lt;!--x--&gt;</span>&lt;!--".toList := by decide +kernel

end Renderer

end HtmlHighlight
