import HtmlHighlight.Proofs.RunMarks
import HtmlHighlight.Proofs.SpanReading

/-!
# What is shown as part of a comment

An output says of each character whether it is shown as part of a comment: whether an element with the class
of comments is open around it (`shownComments`). After the passes over comments and runs this need not be
the same as standing in a comment (`Comment.coverage`): the run that begins right after a comment begins
with the marker that ends the comment, and once the run is styled that marker ends the element of the run
instead. `shownComments_eq_coverage_iff` says for which sources the two agree.
-/

namespace HtmlHighlight

/-- The characters of a text, all with the same mark. -/
def flag (b : Bool) (s : Text) : List (Char × Bool) :=
  s.map (·, b)

@[simp] theorem flag_nil (b : Bool) : flag b [] = [] := rfl

@[simp] theorem flag_append (b : Bool) (s t : Text) : flag b (s ++ t) = flag b s ++ flag b t :=
  List.map_append

@[simp] theorem map_fst_flag (b : Bool) (s : Text) : (flag b s).map Prod.fst = s := by
  rw [flag, List.map_map]
  exact List.map_id s

/-- Of two marks for the same text, only one can be right unless the text is empty. -/
theorem flag_true_append_eq_flag_false_append {x : Text} {l k : List (Char × Bool)} :
    flag true x ++ l = flag false x ++ k ↔ x = [] ∧ l = k := by
  cases x with
  | nil => simp
  | cons c x => simp [flag]

namespace Comment

/-- The characters of a piece of a searched text, each with whether it stands in a comment. -/
def covered : Segment Comment → List (Char × Bool)
  | .gap c => [(c, false)]
  | .hit c => flag true c.source

/-- The characters of a text, each with whether it stands in a comment. -/
def coverage (s : Text) : List (Char × Bool) :=
  (pattern.segments s).flatMap covered

@[simp] theorem covered_gaps (a : Text) : (a.map .gap).flatMap covered = flag false a := by
  rw [List.flatMap_map, flag, List.map_eq_flatMap]
  rfl

theorem coverage_of_segments {s before rest : Text} {c : Comment}
    (h : pattern.segments s = before.map .gap ++ .hit c :: pattern.segments rest) :
    coverage s = flag false before ++ (flag true c.source ++ coverage rest) := by
  rw [coverage, h, List.flatMap_append, covered_gaps, List.flatMap_cons]
  rfl

theorem coverage_of_segments_eq_map {s : Text} (h : pattern.segments s = s.map .gap) :
    coverage s = flag false s := by
  rw [coverage, h, covered_gaps]

theorem coverage_append_of_not_mem {a : Text} (h : '&' ∉ a) (b : Text) :
    coverage (a ++ b) = flag false a ++ coverage b := by
  rw [coverage, Pattern.segments_append (Pattern.parts_of_not_mem begins h b), List.flatMap_append,
    Pattern.segments_of_not_mem begins h, covered_gaps]
  rfl

theorem coverage_lt_append {s : Text} (h : front? (Entity.lt ++ s) = none) :
    coverage (Entity.lt ++ s) = flag false Entity.lt ++ coverage s := by
  rw [Entity.lt_eq, List.cons_append] at h ⊢
  rw [coverage, pattern.segments_of_front?_eq_none h, List.flatMap_cons]
  exact congrArg _ (coverage_append_of_not_mem (by decide) s)

end Comment

namespace Renderer

/-! ## Characters shown as part of a comment -/

/-- Whether one of the classes is that of comments. -/
def inComment (classes : List Text) : Bool :=
  Kind.comment.cssClass.toList ∈ classes

/-- The characters of an output, tags of elements apart, each with whether it is shown as part of a comment.
`classes` are those of the elements open at its beginning. -/
def shownComments (classes : List Text) (s : Text) : List (Char × Bool) :=
  (enclosures classes s).map fun (c, around) => (c, inComment around)

theorem shownComments_append {a : Text} (h : '<' ∉ a) (classes : List Text) (b : Text) :
    shownComments classes (a ++ b) = flag (inComment classes) a ++ shownComments classes b := by
  rw [shownComments, enclosures_append h, List.map_append, List.map_map]
  rfl

theorem shownComments_spanStart (k : Kind) (classes : List Text) (s : Text) :
    shownComments classes (spanStart k ++ s) = shownComments (k.cssClass.toList :: classes) s := by
  rw [shownComments, enclosures_spanStart, shownComments]

theorem shownComments_spanEnd (classes : List Text) (s : Text) :
    shownComments classes (spanEnd ++ s) = shownComments classes.tail s := by
  rw [shownComments, enclosures_spanEnd, shownComments]

/-- Runs that hold no markers are shown where they stand. -/
theorem shownComments_markRuns {v : Text} (h : '<' ∉ v) (w : Text) (classes : List Text) (b : Text) :
    shownComments classes (markRuns w v ++ b) = flag (inComment classes) v ++ shownComments classes b := by
  induction v using TextRun.pattern.segments_induction with
  | nil => simp
  | hit v run rest hf ih =>
    rw [TextRun.pattern_front?] at hf
    obtain ⟨rfl, -, -⟩ := TextRun.front?_eq_some_iff.1 hf
    simp only [TextRun.source, List.mem_append, not_or] at h
    obtain ⟨⟨⟨hg, hc⟩, hl⟩, hr⟩ := h
    rw [markRuns_of_front? hf, TextRun.tokens]
    split
    · have ht : inComment (Kind.text.cssClass.toList :: classes) = inComment classes := by
        have hne : Kind.comment.cssClass.toList ≠ Kind.text.cssClass.toList := by decide
        simp only [inComment, List.mem_cons, hne, false_or]
      simp only [render_cons, render_nil, renderToken, html_style, List.append_assoc, List.nil_append,
        TextRun.source, flag_append]
      rw [shownComments_append hg, shownComments_spanStart, shownComments_append hc, shownComments_spanEnd,
        shownComments_append hl, List.tail_cons, ih hr, ht]
    · simp only [render_cons, render_nil, renderToken, List.append_assoc, List.nil_append, TextRun.source,
        flag_append]
      rw [shownComments_append hg, shownComments_append hc, shownComments_append hl, ih hr]
  | gap c v hf ih =>
    simp only [List.mem_cons, not_or] at h
    rw [markRuns_of_front?_eq_none hf, List.cons_append, ← List.singleton_append,
      shownComments_append (by simpa using h.1), ih h.2]
    rfl

/-! ## From one comment to the next -/

/-- No styled run takes the end of a comment's marker along with text after it, if `rest` is what stands
after the comment in a text that `w` was made of. -/
def EndsApart (w rest : Text) : Prop :=
  ∀ x after, rest = x ++ (Entity.lt ++ after) → '&' ∉ x → Comment.front? (Entity.lt ++ after) = none →
    x = [] ∨ (⟨spanEnd ++ x⟩ : TextRun).isStyled w = false

theorem endsApart_append_lt_iff {w x after : Text} (hx : '&' ∉ x)
    (hf : Comment.front? (Entity.lt ++ after) = none) :
    EndsApart w (x ++ (Entity.lt ++ after)) ↔ x = [] ∨ (⟨spanEnd ++ x⟩ : TextRun).isStyled w = false := by
  constructor
  · intro h
    exact h x after rfl hx hf
  · intro h y z he hy _
    obtain ⟨rfl, -⟩ := Text.eq_and_eq_of_append_cons (c := '&') hx hy he
    exact h

/-- A piece `s` of the text that `w` was made of, outside comments at its beginning, shows its characters,
and shows the comments among them as they are if and only if each ends apart. -/
structure ShowsComments (w s : Text) : Prop where
  chars : (shownComments [] (markRuns w (html.markComments s))).map Prod.fst = s
  eq_coverage_iff : shownComments [] (markRuns w (html.markComments s)) = Comment.coverage s ↔
    ∀ before c rest, Comment.pattern.Finds s before c rest → EndsApart w rest

/-- The same for a piece after a comment, with the end of the comment before it. -/
structure ShowsCommentsAfter (w s : Text) : Prop where
  chars : (shownComments [Kind.comment.cssClass.toList]
    (markRuns w (Entity.gt ++ (spanEnd ++ html.markComments s)))).map Prod.fst = Entity.gt ++ s
  eq_coverage_iff : shownComments [Kind.comment.cssClass.toList]
      (markRuns w (Entity.gt ++ (spanEnd ++ html.markComments s))) =
        flag true Entity.gt ++ Comment.coverage s ↔
    EndsApart w s ∧ ∀ before c rest, Comment.pattern.Finds s before c rest → EndsApart w rest

theorem shownComments_gt_spanEnd (y : Text) :
    shownComments [Kind.comment.cssClass.toList] (Entity.gt ++ (spanEnd ++ y)) =
      flag true Entity.gt ++ shownComments [] y := by
  rw [shownComments_append (by decide), shownComments_spanEnd]
  rfl

/-- What is shown if the run after a comment is styled: all of its text belongs to the comment. -/
theorem shownComments_styled {x : Text} (hx : '<' ∉ x) (y : Text) :
    shownComments [Kind.comment.cssClass.toList]
        (Entity.gt ++ (html.style .text (spanEnd ++ x) ++ (Entity.lt ++ y))) =
      flag true Entity.gt ++ (flag true x ++ (flag false Entity.lt ++ shownComments [] y)) := by
  rw [html_style, List.append_assoc, List.append_assoc, List.append_assoc,
    shownComments_append (by decide), shownComments_spanStart, shownComments_spanEnd,
    shownComments_append hx, shownComments_spanEnd, shownComments_append (by decide)]
  rfl

section Pieces

variable {t : Text}

theorem ShowsComments.of_segments_eq_map {s : Text} (hs : '<' ∉ s)
    (h : Comment.pattern.segments s = s.map .gap) (hn : ∀ b c q, ¬ Comment.pattern.Finds s b c q) (w : Text) :
    ShowsComments w s := by
  have hm : html.markComments s = s := Pattern.render_of_segments h
  have he : shownComments [] (markRuns w s) = flag false s := by
    simpa [shownComments, enclosures, enclosed, inComment] using shownComments_markRuns hs w [] []
  refine ⟨?_, ?_⟩
  · rw [hm, he]
    simp
  · rw [hm, he, Comment.coverage_of_segments_eq_map h]
    exact ⟨fun _ b c q hf => absurd hf (hn b c q), fun _ => rfl⟩

/-- A run that begins with the end of a comment's marker is not styled unless text without markers follows
and goes on to a bracket that is no comment's. -/
theorem isStyled_spanEnd_append (ht : '<' ∉ t) {s a : Text} (hs : '<' ∉ s)
    (h : html.markComments t = a ++ (Entity.gt ++ (spanEnd ++ html.markComments s)))
    (hn : ∀ x after, s = x ++ (Entity.lt ++ after) → '&' ∉ x → Comment.front? (Entity.lt ++ after) ≠ none)
    {v z : Text} (hv : '&' ∉ v) (hz : html.markComments s = v ++ (Entity.lt ++ z)) :
    (⟨spanEnd ++ v⟩ : TextRun).isStyled (html.markComments t) = false := by
  by_cases hm : '<' ∈ v
  · -- the first marker in `v` is that before a comment, and `v` ends with it
    obtain ⟨p, q, rfl, hp⟩ := List.eq_append_cons_of_mem hm
    simp only [List.mem_append, List.mem_cons, not_or] at hv
    rw [List.append_assoc, List.cons_append] at hz
    obtain ⟨-, c, rest, -, he | ⟨-, he⟩⟩ := exists_finds_of_markComments hs hz
    · have hq : '<' :: q = spanStart .comment := by
        refine (Text.eq_and_eq_of_append_cons (c := '&') ?_ (by decide) he).1
        simpa using hv.2
      rw [hq, ← List.append_assoc]
      refine isStyled_append_spanStart ht (a := a) (z := z) ?_
      rw [h, hz, ← List.cons_append, hq]
      simp [TextRun.source]
    · exact absurd (he.subset (show '&' ∈ Entity.gt by decide)) hv.1
  · obtain ⟨s', rfl, hs'⟩ := exists_of_markComments_eq_append hm hz
    have hf : Comment.front? s' = none := front?_eq_none_of_markComments hs'.symm
    obtain ⟨after, rfl, -⟩ := exists_of_markComments_eq_append (x := Entity.lt) (by decide) hs'.symm
    exact absurd hf (hn v after rfl hv)

theorem ShowsCommentsAfter.of_apart (ht : '<' ∉ t) {s a : Text} (hs : '<' ∉ s)
    (h : html.markComments t = a ++ (Entity.gt ++ (spanEnd ++ html.markComments s)))
    (hn : ∀ x after, s = x ++ (Entity.lt ++ after) → '&' ∉ x → Comment.front? (Entity.lt ++ after) ≠ none)
    (ih : ShowsComments (html.markComments t) s) : ShowsCommentsAfter (html.markComments t) s := by
  have hm := markRuns_gt_append (w := html.markComments t) (x := spanEnd) (y := html.markComments s)
    (by decide) fun v z hz hv => isStyled_spanEnd_append ht hs h hn hv hz
  have ha : EndsApart (html.markComments t) s := fun x after hx hamp hf => absurd hf (hn x after hx hamp)
  refine ⟨?_, ?_⟩
  · rw [hm, shownComments_gt_spanEnd, List.map_append, ih.chars, map_fst_flag]
  · rw [hm, shownComments_gt_spanEnd, List.append_cancel_left_eq, ih.eq_coverage_iff, and_iff_right ha]

theorem ShowsCommentsAfter.of_lt {w x after : Text} (hs : '<' ∉ x) (hx : '&' ∉ x)
    (hf : Comment.front? (Entity.lt ++ after) = none) (ih : ShowsComments w after) :
    ShowsCommentsAfter w (x ++ (Entity.lt ++ after)) := by
  have hE : '&' ∉ spanEnd ++ x := by
    rw [List.mem_append, not_or]
    exact ⟨by decide, hx⟩
  have hall := Comment.forall_finds_append_lt (P := EndsApart w) hx hf
  have hapart := endsApart_append_lt_iff (w := w) hx hf
  have hcover : flag true Entity.gt ++ Comment.coverage (x ++ (Entity.lt ++ after)) =
      flag true Entity.gt ++ (flag false x ++ (flag false Entity.lt ++ Comment.coverage after)) := by
    rw [Comment.coverage_append_of_not_mem hx, Comment.coverage_lt_append hf]
  have hm : html.markComments (x ++ (Entity.lt ++ after)) = x ++ (Entity.lt ++ html.markComments after) := by
    rw [markComments_append_of_not_mem hx, markComments_lt_append hf]
  by_cases hst : (⟨spanEnd ++ x⟩ : TextRun).isStyled w = true
  · have he : shownComments [Kind.comment.cssClass.toList]
        (markRuns w (Entity.gt ++ (spanEnd ++ html.markComments (x ++ (Entity.lt ++ after))))) =
        flag true Entity.gt ++ (flag true x ++ (flag false Entity.lt ++
          shownComments [] (markRuns w (html.markComments after)))) := by
      rw [hm, ← List.append_assoc spanEnd, markRuns_of_isStyled (by simp [spanEnd_eq]) hE hst,
        shownComments_styled hs]
    refine ⟨?_, ?_⟩
    · rw [he]
      simp [ih.chars]
    · rw [he, hcover, List.append_cancel_left_eq, flag_true_append_eq_flag_false_append,
        List.append_cancel_left_eq, ih.eq_coverage_iff, hapart, hall]
      simp [hst]
  · have he : shownComments [Kind.comment.cssClass.toList]
        (markRuns w (Entity.gt ++ (spanEnd ++ html.markComments (x ++ (Entity.lt ++ after))))) =
        flag true Entity.gt ++ (flag false x ++ (flag false Entity.lt ++
          shownComments [] (markRuns w (html.markComments after)))) := by
      have hr := markRuns_gt_append (w := w) (x := spanEnd ++ x)
        (y := Entity.lt ++ html.markComments after) hE ?_
      · rw [hm, ← List.append_assoc spanEnd, hr, markRuns_lt_append, List.append_assoc,
          shownComments_gt_spanEnd, shownComments_append hs, shownComments_append (by decide)]
        rfl
      · intro v z hz hv
        obtain ⟨rfl, -⟩ := Text.eq_and_eq_of_append_cons (c := '&') (s := []) (by simp) hv hz
        simpa using hst
    refine ⟨?_, ?_⟩
    · rw [he]
      simp [ih.chars]
    · rw [he, hcover, List.append_cancel_left_eq, List.append_cancel_left_eq, List.append_cancel_left_eq,
        ih.eq_coverage_iff, hapart, hall]
      simp [hst]

/-- After a comment the statement holds if it holds for all that may follow outside comments. -/
theorem ShowsCommentsAfter.of_showsComments (ht : '<' ∉ t) {s a : Text} (hs : '<' ∉ s)
    (h : html.markComments t = a ++ (Entity.gt ++ (spanEnd ++ html.markComments s)))
    (ih : ∀ s' a', s'.length ≤ s.length → '<' ∉ s' → html.markComments t = a' ++ html.markComments s' →
      ShowsComments (html.markComments t) s') : ShowsCommentsAfter (html.markComments t) s := by
  by_cases hx : ∃ x after, s = x ++ (Entity.lt ++ after) ∧ '&' ∉ x ∧
      Comment.front? (Entity.lt ++ after) = none
  · obtain ⟨x, after, rfl, hx, hf⟩ := hx
    simp only [List.mem_append, not_or] at hs
    refine .of_lt hs.1 hx hf (ih after (a ++ (Entity.gt ++ (spanEnd ++ (x ++ Entity.lt)))) ?_ hs.2.2 ?_)
    · simp only [List.length_append]
      omega
    · rw [h, markComments_append_of_not_mem hx, markComments_lt_append hf]
      simp
  · refine .of_apart ht hs h (fun x after he hamp hf => hx ⟨x, after, he, hamp, hf⟩)
      (ih s (a ++ (Entity.gt ++ spanEnd)) (Nat.le_refl _) hs ?_)
    rw [h]
    simp

/-- The statement passes from what follows the first comment of a text to the whole text. -/
theorem ShowsComments.of_segments (ht : '<' ∉ t) {s a before rest : Text} {c : Comment} (hs : '<' ∉ s)
    (h : html.markComments t = a ++ html.markComments s) (hf : Comment.pattern.Finds s before c rest)
    (hseg : Comment.pattern.segments s = before.map .gap ++ .hit c :: Comment.pattern.segments rest)
    (hall : ∀ b l q, Comment.pattern.Finds s b l q → (l = c ∧ q = rest) ∨
      ∃ b', Comment.pattern.Finds rest b' l q)
    (ih : ShowsCommentsAfter (html.markComments t) rest) : ShowsComments (html.markComments t) s := by
  have hs' := hf.eq_append
  rw [Comment.pattern_source] at hs'
  have hinner : c.source = Entity.lt ++ (['!', '-', '-'] ++ c.body ++ ['-', '-'] ++ Entity.gt) := by
    simp [Comment.source, Comment.opening, Comment.closing]
  obtain ⟨hb, hm⟩ : '<' ∉ before ∧ '<' ∉ ['!', '-', '-'] ++ c.body ++ ['-', '-'] := by
    rw [hs', hinner] at hs
    simp only [List.mem_append, not_or] at hs ⊢
    exact ⟨hs.1, hs.2.1.2.1⟩
  have hmark := markComments_of_segments hseg
  have he : shownComments [] (markRuns (html.markComments t) (html.markComments s)) =
      flag false before ++ (flag true Entity.lt ++ (flag true (['!', '-', '-'] ++ c.body ++ ['-', '-']) ++
        shownComments [Kind.comment.cssClass.toList] (markRuns (html.markComments t)
          (Entity.gt ++ (spanEnd ++ html.markComments rest))))) := by
    rw [hmark, markRuns_append_spanStart ht hb (a := a) (by rw [h, hmark]), shownComments_markRuns hb,
      shownComments_spanStart, hinner, List.append_assoc, List.append_assoc, markRuns_lt_append,
      markRuns_append (TextRun.parts_gt _ _), shownComments_append (by decide), shownComments_markRuns hm]
    rfl
  have hfinds : (∀ b l q, Comment.pattern.Finds s b l q → EndsApart (html.markComments t) q) ↔
      EndsApart (html.markComments t) rest ∧
        ∀ b l q, Comment.pattern.Finds rest b l q → EndsApart (html.markComments t) q := by
    constructor
    · exact fun hq => ⟨hq _ _ _ hf, fun b l q hr => hq _ _ _ (hf.trans hr)⟩
    · rintro ⟨hr, hq⟩ b l q hl
      rcases hall b l q hl with ⟨-, rfl⟩ | ⟨b', hb'⟩
      · exact hr
      · exact hq _ _ _ hb'
  refine ⟨?_, ?_⟩
  · rw [he, hs', hinner]
    simp [ih.chars]
  · rw [he, Comment.coverage_of_segments hseg, hinner, hfinds, ← ih.eq_coverage_iff]
    simp only [flag_append, List.append_assoc, List.append_cancel_left_eq]

/-- Every piece of a text with marked comments that begins outside comments shows them as stated. -/
theorem showsComments (ht : '<' ∉ t) {s a : Text} (hs : '<' ∉ s)
    (h : html.markComments t = a ++ html.markComments s) : ShowsComments (html.markComments t) s := by
  induction hn : s.length using Nat.strongRecOn generalizing s a with
  | ind n ih =>
    rcases Comment.pattern.exists_first s with ⟨hseg, hno⟩ | ⟨before, c, rest, hf, hseg, hall⟩
    · exact .of_segments_eq_map hs hseg hno _
    · have hs' := hf.eq_append
      rw [Comment.pattern_source] at hs'
      have hr : '<' ∉ rest := fun hm => hs (by simp [hs', hm])
      have hlen : rest.length < n := by
        have hc := List.length_pos_iff.2 (Comment.pattern.source_ne_nil c)
        rw [Comment.pattern_source] at hc
        rw [← hn, hs']
        simp only [List.length_append]
        omega
      refine .of_segments ht hs h hf hseg hall (.of_showsComments ht hr (a := a ++ (before ++
        (spanStart .comment ++ (Comment.opening ++ c.body ++ ['-', '-'])))) ?_ fun s' a' hl hs' ha =>
          ih s'.length (by omega) hs' ha rfl)
      rw [h, markComments_of_segments hseg, Comment.source_eq_append_gt]
      simp

/-! ## Where the first such run occurs -/

/-- Where a run that begins with the end of a comment's marker occurs, a comment ends. -/
theorem exists_finds_of_run (ht : '<' ∉ t) {b x r : Text} (hx : '<' ∉ x)
    (h : html.markComments t = b ++ ((⟨spanEnd ++ x⟩ : TextRun).source ++ r)) :
    ∃ before c after, Comment.pattern.Finds t before c (x ++ (Entity.lt ++ after)) ∧
      r = html.markComments after ∧ Comment.front? (Entity.lt ++ after) = none := by
  have h' : html.markComments t =
      (b ++ Entity.gt) ++ '<' :: ("/span>".toList ++ (x ++ (Entity.lt ++ r))) := by
    rw [h, TextRun.source, spanEnd_eq]
    simp
  obtain ⟨before, c, rest, hf, he | ⟨he, -⟩⟩ := exists_finds_of_markComments ht h'
  · rw [← List.cons_append, ← spanEnd_eq] at he
    exact absurd he.symm (spanStart_append_ne _ _ _)
  · rw [spanEnd_eq, List.cons_append, List.cons_eq_cons, List.append_cancel_left_eq] at he
    obtain ⟨s', rfl, hs'⟩ := exists_of_markComments_eq_append hx he.2.symm
    have hn : Comment.front? s' = none := front?_eq_none_of_markComments hs'.symm
    obtain ⟨after, rfl, -⟩ := exists_of_markComments_eq_append (x := Entity.lt) (by decide) hs'.symm
    rw [markComments_lt_append hn, List.append_cancel_left_eq] at hs'
    exact ⟨before, c, after, hf, hs', hn⟩

/-- A run after a comment occurs where it stands. -/
theorem exists_run_of_finds {before x after : Text} {c : Comment}
    (hf : Comment.pattern.Finds t before c (x ++ (Entity.lt ++ after))) (hx : '&' ∉ x)
    (hn : Comment.front? (Entity.lt ++ after) = none) :
    ∃ a, html.markComments t = a ++ ((⟨spanEnd ++ x⟩ : TextRun).source ++ html.markComments after) := by
  obtain ⟨a, ha⟩ := markComments_of_finds hf
  rw [markComments_append_of_not_mem hx, markComments_lt_append hn, Comment.source_eq_append_gt] at ha
  exact ⟨a ++ spanStart .comment ++ Comment.opening ++ c.body ++ ['-', '-'], by simp [ha, TextRun.source]⟩

theorem opening_prefix_iff {after : Text} :
    "!--".toList <+: after ↔ Comment.opening <+: Entity.lt ++ after :=
  (List.prefix_append_right_inj Entity.lt).symm

/-- If comments end apart, no comment is followed by text and then by a bracket that is no comment's. -/
theorem opening_prefix_of_endsApart (ht : '<' ∉ t)
    (h : ∀ before c rest, Comment.pattern.Finds t before c rest → EndsApart (html.markComments t) rest)
    {before x after : Text} {c : Comment} (hf : Comment.pattern.Finds t before c (x ++ (Entity.lt ++ after)))
    (hx : '&' ∉ x) (hne : x ≠ []) : "!--".toList <+: after := by
  by_contra hno
  have hn : Comment.front? (Entity.lt ++ after) = none := by
    cases hf' : Comment.front? (Entity.lt ++ after) with
    | none => rfl
    | some f => exact absurd (opening_prefix_iff.2 (Comment.opening_prefix_of_front? hf')) hno
  have hlt : '<' ∉ x := fun hm => ht (by rw [hf.eq_append]; simp [hm])
  have hb : (spanEnd ++ x).allBlank = false := by
    rw [spanEnd_eq]
    rfl
  -- the run is not styled, so it occurs before a comment that is not closed
  obtain ⟨a, ha⟩ := exists_run_of_finds hf hx hn
  have hst := (h before c _ hf x after rfl hx hn).resolve_left hne
  obtain ⟨b, r, hw, hle⟩ := exists_of_isStyled_eq_false ha hb hst
  obtain ⟨before', c', after', hf', hr, hn'⟩ := exists_finds_of_run ht hlt hw
  obtain ⟨after', rfl, rfl⟩ := exists_of_markComments_eq_append (x := "!--".toList) (by decide) hr.symm
  rcases hf.trichotomy hf' with ⟨-, he⟩ | ⟨d, hd⟩ | ⟨d, hd⟩
  · rw [List.append_cancel_left_eq, List.append_cancel_left_eq] at he
    exact hno ⟨_, he.symm⟩
  · -- it does not occur later than the run after `c`
    have hl := length_markComments_lt hd
    rw [markComments_append_of_not_mem hx, markComments_lt_append hn', markComments_append_of_not_mem hx,
      markComments_lt_append hn, markComments_append_of_not_mem (by decide)] at hl
    simp only [List.length_append, String.length_toList] at hl
    have h3 : "!--".length = 3 := rfl
    omega
  · exact Comment.not_finds_of_front?_eq_none (s := after') hx hn' hd

theorem endsApart_of_opening_prefix (ht : '<' ∉ t)
    (h : ∀ before c x after, Comment.pattern.Finds t before c (x ++ (Entity.lt ++ after)) → '&' ∉ x →
      x = [] ∨ "!--".toList <+: after)
    {before rest : Text} {c : Comment} (hf : Comment.pattern.Finds t before c rest) :
    EndsApart (html.markComments t) rest := by
  rintro x after rfl hx hn
  by_cases hne : x = []
  · exact .inl hne
  have hlt : '<' ∉ x := fun hm => ht (by rw [hf.eq_append]; simp [hm])
  obtain ⟨a, ha⟩ := exists_run_of_finds hf hx hn
  refine .inr (isStyled_eq_false_of_first ha fun b r hb => ?_)
  obtain ⟨before', c', after', hf', rfl, -⟩ := exists_finds_of_run ht hlt hb
  obtain ⟨q, rfl⟩ := (h before' c' x after' hf' hx).resolve_left hne
  rw [markComments_append_of_not_mem (by decide)]
  exact List.prefix_append ..

/-- No run takes a comment's marker along if and only if no comment is followed by text and then by a bracket
that is no comment's. -/
theorem endsApart_iff (ht : '<' ∉ t) :
    (∀ before c rest, Comment.pattern.Finds t before c rest → EndsApart (html.markComments t) rest) ↔
      ∀ before c rest x after, Comment.pattern.Finds t before c rest → rest = x ++ (Entity.lt ++ after) →
        '&' ∉ x → x = [] ∨ "!--".toList <+: after := by
  constructor
  · rintro h before c _ x after hf rfl hx
    exact or_iff_not_imp_left.2 (opening_prefix_of_endsApart ht h hf hx)
  · intro h before c rest hf
    exact endsApart_of_opening_prefix ht (fun b l x after hl hx => h b l _ x after hl rfl hx) hf

end Pieces

/-- With comments and runs marked for web pages, the characters outside markers are those of the prepared
source, and those shown as part of a comment are those of the comments if and only if after each comment
the next ampersand follows at once, or is not that of an opening bracket, or is that of a comment's. -/
theorem shownComments_eq_coverage_iff (source : Text) :
    (shownComments [] (html.markBeforeTags (prepare source))).map Prod.fst = prepare source ∧
    (shownComments [] (html.markBeforeTags (prepare source)) = Comment.coverage (prepare source) ↔
      ∀ before c rest x after, Comment.pattern.Finds (prepare source) before c rest →
        rest = x ++ (Entity.lt ++ after) → '&' ∉ x → x = [] ∨ "!--".toList <+: after) := by
  have ht : '<' ∉ prepare source := (Entity.not_mem_encode source.unindent).1
  have hs := showsComments ht (a := []) ht rfl
  rw [markBeforeTags, markText_eq_markRuns, ← endsApart_iff ht]
  exact ⟨hs.chars, hs.eq_coverage_iff⟩

/-- The line break after a comment is shown as part of it if a tag follows. -/
theorem shownComments_ne_coverage :
    shownComments [] (html.markBeforeTags (prepare "<!-- c -->\n<p>hi</p>".toList)) ≠
      Comment.coverage (prepare "<!-- c -->\n<p>hi</p>".toList) := by
  decide +kernel

end Renderer

end HtmlHighlight
