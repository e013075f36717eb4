import HtmlHighlight.Highlight
import HtmlHighlight.Proofs.Boundaries

/-!
# Nesting of markers

In what the renderer for web pages writes, every angle bracket belongs to the start or the end of a `span`
element, and the elements nest, for every source. A later pass may write a marker into the middle of an
earlier one, between its name and its class, but never between a bracket and the name that follows it:

* `Whole`: no opening bracket is cut off from the name after it. `Whole.left_of_getLast` and
  `Whole.left_of_head` name the places where a text may be cut.
* `Nests s t`: `t` is `s` with elements added around whole pieces, so it nests where `s` does.
* `Whole.nests_markComments`, `Whole.nests_markText`, `Whole.nests_markTags`: this is what each pass does.
-/

namespace HtmlHighlight

namespace Text

/-- The number of places at which a mark stands in a text. -/
def occurrences (mark : Text) : Text → Nat
  | [] => 0
  | c :: s => (if mark <+: c :: s then 1 else 0) + occurrences mark s

theorem occurrences_cons_of_ne {c d : Char} (h : d ≠ c) (mark s : Text) :
    occurrences (c :: mark) (d :: s) = occurrences (c :: mark) s := by
  rw [occurrences, if_neg fun hp => h (List.cons_prefix_cons.1 hp).1.symm, Nat.zero_add]

theorem occurrences_cons_self (c : Char) (mark s : Text) :
    occurrences (c :: mark) (c :: s) = (if mark <+: s then 1 else 0) + occurrences (c :: mark) s := by
  rw [occurrences]
  simp only [List.cons_prefix_cons, true_and]

theorem occurrences_eq_zero {c : Char} {s : Text} (h : c ∉ s) (mark : Text) :
    occurrences (c :: mark) s = 0 := by
  induction s with
  | nil => rfl
  | cons d s ih =>
    simp only [List.mem_cons, not_or] at h
    rw [occurrences_cons_of_ne (Ne.symm h.1), ih h.2]

end Text

namespace Renderer

/-- The beginning of every start tag of an element, up to its attributes. -/
def spanOpening : Text := "<span ".toList

theorem spanOpening_eq : spanOpening = '<' :: "span ".toList := rfl

theorem spanEnd_eq : spanEnd = '<' :: "/span>".toList := rfl

theorem spanStart_eq (k : Kind) :
    spanStart k = '<' :: ("span ".toList ++ ("class=\"".toList ++ (k.cssClass.toList ++ "\">".toList))) := by
  cases k <;> rfl

/-- A start of an element is no end of one. -/
theorem spanStart_append_ne (k : Kind) (s t : Text) : spanStart k ++ s ≠ spanEnd ++ t := by
  intro he
  rw [spanStart_eq, spanEnd_eq, List.cons_append, List.cons_append, List.cons_eq_cons] at he
  exact absurd (show some 's' = some '/' from congrArg List.head? he.2) (by decide)

theorem html_style (k : Kind) (s : Text) : html.style k s = spanStart k ++ (s ++ spanEnd) :=
  List.append_assoc ..

/-- Every opening bracket goes on as the start or the end of an element. -/
def Whole (s : Text) : Prop :=
  ∀ a b, s = a ++ '<' :: b → "span ".toList <+: b ∨ "/span>".toList <+: b

/-- The number of elements open after a text, given how many are open before it; none if one is ended
that is not open. -/
def nesting (depth : Nat) : Text → Option Nat
  | [] => some depth
  | c :: s =>
    if c = '<' then
      if s.head? = some '/' then
        if depth = 0 then none else nesting (depth - 1) s
      else nesting (depth + 1) s
    else nesting depth s

/-! ## Texts that may be cut -/

theorem whole_of_not_mem {s : Text} (h : '<' ∉ s) : Whole s := by
  rintro a b rfl
  simp at h

theorem Whole.right {a b : Text} (h : Whole (a ++ b)) : Whole b :=
  fun a' b' hb => h (a ++ a') b' (by rw [hb, List.append_assoc])

theorem Whole.append {a b : Text} (ha : Whole a) (hb : Whole b) : Whole (a ++ b) := by
  intro x y h
  rcases List.append_eq_append_iff.1 h with ⟨u, rfl, hu⟩ | ⟨u, hu, hy⟩
  · exact hb u y hu
  · rcases List.cons_eq_append_iff.1 hy with ⟨rfl, hy⟩ | ⟨u, rfl, rfl⟩
    · exact hb [] y (by simpa using hy.symm)
    · exact (ha x u hu).imp (·.trans (List.prefix_append ..)) (·.trans (List.prefix_append ..))

/-- Where a text is cut, a bracket before the cut loses its name only if the name reaches over the cut. -/
theorem Whole.left {a b : Text} (h : Whole (a ++ b))
    (hc : ∀ x y z, a = x ++ '<' :: y → z ≠ [] → z <+: b →
      y ++ z ≠ "span ".toList ∧ y ++ z ≠ "/span>".toList) : Whole a := by
  intro x y hx
  have key : ∀ name : Text, name <+: y ++ b → (∀ z, z ≠ [] → z <+: b → y ++ z ≠ name) → name <+: y := by
    intro name hn hz
    rcases List.prefix_or_prefix_of_prefix hn (List.prefix_append y b) with hy | ⟨z, rfl⟩
    · exact hy
    · by_cases he : z = []
      · simp [he]
      · exact absurd rfl (hz z he ((List.prefix_append_right_inj y).1 hn))
  exact (h x (y ++ b) (by simp [hx])).imp
    (fun hn => key _ hn fun z he hz => (hc x y z hx he hz).1)
    (fun hn => key _ hn fun z he hz => (hc x y z hx he hz).2)

/-- A text may be cut after a character that is none of the beginning of a marker. -/
theorem Whole.left_of_getLast {a b : Text} {c : Char} (h : Whole (a ++ c :: b)) (hc : c ∉ "</span".toList) :
    Whole (a ++ [c]) := by
  refine Whole.left (b := b) (by simpa using h) fun x y z hx hz _ => ?_
  have hy : c ∈ '<' :: y := by
    have hl := congrArg List.getLast? hx
    rw [List.getLast?_append_of_ne_nil _ (by simp)] at hl
    exact List.mem_of_getLast? (by simpa using hl.symm)
  have key : ∀ name : Text, '<' :: name.dropLast ⊆ "</span".toList → y ++ z ≠ name := by
    rintro name hn rfl
    rw [List.dropLast_append_of_ne_nil hz, ← List.cons_append] at hn
    exact hc (hn (List.mem_append_left _ hy))
  exact ⟨key _ (by decide), key _ (by decide)⟩

/-- A text may be cut before a character that is none of the end of a marker. -/
theorem Whole.left_of_head {a b : Text} {c : Char} (h : Whole (a ++ c :: b)) (hc : c ∉ "/span >".toList) :
    Whole a := by
  refine Whole.left h fun x y z _ hz hp => ?_
  obtain ⟨d, z, rfl⟩ := List.exists_cons_of_ne_nil hz
  obtain ⟨rfl, -⟩ := List.cons_prefix_cons.1 hp
  have key : ∀ name : Text, name ⊆ "/span >".toList → y ++ d :: z ≠ name := by
    rintro name hn rfl
    exact hc (hn (by simp))
  exact ⟨key _ (by decide), key _ (by decide)⟩

/-! ## Depth -/

theorem nesting_append {a : Text} (ha : Whole a) (b : Text) (depth : Nat) :
    nesting depth (a ++ b) = (nesting depth a).bind fun d => nesting d b := by
  induction a generalizing depth with
  | nil => rfl
  | cons c a ih =>
    have ha' : Whole a := Whole.right (a := [c]) ha
    rw [List.cons_append, nesting, nesting]
    split
    next hc =>
      subst hc
      have hne : a ≠ [] := by
        rintro rfl
        rcases ha [] [] rfl with h | h <;> exact absurd h (by decide)
      rw [List.head?_append_of_ne_nil _ hne]
      split
      · split
        · rfl
        · exact ih ha' _
      · exact ih ha' _
    next => exact ih ha' _

theorem nesting_of_not_mem {s : Text} (h : '<' ∉ s) (depth : Nat) : nesting depth s = some depth := by
  induction s with
  | nil => rfl
  | cons c s ih =>
    simp only [List.mem_cons, not_or] at h
    rw [nesting, if_neg (Ne.symm h.1), ih h.2]

/-- What nests on its own nests within one more element. -/
theorem nesting_succ {s : Text} {depth d : Nat} (h : nesting depth s = some d) :
    nesting (depth + 1) s = some (d + 1) := by
  induction s generalizing depth with
  | nil => simpa [nesting] using h
  | cons c s ih =>
    rw [nesting] at h ⊢
    split
    next hc =>
      rw [if_pos hc] at h
      split
      next hs =>
        rw [if_pos hs] at h
        cases depth with
        | zero => simp at h
        | succ depth => exact ih (by simpa using h)
      next hs => exact ih (by rwa [if_neg hs] at h)
    next hc => exact ih (by rwa [if_neg hc] at h)

theorem whole_spanStart (k : Kind) : Whole (spanStart k) := by
  intro a b h
  rw [spanStart_eq] at h
  cases a with
  | nil =>
    obtain ⟨-, rfl⟩ := List.cons_eq_cons.1 h
    exact .inl (List.prefix_append ..)
  | cons c a =>
    have hm : '<' ∉ "span ".toList ++ ("class=\"".toList ++ (k.cssClass.toList ++ "\">".toList)) := by
      cases k <;> decide
    exact absurd ((List.cons_eq_cons.1 h).2 ▸ by simp) hm

theorem whole_spanEnd : Whole spanEnd := by
  intro a b h
  rw [spanEnd_eq] at h
  cases a with
  | nil =>
    obtain ⟨-, rfl⟩ := List.cons_eq_cons.1 h
    exact .inr (List.prefix_refl _)
  | cons c a =>
    have hm : '<' ∉ "/span>".toList := by decide
    exact absurd ((List.cons_eq_cons.1 h).2 ▸ by simp) hm

theorem nesting_spanStart (k : Kind) (depth : Nat) : nesting depth (spanStart k) = some (depth + 1) := by
  rw [spanStart_eq, nesting, if_pos rfl, if_neg (by cases k <;> decide)]
  exact nesting_of_not_mem (by cases k <;> decide) _

theorem nesting_spanEnd (depth : Nat) : nesting (depth + 1) spanEnd = some depth := rfl

/-! ## Elements around pieces of a text -/

/-- `t` is cut nowhere in a marker, and nests as `s` does. -/
structure Nests (s t : Text) : Prop where
  whole : Whole t
  keeps : ∀ depth d, nesting depth s = some d → nesting depth t = some d

theorem Whole.nests {s : Text} (h : Whole s) : Nests s s :=
  ⟨h, fun _ _ hd => hd⟩

namespace Nests

theorem trans {s t u : Text} (h : Nests s t) (h' : Nests t u) : Nests s u :=
  ⟨h'.whole, fun depth d hd => h'.keeps depth d (h.keeps depth d hd)⟩

theorem append {s s' t t' : Text} (hs : Whole s) (h : Nests s s') (h' : Nests t t') :
    Nests (s ++ t) (s' ++ t') := by
  refine ⟨h.whole.append h'.whole, fun depth d hd => ?_⟩
  rw [nesting_append hs] at hd
  obtain ⟨e, he, hd⟩ := Option.bind_eq_some_iff.1 hd
  rw [nesting_append h.whole, h.keeps depth e he]
  exact h'.keeps e d hd

/-- An element may be put around a piece that nests. -/
theorem style {s t : Text} (h : Nests s t) (k : Kind) : Nests s (html.style k t) := by
  rw [html_style]
  refine ⟨(whole_spanStart k).append (h.whole.append whole_spanEnd), fun depth d hd => ?_⟩
  rw [nesting_append (whole_spanStart k), nesting_spanStart, Option.bind_some, nesting_append h.whole,
    nesting_succ (h.keeps depth d hd), Option.bind_some, nesting_spanEnd]

/-- A piece without brackets may be styled. -/
theorem style_of_not_mem {s : Text} (h : '<' ∉ s) (k : Kind) : Nests s (html.style k s) :=
  (whole_of_not_mem h).nests.style k

end Nests

/-! ## The passes -/

section Passes

variable {s : Text}

theorem Whole.nests_markComments (h : Whole s) : Nests s (html.markComments s) := by
  refine Pattern.render_tokenize (motive := Nests s) (fun before c after _ hn => ?_) h.nests
  rw [Comment.pattern_source] at hn
  have hw := hn.whole
  have hsrc : Whole (before ++ c.source) := by
    have he : before ++ c.source = before ++ (Comment.opening ++ c.body ++ "--&gt".toList) ++ [';'] := by
      simp [Comment.source, Comment.closing, Entity.gt]
    rw [he]
    refine Whole.left_of_getLast (b := after) ?_ (by decide)
    simpa [Comment.source, Comment.closing, Entity.gt] using hw
  have hb : Whole before := Whole.left_of_head (c := '&') (b := c.source.tail ++ after) hw (by decide)
  refine hn.trans (.append hb hb.nests (.append hsrc.right ?_ hw.right.right.nests))
  simpa [Comment.tokens, renderToken] using hsrc.right.nests.style .comment

theorem Whole.nests_markText (h : Whole s) : Nests s (html.markText s) := by
  refine Pattern.render_tokenize (motive := Nests s) (fun before run after _ hn => ?_) h.nests
  rw [TextRun.pattern_source] at hn
  rw [TextRun.tokens]
  split
  next =>
    have hw := hn.whole
    rw [TextRun.source, List.append_assoc, List.append_assoc] at hw
    have hb : Whole (before ++ Entity.gt) := by
      have he : before ++ Entity.gt = before ++ "&gt".toList ++ [';'] := by simp [Entity.gt]
      rw [he]
      refine Whole.left_of_getLast (b := run.content ++ (Entity.lt ++ after)) ?_ (by decide)
      simpa [Entity.gt] using hw
    have hc : Whole run.content := Whole.left_of_head (c := '&') (b := Entity.lt.tail ++ after) hw.right.right
      (by decide)
    have hs := Nests.append hb hb.nests
      (Nests.append hc (hc.nests.style .text) (hw.right.right.right.nests (s := Entity.lt ++ after)))
    refine hn.trans ?_
    simpa [TextRun.source, renderToken] using hs
  next => simpa [renderToken] using hn

/-- The value of an attribute begins and ends with a quote, so it may be styled. -/
theorem Whole.nests_value {value? : Option Text} {after : Text} (h : Whole (value?.getD [] ++ after))
    (hv : ∀ v, value? = some v → ∃ q body, (q = '"' ∨ q = '\'') ∧ q ∉ body ∧ v = q :: (body ++ [q])) :
    Nests (value?.getD [] ++ after)
      (html.render (value?.toList.map (Token.styled .attributeValue)) ++ after) := by
  cases value? with
  | none => exact h.nests
  | some v =>
    obtain ⟨q, body, hq, -, rfl⟩ := hv v rfl
    have hq' : q ∉ "</span".toList := by rcases hq with rfl | rfl <;> decide
    have hv' : Whole (q :: body ++ [q]) := Whole.left_of_getLast (b := after) (by simpa using h) hq'
    refine .append hv' ?_ h.right.nests
    simpa [renderToken] using hv'.nests.style .attributeValue

theorem Whole.nests_markAttributes (h : Whole s) : Nests s (html.markAttributes s) := by
  refine Pattern.render_tokenize (motive := Nests s) (fun before a after hf hn => ?_) h.nests
  obtain ⟨hs, hs', hname, hv⟩ := Attribute.front?_eq_some hf
  have hlast : a.spacing.getLast hs' ∉ "</span".toList := by
    intro hb
    have hall : "</span".toList.all (fun c => !isBlank c) = true := by decide
    have hn := List.all_eq_true.1 hall _ hb
    rw [hs _ (List.getLast_mem hs')] at hn
    exact absurd hn (by decide)
  have hmark : '<' ∉ a.name := fun hm => absurd (hname _ hm) (by decide)
  have hw : Whole (before ++ (a.spacing ++ (a.name ++ (['='] ++ (a.value?.getD [] ++ after))))) := by
    simpa [Attribute.source] using hn.whole
  have hb : Whole (before ++ a.spacing) := by
    rw [← List.dropLast_append_getLast hs', ← List.append_assoc]
    refine Whole.left_of_getLast (b := a.name ++ (['='] ++ (a.value?.getD [] ++ after))) ?_ hlast
    have he := List.dropLast_append_getLast hs'
    rw [← he] at hw
    simpa using hw
  have key := Nests.append hb hb.nests
    (.append (whole_of_not_mem hmark) (.style_of_not_mem hmark .attributeName)
      (.append (whole_of_not_mem (by decide)) (.style_of_not_mem (s := ['=']) (by decide) .equalSign)
        (Whole.nests_value hw.right.right.right.right hv)))
  refine hn.trans ?_
  simpa [Attribute.source, Attribute.tokens, renderToken] using key

/-- A marker does not end in a slash, so a text may be cut before one. -/
theorem Whole.left_of_slash {a : Text} {present : Bool} (h : Whole (a ++ Tag.slash present)) : Whole a := by
  refine Whole.left h fun x y z _ hz hp => ?_
  have hsl : z = ['/'] := by
    cases present with
    | false => exact absurd (List.prefix_nil.1 hp) hz
    | true =>
      rcases List.prefix_cons_iff.1 hp with rfl | ⟨u, rfl, hu⟩
      · exact absurd rfl hz
      · rw [List.prefix_nil.1 hu]
  subst hsl
  exact ⟨fun he => absurd (congrArg List.getLast? he) (by simp),
    fun he => absurd (congrArg List.getLast? he) (by simp)⟩

theorem nests_slash (present : Bool) :
    Nests (Tag.slash present) (html.render (if present then [.styled .tag ['/']] else [])) := by
  cases present with
  | false => exact (whole_of_not_mem (by decide)).nests
  | true => simpa [renderToken, Tag.slash] using Nests.style_of_not_mem (s := ['/']) (by decide) .tag

theorem Whole.nests_markTags (h : Whole s) : Nests s (html.markTags s) := by
  refine Pattern.render_tokenize (motive := Nests s) (fun before t after hf hn => ?_) h.nests
  rw [Tag.pattern_front?] at hf
  have hmark : '<' ∉ t.name := Tag.not_mem_name hf (by decide)
  have ho : '<' ∉ t.opening := t.not_mem_opening
  have hw : Whole (before ++ (t.opening ++ (t.name ++ (t.region ++ (Tag.slash t.isSelfClosing ++
      (Entity.gt ++ after)))))) := by
    simpa [Tag.source] using hn.whole
  have hb : Whole before := by
    refine Whole.left_of_head (c := '&') (b := t.opening.tail ++ (t.name ++ (t.region ++
      (Tag.slash t.isSelfClosing ++ (Entity.gt ++ after))))) ?_ (by decide)
    simpa [Tag.opening, Entity.lt] using hw
  have hregion : Whole t.region := by
    have hr := hw.right.right.right
    rw [← List.append_assoc] at hr
    exact (Whole.left_of_head (c := '&') (b := Entity.gt.tail ++ after) hr (by decide)).left_of_slash
  have hslash : Whole (Tag.slash t.isSelfClosing) := whole_of_not_mem (Tag.not_mem_slash (by decide) _)
  have hgt : Nests (Entity.gt ++ after) (html.style .tag Entity.gt ++ after) :=
    .append (whole_of_not_mem (by decide)) (.style_of_not_mem (by decide) .tag)
      hw.right.right.right.right.right.right.nests
  have key := Nests.append hb hb.nests (.append (whole_of_not_mem ho) (.style_of_not_mem ho .tag)
    (.append (whole_of_not_mem hmark) (.style_of_not_mem hmark .tagName)
      (.append hregion hregion.nests_markAttributes (.append hslash (nests_slash t.isSelfClosing) hgt))))
  refine hn.trans ?_
  simpa [Tag.source, Tag.tokens, renderToken, markAttributes] using key

end Passes

/-- Prepared text nests trivially, so all passes together keep it nested. -/
theorem nests_mark {t : Text} (h : '<' ∉ t) : Nests t (html.mark t) := by
  have hc := (whole_of_not_mem h).nests_markComments
  have ht := hc.whole.nests_markText
  exact (hc.trans ht).trans ht.whole.nests_markTags

/-! ## Counting -/

/-- Two prefixes of a text: the name of a marker, and a text that ends before that name does. -/
theorem occurrences_of_cut {name p s : Text} (hn : name <+: s) (hp : p <+: s) (hnp : ¬ name <+: p)
    (h : '<' ∉ name) (mark : Text) : Text.occurrences ('<' :: mark) p = 0 := by
  refine Text.occurrences_eq_zero (fun hm => ?_) mark
  rcases List.prefix_or_prefix_of_prefix hn hp with hnp' | hpn
  · exact hnp hnp'
  · exact h (hpn.subset hm)

theorem nesting_start {s : Text} (h : "span ".toList <+: s) (depth : Nat) :
    nesting depth ('<' :: s) = nesting (depth + 1) s := by
  obtain ⟨t, rfl⟩ := h
  rw [nesting, if_pos rfl, if_neg (by simp)]

theorem nesting_end {s : Text} (h : "/span>".toList <+: s) (depth : Nat) :
    nesting depth ('<' :: s) = if depth = 0 then none else nesting (depth - 1) s := by
  obtain ⟨t, rfl⟩ := h
  rw [nesting, if_pos rfl, if_pos (by simp)]

theorem not_start_and_end {s : Text} (h : "span ".toList <+: s) : ¬ "/span>".toList <+: s := by
  obtain ⟨t, rfl⟩ := h
  rintro ⟨u, hu⟩
  simp at hu

/-- No prefix ends more elements than it starts, besides those open before. A prefix that ends within a
marker has not come to its end yet. -/
theorem occurrences_le_of_nesting {s : Text} (hw : Whole s) {depth d : Nat} (h : nesting depth s = some d)
    {p : Text} (hp : p <+: s) :
    Text.occurrences spanEnd p ≤ depth + Text.occurrences spanOpening p := by
  induction s generalizing depth p with
  | nil => simp [List.prefix_nil.1 hp, Text.occurrences]
  | cons c s ih =>
    rcases List.prefix_cons_iff.1 hp with rfl | ⟨q, rfl, hq⟩
    · simp [Text.occurrences]
    have hs : Whole s := hw.right (a := [c])
    rw [spanEnd_eq, spanOpening_eq] at ih ⊢
    by_cases hc : c = '<'
    · subst hc
      rw [Text.occurrences_cons_self, Text.occurrences_cons_self]
      rcases hw [] s rfl with hn | hn
      · rw [nesting_start hn] at h
        have hih := ih hs h hq
        rw [if_neg fun he => not_start_and_end hn (he.trans hq)]
        split
        · omega
        next hnq =>
          have := occurrences_of_cut hn hq hnq (by decide) "/span>".toList
          omega
      · rw [nesting_end hn] at h
        split at h
        · cases h
        next hd =>
          have hih := ih hs h hq
          split
          · omega
          next hnq =>
            have := occurrences_of_cut hn hq hnq (by decide) "/span>".toList
            omega
    · rw [nesting, if_neg hc] at h
      rw [Text.occurrences_cons_of_ne hc, Text.occurrences_cons_of_ne hc]
      exact ih hs h hq

/-- A text starts as many elements as it ends or leaves open. -/
theorem occurrences_eq_of_nesting {s : Text} (hw : Whole s) {depth d : Nat} (h : nesting depth s = some d) :
    depth + Text.occurrences spanOpening s = Text.occurrences spanEnd s + d := by
  induction s generalizing depth with
  | nil =>
    obtain rfl : depth = d := by simpa [nesting] using h
    simp [Text.occurrences]
  | cons c s ih =>
    have hs : Whole s := hw.right (a := [c])
    rw [spanEnd_eq, spanOpening_eq] at ih ⊢
    by_cases hc : c = '<'
    · subst hc
      rw [Text.occurrences_cons_self, Text.occurrences_cons_self]
      rcases hw [] s rfl with hn | hn
      · rw [nesting_start hn] at h
        have hih := ih hs h
        rw [if_pos hn, if_neg (not_start_and_end hn)]
        omega
      · rw [nesting_end hn] at h
        split at h
        · cases h
        next hd =>
          have hih := ih hs h
          rw [if_neg fun he => not_start_and_end he hn, if_pos hn]
          omega
    · rw [nesting, if_neg hc] at h
      rw [Text.occurrences_cons_of_ne hc, Text.occurrences_cons_of_ne hc]
      exact ih hs h

/-- Each marker has one bracket of each kind, so writing tokens keeps the balance of their characters. -/
theorem count_render (ts : List Token) :
    (html.render ts).count '<' + (Token.contents ts).count '>' =
      (html.render ts).count '>' + (Token.contents ts).count '<' := by
  induction ts with
  | nil => rfl
  | cons t ts ih =>
    rw [render_cons, Token.contents_cons]
    simp only [List.count_append]
    cases t with
    | plain s =>
      simp only [renderToken, Token.content]
      omega
    | styled k s =>
      have hl : (spanStart k).count '<' = 1 := by cases k <;> decide
      have hg : (spanStart k).count '>' = 1 := by cases k <;> decide
      have hle : spanEnd.count '<' = 1 := by decide
      have hge : spanEnd.count '>' = 1 := by decide
      simp only [renderToken, html_style, Token.content, List.count_append, hl, hg, hle, hge]
      omega

/-- The passes write as many brackets of one kind as of the other. -/
theorem count_mark {t : Text} (h : t.count '<' = t.count '>') :
    (html.mark t).count '<' = (html.mark t).count '>' := by
  have hc := count_render (Comment.tokenize t)
  have hr := count_render (TextRun.tokenize (html.markComments t))
  have ht := count_render (Tag.tokenize (html.markBeforeTags t))
  rw [Comment.contents_tokenize] at hc
  rw [TextRun.contents_tokenize] at hr
  rw [Tag.contents_tokenize] at ht
  show (html.render (Tag.tokenize (html.markBeforeTags t))).count '<' =
    (html.render (Tag.tokenize (html.markBeforeTags t))).count '>'
  have hu : html.markBeforeTags t = html.render (TextRun.tokenize (html.markComments t)) := rfl
  have hv : html.markComments t = html.render (Comment.tokenize t) := rfl
  rw [hu] at ht ⊢
  rw [hv] at hr ht ⊢
  omega

/-- In the output for web pages, for every source, each opening bracket begins a marker, brackets of both
kinds are equally many, and the elements that the markers start and end nest. -/
theorem highlightHtml_nests (source : Text) :
    (∀ a b, highlightHtml source = a ++ '<' :: b → "span ".toList <+: b ∨ "/span>".toList <+: b) ∧
    (highlightHtml source).count '<' = (highlightHtml source).count '>' ∧
    (∀ p, p <+: highlightHtml source → Text.occurrences spanEnd p ≤ Text.occurrences spanOpening p) ∧
    Text.occurrences spanOpening (highlightHtml source) = Text.occurrences spanEnd (highlightHtml source) := by
  obtain ⟨hlt, hgt⟩ : '<' ∉ prepare source ∧ '>' ∉ prepare source := Entity.not_mem_encode source.unindent
  have hn : Nests (prepare source) (highlightHtml source) := nests_mark hlt
  have hd : nesting 0 (highlightHtml source) = some 0 := hn.keeps 0 0 (nesting_of_not_mem hlt 0)
  refine ⟨hn.whole, count_mark ?_, fun p hp => ?_, ?_⟩
  · rw [List.count_eq_zero_of_not_mem hlt, List.count_eq_zero_of_not_mem hgt]
  · simpa using occurrences_le_of_nesting hn.whole hd hp
  · simpa using occurrences_eq_of_nesting hn.whole hd

end Renderer

end HtmlHighlight
