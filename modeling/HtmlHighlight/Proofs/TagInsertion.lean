import HtmlHighlight.Proofs.Boundaries

/-!
# Tags around an insertion

A text without ampersands that is inserted before an opening bracket neither hides nor makes a tag, as long as
it does not go on with the name or the slash that stands before it. It may only come to stand in the region of
one tag, and then that region is all that differs: `Tag.front?_insert` for one tag, `Tag.hits_insert` for the
tags of a whole text.
-/

namespace HtmlHighlight.Tag

/-- A text that is no part of a tag's beginning or of an entity where it stands before an ampersand. -/
structure Unobtrusive (x : Text) : Prop where
  not_mem : '&' ∉ x
  endsName : ∀ c ∈ x.head?, EndsName c

variable {x : Text}

/-- With and without the insertion, what follows begins with a character that ends a name. -/
theorem Unobtrusive.exists_append_eq (hx : Unobtrusive x) (y : Text) :
    ∃ c s, x ++ (Entity.lt ++ y) = c :: s ∧ EndsName c := by
  cases x with
  | nil => exact ⟨'&', ['l', 't', ';'] ++ y, rfl, by decide⟩
  | cons c x => exact ⟨c, x ++ (Entity.lt ++ y), rfl, hx.endsName c rfl⟩

/-- The closing bracket that ends a tag is the same with and without the insertion. -/
theorem Unobtrusive.cutAt?_append (hx : Unobtrusive x) {v : Text} (hv : Text.cutAt? Entity.gt v = none)
    (y : Text) : Text.cutAt? Entity.gt (v ++ (x ++ (Entity.lt ++ y))) =
      (Text.cutAt? Entity.gt (Entity.lt ++ y)).map fun (inner, rest) => (v ++ (x ++ inner), rest) := by
  obtain ⟨c, s, hc, -, -, hmark⟩ := hx.exists_append_eq y
  rw [hc, Entity.gt_eq, Text.cutAt?_append_cons (by simp_all) hv, ← hc,
    Text.cutAt?_append_of_not_mem hx.not_mem, Option.map_map]
  rfl

/-- The beginning of a tag is the same with and without the insertion. -/
theorem Unobtrusive.begin?_append (hx : Unobtrusive x) {b : Text} (hb : b ≠ []) (y : Text) :
    begin? (b ++ (x ++ (Entity.lt ++ y))) =
      (begin? b).map fun (isEnd, name, s) => (isEnd, name, s ++ (x ++ (Entity.lt ++ y))) := by
  obtain ⟨c, s, hc, hn⟩ := hx.exists_append_eq y
  rw [hc]
  exact begin?_append_cons hb hn s

theorem unobtrusive_nil : Unobtrusive [] :=
  ⟨by simp, by simp⟩

/-- What is read at a place before the insertion: the same as without it, unless a tag goes on beyond it. -/
theorem front?_insert (hx : Unobtrusive x) {b : Text} (hb : b ≠ []) (y : Text) :
    (front? (b ++ (Entity.lt ++ y)) = none ∧ front? (b ++ (x ++ (Entity.lt ++ y))) = none) ∨
    (∃ t rest, front? b = some (t, rest)) ∨
    ∃ t region rest, front? (b ++ (Entity.lt ++ y)) = some (t, rest) ∧
      front? (b ++ (x ++ (Entity.lt ++ y))) = some ({ t with region := region }, rest) ∧
      rest.length ≤ y.length := by
  have hbare := unobtrusive_nil.begin?_append hb y
  rw [List.nil_append] at hbare
  rw [front?_eq_begin?, front?_eq_begin?, front?_eq_begin? b, hbare, hx.begin?_append hb y]
  cases begin? b with
  | none => exact .inl ⟨rfl, rfl⟩
  | some u =>
    obtain ⟨isEnd, name, v⟩ := u
    simp only [Option.map_some, Option.bind_some]
    cases hv : Text.cutAt? Entity.gt v with
    | some q => exact .inr (.inl ⟨_, _, rfl⟩)
    | none =>
      have hcut := unobtrusive_nil.cutAt?_append hv y
      rw [List.nil_append] at hcut
      rw [hx.cutAt?_append hv y, hcut]
      cases hy : Text.cutAt? Entity.gt (Entity.lt ++ y) with
      | none => exact .inl ⟨rfl, rfl⟩
      | some q =>
        obtain ⟨inner, rest⟩ := q
        have he := Text.eq_append_of_cutAt? hy
        have hinner : inner ≠ [] := by
          rintro rfl
          simp [Entity.lt, Entity.gt] at he
        refine .inr (.inr ⟨_, (dropLastSlash (v ++ (x ++ inner))).1, rest, rfl, ?_, ?_⟩)
        · simp only [Option.map_some, Option.some.injEq, Prod.mk.injEq, and_true, ofInner, List.nil_append]
          rw [← List.append_assoc, dropLastSlash_append hinner, dropLastSlash_append hinner]
        · have hl := congrArg List.length he
          simp only [List.length_append, show Entity.lt.length = 4 from rfl,
            show Entity.gt.length = 4 from rfl] at hl
          omega

/-- A tag is read without regard to what stands after it. -/
theorem front?_append {b r : Text} {t : Tag} (h : front? b = some (t, r)) (z : Text) :
    front? (b ++ z) = some (t, r ++ z) := by
  have hs : b = t.source ++ r := eq_append_of_front? h
  have hp : ∀ s, front? (t.source ++ s) = (front? t.source).map fun (m, rest) => (m, rest ++ s) :=
    fun s => parts_gt _ s _ (List.suffix_refl _) (pattern.source_ne_nil t)
  rw [hs, hp] at h
  obtain ⟨⟨l, q⟩, hq, he⟩ := Option.map_eq_some_iff.1 h
  obtain ⟨rfl, hr⟩ := Prod.mk.inj he
  obtain rfl : q = [] := List.append_left_eq_self.1 hr
  rw [hs, List.append_assoc, hp, hq]
  rfl

/-- With and without the insertion the same tags are found, or the insertion stands within one of them and
the region of that tag is all that differs. -/
theorem hits_insert (hx : Unobtrusive x) (b y : Text) (start : Nat) :
    pattern.hits (b ++ (x ++ (Entity.lt ++ y))) = pattern.hits (b ++ (Entity.lt ++ y)) ∨
    ∃ l t region l' k,
      pattern.hits (b ++ (Entity.lt ++ y)) = l ++ t :: l' ∧
      pattern.hits (b ++ (x ++ (Entity.lt ++ y))) = l ++ { t with region := region } :: l' ∧
      (k, t) ∈ pattern.placements start (b ++ (Entity.lt ++ y)) ∧
      k < start + b.length ∧ start + b.length < k + t.source.length := by
  induction hn : b.length using Nat.strongRecOn generalizing b start with
  | ind n ih =>
    cases b with
    | nil =>
      rw [List.nil_append, List.nil_append]
      exact .inl (Pattern.hits_append_of_not_mem begins hx.not_mem _)
    | cons c b =>
      rcases front?_insert hx (List.cons_ne_nil c b) y with ⟨hf, hf'⟩ | ⟨t, r, hf⟩ | ⟨t, region, r, hf, hf', hr⟩
      · -- no tag begins here
        rw [← pattern_front?, List.cons_append] at hf hf'
        rw [List.cons_append, List.cons_append, Pattern.hits_of_front?_eq_none hf',
          Pattern.hits_of_front?_eq_none hf, Pattern.placements_of_front?_eq_none hf]
        have hlen : start + 1 + b.length = start + n := by
          rw [← hn, List.length_cons]
          omega
        rw [← hlen]
        exact ih b.length (by simp [← hn]) b (start + 1) rfl
      · -- a tag ends before the insertion
        have hs : c :: b = t.source ++ r := eq_append_of_front? hf
        have hfa := fun z => pattern_front? _ ▸ front?_append hf z
        rw [Pattern.hits_of_front? (hfa _), Pattern.hits_of_front? (hfa _),
          Pattern.placements_of_front? (hfa _), pattern_source]
        have hlen := congrArg List.length hs
        rw [hn, List.length_append] at hlen
        have hpos := List.length_pos_iff.2 (pattern.source_ne_nil t)
        rw [pattern_source] at hpos
        rcases ih r.length (by omega) r (start + t.source.length) rfl with
          heq | ⟨l, t', region, l', k, h, h', hk, hlt, hgt⟩
        · exact .inl (by rw [heq])
        · exact .inr ⟨t :: l, t', region, l', k, by rw [h]; rfl, by rw [h']; rfl, List.mem_cons_of_mem _ hk,
            by omega, by omega⟩
      · -- the insertion stands in the tag
        have hs : c :: b ++ (Entity.lt ++ y) = t.source ++ r := eq_append_of_front? hf
        rw [← pattern_front?] at hf hf'
        rw [Pattern.hits_of_front? hf, Pattern.hits_of_front? hf', Pattern.placements_of_front? hf]
        have hlen := congrArg List.length hs
        simp only [List.length_append, hn, show Entity.lt.length = 4 from rfl] at hlen
        have hpos : 0 < n := by simp [← hn]
        exact .inr ⟨[], t, region, pattern.hits r, start, rfl, rfl, List.mem_cons_self, by omega, by omega⟩

end HtmlHighlight.Tag
