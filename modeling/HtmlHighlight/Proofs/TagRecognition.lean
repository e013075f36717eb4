import HtmlHighlight.Proofs.Backtracking
import HtmlHighlight.Proofs.Boundaries
import HtmlHighlight.Proofs.ReadingRules

/-!
# Where tags stand

`Tag.rule` says where a tag begins and what belongs to it, and `Tag.regex` is the regular expression for tags. Both say
the same as `Tag.front?` at every place:

* `Tag.front?_eq_some_iff`: a tag that is read is one that stands there;
* `Tag.head?_ways_regex`: among the ways in which the expression reads a text, the reader takes the first.

So marking the tags of a text is reading it by the rule, and replacing the matches of the expression.
-/

namespace HtmlHighlight

namespace Tag

/-! ## The rule for tags -/

/-- All between the name of a tag and its closing bracket. -/
def inner (t : Tag) : Text :=
  t.region ++ slash t.isSelfClosing

/-- A tag at the front of a text, up to `rest`: its name is as long as it can be, the first closing bracket after the
name ends it, and it is self-closing if a slash stands right before that bracket and after the name. -/
structure Stands (s : Text) (t : Tag) (rest : Text) : Prop where
  eq_append : s = Entity.lt ++ slash t.isEnd ++ t.name ++ t.inner ++ Entity.gt ++ rest
  name : Text.MaximalRun isNameChar t.name (t.inner ++ Entity.gt ++ rest)
  closing : Text.FirstAt t.inner Entity.gt rest
  isSelfClosing_iff : t.isSelfClosing = true ↔ ['/'] <:+ t.inner

/-- A tag begins at an opening bracket with a name after it, before which a slash may stand, if a closing bracket
stands anywhere after the name. -/
def rule : Rule Tag where
  Begins _ s := ∃ isEnd name rest, s = Entity.lt ++ slash isEnd ++ name ++ rest ∧
    Text.MaximalRun isNameChar name rest ∧ Entity.gt <:+: rest
  Spans := Stands

theorem dropSlash_slash_append (present : Bool) {s : Text} (h : s.head? ≠ some '/') :
    dropSlash (slash present ++ s) = (present, s) := by
  cases present with
  | true => rfl
  | false =>
    cases s with
    | nil => rfl
    | cons c s =>
      have hc : c ≠ '/' := by simpa using h
      simp [slash, dropSlash, hc]

/-- The beginning of a tag is an opening bracket, a slash or none, and a name as long as it can be. -/
theorem begin?_eq_some_iff {s : Text} {isEnd : Bool} {name rest : Text} :
    begin? s = some (isEnd, name, rest) ↔
      s = Entity.lt ++ slash isEnd ++ name ++ rest ∧ Text.MaximalRun isNameChar name rest := by
  constructor
  · intro h
    obtain ⟨u, hu, h⟩ := Option.bind_eq_some_iff.1 h
    split at h
    next => cases h
    next hn =>
      cases h
      refine ⟨?_, Text.maximalRun_takeWhile hn⟩
      rw [Text.after?_eq_some_iff.1 hu, List.append_assoc _ (List.takeWhile _ _), List.takeWhile_append_dropWhile,
        List.append_assoc, ← eq_append_of_dropSlash]
  · rintro ⟨rfl, hname⟩
    have hslash : (name ++ rest).head? ≠ some '/' := by
      obtain ⟨c, name, rfl⟩ := List.exists_cons_of_ne_nil hname.ne_nil
      have hc := hname.all c List.mem_cons_self
      rintro ⟨⟩
      revert hc
      decide
    rw [begin?, List.append_assoc, List.append_assoc, Text.after?_append, Option.bind_some,
      dropSlash_slash_append isEnd hslash, hname.takeWhile_append, hname.dropWhile_append, if_neg hname.ne_nil]

theorem ofInner_eq_iff {isEnd : Bool} {name inner : Text} {t : Tag} :
    ofInner isEnd name inner = t ↔
      isEnd = t.isEnd ∧ name = t.name ∧ inner = t.inner ∧ (t.isSelfClosing = true ↔ ['/'] <:+ t.inner) := by
  constructor
  · rintro rfl
    refine ⟨rfl, rfl, eq_append_of_dropLastSlash inner, ?_⟩
    rw [← show inner = (ofInner isEnd name inner).inner from eq_append_of_dropLastSlash inner, ofInner, dropLastSlash]
    split
    next h => simpa [List.getLast?_eq_some_iff, List.IsSuffix, eq_comm] using h
    next h => simpa [List.getLast?_eq_some_iff, List.IsSuffix, eq_comm] using h
  · rintro ⟨rfl, rfl, rfl, h⟩
    obtain ⟨isEnd, name, region, isSelfClosing⟩ := t
    cases isSelfClosing with
    | true => simp [ofInner, Tag.inner, slash, dropLastSlash]
    | false =>
      have hl : region.getLast? ≠ some '/' := by
        intro hl
        obtain ⟨a, rfl⟩ := List.getLast?_eq_some_iff.1 hl
        exact Bool.false_ne_true (h.2 ⟨a, by simp [Tag.inner, slash]⟩)
      simp [ofInner, Tag.inner, slash, dropLastSlash, hl]

/-- A tag is read where one stands. -/
theorem front?_eq_some_iff {s : Text} {t : Tag} {rest : Text} :
    front? s = some (t, rest) ↔ t.Stands s rest := by
  rw [front?_eq_begin?]
  constructor
  · intro h
    obtain ⟨⟨isEnd, name, u⟩, hb, h⟩ := Option.bind_eq_some_iff.1 h
    obtain ⟨⟨inner, r⟩, hi, he⟩ := Option.map_eq_some_iff.1 h
    obtain ⟨hs, hname⟩ := begin?_eq_some_iff.1 hb
    obtain ⟨hu, hfirst⟩ := Text.cutAt?_eq_some_iff.1 hi
    obtain ⟨ht, rfl⟩ := Prod.mk.inj he
    obtain ⟨rfl, rfl, rfl, hslash⟩ := ofInner_eq_iff.1 ht
    exact ⟨by rw [hs, hu]; simp only [List.append_assoc], hu ▸ hname, hfirst, hslash⟩
  · rintro ⟨hs, hname, hfirst, hslash⟩
    have hb : begin? s = some (t.isEnd, t.name, t.inner ++ Entity.gt ++ rest) :=
      begin?_eq_some_iff.2 ⟨by rw [hs]; simp only [List.append_assoc], hname⟩
    have hi : Text.cutAt? Entity.gt (t.inner ++ Entity.gt ++ rest) = some (t.inner, rest) :=
      Text.cutAt?_eq_some_iff.2 ⟨rfl, hfirst⟩
    rw [hb, Option.bind_some]
    dsimp only
    rw [hi, Option.map_some, ofInner_eq_iff.2 ⟨rfl, rfl, rfl, hslash⟩]

/-- A tag is read where one begins. -/
theorem isSome_front?_iff {s : Text} :
    (front? s).isSome ↔ ∃ isEnd name rest, s = Entity.lt ++ slash isEnd ++ name ++ rest ∧
      Text.MaximalRun isNameChar name rest ∧ Entity.gt <:+: rest := by
  rw [front?_eq_begin?]
  constructor
  · intro h
    obtain ⟨f, hf⟩ := Option.isSome_iff_exists.1 h
    obtain ⟨⟨isEnd, name, u⟩, hb, h⟩ := Option.bind_eq_some_iff.1 hf
    obtain ⟨⟨inner, r⟩, hi, -⟩ := Option.map_eq_some_iff.1 h
    obtain ⟨hs, hname⟩ := begin?_eq_some_iff.1 hb
    exact ⟨isEnd, name, u, hs, hname, inner, r, (Text.eq_append_of_cutAt? hi).symm⟩
  · rintro ⟨isEnd, name, u, hs, hname, hgt⟩
    rw [begin?_eq_some_iff.2 ⟨hs, hname⟩, Option.bind_some, Option.isSome_map, Option.isSome_iff_ne_none]
    exact fun hn => Text.cutAt?_eq_none_iff.1 hn hgt

theorem rule_describes : rule.Describes pattern fun _ _ => True where
  start _ := trivial
  skip _ _ := trivial
  next _ _ := trivial
  begins_iff _ := isSome_front?_iff.symm
  spans_iff := front?_eq_some_iff.symm

/-! ## The regular expression for tags -/

/-- The end of a tag: a slash if there is one, and a closing bracket. -/
def endingRegex : Regex :=
  .seq (.group (.optional (.text ['/']))) (.group (.text Entity.gt))

/-- The expression from the end of a tag's name on. -/
def regionRegex : Regex :=
  .seq (.group (.many true fun _ => true)) endingRegex

/-- The expression from the name of a tag on. -/
def nameRegex : Regex :=
  .seq (.group (.atLeastOne false isNameChar)) regionRegex

/-- The regular expression for tags: an opening bracket, perhaps with a slash, a name, as little as possible up to the
end, perhaps a slash, and a closing bracket. -/
def regex : Regex :=
  .seq (.group (.seq (.text Entity.lt) (.optional (.text ['/'])))) nameRegex

/-- What the groups of the expression hold for a tag. -/
def groups (t : Tag) : List (Option Text) :=
  [some t.opening, some t.name, some t.region, some (slash t.isSelfClosing), some Entity.gt]

variable {β : Type}

open Regex (Way)

theorem tryWays_slash {s : Text} {k : Way → Option β} (h : ∀ u, s = '/' :: u → k ⟨[], [], s⟩ = none) :
    (Regex.optional (.text ['/'])).tryWays s k = k ⟨slash (dropSlash s).1, [], (dropSlash s).2⟩ := by
  rw [Regex.tryWays_optional, Regex.tryWays_text]
  cases s with
  | nil => rfl
  | cons c s =>
    by_cases hc : c = '/'
    · subst hc
      have hk : k ⟨[], List.replicate (Regex.text ['/']).groupCount none, '/' :: s⟩ = none := h s rfl
      rw [hk, Option.or_none]
      rfl
    · have hd : dropSlash (c :: s) = (false, c :: s) := by simp [dropSlash, hc]
      rw [hd, Text.after?_cons_eq_none hc]
      rfl

theorem tryWays_endingRegex (s : Text) (k : Way → Option β) :
    endingRegex.tryWays s k = (Text.after? Entity.gt (dropSlash s).2).bind fun rest =>
      k ⟨slash (dropSlash s).1 ++ Entity.gt, [some (slash (dropSlash s).1), some Entity.gt], rest⟩ := by
  rw [endingRegex, Regex.tryWays_seq, Regex.tryWays_group]
  simp only [Regex.tryWays_group, Regex.tryWays_text]
  rw [tryWays_slash]
  · rfl
  · rintro u rfl
    rfl

theorem dropLastSlash_cons {c : Char} {s : Text} (h : c = '/' → s ≠ []) :
    dropLastSlash (c :: s) = (c :: (dropLastSlash s).1, (dropLastSlash s).2) := by
  cases s with
  | nil =>
    have hc : c ≠ '/' := fun hc => h hc rfl
    simp [dropLastSlash, hc]
  | cons d s => exact dropLastSlash_append (List.cons_ne_nil d s) [c]

/-- What is read lazily up to the end of a tag: all before the first closing bracket and before a slash there. -/
theorem tryWays_lazy (s : Text) (h : Text → List (Option Text) → Way → β) :
    (Regex.many true fun _ => true).tryWays s
        (fun x => endingRegex.tryWays x.rest fun y => some (h x.matched x.groups y)) =
      (Text.cutAt? Entity.gt s).map fun (inner, rest) =>
        h (dropLastSlash inner).1 [] ⟨slash (dropLastSlash inner).2 ++ Entity.gt,
          [some (slash (dropLastSlash inner).2), some Entity.gt], rest⟩ := by
  induction s generalizing h with
  | nil => rfl
  | cons c s ih =>
    rw [Regex.tryWays_lazy_cons, tryWays_endingRegex, Text.cutAt?]
    cases ha : Text.after? Entity.gt (c :: s) with
    | some rest =>
      obtain ⟨rfl, -⟩ := List.cons_eq_cons.1 (Text.after?_eq_some_iff.1 ha)
      have hd : dropSlash ('&' :: s) = (false, '&' :: s) := rfl
      rw [hd, ha]
      rfl
    | none =>
      have hrec := ih fun m => h (c :: m)
      by_cases hend : c = '/' ∧ (Text.after? Entity.gt s).isSome
      · obtain ⟨rfl, hs⟩ := hend
        obtain ⟨rest, hs⟩ := Option.isSome_iff_exists.1 hs
        have hc : Text.cutAt? Entity.gt s = some ([], rest) := by
          rw [Text.after?_eq_some_iff.1 hs, Text.cutAt?_self_append (by decide)]
        have hd : dropSlash ('/' :: s) = (true, s) := rfl
        rw [hd, hs, hc]
        rfl
      · have hnone : Text.after? Entity.gt (dropSlash (c :: s)).2 = none := by
          by_cases hc : c = '/'
          · have hs : ¬ (Text.after? Entity.gt s).isSome := fun hs => hend ⟨hc, hs⟩
            subst hc
            simpa [dropSlash] using hs
          · have hd : dropSlash (c :: s) = (false, c :: s) := by simp [dropSlash, hc]
            rw [hd, ha]
        rw [hnone, Option.bind_none, Option.none_or, hrec, Option.map_map]
        cases hcut : Text.cutAt? Entity.gt s with
        | none => rfl
        | some q =>
          obtain ⟨inner, rest⟩ := q
          have hinner : c = '/' → inner ≠ [] := by
            rintro rfl rfl
            refine hend ⟨rfl, ?_⟩
            rw [Text.eq_append_of_cutAt? hcut, List.nil_append, Text.after?_append]
            rfl
          simp only [Option.map_some, Function.comp_apply, dropLastSlash_cons hinner]

theorem tryWays_regionRegex (s : Text) (h : Way → β) :
    regionRegex.tryWays s (fun x => some (h x)) = (Text.cutAt? Entity.gt s).map fun (inner, rest) =>
      h ⟨(dropLastSlash inner).1 ++ (slash (dropLastSlash inner).2 ++ Entity.gt),
        [some (dropLastSlash inner).1, some (slash (dropLastSlash inner).2), some Entity.gt], rest⟩ := by
  rw [regionRegex, Regex.tryWays_seq, Regex.tryWays_group]
  exact tryWays_lazy s fun m gs y => h ⟨m ++ y.matched, some m :: gs ++ y.groups, y.rest⟩

theorem tryWays_nameRegex (s : Text) (h : Way → β) :
    nameRegex.tryWays s (fun x => some (h x)) =
      if s.takeWhile isNameChar = [] then none
      else (Text.cutAt? Entity.gt (s.dropWhile isNameChar)).map fun (inner, rest) =>
        h ⟨s.takeWhile isNameChar ++ ((dropLastSlash inner).1 ++ (slash (dropLastSlash inner).2 ++ Entity.gt)),
          [some (s.takeWhile isNameChar), some (dropLastSlash inner).1, some (slash (dropLastSlash inner).2),
            some Entity.gt], rest⟩ := by
  rw [nameRegex, Regex.tryWays_seq, Regex.tryWays_group]
  simp only [tryWays_regionRegex]
  rw [Regex.tryWays_atLeastOne]
  · rfl
  · -- a name cut short does not help to find a closing bracket
    rintro (hl | hnone)
    · cases hl
    rintro x c rest rfl hx hc
    rw [Option.map_eq_none_iff, List.dropWhile_append_of_pos hx] at hnone
    rw [Option.map_eq_none_iff]
    have hname : '&' ∉ (c :: rest).takeWhile isNameChar := fun hm =>
      absurd (List.all_eq_true.1 List.all_takeWhile _ hm) (by decide)
    have hcut := Text.cutAt?_append_of_not_mem hname ['g', 't', ';'] ((c :: rest).dropWhile isNameChar)
    rw [List.takeWhile_append_dropWhile, ← Entity.gt_eq, hnone] at hcut
    exact hcut

/-- The first of the ways in which the expression reads a text is the tag that is read. -/
theorem head?_ways_regex (s : Text) :
    (regex.ways s).head? = (front? s).map fun (t, rest) => ⟨t.source, t.groups, rest⟩ := by
  rw [Regex.head?_ways, regex, Regex.tryWays_seq, Regex.tryWays_group, Regex.tryWays_seq, Regex.tryWays_text,
    front?]
  simp only [tryWays_nameRegex, Way.append]
  cases Text.after? Entity.lt s with
  | none => rfl
  | some u =>
    rw [Option.bind_some, tryWays_slash]
    · by_cases hn : (dropSlash u).2.takeWhile isNameChar = []
      · simp only [if_pos hn, Option.map_none]
      · simp only [if_neg hn, Option.map_map]
        cases Text.cutAt? Entity.gt ((dropSlash u).2.dropWhile isNameChar) with
        | none => rfl
        | some q => simp [source, groups, opening]
    · rintro v rfl
      rfl

-- the region goes up to the last of several slashes, which is the mark of a self-closing tag
example : (regex.ways "&lt;br//&gt;x".toList).head? =
    some ⟨"&lt;br//&gt;".toList, ["&lt;", "br", "/", "/", "&gt;"].map (some ·.toList), ['x']⟩ := by decide

/-- A tag as a match of the expression. -/
def toMatch (t : Tag) : Regex.Match :=
  ⟨t.source, t.groups, pattern.source_ne_nil t⟩

end Tag

namespace Renderer

variable (r : Renderer)

/-- A match of the expression for tags as the renderer marks it, group by group; a slash that is absent is not
marked. -/
def writeTagMatch (m : Regex.Match) : Text :=
  match m.groups with
  | [some opening, some name, some region, slash, some closing] =>
    r.style .tag opening ++ r.style .tagName name ++ r.markAttributes region ++
      (match slash.filter (· ≠ []) with
        | some slash => r.style .tag slash
        | none => []) ++ r.style .tag closing
  | _ => m.matched

theorem writeTagMatch_toMatch (t : Tag) : r.writeTagMatch t.toMatch = r.writeTag t := by
  obtain ⟨isEnd, name, region, _ | _⟩ := t <;> rfl

/-- Marking the tags of a text is replacing the matches of the regular expression for tags, and it is reading the
text from the left by the rule for tags. -/
theorem markTags_eq_iff_writes (s : Text) :
    r.markTags s = Tag.regex.pattern.replace r.writeTagMatch s ∧
      ∀ written, r.markTags s = written ↔ Tag.rule.Writes r.writeTag [] s written := by
  rw [markTags_eq_replace]
  constructor
  · exact (Regex.replace_eq_replace Tag.toMatch Tag.head?_ways_regex r.writeTagMatch_toMatch s).symm
  · exact Tag.rule_describes.writes_iff s

end Renderer

end HtmlHighlight
