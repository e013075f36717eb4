import HtmlHighlight.Proofs.Backtracking
import HtmlHighlight.Proofs.Boundaries
import HtmlHighlight.Proofs.ReadingRules

/-!
# Where attributes stand

`Attribute.rule` says where an attribute begins and what belongs to it, and `Attribute.regex` is the regular expression
for attributes. Both say the same as `Attribute.front?`:

* `Attribute.front?_eq_some_iff`: an attribute that is read is one that stands there;
* `Attribute.rule_describes`: the search comes to no place within blank space where an attribute would be read, so
  each attribute it finds begins with all of the blank space before the name;
* `Attribute.head?_ways_regex`: among the ways in which the expression reads a text, the reader takes the first.
-/

namespace HtmlHighlight

namespace Text

/-- A text is cut at a character where its part without the character ends. -/
theorem cutAt?_singleton (c : Char) (s : Text) :
    cutAt? [c] s = (after? [c] (s.dropWhile (· ≠ c))).map fun rest => (s.takeWhile (· ≠ c), rest) := by
  have hc : c ∉ s.takeWhile (· ≠ c) := fun hm => by simpa using List.all_eq_true.1 List.all_takeWhile _ hm
  have hcut := cutAt?_append_of_not_mem hc [] (s.dropWhile (· ≠ c))
  rw [List.takeWhile_append_dropWhile] at hcut
  rw [hcut]
  cases hd : s.dropWhile (· ≠ c) with
  | nil => rfl
  | cons d u =>
    have hdc : d = c := by
      have hn := List.head?_dropWhile_not (fun d => decide (d ≠ c)) s
      rw [hd] at hn
      simpa using hn
    subst hdc
    simp [cutAt?, after?]

end Text

namespace Attribute

/-! ## The rule for attributes -/

/-- A character that a value begins and ends with. -/
def IsQuote (c : Char) : Prop :=
  c = '"' ∨ c = '\''

/-- The value that stands after an equal sign, up to `rest`: there is one if a quote stands there and occurs again
anywhere after that, and it ends where the quote first does. -/
structure ValueStands (value? : Option Text) (rest : Text) : Prop where
  isSome_iff : value?.isSome ↔ ∃ q u, IsQuote q ∧ value?.getD [] ++ rest = q :: u ∧ q ∈ u
  eq_of_mem : ∀ v ∈ value?, ∃ q body, IsQuote q ∧ v = q :: (body ++ [q]) ∧ q ∉ body

/-- An attribute at the front of a text, up to `rest`: blank space and a name, each as long as it can be, an equal
sign, and the value after it. -/
structure Stands (s : Text) (a : Attribute) (rest : Text) : Prop where
  eq_append : s = a.spacing ++ (a.name ++ '=' :: (a.value?.getD [] ++ rest))
  spacing : Text.MaximalRun isBlank a.spacing (a.name ++ '=' :: (a.value?.getD [] ++ rest))
  name : Text.MaximalRun isNameChar a.name ('=' :: (a.value?.getD [] ++ rest))
  value : ValueStands a.value? rest

/-- An attribute begins at the first character of a run of blank space, if a name follows the run and an equal sign
follows the name. -/
def rule : Rule Attribute where
  Begins before s := (∀ c ∈ before.getLast?, isBlank c = false) ∧
    ∃ spacing name rest, s = spacing ++ (name ++ '=' :: rest) ∧
      Text.MaximalRun isBlank spacing (name ++ '=' :: rest) ∧ Text.MaximalRun isNameChar name ('=' :: rest)
  Spans := Stands

theorem quoted?_cons {q : Char} (hq : IsQuote q) (s : Text) :
    quoted? (q :: s) = (Text.cutAt? [q] s).map fun (body, rest) => (q :: body ++ [q], rest) :=
  if_pos hq

theorem quoted?_eq_some_iff {s v rest : Text} :
    quoted? s = some (v, rest) ↔
      ∃ q body, IsQuote q ∧ v = q :: (body ++ [q]) ∧ q ∉ body ∧ s = v ++ rest := by
  constructor
  · intro h
    have hs := eq_append_of_quoted? h
    cases s with
    | nil => cases h
    | cons q s =>
      rw [quoted?] at h
      split at h
      next hq =>
        obtain ⟨⟨body, r⟩, hb, he⟩ := Option.map_eq_some_iff.1 h
        cases he
        have hn : ¬ [q] <:+: body := Text.not_infix_of_cutAt? (by simp) hb
        exact ⟨q, body, hq, rfl, fun hm => hn ((List.singleton_infix_iff q body).2 hm), hs⟩
      next => cases h
  · rintro ⟨q, body, hq, rfl, hbody, rfl⟩
    have hn : ¬ [q] <:+: body := fun hi => hbody ((List.singleton_infix_iff q body).1 hi)
    have hc : Text.cutAt? [q] (body ++ q :: rest) = some (body, rest) :=
      Text.cutAt?_append_of_not_infix (List.not_mem_nil) hn rest
    have he : (q :: (body ++ [q])) ++ rest = q :: (body ++ q :: rest) := by simp
    rw [he, quoted?_cons hq, hc]
    rfl

theorem isSome_quoted?_iff {s : Text} : (quoted? s).isSome ↔ ∃ q u, IsQuote q ∧ s = q :: u ∧ q ∈ u := by
  constructor
  · intro h
    obtain ⟨⟨v, rest⟩, hv⟩ := Option.isSome_iff_exists.1 h
    obtain ⟨q, body, hq, rfl, -, rfl⟩ := quoted?_eq_some_iff.1 hv
    exact ⟨q, body ++ [q] ++ rest, hq, rfl, by simp⟩
  · rintro ⟨q, u, hq, rfl, hm⟩
    rw [quoted?_cons hq, Option.isSome_map, Option.isSome_iff_ne_none]
    exact fun hn => Text.cutAt?_eq_none_iff.1 hn ((List.singleton_infix_iff q u).2 hm)

/-- What is taken as the value is the value that stands there. -/
theorem takeValue_eq_iff {s : Text} {value? : Option Text} {rest : Text} :
    takeValue s = (value?, rest) ↔ s = value?.getD [] ++ rest ∧ ValueStands value? rest := by
  constructor
  · intro h
    have hs := eq_append_of_takeValue s
    rw [h] at hs
    refine ⟨hs, ?_, ?_⟩
    · rw [← hs, ← isSome_quoted?_iff]
      rw [takeValue] at h
      split at h
      next hq =>
        cases h
        simp [hq]
      next hq =>
        cases h
        simp [hq]
    · intro v hv
      rw [takeValue] at h
      split at h
      next hq =>
        cases h
        cases Option.mem_some.1 hv
        obtain ⟨q, body, hquote, hv, hbody, -⟩ := quoted?_eq_some_iff.1 hq
        exact ⟨q, body, hquote, hv, hbody⟩
      next =>
        cases h
        cases hv
  · rintro ⟨hs, hsome, hvalue⟩
    rw [← hs, ← isSome_quoted?_iff] at hsome
    rw [takeValue]
    cases value? with
    | none =>
      have hq : quoted? s = none := by simpa using hsome
      rw [hq, hs]
      rfl
    | some v =>
      obtain ⟨q, body, hquote, hv, hbody⟩ := hvalue v rfl
      have hq : quoted? s = some (v, rest) := quoted?_eq_some_iff.2 ⟨q, body, hquote, hv, hbody, hs⟩
      rw [hq]

/-- An attribute is read from its blank space, its name and its equal sign. -/
theorem front?_eq_some_iff_takeValue {s : Text} {a : Attribute} {rest : Text} :
    front? s = some (a, rest) ↔ ∃ u, s = a.spacing ++ (a.name ++ '=' :: u) ∧
      Text.MaximalRun isBlank a.spacing (a.name ++ '=' :: u) ∧ Text.MaximalRun isNameChar a.name ('=' :: u) ∧
      takeValue u = (a.value?, rest) := by
  constructor
  · intro h
    rw [front?] at h
    dsimp only at h
    split at h
    next => cases h
    next hs =>
      split at h
      next => cases h
      next hn =>
        split at h
        next => cases h
        next u hu =>
          cases h
          have hspacing := Text.maximalRun_takeWhile hs
          have hname := Text.maximalRun_takeWhile hn
          rw [Text.after?_eq_some_iff, List.singleton_append] at hu
          rw [hu] at hname
          have hd : s.dropWhile isBlank =
              (s.dropWhile isBlank).takeWhile isNameChar ++ '=' :: u := by
            rw [← hu, List.takeWhile_append_dropWhile]
          exact ⟨u, by rw [← hd, List.takeWhile_append_dropWhile], hd ▸ hspacing, hname, rfl⟩
  · rintro ⟨u, rfl, hspacing, hname, hvalue⟩
    have hequals : Text.after? ['='] ('=' :: u) = some u := Text.after?_append ['='] u
    simp only [front?, hspacing.takeWhile_append, hspacing.dropWhile_append, hname.takeWhile_append,
      hname.dropWhile_append, if_neg hspacing.ne_nil, if_neg hname.ne_nil, hequals, hvalue]

/-- An attribute is read where one stands. -/
theorem front?_eq_some_iff {s : Text} {a : Attribute} {rest : Text} :
    front? s = some (a, rest) ↔ a.Stands s rest := by
  rw [front?_eq_some_iff_takeValue]
  constructor
  · rintro ⟨u, hs, hspacing, hname, hvalue⟩
    obtain ⟨rfl, hv⟩ := takeValue_eq_iff.1 hvalue
    exact ⟨hs, hspacing, hname, hv⟩
  · rintro ⟨hs, hspacing, hname, hvalue⟩
    exact ⟨_, hs, hspacing, hname, takeValue_eq_iff.2 ⟨rfl, hvalue⟩⟩

theorem isSome_front?_iff {s : Text} :
    (front? s).isSome ↔ ∃ spacing name rest, s = spacing ++ (name ++ '=' :: rest) ∧
      Text.MaximalRun isBlank spacing (name ++ '=' :: rest) ∧ Text.MaximalRun isNameChar name ('=' :: rest) := by
  constructor
  · intro h
    obtain ⟨⟨a, rest⟩, hf⟩ := Option.isSome_iff_exists.1 h
    obtain ⟨u, hs, hspacing, hname, -⟩ := front?_eq_some_iff_takeValue.1 hf
    exact ⟨a.spacing, a.name, u, hs, hspacing, hname⟩
  · rintro ⟨spacing, name, u, hs, hspacing, hname⟩
    have hf : front? s = some (⟨spacing, name, (takeValue u).1⟩, (takeValue u).2) :=
      front?_eq_some_iff_takeValue.2 ⟨u, hs, hspacing, hname, rfl⟩
    rw [hf]
    rfl

/-- Where no attribute is read at a blank character, none is read after it. -/
theorem front?_eq_none_of_cons {c : Char} {s : Text} (hc : isBlank c = true) (h : front? (c :: s) = none) :
    front? s = none := by
  cases hf : front? s with
  | none => rfl
  | some f =>
    obtain ⟨spacing, name, u, rfl, hspacing, hname⟩ := isSome_front?_iff.1 (by rw [hf]; rfl)
    have hcons : Text.MaximalRun isBlank (c :: spacing) (name ++ '=' :: u) :=
      ⟨List.cons_ne_nil _ _, List.forall_mem_cons.2 ⟨hc, hspacing.all⟩, hspacing.stops⟩
    have hsome : (front? (c :: (spacing ++ (name ++ '=' :: u)))).isSome :=
      isSome_front?_iff.2 ⟨c :: spacing, name, u, rfl, hcons, hname⟩
    rw [h] at hsome
    cases hsome

/-- An attribute ends with its equal sign or a quote. -/
theorem isBlank_getLast?_source {s : Text} {a : Attribute} {rest : Text} (h : front? s = some (a, rest)) (b : Text) :
    ∀ c ∈ (b ++ a.source).getLast?, isBlank c = false := by
  obtain ⟨-, -, -, -, hvalue⟩ := front?_eq_some_iff.1 h
  intro c hc
  rw [source, ← List.append_assoc, List.getLast?_append_of_ne_nil _ (List.cons_ne_nil _ _)] at hc
  cases hv : a.value? with
  | none =>
    rw [hv] at hc
    cases hc
    decide
  | some v =>
    obtain ⟨q, body, hq, rfl, -⟩ := hvalue v hv
    have hcq : c = q := by
      have he : '=' :: q :: (body ++ [q]) = '=' :: q :: body ++ [q] := by simp
      rw [hv, Option.getD_some, he, List.getLast?_concat] at hc
      exact (Option.mem_some.1 hc).symm
    rcases hq with rfl | rfl
    · rw [hcq]
      decide
    · rw [hcq]
      decide

/-- No attribute is read at a place that the search comes to behind a blank character. -/
theorem rule_describes :
    rule.Describes pattern fun before s => (∃ c ∈ before.getLast?, isBlank c = true) → front? s = none where
  start s := by
    rintro ⟨c, hc, -⟩
    cases hc
  skip {before s c} _ hf := by
    rintro ⟨d, hd, hblank⟩
    rw [List.getLast?_concat, Option.mem_some] at hd
    exact front?_eq_none_of_cons (hd ▸ hblank) hf
  next {before s a rest} _ hf := by
    rintro ⟨c, hc, hblank⟩
    rw [isBlank_getLast?_source hf before c hc] at hblank
    cases hblank
  begins_iff {before s} hr := by
    refine ⟨fun h => isSome_front?_iff.2 h.2, fun h => ⟨fun c hc => ?_, isSome_front?_iff.1 h⟩⟩
    cases hblank : isBlank c with
    | false => rfl
    | true =>
      rw [pattern_front?, hr ⟨c, hc, hblank⟩] at h
      cases h
  spans_iff := front?_eq_some_iff.symm

/-! ## The regular expression for attributes -/

/-- The regular expression for a text between two quotes. -/
def quotedRegex (q : Char) : Regex :=
  .seq (.text [q]) (.seq (.many false (· ≠ q)) (.text [q]))

/-- The regular expression for a value, which may be missing. -/
def valueRegex : Regex :=
  .optional (.group (.alt (quotedRegex '"') (quotedRegex '\'')))

/-- The expression from the equal sign of an attribute on. -/
def equalsRegex : Regex :=
  .seq (.group (.text ['='])) valueRegex

/-- The expression from the name of an attribute on. -/
def nameRegex : Regex :=
  .seq (.group (.atLeastOne false isNameChar)) equalsRegex

/-- The regular expression for attributes: blank space, a name, an equal sign, and perhaps a quoted value. -/
def regex : Regex :=
  .seq (.group (.atLeastOne false isBlank)) nameRegex

/-- What the groups of the expression hold for an attribute. -/
def groups (a : Attribute) : List (Option Text) :=
  [some a.spacing, some a.name, some ['='], a.value?]

variable {β : Type}

open Regex (Way)

theorem tryWays_quotedRegex (q : Char) (s : Text) (k : Way → Option β) :
    (quotedRegex q).tryWays s k = (Text.after? [q] s).bind fun u =>
      (Text.cutAt? [q] u).bind fun (body, rest) => k ⟨q :: (body ++ [q]), [], rest⟩ := by
  rw [quotedRegex, Regex.tryWays_seq, Regex.tryWays_text]
  simp only [Regex.tryWays_seq, Regex.tryWays_text]
  congr 1
  funext u
  rw [Regex.tryWays_many]
  · rw [Text.cutAt?_singleton]
    cases Text.after? [q] (u.dropWhile (· ≠ q)) <;> rfl
  · -- the closing quote is not read before a character that is none
    rintro - x c rest - - hc
    dsimp only
    rw [Text.after?_cons_eq_none (by simpa using hc)]
    rfl

/-- Where the expression reads a value, it is the one that is taken. -/
theorem tryWays_valueRegex (s : Text) (h : Way → β) :
    valueRegex.tryWays s (fun x => some (h x)) =
      some (h ⟨(takeValue s).1.getD [], [(takeValue s).1], (takeValue s).2⟩) := by
  rw [valueRegex, Regex.tryWays_optional, Regex.tryWays_group, Regex.tryWays_alt]
  simp only [tryWays_quotedRegex]
  cases s with
  | nil => rfl
  | cons q u =>
    by_cases hq : IsQuote q
    · have hread : Text.after? [q] (q :: u) = some u := Text.after?_append [q] u
      rw [takeValue, quoted?_cons hq]
      rcases hq with rfl | rfl
      · rw [hread, Option.bind_some, Text.after?_cons_eq_none (by decide)]
        cases Text.cutAt? ['"'] u <;> rfl
      · rw [hread, Text.after?_cons_eq_none (by decide), Option.bind_some]
        cases Text.cutAt? ['\''] u <;> rfl
    · have hnone : quoted? (q :: u) = none := if_neg hq
      rw [takeValue, hnone, Text.after?_cons_eq_none fun h => hq (.inl h),
        Text.after?_cons_eq_none fun h => hq (.inr h)]
      rfl

theorem tryWays_equalsRegex (s : Text) (h : Way → β) :
    equalsRegex.tryWays s (fun x => some (h x)) = (Text.after? ['='] s).map fun u =>
      h ⟨'=' :: (takeValue u).1.getD [], [some ['='], (takeValue u).1], (takeValue u).2⟩ := by
  rw [equalsRegex, Regex.tryWays_seq, Regex.tryWays_group, Regex.tryWays_text]
  simp only [tryWays_valueRegex]
  cases Text.after? ['='] s <;> rfl

theorem tryWays_nameRegex (s : Text) (h : Way → β) :
    nameRegex.tryWays s (fun x => some (h x)) =
      if s.takeWhile isNameChar = [] then none
      else (Text.after? ['='] (s.dropWhile isNameChar)).map fun u =>
        h ⟨s.takeWhile isNameChar ++ '=' :: (takeValue u).1.getD [],
          [some (s.takeWhile isNameChar), some ['='], (takeValue u).1], (takeValue u).2⟩ := by
  rw [nameRegex, Regex.tryWays_seq, Regex.tryWays_group]
  simp only [tryWays_equalsRegex]
  rw [Regex.tryWays_atLeastOne]
  · rfl
  · -- an equal sign is no character of a name
    rintro - x c rest - - hc
    dsimp only
    have hne : c ≠ '=' := by
      rintro rfl
      exact absurd hc (by decide)
    rw [Text.after?_cons_eq_none hne]
    rfl

theorem toNat_of_isAlpha {c : Char} (h : c.isAlpha = true) :
    65 ≤ c.toNat ∧ c.toNat ≤ 90 ∨ 97 ≤ c.toNat ∧ c.toNat ≤ 122 := by
  rcases Bool.or_eq_true_iff.1 h with hu | hl
  · have hupper : 'A' ≤ c ∧ c ≤ 'Z' := of_decide_eq_true hu
    exact .inl hupper
  · obtain ⟨ha, hz⟩ := Bool.and_eq_true_iff.1 hl
    exact .inr ⟨of_decide_eq_true ha, of_decide_eq_true hz⟩

theorem isNameChar_eq_false_of_isBlank {c : Char} (h : isBlank c = true) : isNameChar c = false := by
  cases hn : isNameChar c with
  | false => rfl
  | true =>
    simp only [isNameChar, Bool.or_eq_true, decide_eq_true_eq] at hn
    rcases hn with (ha | rfl) | rfl
    · have hc := toNat_of_isAlpha ha
      simp only [isBlank, blankRanges, List.any_cons, List.any_nil, Bool.or_false, Bool.or_eq_true,
        Bool.and_eq_true, decide_eq_true_eq] at h
      omega
    · cases h
    · cases h

/-- The first of the ways in which the expression reads a text is the attribute that is read. -/
theorem head?_ways_regex (s : Text) :
    (regex.ways s).head? = (front? s).map fun (a, rest) => ⟨a.source, a.groups, rest⟩ := by
  rw [Regex.head?_ways, regex, Regex.tryWays_seq, Regex.tryWays_group, front?]
  simp only [tryWays_nameRegex]
  rw [Regex.tryWays_atLeastOne]
  · dsimp only
    split
    · rfl
    · split
      · rfl
      · cases Text.after? ['='] ((s.dropWhile isBlank).dropWhile isNameChar) with
        | none => rfl
        | some u => simp [source, groups, Way.append]
  · -- no name begins with blank space
    rintro - x c rest - - hc
    have hn : (c :: rest).takeWhile isNameChar = [] := by
      rw [List.takeWhile_cons_of_neg (by simp [isNameChar_eq_false_of_isBlank hc])]
    exact if_pos hn

-- a quote of the other kind does not end a value
example : (regex.ways " a=\"b'c\"d".toList).head? =
    some ⟨" a=\"b'c\"".toList, [" ", "a", "=", "\"b'c\""].map (some ·.toList), ['d']⟩ := by decide

/-- An attribute as a match of the expression. -/
def toMatch (a : Attribute) : Regex.Match :=
  ⟨a.source, a.groups, pattern.source_ne_nil a⟩

end Attribute

namespace Renderer

variable (r : Renderer)

/-- A match of the expression for attributes as the renderer marks it, group by group. -/
def writeAttributeMatch (m : Regex.Match) : Text :=
  match m.groups with
  | [some spacing, some name, some equals, value?] =>
    spacing ++ r.style .attributeName name ++ r.style .equalSign equals ++
      match value? with
      | some value => r.style .attributeValue value
      | none => []
  | _ => m.matched

theorem writeAttributeMatch_toMatch (a : Attribute) : r.writeAttributeMatch a.toMatch = r.writeAttribute a := rfl

/-- Marking the attributes of a text is replacing the matches of the regular expression for attributes, and it is
reading the text from the left by the rule for attributes. -/
theorem markAttributes_eq_iff_writes (s : Text) :
    r.markAttributes s = Attribute.regex.pattern.replace r.writeAttributeMatch s ∧
      ∀ written, r.markAttributes s = written ↔ Attribute.rule.Writes r.writeAttribute [] s written := by
  rw [markAttributes_eq_replace]
  constructor
  · exact (Regex.replace_eq_replace Attribute.toMatch Attribute.head?_ways_regex r.writeAttributeMatch_toMatch s).symm
  · exact Attribute.rule_describes.writes_iff s

end Renderer

end HtmlHighlight
