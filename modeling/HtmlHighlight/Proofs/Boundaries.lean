import HtmlHighlight.Markup.Tag
import HtmlHighlight.Markup.TextRun
import HtmlHighlight.Proofs.Search

/-!
# Boundaries of comments, runs and tags

Every match of a comment, a run of text or a tag begins with the ampersand of an entity, and the places
where the search may be cut in two follow from this:

* `TextRun.parts_gt`: before a closing bracket, for runs;
* `Tag.parts_gt`: after a closing bracket, for tags.

`TextRun.front?_eq_some_iff` says what a run is, and `Tag.front?_eq_some` what is known of a tag. A tag is read in
two steps (`Tag.front?_eq_begin?`): its beginning up to the name, and all from there to its closing bracket.
-/

namespace HtmlHighlight

@[simp] theorem Comment.pattern_source (c : Comment) : Comment.pattern.source c = c.source := rfl

@[simp] theorem TextRun.pattern_source (run : TextRun) : TextRun.pattern.source run = run.source := rfl

@[simp] theorem Tag.pattern_source (t : Tag) : Tag.pattern.source t = t.source := rfl

@[simp] theorem Attribute.pattern_source (a : Attribute) : Attribute.pattern.source a = a.source := rfl

theorem Comment.pattern_front? (s : Text) : Comment.pattern.front? s = Comment.front? s := rfl

theorem TextRun.pattern_front? (s : Text) : TextRun.pattern.front? s = TextRun.front? s := rfl

theorem Tag.pattern_front? (s : Text) : Tag.pattern.front? s = Tag.front? s := rfl

theorem Attribute.pattern_front? (s : Text) : Attribute.pattern.front? s = Attribute.front? s := rfl

theorem Comment.begins : Comment.pattern.Begins '&' := by
  intro d s hd
  show Comment.front? (d :: s) = none
  rw [Comment.front?, Comment.opening_eq, Text.after?_cons_eq_none hd]

theorem TextRun.begins : TextRun.pattern.Begins '&' := by
  intro d s hd
  show TextRun.front? (d :: s) = none
  rw [TextRun.front?, Entity.gt_eq, Text.after?_cons_eq_none hd]

theorem Tag.begins : Tag.pattern.Begins '&' := by
  intro d s hd
  show Tag.front? (d :: s) = none
  rw [Tag.front?, Entity.lt_eq, Text.after?_cons_eq_none hd]

namespace TextRun

/-- A run is a text without ampersands, of one character at least, between two brackets. -/
theorem front?_eq_some_iff {s : Text} {run : TextRun} {rest : Text} :
    front? s = some (run, rest) ↔ s = run.source ++ rest ∧ run.content ≠ [] ∧ '&' ∉ run.content := by
  constructor
  · intro h
    refine ⟨eq_append_of_front? h, ?_⟩
    rw [front?] at h
    split at h
    next => cases h
    next t ht =>
      dsimp only at h
      split at h
      next => cases h
      next hn =>
        obtain ⟨r, hr, he⟩ := Option.map_eq_some_iff.1 h
        cases he
        exact ⟨hn, fun ha => by simpa using List.all_eq_true.1 List.all_takeWhile _ ha⟩
  · rintro ⟨rfl, hn, ha⟩
    have hall : ∀ c ∈ run.content, decide (c ≠ '&') = true :=
      fun c hc => decide_eq_true fun e => ha (e ▸ hc)
    have ht : (run.content ++ (Entity.lt ++ rest)).takeWhile (· ≠ '&') = run.content := by
      rw [List.takeWhile_append_of_pos hall, Entity.lt_eq, List.cons_append]
      simp
    have hd : (run.content ++ (Entity.lt ++ rest)).dropWhile (· ≠ '&') = Entity.lt ++ rest := by
      rw [List.dropWhile_append_of_pos hall, Entity.lt_eq, List.cons_append]
      simp
    rw [front?, source, List.append_assoc, List.append_assoc, Text.after?_append]
    simp only [ht, hd, if_neg hn, Text.after?_append, Option.map_some]

/-- What is read at a place before an ampersand: the run's content stands before it. -/
theorem front?_append_cons {s : Text} (hs : s ≠ []) (t : Text) :
    front? (s ++ '&' :: t) = match Text.after? Entity.gt s with
      | none => none
      | some u =>
        if u.takeWhile (· ≠ '&') = [] then none
        else (Text.after? Entity.lt (u.dropWhile (· ≠ '&') ++ '&' :: t)).map
          fun rest => (⟨u.takeWhile (· ≠ '&')⟩, rest) := by
  rw [front?, Entity.gt_eq, Text.after?_append_cons (by decide) hs]
  cases Text.after? ('&' :: ['g', 't', ';']) s with
  | none => rfl
  | some u =>
    simp only [Option.map_some]
    rw [Text.takeWhile_append_cons (by decide), Text.dropWhile_append_cons (by decide)]

theorem front?_run {x : Text} (hn : x ≠ []) (hx : '&' ∉ x) (s : Text) :
    front? (Entity.gt ++ (x ++ (Entity.lt ++ s))) = some (⟨x⟩, s) :=
  front?_eq_some_iff.2 ⟨by simp [source], hn, hx⟩

/-- A run that begins in `g` and ends beyond it: `g` is a closing bracket and the first part of the run. -/
theorem exists_of_front?_append_cons {g y rest : Text} {c : Char} {run : TextRun} (hg : front? g = none)
    (h : front? (g ++ c :: y) = some (run, rest)) (hc : c ∉ Entity.gt) (hc' : c ∉ Entity.lt) :
    ∃ x, g = Entity.gt ++ x ∧ '&' ∉ x := by
  obtain ⟨content⟩ := run
  obtain ⟨he, hn, hamp⟩ := front?_eq_some_iff.1 h
  simp only [source, List.append_assoc] at he hamp hn
  obtain ⟨x, rfl, hx⟩ := Text.exists_of_append_eq_append_cons hc he.symm
  refine ⟨x, rfl, ?_⟩
  rcases List.append_eq_append_iff.1 hx with ⟨u, rfl, hu⟩ | ⟨v, rfl, -⟩
  · -- else the run would end in `g`
    obtain ⟨u', rfl, -⟩ := Text.exists_of_append_eq_append_cons hc' hu
    rw [front?_run hn hamp] at hg
    cases hg
  · exact fun hm => hamp (List.mem_append_left _ hm)

/-- The search for runs may be cut before a closing bracket. -/
theorem parts_gt (a b : Text) : pattern.Parts a (Entity.gt ++ b) := by
  intro s _ hs
  show front? (s ++ '&' :: ('g' :: 't' :: ';' :: b)) = (front? s).map _
  rw [front?_append_cons hs, front?]
  cases Text.after? Entity.gt s with
  | none => rfl
  | some u =>
    dsimp only
    split
    · rfl
    · by_cases hu : u.dropWhile (· ≠ '&') = []
      · rw [hu]
        rfl
      · rw [Entity.lt_eq, Text.after?_append_cons (by decide) hu]
        cases Text.after? ('&' :: ['l', 't', ';']) (u.dropWhile (· ≠ '&')) <;> simp [Entity.gt_eq]

end TextRun

namespace Attribute

/-- What is known of an attribute that is read: blank space, a name, and a value that its quote does not
occur in. -/
theorem front?_eq_some {s : Text} {a : Attribute} {rest : Text} (h : front? s = some (a, rest)) :
    (∀ c ∈ a.spacing, isBlank c = true) ∧ a.spacing ≠ [] ∧ (∀ c ∈ a.name, isNameChar c = true) ∧
      ∀ v, a.value? = some v → ∃ q body, (q = '"' ∨ q = '\'') ∧ q ∉ body ∧ v = q :: (body ++ [q]) := by
  rw [front?] at h
  dsimp only at h
  split at h
  next => cases h
  next hs =>
    split at h
    next => cases h
    next =>
      split at h
      next => cases h
      next t ht =>
        cases h
        refine ⟨fun c hc => List.all_eq_true.1 List.all_takeWhile c hc, hs,
          fun c hc => List.all_eq_true.1 List.all_takeWhile c hc, fun v hv => ?_⟩
        rw [takeValue] at hv
        split at hv
        next w r hq =>
          cases hv
          obtain ⟨q, u, rfl⟩ : ∃ q u, t = q :: u := by
            cases t with
            | nil => cases hq
            | cons q u => exact ⟨q, u, rfl⟩
          rw [quoted?] at hq
          split at hq
          next hqq =>
            obtain ⟨⟨body, r'⟩, hb, he⟩ := Option.map_eq_some_iff.1 hq
            cases he
            have hn : ¬ [q] <:+: body := Text.not_infix_of_cutAt? (by simp) hb
            exact ⟨q, body, hqq, fun hm => hn ((List.singleton_infix_iff q body).2 hm), rfl⟩
          next => cases hq
        next => cases hv

end Attribute

namespace Tag

/-- What is known of a tag that is read: the name is not empty, and the first closing bracket after it ends
the tag. -/
theorem front?_eq_some {s : Text} {t : Tag} {rest : Text} (h : front? s = some (t, rest)) :
    (∀ c ∈ t.name, isNameChar c = true) ∧ t.name ≠ [] ∧
      ¬ Entity.gt <:+: t.region ++ slash t.isSelfClosing := by
  rw [front?] at h
  split at h
  next => cases h
  next u hu =>
    dsimp only at h
    split at h
    next => cases h
    next hn =>
      obtain ⟨⟨inner, r⟩, hi, he⟩ := Option.map_eq_some_iff.1 h
      cases he
      refine ⟨fun c hc => List.all_eq_true.1 List.all_takeWhile c hc, hn, ?_⟩
      rw [← eq_append_of_dropLastSlash]
      exact Text.not_infix_of_cutAt? (by decide) hi

/-- A character that is none of a name's does not occur in the name of a tag. -/
theorem not_mem_name {s : Text} {t : Tag} {rest : Text} (h : front? s = some (t, rest)) {c : Char}
    (hc : isNameChar c = false) : c ∉ t.name := by
  obtain ⟨hname, -, -⟩ := front?_eq_some h
  intro hm
  rw [hname c hm] at hc
  cases hc

theorem not_mem_slash {c : Char} (hc : c ≠ '/') (present : Bool) : c ∉ slash present := by
  cases present <;> simp [slash, hc]

theorem not_mem_opening (t : Tag) : '<' ∉ t.opening := by
  rw [opening, List.mem_append, not_or]
  exact ⟨by decide, not_mem_slash (by decide) _⟩

theorem dropSlash_append_cons {c : Char} (hc : c ≠ '/') (s t : Text) :
    dropSlash (s ++ c :: t) = ((dropSlash s).1, (dropSlash s).2 ++ c :: t) := by
  cases s with
  | nil => simp [dropSlash, hc]
  | cons d s =>
    by_cases hd : d = '/'
    · subst hd
      rfl
    · simp [dropSlash, hd]

/-- A slash is split off the end of what is read, whatever stands before it. -/
theorem dropLastSlash_append {s : Text} (hs : s ≠ []) (a : Text) :
    dropLastSlash (a ++ s) = (a ++ (dropLastSlash s).1, (dropLastSlash s).2) := by
  rw [dropLastSlash, dropLastSlash, List.getLast?_append_of_ne_nil _ hs, List.dropLast_append_of_ne_nil hs]
  split <;> rfl

/-- The beginning of the tag that a text starts with, whether it is an end tag and its name, and the text
after the name. -/
def begin? (s : Text) : Option (Bool × Text × Text) :=
  (Text.after? Entity.lt s).bind fun s =>
    if (dropSlash s).2.takeWhile isNameChar = [] then none
    else some ((dropSlash s).1, (dropSlash s).2.takeWhile isNameChar, (dropSlash s).2.dropWhile isNameChar)

/-- The tag with the given beginning and all that stands between its name and its closing bracket. -/
def ofInner (isEnd : Bool) (name inner : Text) : Tag :=
  ⟨isEnd, name, (dropLastSlash inner).1, (dropLastSlash inner).2⟩

/-- A tag is read in two steps: its beginning, and all up to the first closing bracket after that. -/
theorem front?_eq_begin? (s : Text) :
    front? s = (begin? s).bind fun (isEnd, name, s) =>
      (Text.cutAt? Entity.gt s).map fun (inner, rest) => (ofInner isEnd name inner, rest) := by
  rw [front?, begin?]
  cases Text.after? Entity.lt s with
  | none => rfl
  | some s =>
    rw [Option.bind_some]
    dsimp only
    split <;> rfl

/-- A character that ends a name and begins neither a slash nor the rest of an entity. -/
def EndsName (c : Char) : Prop :=
  isNameChar c = false ∧ c ≠ '/' ∧ c ∉ ['l', 'g', 't', ';']

instance (c : Char) : Decidable (EndsName c) :=
  inferInstanceAs (Decidable (_ ∧ _ ∧ _))

theorem begin?_append_cons {s : Text} {c : Char} (hs : s ≠ []) (hc : EndsName c) (t : Text) :
    begin? (s ++ c :: t) = (begin? s).map fun (isEnd, name, s) => (isEnd, name, s ++ c :: t) := by
  obtain ⟨hname, hslash, hmark⟩ := hc
  rw [begin?, begin?, Entity.lt_eq, Text.after?_append_cons (by simp_all) hs]
  cases Text.after? ('&' :: ['l', 't', ';']) s with
  | none => rfl
  | some u =>
    simp only [Option.map_some, Option.bind_some, dropSlash_append_cons hslash,
      Text.takeWhile_append_cons hname, Text.dropWhile_append_cons hname]
    split <;> rfl

/-- The search for tags may be cut after a closing bracket. -/
theorem parts_gt (a b : Text) : pattern.Parts (a ++ Entity.gt) b := by
  refine begins.parts (by decide) fun s _ => ?_
  show front? (s ++ '&' :: ['g', 't', ';'] ++ b) = (front? (s ++ '&' :: ['g', 't', ';'])).map _
  by_cases hs : s = []
  · subst hs
    rfl
  rw [List.append_assoc, List.cons_append, front?_eq_begin?, front?_eq_begin?,
    begin?_append_cons hs (by decide), begin?_append_cons hs (by decide)]
  cases begin? s with
  | none => rfl
  | some u =>
    obtain ⟨isEnd, name, v⟩ := u
    simp only [Option.map_some, Option.bind_some]
    cases hv : Text.cutAt? Entity.gt (v ++ Entity.gt) with
    | none => exact absurd (List.infix_append' v Entity.gt []) (by simpa using Text.cutAt?_eq_none_iff.1 hv)
    | some q =>
      rw [show v ++ '&' :: (['g', 't', ';'] ++ b) = v ++ Entity.gt ++ b by simp [Entity.gt_eq],
        ← Entity.gt_eq, hv, Text.cutAt?_append hv b]
      rfl

end Tag

end HtmlHighlight
