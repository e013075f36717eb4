import HtmlHighlight.Renderer
import Mathlib.Data.List.Infix

/-!
# Searching a text piece by piece

What the passes over a text need of the search for a pattern in it:

* `Pattern.segments_append`: the search of `a ++ b` is that of `a` and then that of `b`, if what the pattern
  reads within `a` does not depend on `b` (`Pattern.Parts`). `Pattern.parts_of_not_mem` gives this for a
  text without the character that every match begins with.
* `Pattern.hits`, `Pattern.gaps` and `Pattern.placements` are the matches, what stands between them, and the
  matches with their places; each has its equations along the search and one for `a ++ b`.
* `Pattern.render_tokenize`: what each replacement of a match by its written tokens keeps, a pass keeps.
* `Pattern.Finds`: the search comes upon a match, with all that stands before and after it;
  `mem_placements_iff` and `mem_hits_iff` tie this to the two lists of matches.
-/

namespace HtmlHighlight

namespace Text

theorem exists_of_append_eq_append_cons {s t a b : Text} {c : Char} (hc : c ∉ s)
    (h : s ++ t = a ++ c :: b) : ∃ a', a = s ++ a' ∧ t = a' ++ c :: b := by
  rcases List.append_eq_append_iff.1 h with ⟨a', ha, ht⟩ | ⟨c', hs, hb⟩
  · exact ⟨a', ha, ht⟩
  · rcases List.cons_eq_append_iff.1 hb with ⟨rfl, ht⟩ | ⟨d, rfl, -⟩
    · exact ⟨[], by simpa using hs.symm, by simpa using ht⟩
    · simp [hs] at hc

/-- A text is cut at the first place of a character in one way only. -/
theorem eq_and_eq_of_append_cons {s t a b : Text} {c : Char} (hs : c ∉ s) (ha : c ∉ a)
    (h : s ++ c :: t = a ++ c :: b) : s = a ∧ t = b := by
  obtain ⟨a', rfl, h'⟩ := exists_of_append_eq_append_cons hs h
  cases a' with
  | nil => exact ⟨by simp, by simpa using h'⟩
  | cons d a' =>
    obtain ⟨rfl, -⟩ := List.cons_eq_cons.1 h'
    simp at ha

/-- A prefix does not reach over a character that it does not hold. -/
theorem prefix_of_prefix_append_cons {e a b : Text} {c : Char} (hc : c ∉ e) (h : e <+: a ++ c :: b) :
    e <+: a := by
  rcases List.prefix_or_prefix_of_prefix h (List.prefix_append a _) with he | ⟨u, rfl⟩
  · exact he
  · rcases List.prefix_cons_iff.1 ((List.prefix_append_right_inj a).1 h) with rfl | ⟨v, rfl, -⟩
    · rw [List.append_nil]
    · simp at hc

theorem after?_append_of_length_le {mark s : Text} (h : mark.length ≤ s.length) (t : Text) :
    after? mark (s ++ t) = (after? mark s).map (· ++ t) := by
  induction mark generalizing s with
  | nil => rfl
  | cons c mark ih =>
    cases s with
    | nil => simp at h
    | cons d s =>
      simp only [List.length_cons, Nat.add_le_add_iff_right] at h
      rw [List.cons_append, after?, after?]
      split
      · exact ih h
      · rfl

/-- A mark is not read beyond a character that it does not hold. -/
theorem after?_append_of_not_mem {d : Char} {mark : Text} (hd : d ∉ mark) (s t : Text) :
    after? mark (s ++ d :: t) = (after? mark s).map (· ++ d :: t) := by
  induction mark generalizing s with
  | nil => rfl
  | cons c mark ih =>
    simp only [List.mem_cons, not_or] at hd
    cases s with
    | nil => simp [after?, Ne.symm hd.1]
    | cons e s =>
      rw [List.cons_append, after?, after?]
      split
      · exact ih hd.2 s
      · rfl

/-- A mark cannot begin before a character that it holds nowhere but at its beginning, and end after it. -/
theorem after?_append_cons {c d : Char} {mark s : Text} (hd : d ∉ mark) (hs : s ≠ []) (t : Text) :
    after? (c :: mark) (s ++ d :: t) = (after? (c :: mark) s).map (· ++ d :: t) := by
  obtain ⟨e, s, rfl⟩ := List.exists_cons_of_ne_nil hs
  rw [List.cons_append, after?, after?]
  split
  · exact after?_append_of_not_mem hd s t
  · rfl

theorem after?_cons_eq_none {c d : Char} (h : d ≠ c) (mark s : Text) :
    after? (c :: mark) (d :: s) = none := by
  rw [after?, if_neg (Ne.symm h)]

theorem cutAt?_append {mark s before rest : Text} (h : cutAt? mark s = some (before, rest)) (t : Text) :
    cutAt? mark (s ++ t) = some (before, rest ++ t) := by
  induction s generalizing before with
  | nil =>
    have hm : mark = [] := by
      by_contra hm
      simp [cutAt?, hm] at h
    subst hm
    have hb : before = [] ∧ rest = [] := by simpa [cutAt?, eq_comm] using h
    cases t <;> simp [cutAt?, after?, hb]
  | cons c s ih =>
    have hl : mark.length ≤ (c :: s).length := by
      rw [eq_append_of_cutAt? h]
      simp only [List.length_append]
      omega
    have ha := after?_append_of_length_le hl t
    rw [cutAt?] at h
    rw [List.cons_append] at ha ⊢
    rw [cutAt?, ha]
    split at h
    next r hr =>
      cases h
      simp [hr]
    next hr =>
      obtain ⟨⟨b, r⟩, hb, he⟩ := Option.map_eq_some_iff.1 h
      cases he
      simp [hr, ih hb]

theorem cutAt?_append_of_not_mem {c : Char} {s : Text} (hc : c ∉ s) (mark t : Text) :
    cutAt? (c :: mark) (s ++ t) = (cutAt? (c :: mark) t).map fun (before, rest) => (s ++ before, rest) := by
  induction s with
  | nil => simp
  | cons d s ih =>
    simp only [List.mem_cons, not_or] at hc
    rw [List.cons_append, cutAt?, after?_cons_eq_none (Ne.symm hc.1), ih hc.2]
    simp [Function.comp_def]

@[simp] theorem cutAt?_self_append {mark : Text} (h : mark ≠ []) (t : Text) :
    cutAt? mark (mark ++ t) = some ([], t) := by
  obtain ⟨c, mark, rfl⟩ := List.exists_cons_of_ne_nil h
  rw [List.cons_append, cutAt?, ← List.cons_append, after?_append]

/-- A mark that occurs is cut at, and no later than where it is known to stand. -/
theorem exists_cutAt? (a mark z : Text) :
    ∃ before rest, cutAt? mark (a ++ (mark ++ z)) = some (before, rest) ∧ z.length ≤ rest.length := by
  induction a with
  | nil =>
    cases mark with
    | nil => cases z <;> simp [cutAt?, after?]
    | cons c mark => exact ⟨[], z, by rw [List.nil_append, cutAt?_self_append (by simp)], Nat.le_refl _⟩
  | cons c a ih =>
    obtain ⟨before, rest, hc, hl⟩ := ih
    cases ha : after? mark (c :: (a ++ (mark ++ z))) with
    | some r =>
      refine ⟨[], r, by rw [List.cons_append, cutAt?, ha], ?_⟩
      have hr := congrArg List.length (after?_eq_some_iff.1 ha)
      simp only [List.length_cons, List.length_append] at hr
      omega
    | none => exact ⟨c :: before, rest, by rw [List.cons_append, cutAt?, ha, hc]; rfl, hl⟩

/-- A cut stands at the first occurrence. -/
theorem not_infix_of_cutAt? {mark s before rest : Text} (hm : mark ≠ [])
    (h : cutAt? mark s = some (before, rest)) : ¬ mark <:+: before := by
  intro hi
  cases hb : cutAt? mark before with
  | none => exact cutAt?_eq_none_iff.1 hb hi
  | some r =>
    obtain ⟨b, r⟩ := r
    have he := cutAt?_append hb (mark ++ rest)
    rw [← List.append_assoc, ← eq_append_of_cutAt? h, h] at he
    have hl := congrArg List.length (eq_append_of_cutAt? hb)
    have hm' : 0 < mark.length := List.length_pos_iff.2 hm
    simp only [Option.some.injEq, Prod.mk.injEq] at he
    simp only [List.length_append, ← he.1] at hl
    omega

/-- The first occurrence of a mark stands behind a text that does not hold it, if none can begin in that text
and end beyond it. -/
theorem cutAt?_append_cons {c d : Char} {mark s : Text} (hd : d ∉ mark) (h : cutAt? (c :: mark) s = none)
    (t : Text) : cutAt? (c :: mark) (s ++ d :: t) =
      (cutAt? (c :: mark) (d :: t)).map fun (before, rest) => (s ++ before, rest) := by
  induction s with
  | nil => simp
  | cons e s ih =>
    rw [cutAt?] at h
    split at h
    next => cases h
    next ha =>
      have hn := after?_append_cons hd (List.cons_ne_nil e s) t (c := c)
      rw [ha, Option.map_none, List.cons_append] at hn
      rw [List.cons_append, cutAt?, hn, ih (Option.map_eq_none_iff.1 h), Option.map_map]
      rfl

/-- A mark whose first character does not occur again in it is cut at where nothing before it holds it. -/
theorem cutAt?_append_of_not_infix {c : Char} {mark s : Text} (hc : c ∉ mark) (h : ¬ c :: mark <:+: s)
    (t : Text) : cutAt? (c :: mark) (s ++ (c :: mark ++ t)) = some (s, t) := by
  rw [List.cons_append, cutAt?_append_cons hc (cutAt?_eq_none_iff.2 h), ← List.cons_append,
    cutAt?_self_append (List.cons_ne_nil c mark)]
  simp

theorem takeWhile_append_cons {f : Char → Bool} {c : Char} (hc : f c = false) (s t : Text) :
    (s ++ c :: t).takeWhile f = s.takeWhile f := by
  induction s with
  | nil => simp [hc]
  | cons d s ih => by_cases hd : f d = true <;> simp [hd, ih]

theorem dropWhile_append_cons {f : Char → Bool} {c : Char} (hc : f c = false) (s t : Text) :
    (s ++ c :: t).dropWhile f = s.dropWhile f ++ c :: t := by
  induction s with
  | nil => simp [hc]
  | cons d s ih => by_cases hd : f d = true <;> simp [hd, ih]

end Text

/-- The character of a piece that is no match. -/
def Segment.gap? {α : Type} : Segment α → Option Char
  | gap c => some c
  | hit _ => none

namespace Pattern

variable {α : Type} (p : Pattern α)

/-! ## Searching two texts in turn -/

/-- What the pattern reads at a place within `a` is the same with and without `b` after it. -/
def Parts (a b : Text) : Prop :=
  ∀ s, s <:+ a → s ≠ [] → p.front? (s ++ b) = (p.front? s).map fun (m, rest) => (m, rest ++ b)

variable {p}

theorem Parts.of_suffix {a a' b : Text} (h : p.Parts a b) (ha : a' <:+ a) : p.Parts a' b :=
  fun s hs hn => h s (hs.trans ha) hn

theorem segments_append {a b : Text} (h : p.Parts a b) :
    p.segments (a ++ b) = p.segments a ++ p.segments b := by
  induction a using p.segments_induction with
  | nil => simp
  | hit s m rest hf ih =>
    have hne : s ≠ [] := by
      rintro rfl
      simpa using p.length_lt hf
    have hb : p.front? (s ++ b) = some (m, rest ++ b) := by simp [h s (List.suffix_refl s) hne, hf]
    rw [p.segments_of_front? hb, p.segments_of_front? hf, List.cons_append,
      ih (h.of_suffix (p.eq_append hf ▸ List.suffix_append ..))]
  | gap c s hf ih =>
    have hb : p.front? (c :: s ++ b) = none := by rw [h _ (List.suffix_refl _) (by simp), hf]; rfl
    rw [List.cons_append] at hb ⊢
    rw [p.segments_of_front?_eq_none hb, p.segments_of_front?_eq_none hf, List.cons_append,
      ih (h.of_suffix (List.suffix_cons ..))]

theorem tokenize_append {a b : Text} (h : p.Parts a b) (tokens : α → List Token) :
    p.tokenize tokens (a ++ b) = p.tokenize tokens a ++ p.tokenize tokens b := by
  rw [tokenize, segments_append h, List.flatMap_append]
  rfl

variable (p)

/-- Every match begins with the character `c`. -/
def Begins (c : Char) : Prop :=
  ∀ d s, d ≠ c → p.front? (d :: s) = none

variable {p}

theorem front?_nil : p.front? [] = none := by
  cases h : p.front? [] with
  | none => rfl
  | some r => simpa using p.length_lt h

theorem Begins.front?_eq_none {c : Char} (hp : p.Begins c) {s a : Text} (hc : c ∉ a) (hs : s <:+ a)
    (hn : s ≠ []) (b : Text) : p.front? (s ++ b) = none := by
  obtain ⟨d, s, rfl⟩ := List.exists_cons_of_ne_nil hn
  refine hp d _ ?_
  rintro rfl
  exact hc (hs.subset List.mem_cons_self)

theorem parts_of_not_mem {c : Char} (hp : p.Begins c) {a : Text} (hc : c ∉ a) (b : Text) : p.Parts a b := by
  intro s hs hn
  have hf := hp.front?_eq_none hc hs hn []
  rw [List.append_nil] at hf
  rw [hp.front?_eq_none hc hs hn b, hf]
  rfl

/-- It is enough to look at the places before a mark `c :: mark` that ends the first text. -/
theorem Begins.parts {c : Char} (hp : p.Begins c) {mark : Text} (hc : c ∉ mark) {a b : Text}
    (h : ∀ s, s <:+ a → p.front? (s ++ c :: mark ++ b) =
      (p.front? (s ++ c :: mark)).map fun (m, rest) => (m, rest ++ b)) :
    p.Parts (a ++ c :: mark) b := by
  intro s hs hn
  obtain ⟨t, ht⟩ := hs
  rcases List.append_eq_append_iff.1 ht with ⟨u, ha, rfl⟩ | ⟨u, -, hm⟩
  · exact h u (ha ▸ List.suffix_append ..)
  · cases u with
    | nil =>
      rw [List.nil_append] at hm
      subst hm
      exact h [] (List.nil_suffix ..)
    | cons d u =>
      obtain ⟨-, rfl⟩ := List.cons_eq_cons.1 hm
      exact parts_of_not_mem hp hc b s (List.suffix_append ..) hn

/-- A text in which no match stands is all gaps. -/
theorem segments_eq_map_gap {a : Text} (h : ∀ s, s <:+ a → p.front? s = none) :
    p.segments a = a.map .gap := by
  induction a with
  | nil => simp
  | cons c a ih =>
    rw [p.segments_of_front?_eq_none (h _ (List.suffix_refl _)),
      ih fun s hs => h s (hs.trans (List.suffix_cons ..)), List.map_cons]

theorem segments_of_not_mem {c : Char} (hp : p.Begins c) {a : Text} (hc : c ∉ a) :
    p.segments a = a.map .gap := by
  refine segments_eq_map_gap fun s hs => ?_
  cases s with
  | nil => exact front?_nil
  | cons d s => simpa using hp.front?_eq_none hc hs (by simp) []

/-! ## The matches of a text, and what stands between them -/

@[simp] theorem hits_nil : p.hits [] = [] := by
  simp [hits]

theorem hits_of_front? {s : Text} {m : α} {rest : Text} (h : p.front? s = some (m, rest)) :
    p.hits s = m :: p.hits rest := by
  simp [hits, p.segments_of_front? h, Segment.hit?]

theorem hits_of_front?_eq_none {c : Char} {s : Text} (h : p.front? (c :: s) = none) :
    p.hits (c :: s) = p.hits s := by
  rw [hits, p.segments_of_front?_eq_none h]
  rfl

theorem hits_append {a b : Text} (h : p.Parts a b) : p.hits (a ++ b) = p.hits a ++ p.hits b := by
  rw [hits, segments_append h, List.filterMap_append]
  rfl

theorem hits_append_of_not_mem {c : Char} (hp : p.Begins c) {a : Text} (hc : c ∉ a) (b : Text) :
    p.hits (a ++ b) = p.hits b := by
  induction a with
  | nil => rfl
  | cons d a ih =>
    simp only [List.mem_cons, not_or] at hc
    rw [List.cons_append, hits_of_front?_eq_none (hp d _ (Ne.symm hc.1)), ih hc.2]

variable (p) in
/-- The characters of a text outside the matches that a search from the left finds. -/
def gaps (s : Text) : Text :=
  (p.segments s).filterMap Segment.gap?

@[simp] theorem gaps_nil : p.gaps [] = [] := by
  simp [gaps]

theorem gaps_of_front? {s : Text} {m : α} {rest : Text} (h : p.front? s = some (m, rest)) :
    p.gaps s = p.gaps rest := by
  rw [gaps, p.segments_of_front? h]
  rfl

theorem gaps_of_front?_eq_none {c : Char} {s : Text} (h : p.front? (c :: s) = none) :
    p.gaps (c :: s) = c :: p.gaps s := by
  rw [gaps, p.segments_of_front?_eq_none h]
  rfl

theorem gaps_append {a b : Text} (h : p.Parts a b) : p.gaps (a ++ b) = p.gaps a ++ p.gaps b := by
  rw [gaps, segments_append h, List.filterMap_append]
  rfl

theorem gaps_append_of_not_mem {c : Char} (hp : p.Begins c) {a : Text} (hc : c ∉ a) (b : Text) :
    p.gaps (a ++ b) = a ++ p.gaps b := by
  induction a with
  | nil => rfl
  | cons d a ih =>
    simp only [List.mem_cons, not_or] at hc
    rw [List.cons_append, gaps_of_front?_eq_none (hp d _ (Ne.symm hc.1)), ih hc.2]
    rfl

variable (p) in
/-- The matches among the pieces of a text, each with the place of its first character; that of the text
is `start`. -/
def place (start : Nat) : List (Segment α) → List (Nat × α)
  | [] => []
  | .gap _ :: l => place (start + 1) l
  | .hit m :: l => (start, m) :: place (start + (p.source m).length) l

variable (p) in
/-- The matches that a search from the left finds, each with its place. -/
def placements (start : Nat) (s : Text) : List (Nat × α) :=
  p.place start (p.segments s)

theorem placements_of_front? {s : Text} {m : α} {rest : Text} (h : p.front? s = some (m, rest))
    (start : Nat) :
    p.placements start s = (start, m) :: p.placements (start + (p.source m).length) rest := by
  rw [placements, p.segments_of_front? h, place]
  rfl

theorem placements_of_front?_eq_none {c : Char} {s : Text} (h : p.front? (c :: s) = none) (start : Nat) :
    p.placements start (c :: s) = p.placements (start + 1) s := by
  rw [placements, p.segments_of_front?_eq_none h, place]
  rfl

theorem placements_append {a b : Text} (h : p.Parts a b) (start : Nat) :
    p.placements start (a ++ b) = p.placements start a ++ p.placements (start + a.length) b := by
  have key : ∀ (l : List (Segment α)) (n : Nat), p.place n (l ++ p.segments b) =
      p.place n l ++ p.place (n + (l.flatMap (Segment.source p)).length) (p.segments b) := by
    intro l
    induction l with
    | nil => simp [place]
    | cons m l ih =>
      intro n
      rw [List.flatMap_cons, List.length_append, ← Nat.add_assoc]
      cases m with
      | gap c => exact ih (n + 1)
      | hit m => exact congrArg ((n, m) :: ·) (ih (n + (p.source m).length))
  rw [placements, segments_append h, key, p.source_segments]
  rfl

/-! ## Writing the tokens of a text -/

variable (r : Renderer)

@[simp] theorem render_map_plain (s : Text) : r.render (s.map fun c => .plain [c]) = s := by
  induction s with
  | nil => rfl
  | cons c s ih => simp [ih, Renderer.renderToken]

variable {r}

@[simp] theorem render_gaps (tokens : α → List Token) (a : Text) :
    r.render ((a.map .gap).flatMap (Segment.tokens tokens)) = a := by
  have ht : (a.map .gap).flatMap (Segment.tokens tokens) = a.map fun c => .plain [c] := by
    rw [List.flatMap_map, List.map_eq_flatMap]
    rfl
  rw [ht, render_map_plain]

theorem render_of_segments {tokens : α → List Token} {a : Text} (h : p.segments a = a.map .gap) :
    r.render (p.tokenize tokens a) = a := by
  rw [tokenize, h, render_gaps]

theorem render_tokenize_append_of_not_mem {c : Char} (hp : p.Begins c) {a : Text} (hc : c ∉ a) (b : Text)
    (tokens : α → List Token) :
    r.render (p.tokenize tokens (a ++ b)) = a ++ r.render (p.tokenize tokens b) := by
  rw [tokenize_append (parts_of_not_mem hp hc b), Renderer.render_append,
    render_of_segments (segments_of_not_mem hp hc)]

theorem render_tokenize_of_front? (tokens : α → List Token) {s : Text} {m : α} {rest : Text}
    (h : p.front? s = some (m, rest)) :
    r.render (p.tokenize tokens s) = r.render (tokens m) ++ r.render (p.tokenize tokens rest) := by
  rw [p.tokenize_of_front? tokens h, Renderer.render_append]

theorem render_tokenize_of_front?_eq_none (tokens : α → List Token) {c : Char} {s : Text}
    (h : p.front? (c :: s) = none) :
    r.render (p.tokenize tokens (c :: s)) = c :: r.render (p.tokenize tokens s) := by
  rw [p.tokenize_of_front?_eq_none tokens h]
  rfl

/-- What each replacement of a match by its written tokens keeps, a pass over the whole text keeps. -/
theorem render_tokenize {tokens : α → List Token} {motive : Text → Prop}
    (step : ∀ before m after, p.front? (p.source m ++ after) = some (m, after) →
      motive (before ++ (p.source m ++ after)) → motive (before ++ (r.render (tokens m) ++ after)))
    {s : Text} (h : motive s) : motive (r.render (p.tokenize tokens s)) := by
  have key : ∀ before, motive (before ++ s) → motive (before ++ r.render (p.tokenize tokens s)) := by
    clear h
    induction s using p.segments_induction with
    | nil => simp
    | hit s m rest hf ih =>
      intro before h
      have hs := p.eq_append hf
      rw [render_tokenize_of_front? tokens hf, ← List.append_assoc]
      apply ih
      rw [List.append_assoc]
      exact step before m rest (hs ▸ hf) (hs ▸ h)
    | gap c s hf ih =>
      intro before h
      rw [render_tokenize_of_front?_eq_none tokens hf]
      simpa using ih (before ++ [c]) (by simpa using h)
  exact key [] h

/-! ## Where a match is found -/

variable (p)

/-- The search of a text from the left comes upon a match, with the given texts before and after it. -/
inductive Finds : Text → Text → α → Text → Prop
  | here {s : Text} {m : α} {rest : Text} : p.front? s = some (m, rest) → Finds s [] m rest
  | skip {c : Char} {s before : Text} {m : α} {rest : Text} :
    p.front? (c :: s) = none → Finds s before m rest → Finds (c :: s) (c :: before) m rest
  | next {s t before : Text} {l m : α} {rest : Text} :
    p.front? s = some (l, t) → Finds t before m rest → Finds s (p.source l ++ before) m rest

variable {p}

theorem Finds.front? {s before rest : Text} {m : α} (h : p.Finds s before m rest) :
    p.front? (p.source m ++ rest) = some (m, rest) := by
  induction h with
  | here hf => exact p.eq_append hf ▸ hf
  | skip _ _ ih => exact ih
  | next _ _ ih => exact ih

theorem Finds.eq_append {s before rest : Text} {m : α} (h : p.Finds s before m rest) :
    s = before ++ (p.source m ++ rest) := by
  induction h with
  | here hf => simpa using p.eq_append hf
  | skip _ _ ih => simp [← ih]
  | next hf _ ih => rw [List.append_assoc, ← ih, ← p.eq_append hf]

/-- Where a match stands at the front, a match that is found is that one or stands after it. -/
theorem Finds.eq_or_exists {s rest a q : Text} {l m : α} (h : p.Finds s a m q)
    (hf : p.front? s = some (l, rest)) :
    (a = [] ∧ m = l ∧ q = rest) ∨ ∃ b, a = p.source l ++ b ∧ p.Finds rest b m q := by
  cases h with
  | here hf' => exact .inl ⟨rfl, by simpa [hf, eq_comm] using hf'⟩
  | skip hf' _ => simp [hf] at hf'
  | next hf' h =>
    rw [hf] at hf'
    cases hf'
    exact .inr ⟨_, rfl, h⟩

/-- Where no match stands at the front, each one is found after the first character. -/
theorem Finds.exists_of_cons {c : Char} {s a q : Text} {m : α} (h : p.Finds (c :: s) a m q)
    (hf : p.front? (c :: s) = none) : ∃ b, a = c :: b ∧ p.Finds s b m q := by
  cases h with
  | here hf' => simp [hf] at hf'
  | skip _ h => exact ⟨_, rfl, h⟩
  | next hf' _ => simp [hf] at hf'

/-- Of two matches that the search comes upon, one is found in the text after the other. -/
theorem Finds.trichotomy {s a b r q : Text} {l m : α} (h : p.Finds s a l r) (h' : p.Finds s b m q) :
    (l = m ∧ r = q) ∨ (∃ c, p.Finds r c m q) ∨ ∃ c, p.Finds q c l r := by
  induction h generalizing b with
  | here hf =>
    rcases h'.eq_or_exists hf with ⟨-, rfl, rfl⟩ | ⟨c, -, h'⟩
    · exact .inl ⟨rfl, rfl⟩
    · exact .inr (.inl ⟨c, h'⟩)
  | skip hf _ ih =>
    obtain ⟨c, -, h'⟩ := h'.exists_of_cons hf
    exact ih h'
  | next hf h ih =>
    rcases h'.eq_or_exists hf with ⟨-, rfl, rfl⟩ | ⟨c, -, h'⟩
    · exact .inr (.inr ⟨_, h⟩)
    · exact ih h'

theorem Finds.trans {s a b r q : Text} {l m : α} (h : p.Finds s a l r) (h' : p.Finds r b m q) :
    p.Finds s (a ++ (p.source l ++ b)) m q := by
  induction h with
  | here hf => exact .next hf h'
  | skip hf _ ih => exact .skip hf (ih h')
  | next hf _ ih =>
    rw [List.append_assoc]
    exact .next hf (ih h')

/-- A match that is found after another one begins no earlier than that one ends. -/
theorem Finds.length_le {s a b c r q : Text} {l m : α} (h : p.Finds s a l r) (h' : p.Finds s b m q)
    (hc : p.Finds r c m q) : a.length + (p.source l).length ≤ b.length := by
  have hs := congrArg List.length (h.eq_append.symm.trans h'.eq_append)
  have hr := congrArg List.length hc.eq_append
  simp only [List.length_append] at hs hr
  omega

/-- A match in the second of two texts that are searched in turn is found behind the first. -/
theorem Finds.append_left {a b before rest : Text} {m : α} (hp : p.Parts a b) (h : p.Finds b before m rest) :
    p.Finds (a ++ b) (a ++ before) m rest := by
  induction a using p.segments_induction with
  | nil => exact h
  | hit s l q hf ih =>
    have hne : s ≠ [] := by
      rintro rfl
      simpa using p.length_lt hf
    have hs : p.front? (s ++ b) = some (l, q ++ b) := by rw [hp s (List.suffix_refl s) hne, hf]; rfl
    have hq := ih (hp.of_suffix (p.eq_append hf ▸ List.suffix_append ..))
    have he : s ++ before = p.source l ++ (q ++ before) := by rw [p.eq_append hf, List.append_assoc]
    exact he ▸ .next hs hq
  | gap c s hf ih =>
    have hs : p.front? (c :: (s ++ b)) = none := by
      rw [← List.cons_append, hp _ (List.suffix_refl _) (by simp), hf]
      rfl
    exact .skip hs (ih (hp.of_suffix (List.suffix_cons ..)))

/-- Characters that no match begins with are passed over. -/
theorem finds_append_of_not_mem {c : Char} (hp : p.Begins c) {a : Text} (hc : c ∉ a) {s before rest : Text}
    {m : α} : p.Finds (a ++ s) before m rest ↔ ∃ b, before = a ++ b ∧ p.Finds s b m rest := by
  induction a generalizing before with
  | nil => simp only [List.nil_append, exists_eq_left']
  | cons d a ih =>
    simp only [List.mem_cons, not_or] at hc
    have hf : p.front? (d :: (a ++ s)) = none := hp d _ (Ne.symm hc.1)
    constructor
    · intro h
      obtain ⟨b, rfl, htail⟩ := h.exists_of_cons hf
      obtain ⟨b, rfl, hb⟩ := (ih hc.2).1 htail
      exact ⟨b, rfl, hb⟩
    · rintro ⟨b, rfl, h⟩
      exact .skip hf ((ih hc.2).2 ⟨b, rfl, h⟩)

/-- A text is all gaps, or the search comes upon a first match and all others stand after it. -/
theorem exists_first (p : Pattern α) (s : Text) :
    (p.segments s = s.map .gap ∧ ∀ b l q, ¬ p.Finds s b l q) ∨
      ∃ before m rest, p.Finds s before m rest ∧
        p.segments s = before.map .gap ++ .hit m :: p.segments rest ∧
        ∀ b l q, p.Finds s b l q → (l = m ∧ q = rest) ∨ ∃ b', p.Finds rest b' l q := by
  induction s using p.segments_induction with
  | nil =>
    refine .inl ⟨p.segments_nil, fun b l q h => ?_⟩
    have hs := h.eq_append
    simp [p.source_ne_nil] at hs
  | hit s m rest hf _ =>
    refine .inr ⟨[], m, rest, .here hf, p.segments_of_front? hf, fun b l q h => ?_⟩
    rcases h.eq_or_exists hf with ⟨-, he⟩ | ⟨b, -, h⟩
    · exact .inl he
    · exact .inr ⟨b, h⟩
  | gap c s hf ih =>
    rcases ih with ⟨hs, hn⟩ | ⟨before, m, rest, hm, hs, hall⟩
    · refine .inl ⟨by rw [p.segments_of_front?_eq_none hf, hs]; rfl, fun b l q h => ?_⟩
      obtain ⟨b, -, h⟩ := h.exists_of_cons hf
      exact hn b l q h
    · refine .inr ⟨c :: before, m, rest, .skip hf hm, by rw [p.segments_of_front?_eq_none hf, hs]; rfl,
        fun b l q h => ?_⟩
      obtain ⟨b, -, h⟩ := h.exists_of_cons hf
      exact hall b l q h

/-- The matches that a search comes upon are those with a place, which is told by what stands before. -/
theorem mem_placements_iff {n k : Nat} {s : Text} {m : α} :
    (k, m) ∈ p.placements n s ↔ ∃ before rest, p.Finds s before m rest ∧ k = n + before.length := by
  induction s using p.segments_induction generalizing n with
  | nil =>
    rw [placements, p.segments_nil, place]
    simp only [List.not_mem_nil, false_iff]
    rintro ⟨before, rest, h, -⟩
    have hs := h.eq_append
    simp [p.source_ne_nil] at hs
  | hit s l t hf ih =>
    rw [placements_of_front? hf, List.mem_cons, ih]
    constructor
    · rintro (he | ⟨before, rest, h, rfl⟩)
      · obtain ⟨rfl, rfl⟩ := Prod.mk.inj he
        exact ⟨_, _, .here hf, rfl⟩
      · exact ⟨_, _, .next hf h, by rw [List.length_append, Nat.add_assoc]⟩
    · rintro ⟨before, rest, h, rfl⟩
      rcases h.eq_or_exists hf with ⟨rfl, rfl, -⟩ | ⟨b, rfl, hb⟩
      · exact .inl rfl
      · exact .inr ⟨b, rest, hb, by rw [List.length_append, Nat.add_assoc]⟩
  | gap c s hf ih =>
    rw [placements_of_front?_eq_none hf, ih]
    constructor
    · rintro ⟨before, rest, h, rfl⟩
      exact ⟨_, _, .skip hf h, by rw [List.length_cons]; omega⟩
    · rintro ⟨before, rest, h, rfl⟩
      obtain ⟨b, rfl, hb⟩ := h.exists_of_cons hf
      exact ⟨b, rest, hb, by rw [List.length_cons]; omega⟩

theorem map_snd_placements (n : Nat) (s : Text) : (p.placements n s).map Prod.snd = p.hits s := by
  induction s using p.segments_induction generalizing n with
  | nil => simp [placements, place]
  | hit s m rest hf ih => rw [placements_of_front? hf, hits_of_front? hf, List.map_cons, ih]
  | gap c s hf ih => rw [placements_of_front?_eq_none hf, hits_of_front?_eq_none hf, ih]

theorem mem_hits_iff {s : Text} {m : α} : m ∈ p.hits s ↔ ∃ before rest, p.Finds s before m rest := by
  simp [← map_snd_placements 0 s, mem_placements_iff]

end Pattern

end HtmlHighlight
