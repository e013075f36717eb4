import HtmlHighlight.Text.Basic

/-!
# Patterns

A pattern reads one match off the front of a text. `Pattern.segments` finds its matches in a whole text:
from the left, each as early as possible, none overlapping another.

* `Pattern.source_segments`: matches and the characters between them are the text, in order.
* `Pattern.segments_of_front?`, `Pattern.segments_of_front?_eq_none`: how the search goes on from a place
  where a match stands, and from one where none does.
-/

namespace HtmlHighlight

/-- A way of reading a match off the front of a text, together with the characters a match stands for. -/
structure Pattern (α : Type) where
  /-- The match that a text starts with and the text after it. -/
  front? : Text → Option (α × Text)
  /-- The characters of a match. -/
  source : α → Text
  source_ne_nil : ∀ m, source m ≠ []
  eq_append : ∀ {s m rest}, front? s = some (m, rest) → s = source m ++ rest

/-- A piece of a searched text: a character outside all matches, or a match. -/
inductive Segment (α : Type) where
  | gap (c : Char)
  | hit (m : α)

namespace Segment

variable {α : Type}

/-- The match, if the piece is one. -/
def hit? : Segment α → Option α
  | gap _ => none
  | hit m => some m

/-- The characters of a piece. -/
def source (p : Pattern α) : Segment α → Text
  | gap c => [c]
  | hit m => p.source m

end Segment

namespace Pattern

variable {α : Type} (p : Pattern α)

theorem length_lt {s : Text} {m : α} {rest : Text} (h : p.front? s = some (m, rest)) :
    rest.length < s.length := by
  have hm : 0 < (p.source m).length := List.length_pos_iff.2 (p.source_ne_nil m)
  have hs := congrArg List.length (p.eq_append h)
  simp only [List.length_append] at hs
  omega

/-- A text cut into the matches that a search from the left finds and the characters between them. -/
def segments (s : Text) : List (Segment α) :=
  match s with
  | [] => []
  | c :: s =>
    match _h : p.front? (c :: s) with
    | some (m, rest) => .hit m :: segments rest
    | none => .gap c :: segments s
termination_by s.length
decreasing_by
  · exact p.length_lt _h
  · simp

/-- The matches that a search from the left finds, in order. -/
def hits (s : Text) : List α :=
  (p.segments s).filterMap Segment.hit?

@[simp] theorem segments_nil : p.segments [] = [] := by
  rw [segments]

theorem segments_of_front? {s : Text} {m : α} {rest : Text} (h : p.front? s = some (m, rest)) :
    p.segments s = .hit m :: p.segments rest := by
  cases s with
  | nil => simpa using p.length_lt h
  | cons c s =>
    rw [segments]
    split
    next h' =>
      rw [h] at h'
      cases h'
      rfl
    next h' => simp [h] at h'

theorem segments_of_front?_eq_none {c : Char} {s : Text} (h : p.front? (c :: s) = none) :
    p.segments (c :: s) = .gap c :: p.segments s := by
  rw [segments]
  split
  next h' => simp [h] at h'
  next => rfl

/-- Induction along a search: at the end, at a match, and at a character where no match stands. -/
theorem segments_induction {motive : Text → Prop} (nil : motive [])
    (hit : ∀ s m rest, p.front? s = some (m, rest) → motive rest → motive s)
    (gap : ∀ c s, p.front? (c :: s) = none → motive s → motive (c :: s)) (s : Text) : motive s := by
  induction hn : s.length using Nat.strongRecOn generalizing s with
  | ind n ih =>
    cases s with
    | nil => exact nil
    | cons c s =>
      cases hf : p.front? (c :: s) with
      | none => exact gap c s hf (ih s.length (by simp [← hn]) s rfl)
      | some r => exact hit _ r.1 r.2 hf (ih r.2.length (hn ▸ p.length_lt hf) r.2 rfl)

theorem source_segments (s : Text) : (p.segments s).flatMap (Segment.source p) = s := by
  induction s using p.segments_induction with
  | nil => simp
  | hit s m rest h ih =>
    rw [p.segments_of_front? h, List.flatMap_cons, ih]
    exact (p.eq_append h).symm
  | gap c s h ih => rw [p.segments_of_front?_eq_none h, List.flatMap_cons, ih]; rfl

end Pattern

end HtmlHighlight
