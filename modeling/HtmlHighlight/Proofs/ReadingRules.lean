import HtmlHighlight.Proofs.Passes
import HtmlHighlight.Proofs.Search

/-!
# Reading a text by a rule

A rule says of each place of a text whether something begins there, by what stands before the place and from it
on, and of what begins how far it goes. Reading a text from the left by a rule (`Rule.Writes`) copies a character
where nothing begins, writes what begins anew and goes on after it. A pattern that finds at each place what the
rule says there is a way to do this, and the only result (`Rule.Describes.writes_iff`).

Two notions that rules are stated with are tied to the functions that readers use: maximal runs of a class of
characters (`Text.MaximalRun`) and first occurrences (`Text.cutAt?_eq_some_iff`).
-/

namespace HtmlHighlight

namespace Text

/-- A text of one character at least, all of a class, that the text after it does not continue. -/
structure MaximalRun (f : Char → Bool) (x rest : Text) : Prop where
  ne_nil : x ≠ []
  all : ∀ c ∈ x, f c = true
  stops : ∀ c ∈ rest.head?, f c = false

namespace MaximalRun

variable {f : Char → Bool} {x rest : Text}

theorem dropWhile_rest (h : MaximalRun f x rest) : rest.dropWhile f = rest := by
  cases rest with
  | nil => rfl
  | cons c rest => rw [List.dropWhile_cons_of_neg (by simp [h.stops c rfl])]

theorem dropWhile_append (h : MaximalRun f x rest) : (x ++ rest).dropWhile f = rest := by
  rw [List.dropWhile_append_of_pos h.all, h.dropWhile_rest]

theorem takeWhile_append (h : MaximalRun f x rest) : (x ++ rest).takeWhile f = x := by
  have hs := List.takeWhile_append_dropWhile (p := f) (l := x ++ rest)
  rw [h.dropWhile_append] at hs
  exact List.append_cancel_right hs

end MaximalRun

theorem maximalRun_takeWhile {f : Char → Bool} {s : Text} (h : s.takeWhile f ≠ []) :
    MaximalRun f (s.takeWhile f) (s.dropWhile f) where
  ne_nil := h
  all := fun c hc => List.all_eq_true.1 List.all_takeWhile c hc
  stops := fun c hc => by
    have hn := List.head?_dropWhile_not f s
    rw [Option.mem_def.1 hc] at hn
    exact hn

/-- In the text made of the three parts in order, the mark does not occur before the place where it stands. -/
def FirstAt (before mark rest : Text) : Prop :=
  ∀ a b, before ++ mark ++ rest = a ++ mark ++ b → before.length ≤ a.length

/-- A text is cut at a mark where it occurs first. -/
theorem cutAt?_eq_some_iff {mark s before rest : Text} :
    cutAt? mark s = some (before, rest) ↔ s = before ++ mark ++ rest ∧ FirstAt before mark rest := by
  constructor
  · intro h
    have hs := eq_append_of_cutAt? h
    refine ⟨hs, fun a b hab => ?_⟩
    obtain ⟨before', rest', hc, hl⟩ := exists_cutAt? a mark b
    rw [← List.append_assoc, ← hab, ← hs, h] at hc
    cases hc
    have hlen := congrArg List.length hab
    simp only [List.length_append] at hlen
    omega
  · rintro ⟨rfl, hfirst⟩
    obtain ⟨before', rest', hc, hl⟩ := exists_cutAt? before mark rest
    rw [← List.append_assoc] at hc
    have hs := eq_append_of_cutAt? hc
    have hle := hfirst before' rest' hs
    have hlen := congrArg List.length hs
    simp only [List.length_append] at hlen
    obtain ⟨hb, rfl⟩ := List.append_inj hs (by simp only [List.length_append]; omega)
    rw [hc, List.append_cancel_right hb]

end Text

theorem Pattern.replace_append {α : Type} (p : Pattern α) (write : α → Text) {a b : Text} (h : p.Parts a b) :
    p.replace write (a ++ b) = p.replace write a ++ p.replace write b := by
  rw [replace, Pattern.segments_append h, List.flatMap_append]
  rfl

/-- What is found in a text, told place by place. -/
structure Rule (α : Type) where
  /-- Something begins between what stands before a place and what stands from it on. -/
  Begins : (before s : Text) → Prop
  /-- What begins at the front of a text is this, and the text goes on after it. -/
  Spans : (s : Text) → α → (rest : Text) → Prop

namespace Rule

variable {α : Type}

/-- The text that is written for `s`, which stands after `before`, when it is read from the left by a rule. -/
inductive Writes (ρ : Rule α) (write : α → Text) : (before s written : Text) → Prop
  | done {before : Text} : Writes ρ write before [] []
  | copy {before s written : Text} {c : Char} :
    ¬ ρ.Begins before (c :: s) → Writes ρ write (before ++ [c]) s written →
      Writes ρ write before (c :: s) (c :: written)
  | write {before x rest written : Text} {m : α} :
    ρ.Begins before (x ++ rest) → ρ.Spans (x ++ rest) m rest → Writes ρ write (before ++ x) rest written →
      Writes ρ write before (x ++ rest) (write m ++ written)

/-- A pattern finds what the rule says, at the places that a search comes to. What holds of these places is
given by `Reached`. -/
structure Describes (ρ : Rule α) (p : Pattern α) (Reached : (before s : Text) → Prop) : Prop where
  start (s : Text) : Reached [] s
  skip {before s : Text} {c : Char} :
    Reached before (c :: s) → p.front? (c :: s) = none → Reached (before ++ [c]) s
  next {before s : Text} {m : α} {rest : Text} :
    Reached before s → p.front? s = some (m, rest) → Reached (before ++ p.source m) rest
  begins_iff {before s : Text} : Reached before s → (ρ.Begins before s ↔ (p.front? s).isSome)
  spans_iff {s : Text} {m : α} {rest : Text} : ρ.Spans s m rest ↔ p.front? s = some (m, rest)

variable {ρ : Rule α} {p : Pattern α} {Reached : Text → Text → Prop} {write : α → Text}

theorem Describes.writes_replace (h : ρ.Describes p Reached) {before s : Text} (hr : Reached before s) :
    ρ.Writes write before s (p.replace write s) := by
  induction s using p.segments_induction generalizing before with
  | nil =>
    rw [p.replace_nil]
    exact .done
  | hit s m rest hf ih =>
    have hb : ρ.Begins before s := (h.begins_iff hr).2 (by rw [hf]; rfl)
    have hs : ρ.Spans s m rest := h.spans_iff.2 hf
    have hw := ih (h.next hr hf)
    rw [p.replace_of_front? write hf]
    rw [p.eq_append hf] at hb hs ⊢
    exact .write hb hs hw
  | gap c s hf ih =>
    rw [p.replace_of_front?_eq_none write hf]
    refine .copy (fun hb => ?_) (ih (h.skip hr hf))
    rw [h.begins_iff hr, hf] at hb
    cases hb

theorem Describes.replace_eq (h : ρ.Describes p Reached) {before s written : Text} (hr : Reached before s)
    (hw : ρ.Writes write before s written) : p.replace write s = written := by
  induction hw with
  | done => exact p.replace_nil write
  | copy hb _ ih =>
    rw [h.begins_iff hr, Bool.not_eq_true, Option.isSome_eq_false_iff, Option.isNone_iff_eq_none] at hb
    rw [p.replace_of_front?_eq_none write hb, ih (h.skip hr hb)]
  | @write before x rest written m _ hs _ ih =>
    have hf := h.spans_iff.1 hs
    have hx : x = p.source m := List.append_cancel_right (p.eq_append hf)
    rw [p.replace_of_front? write hf, ih (hx ▸ h.next hr hf)]

/-- Reading a text by a rule gives one result, the text with the matches written anew of a pattern that the rule
describes. -/
theorem Describes.writes_iff (h : ρ.Describes p Reached) (s written : Text) :
    p.replace write s = written ↔ ρ.Writes write [] s written := by
  constructor
  · rintro rfl
    exact h.writes_replace (h.start s)
  · exact h.replace_eq (h.start s)

end Rule

end HtmlHighlight
