import HtmlHighlight.Text.Basic

/-!
# Entities for angle brackets

`Entity.encode` writes each angle bracket as its entity and leaves all else alone, ampersands included, so
that entities already in a source stay as they are. `Entity.decode` turns the two entities back.
`Entity.not_mem_encode` says that no bracket is left, and `Entity.decode_encode` that a text without
ampersands is read back.
-/

namespace HtmlHighlight.Entity

/-- The entity for `<`. -/
def lt : Text := ['&', 'l', 't', ';']

/-- The entity for `>`. -/
def gt : Text := ['&', 'g', 't', ';']

theorem lt_eq : lt = '&' :: ['l', 't', ';'] := rfl

theorem gt_eq : gt = '&' :: ['g', 't', ';'] := rfl

/-- How one character of a source is written. -/
def encodeChar (c : Char) : Text :=
  if c = '<' then lt else if c = '>' then gt else [c]

/-- A text with its angle brackets written as entities. -/
def encode (s : Text) : Text :=
  s.flatMap encodeChar

/-- A text with the entities for angle brackets read back. -/
def decode : Text → Text
  | '&' :: 'l' :: 't' :: ';' :: s => '<' :: decode s
  | '&' :: 'g' :: 't' :: ';' :: s => '>' :: decode s
  | c :: s => c :: decode s
  | [] => []

@[simp] theorem encode_nil : encode [] = [] := rfl

@[simp] theorem encode_cons (c : Char) (s : Text) : encode (c :: s) = encodeChar c ++ encode s := rfl

@[simp] theorem encode_append (s t : Text) : encode (s ++ t) = encode s ++ encode t :=
  List.flatMap_append

theorem not_mem_encode (s : Text) : '<' ∉ encode s ∧ '>' ∉ encode s := by
  induction s with
  | nil => simp
  | cons c s ih =>
    have hc : '<' ∉ encodeChar c ∧ '>' ∉ encodeChar c := by
      unfold encodeChar
      split
      · decide
      · split
        · decide
        · next h₁ h₂ => simp [Ne.symm h₁, Ne.symm h₂]
    simp [ih, hc]

theorem decode_cons_of_ne {c : Char} (h : c ≠ '&') (s : Text) : decode (c :: s) = c :: decode s := by
  rw [decode]
  · rintro t rfl
    exact absurd rfl h
  · rintro t rfl
    exact absurd rfl h

/-- A text without ampersands is read back from its entities. -/
theorem decode_encode {s : Text} (h : '&' ∉ s) : decode (encode s) = s := by
  induction s with
  | nil => simp [decode]
  | cons c s ih =>
    simp only [List.mem_cons, not_or] at h
    rw [encode_cons, encodeChar]
    split
    next hc => rw [hc, lt_eq]; exact congrArg ('<' :: ·) (ih h.2)
    next =>
      split
      next hc => rw [hc, gt_eq]; exact congrArg ('>' :: ·) (ih h.2)
      next => rw [List.singleton_append, decode_cons_of_ne (Ne.symm h.1), ih h.2]

/-- Reading entities back keeps the characters that are none of a bracket's or its entity's. -/
theorem count_decode {d : Char} (hd : d ∉ ['<', '>', '&', 'l', 'g', 't', ';']) (s : Text) :
    (decode s).count d = s.count d := by
  simp only [List.mem_cons, List.not_mem_nil, or_false, not_or] at hd
  obtain ⟨h₁, h₂, h₃, h₄, h₅, h₆, h₇⟩ := hd
  fun_induction decode s with
  | case1 s ih => simp [ih, Ne.symm h₁, Ne.symm h₃, Ne.symm h₄, Ne.symm h₆, Ne.symm h₇]
  | case2 s ih => simp [ih, Ne.symm h₂, Ne.symm h₃, Ne.symm h₅, Ne.symm h₆, Ne.symm h₇]
  | case3 c s _ _ ih => simp [List.count_cons, ih]
  | case4 => rfl

end HtmlHighlight.Entity
