import HtmlHighlight.Proofs.Search
import HtmlHighlight.Text.Entity

/-!
# Reading entities back

`Entity.decode` reads a text in pieces if it is cut before a character that no entity goes on with
(`decode_append_cons`), and it reads the same from a text and from that text with its brackets written as
entities, ampersands or not (`decode_encode_eq`). A text is written the same with its entities read back first
or written already (`encode_decode_eq`, `encode_encode`).
-/

namespace HtmlHighlight.Entity

@[simp] theorem decode_nil : decode [] = [] := rfl

@[simp] theorem decode_lt_append (s : Text) : decode (lt ++ s) = '<' :: decode s := rfl

@[simp] theorem decode_gt_append (s : Text) : decode (gt ++ s) = '>' :: decode s := rfl

/-- What an entity for a bracket goes on with after its ampersand. -/
def tails : List Text :=
  [['l', 't', ';'], ['g', 't', ';']]

/-- A character begins no entity where `s` stands after it. -/
def Kept (c : Char) (s : Text) : Prop :=
  c = '&' → ∀ e ∈ tails, ¬ e <+: s

theorem decode_of_kept {c : Char} {s : Text} (h : Kept c s) : decode (c :: s) = c :: decode s := by
  by_cases hc : c = '&'
  · rw [decode]
    · rintro t - rfl
      exact h hc _ (by decide) (List.prefix_append ['l', 't', ';'] t)
    · rintro t - rfl
      exact h hc _ (by decide) (List.prefix_append ['g', 't', ';'] t)
  · exact decode_cons_of_ne hc s

/-- Induction along the reading of a text: at the end, at an entity, and at a character that is kept. -/
theorem decode_induction {motive : Text → Prop} (nil : motive []) (lt : ∀ s, motive s → motive (lt ++ s))
    (gt : ∀ s, motive s → motive (gt ++ s)) (keep : ∀ c s, Kept c s → motive s → motive (c :: s))
    (s : Text) : motive s := by
  fun_induction decode s with
  | case1 s ih => exact lt s ih
  | case2 s ih => exact gt s ih
  | case3 c s hl hg ih =>
    refine keep c s ?_ ih
    rintro rfl e he ⟨t, rfl⟩
    simp only [tails, List.mem_cons, List.not_mem_nil, or_false] at he
    rcases he with rfl | rfl
    · exact hl t rfl rfl
    · exact hg t rfl rfl
  | case4 => exact nil

/-- A character that no entity goes on with. -/
def Starts (c : Char) : Prop :=
  ∀ e ∈ tails, c ∉ e

instance (c : Char) : Decidable (Starts c) :=
  inferInstanceAs (Decidable (∀ e ∈ tails, _))

theorem decode_append_cons {c : Char} (hc : Starts c) (a b : Text) :
    decode (a ++ c :: b) = decode a ++ decode (c :: b) := by
  induction a using decode_induction with
  | nil => rfl
  | lt a ih => rw [List.append_assoc, decode_lt_append, decode_lt_append, ih, List.cons_append]
  | gt a ih => rw [List.append_assoc, decode_gt_append, decode_gt_append, ih, List.cons_append]
  | keep d a h ih =>
    have hd : Kept d (a ++ c :: b) :=
      fun hd e he hp => h hd e he (Text.prefix_of_prefix_append_cons (hc e he) hp)
    rw [List.cons_append, decode_of_kept hd, ih, decode_of_kept h, List.cons_append]

theorem decode_append_of_not_mem {a : Text} (h : '&' ∉ a) (b : Text) : decode (a ++ b) = a ++ decode b := by
  induction a with
  | nil => rfl
  | cons c a ih =>
    simp only [List.mem_cons, not_or] at h
    rw [List.cons_append, decode_cons_of_ne (Ne.symm h.1), ih h.2, List.cons_append]

/-- What a text is read as begins with its first character or with a bracket. -/
theorem exists_decode_cons (c : Char) (s : Text) :
    ∃ d t, decode (c :: s) = d :: t ∧ (d = c ∨ d = '<' ∨ d = '>') := by
  rw [decode.eq_def]
  split
  next => exact ⟨_, _, rfl, .inr (.inl rfl)⟩
  next => exact ⟨_, _, rfl, .inr (.inr rfl)⟩
  next h =>
    obtain ⟨rfl, rfl⟩ := List.cons_eq_cons.1 h
    exact ⟨_, _, rfl, .inl rfl⟩
  next h => cases h

/-- Writing brackets as entities makes nothing that an entity goes on with. -/
theorem prefix_of_prefix_encode {e s : Text} (he : '&' ∉ e) (h : e <+: encode s) : e <+: s := by
  induction e generalizing s with
  | nil => exact List.nil_prefix
  | cons d e ih =>
    simp only [List.mem_cons, not_or] at he
    cases s with
    | nil => simp at h
    | cons c s =>
      rw [encode_cons, encodeChar] at h
      split at h
      next => exact absurd (List.cons_prefix_cons.1 h).1.symm he.1
      next =>
        split at h
        next => exact absurd (List.cons_prefix_cons.1 h).1.symm he.1
        next =>
          obtain ⟨rfl, h'⟩ := List.cons_prefix_cons.1 h
          exact (List.prefix_cons_inj d).2 (ih he.2 h')

theorem decode_encode_eq (s : Text) : decode (encode s) = decode s := by
  induction s using decode_induction with
  | nil => rfl
  | lt s ih => rw [encode_append, show encode lt = lt from rfl, decode_lt_append, ih, decode_lt_append]
  | gt s ih => rw [encode_append, show encode gt = gt from rfl, decode_gt_append, ih, decode_gt_append]
  | keep c s h ih =>
    rw [encode_cons, encodeChar, decode_of_kept h, ← ih]
    split
    next hc => rw [hc, decode_lt_append]
    next =>
      split
      next hc => rw [hc, decode_gt_append]
      next =>
        have hs : Starts '&' := by decide
        have hk : Kept c (encode s) := fun hc e he hp => h hc e he (prefix_of_prefix_encode (hs e he) hp)
        exact decode_of_kept hk

theorem encode_decode_eq (s : Text) : encode (decode s) = encode s := by
  induction s using decode_induction with
  | nil => rfl
  | lt s ih => rw [decode_lt_append, encode_cons, ih, encode_append]; rfl
  | gt s ih => rw [decode_gt_append, encode_cons, ih, encode_append]; rfl
  | keep c s h ih => rw [decode_of_kept h, encode_cons, ih, encode_cons]

/-- A text without brackets is written as it is. -/
theorem encode_eq_self {s : Text} (hlt : '<' ∉ s) (hgt : '>' ∉ s) : encode s = s := by
  induction s with
  | nil => rfl
  | cons c s ih =>
    simp only [List.mem_cons, not_or] at hlt hgt
    rw [encode_cons, encodeChar, if_neg (Ne.symm hlt.1), if_neg (Ne.symm hgt.1), ih hlt.2 hgt.2]
    rfl

theorem encode_encode (s : Text) : encode (encode s) = encode s :=
  encode_eq_self (not_mem_encode s).1 (not_mem_encode s).2

end HtmlHighlight.Entity
