import HtmlHighlight.Proofs.Decoding
import HtmlHighlight.Proofs.Passes
import HtmlHighlight.Regex

/-!
# Brackets and their entities as a matched pair

Writing brackets as entities and reading the entities back undo each other as far as they can: a text that has been
read back holds neither entity (`Entity.not_infix_decode`), so it is read back unchanged, and the texts that are left
as they are when they are read back are those without entities (`Entity.decode_eq_self_iff`).

Reading back is one pass over a text. It comes to the same as two replacements, first of the one entity and then of
the other (`Entity.decode_eq_decodeStepwise`): the bracket that the first one writes is no part of the other entity,
so the second finds no entity that was not there before (`Text.prefix_of_prefix_replaceAll`).
-/

namespace HtmlHighlight

namespace Text

/-- A text with each occurrence of a mark replaced, as a search from the left finds them. -/
def replaceAll (mark new s : Text) : Text :=
  (Regex.text mark).pattern.replace (fun _ => new) s

variable {mark new : Text}

theorem replaceAll_nil (mark new : Text) : replaceAll mark new [] = [] :=
  Pattern.replace_nil _ _

theorem replaceAll_append (h : mark ≠ []) (new s : Text) :
    replaceAll mark new (mark ++ s) = new ++ replaceAll mark new s := by
  have hf : (Regex.text mark).pattern.front? (mark ++ s) = some (⟨mark, [], h⟩, s) := by
    show (Regex.text mark).front? (mark ++ s) = _
    rw [Regex.front?, Regex.ways, after?_append]
    simp [h]
  exact Pattern.replace_of_front? _ _ hf

theorem replaceAll_cons {c : Char} {s : Text} (h : ¬ mark <+: c :: s) :
    replaceAll mark new (c :: s) = c :: replaceAll mark new s := by
  have hafter : after? mark (c :: s) = none := by
    rw [Option.eq_none_iff_forall_ne_some]
    rintro rest hr
    exact h ⟨rest, (after?_eq_some_iff.1 hr).symm⟩
  have hf : (Regex.text mark).pattern.front? (c :: s) = none := by
    show (Regex.text mark).front? (c :: s) = none
    rw [Regex.front?, Regex.ways, hafter]
    rfl
  exact Pattern.replace_of_front?_eq_none _ _ hf

/-- Nothing is replaced where the first character of the mark does not occur. -/
theorem replaceAll_append_of_not_mem {c : Char} {a : Text} (h : c ∉ a) (s : Text) :
    replaceAll (c :: mark) new (a ++ s) = a ++ replaceAll (c :: mark) new s := by
  induction a with
  | nil => rfl
  | cons d a ih =>
    simp only [List.mem_cons, not_or] at h
    rw [List.cons_append, replaceAll_cons (fun hp => h.1 (List.cons_prefix_cons.1 hp).1), ih h.2, List.cons_append]

/-- What begins a text after the replacement and does not hold the character that each replacement begins with
begins it before, too. -/
theorem prefix_of_prefix_replaceAll (hmark : mark ≠ []) {d : Char} {e s : Text} (hd : d ∉ e)
    (h : e <+: replaceAll mark (d :: new) s) : e <+: s := by
  induction e generalizing s with
  | nil => exact List.nil_prefix
  | cons c e ih =>
    simp only [List.mem_cons, not_or] at hd
    cases s with
    | nil => rwa [replaceAll_nil] at h
    | cons x s =>
      by_cases hm : mark <+: x :: s
      · obtain ⟨rest, hr⟩ := hm
        rw [← hr, replaceAll_append hmark, List.cons_append] at h
        exact absurd (List.cons_prefix_cons.1 h).1.symm hd.1
      · rw [replaceAll_cons hm] at h
        obtain ⟨rfl, htail⟩ := List.cons_prefix_cons.1 h
        exact (List.prefix_cons_inj c).2 (ih hd.2 htail)

end Text

namespace Entity

open Text (replaceAll)

/-- What a text without brackets begins with, once its entities are read back, it begins with before. -/
theorem prefix_of_prefix_decode {e s : Text} (hlt : '<' ∉ e) (hgt : '>' ∉ e) (h : e <+: decode s) : e <+: s := by
  induction e generalizing s with
  | nil => exact List.nil_prefix
  | cons c e ih =>
    simp only [List.mem_cons, not_or] at hlt hgt
    cases s using decode_induction with
    | nil => exact h
    | lt s _ => exact absurd (List.cons_prefix_cons.1 h).1.symm hlt.1
    | gt s _ => exact absurd (List.cons_prefix_cons.1 h).1.symm hgt.1
    | keep d s hk _ =>
      rw [decode_of_kept hk] at h
      obtain ⟨rfl, htail⟩ := List.cons_prefix_cons.1 h
      exact (List.prefix_cons_inj c).2 (ih hlt.2 hgt.2 htail)

/-- A text that has been read back holds neither entity. -/
theorem not_infix_decode (s : Text) : ¬ lt <:+: decode s ∧ ¬ gt <:+: decode s := by
  induction s using decode_induction with
  | nil => decide
  | lt s ih =>
    rw [decode_lt_append, List.infix_cons_iff, List.infix_cons_iff]
    simpa [lt, gt] using ih
  | gt s ih =>
    rw [decode_gt_append, List.infix_cons_iff, List.infix_cons_iff]
    simpa [lt, gt] using ih
  | keep c s h ih =>
    -- an entity would have stood there before
    have hbrackets : ∀ e ∈ tails, '<' ∉ e ∧ '>' ∉ e := by decide
    have hnone : ∀ e ∈ tails, ¬ '&' :: e <+: c :: decode s := by
      intro e he hp
      obtain ⟨rfl, htail⟩ := List.cons_prefix_cons.1 hp
      exact h rfl e he (prefix_of_prefix_decode (hbrackets e he).1 (hbrackets e he).2 htail)
    rw [decode_of_kept h, List.infix_cons_iff, List.infix_cons_iff, not_or, not_or]
    exact ⟨⟨hnone _ (by decide), ih.1⟩, hnone _ (by decide), ih.2⟩

/-- The texts that reading back leaves as they are. -/
theorem decode_eq_self_iff {s : Text} : decode s = s ↔ ¬ lt <:+: s ∧ ¬ gt <:+: s := by
  constructor
  · intro h
    have hn := not_infix_decode s
    rwa [h] at hn
  · rintro ⟨hlt, hgt⟩
    induction s using decode_induction with
    | nil => rfl
    | lt s _ => exact absurd (List.prefix_append lt s).isInfix hlt
    | gt s _ => exact absurd (List.prefix_append gt s).isInfix hgt
    | keep c s h ih =>
      have hs : s <:+: c :: s := (List.suffix_cons c s).isInfix
      rw [decode_of_kept h, ih (fun hi => hlt (hi.trans hs)) (fun hi => hgt (hi.trans hs))]

theorem decode_decode (s : Text) : decode (decode s) = decode s :=
  decode_eq_self_iff.2 (not_infix_decode s)

/-- Two texts are written the same if and only if they are read back as the same. -/
theorem encode_eq_encode_iff {a b : Text} : encode a = encode b ↔ decode a = decode b := by
  constructor
  · intro h
    rw [← decode_encode_eq a, h, decode_encode_eq]
  · intro h
    rw [← encode_decode_eq a, h, encode_decode_eq]

/-! ## One entity after the other -/

/-- A text in which first the one entity is read back and then the other. -/
def decodeStepwise (s : Text) : Text :=
  replaceAll gt ['>'] (replaceAll lt ['<'] s)

theorem decode_eq_decodeStepwise (s : Text) : decode s = decodeStepwise s := by
  have hltne : lt ≠ [] := by decide
  have hgtne : gt ≠ [] := by decide
  rw [decodeStepwise]
  induction s using decode_induction with
  | nil => rw [Text.replaceAll_nil, Text.replaceAll_nil, decode_nil]
  | lt s ih =>
    rw [decode_lt_append, Text.replaceAll_append hltne, gt_eq,
      Text.replaceAll_append_of_not_mem (a := ['<']) (by decide), ← gt_eq, ih, List.singleton_append]
  | gt s ih =>
    have hfirst : replaceAll lt ['<'] (gt ++ s) = gt ++ replaceAll lt ['<'] s := by
      have hrest : replaceAll lt ['<'] (['g', 't', ';'] ++ s) = ['g', 't', ';'] ++ replaceAll lt ['<'] s := by
        rw [lt_eq, Text.replaceAll_append_of_not_mem (by decide)]
      rw [gt_eq, List.cons_append, Text.replaceAll_cons (by simp [lt]), hrest]
      rfl
    rw [decode_gt_append, hfirst, Text.replaceAll_append hgtne, ih, List.singleton_append]
  | keep c s h ih =>
    have hfirst : ¬ lt <+: c :: s := by
      intro hp
      obtain ⟨hc, htail⟩ := List.cons_prefix_cons.1 hp
      exact h hc.symm _ (by decide) htail
    have hsecond : ¬ gt <+: c :: replaceAll lt ['<'] s := by
      intro hp
      obtain ⟨hc, htail⟩ := List.cons_prefix_cons.1 hp
      exact h hc.symm _ (by decide) (Text.prefix_of_prefix_replaceAll hltne (by decide) htail)
    rw [decode_of_kept h, Text.replaceAll_cons hfirst, Text.replaceAll_cons hsecond, ih]

/-- For every text, reading its entities back forgets whether its brackets had been written as entities, and writing
them forgets whether the entities had been read back. Each of the two does its work at once, and a text comes back
from being written exactly when it holds neither entity. Reading back is the same as two replacements in a row. -/
theorem encode_decode_matched :
    (∀ s, decode (encode s) = decode s ∧ encode (decode s) = encode s) ∧
    (∀ s, encode (encode s) = encode s ∧ decode (decode s) = decode s) ∧
    (∀ s, ¬ lt <:+: decode s ∧ ¬ gt <:+: decode s) ∧
    (∀ s, decode (encode s) = s ↔ ¬ lt <:+: s ∧ ¬ gt <:+: s) ∧
    (∀ a b, encode a = encode b ↔ decode a = decode b) ∧
    ∀ s, decode s = decodeStepwise s := by
  refine ⟨fun s => ⟨decode_encode_eq s, encode_decode_eq s⟩, fun s => ⟨encode_encode s, decode_decode s⟩,
    not_infix_decode, fun s => ?_, fun _ _ => encode_eq_encode_iff, decode_eq_decodeStepwise⟩
  rw [decode_encode_eq, decode_eq_self_iff]

end Entity

end HtmlHighlight
