import HtmlHighlight.Highlight
import HtmlHighlight.Proofs.Decoding
import HtmlHighlight.Proofs.OuterBlankSpace

/-!
# Sources with their brackets written as entities

Writing brackets as entities keeps every blank character and makes no other one blank
(`encodeChar_of_isBlank`, `isBlank_eq_false_of_mem_encodeChar`), so it changes nothing that indentation depends
on: where a text ends before its trailing blank space, where its lines end, which of them are blank and how far
each is indented. A source is therefore unindented and then encoded as it is encoded and then unindented
(`Text.unindent_encode`), and it does not matter to the highlighter whether a bracket or its entity is written
(`Renderer.highlight_encode_and_decode`).
-/

namespace HtmlHighlight

namespace Entity

theorem encodeChar_of_isBlank {c : Char} (h : isBlank c = true) : encodeChar c = [c] := by
  rw [encodeChar, if_neg, if_neg]
  · rintro rfl
    exact absurd h (by decide)
  · rintro rfl
    exact absurd h (by decide)

theorem encodeChar_ne_nil (c : Char) : encodeChar c ≠ [] := by
  unfold encodeChar
  split
  · decide
  · split
    · decide
    · exact List.cons_ne_nil c []

theorem isBlank_eq_false_of_mem_encodeChar {c d : Char} (h : isBlank c = false) (hd : d ∈ encodeChar c) :
    isBlank d = false := by
  have hlt : lt.all (!isBlank ·) = true := by decide
  have hgt : gt.all (!isBlank ·) = true := by decide
  unfold encodeChar at hd
  split at hd
  · simpa using List.all_eq_true.1 hlt d hd
  · split at hd
    · simpa using List.all_eq_true.1 hgt d hd
    · rwa [List.mem_singleton.1 hd]

theorem mem_encode_iff_of_isBlank {d : Char} (h : isBlank d = true) {s : Text} : d ∈ encode s ↔ d ∈ s := by
  rw [encode, List.mem_flatMap]
  constructor
  · rintro ⟨c, hc, hd⟩
    cases hb : isBlank c with
    | true =>
      rw [encodeChar_of_isBlank hb, List.mem_singleton] at hd
      exact hd ▸ hc
    | false => exact absurd (isBlank_eq_false_of_mem_encodeChar hb hd) (by simp [h])
  · exact fun hd => ⟨d, hd, by rw [encodeChar_of_isBlank h]; exact List.mem_singleton_self d⟩

/-- A character that does not indent is not written with one that does. -/
theorem isIndent_eq_false_of_mem_encodeChar {c d : Char} (h : isIndent c = false) (hd : d ∈ encodeChar c) :
    isIndent d = false := by
  cases hb : isBlank c with
  | true =>
    rw [encodeChar_of_isBlank hb, List.mem_singleton] at hd
    rwa [hd]
  | false =>
    cases hi : isIndent d with
    | false => rfl
    | true =>
      have := isBlank_eq_false_of_mem_encodeChar hb hd
      rw [isBlank_of_isIndent hi] at this
      cases this

end Entity

namespace Text

open Entity

/-! ## Lines and what they begin with -/

theorem allBlank_encode (s : Text) : (encode s).allBlank = s.allBlank := by
  have hchar : ∀ c, (encodeChar c).all isBlank = isBlank c := by
    intro c
    cases h : isBlank c with
    | true => simp [encodeChar_of_isBlank h, h]
    | false =>
      obtain ⟨d, u, hd⟩ := List.exists_cons_of_ne_nil (encodeChar_ne_nil c)
      have hb := isBlank_eq_false_of_mem_encodeChar h (hd ▸ List.mem_cons_self)
      simp [hd, hb]
  simp only [allBlank, encode, List.all_flatMap, hchar]

theorem trimEnd_encode (s : Text) : (encode s).trimEnd = encode s.trimEnd := by
  simp only [trimEnd_eq_rdropWhile]
  induction s using List.reverseRecOn with
  | nil => rfl
  | append_singleton s c ih =>
    rw [encode_append, encode_cons, encode_nil, List.append_nil]
    cases h : isBlank c with
    | true =>
      rw [encodeChar_of_isBlank h, List.rdropWhile_concat_pos _ _ _ h, List.rdropWhile_concat_pos _ _ _ h, ih]
    | false =>
      rw [List.rdropWhile_concat_neg _ _ _ (by simp [h]), encode_append, encode_cons, encode_nil,
        List.append_nil, List.rdropWhile_eq_self_iff]
      intro hl
      have hc := encodeChar_ne_nil c
      rw [List.getLast_append_of_ne_nil hl hc]
      simp [isBlank_eq_false_of_mem_encodeChar h (List.getLast_mem hc)]

theorem ofLines_map_encode (ls : List Text) : ofLines (ls.map encode) = encode (ofLines ls) := by
  induction ls with
  | nil => rfl
  | cons l ls ih =>
    cases ls with
    | nil => simp [ofLines]
    | cons m ls =>
      simp only [ofLines, List.map_cons, List.intercalate_cons_cons, encode_append] at ih ⊢
      rw [ih]
      rfl

theorem lines_encode (s : Text) : (encode s).lines = s.lines.map encode := by
  have hne : s.lines.map encode ≠ [] := by simpa using lines_ne_nil s
  have hlf : ∀ l ∈ s.lines.map encode, '\n' ∉ l := by
    intro m hm
    obtain ⟨l, hl, rfl⟩ := List.mem_map.1 hm
    rw [mem_encode_iff_of_isBlank (by decide)]
    exact not_mem_of_mem_lines hl
  calc (encode s).lines
      = (ofLines (s.lines.map encode)).lines := by rw [ofLines_map_encode, ofLines_lines]
    _ = s.lines.map encode := lines_ofLines hne hlf

theorem indentation_encode (l : Text) : (encode l).indentation = l.indentation := by
  induction l with
  | nil => rfl
  | cons c l ih =>
    simp only [indentation, encode_cons] at ih ⊢
    cases h : isIndent c with
    | true =>
      rw [encodeChar_of_isBlank (isBlank_of_isIndent h), List.singleton_append,
        List.takeWhile_cons_of_pos h, List.takeWhile_cons_of_pos h, List.length_cons, ih, List.length_cons]
    | false =>
      obtain ⟨d, u, hd⟩ := List.exists_cons_of_ne_nil (encodeChar_ne_nil c)
      have hi := isIndent_eq_false_of_mem_encodeChar h (hd ▸ List.mem_cons_self)
      rw [hd, List.cons_append, List.takeWhile_cons_of_neg (by simp [hi]),
        List.takeWhile_cons_of_neg (by simp [h])]

theorem drop_encode {l : Text} {n : Nat} (h : n ≤ l.indentation) : (encode l).drop n = encode (l.drop n) := by
  induction l generalizing n with
  | nil => simp
  | cons c l ih =>
    cases n with
    | zero => rfl
    | succ n =>
      cases hc : isIndent c with
      | true =>
        rw [indentation, List.takeWhile_cons_of_pos hc, List.length_cons, Nat.add_le_add_iff_right] at h
        rw [encode_cons, encodeChar_of_isBlank (isBlank_of_isIndent hc), List.singleton_append,
          List.drop_succ_cons, List.drop_succ_cons, ih h]
      | false => simp [indentation, hc] at h

theorem outdent_encode (width : Nat) (l : Text) : outdent width (encode l) = encode (outdent width l) := by
  rw [outdent, indentation_encode, drop_encode (Nat.min_le_right ..), outdent]

theorem commonIndentation?_map_encode (ls : List Text) :
    commonIndentation? (ls.map encode) = commonIndentation? ls := by
  have hblank : (fun l : Text => !l.allBlank) ∘ encode = fun l => !l.allBlank :=
    funext fun l => congrArg (!·) (allBlank_encode l)
  have hindent : indentation ∘ encode = indentation := funext indentation_encode
  rw [commonIndentation?, List.filter_map, List.map_map, hblank, hindent, commonIndentation?]

/-! ## Sources -/

theorem unindent_encode (s : Text) : (encode s).unindent = encode s.unindent := by
  have hblank : allBlank ∘ encode = allBlank := funext allBlank_encode
  have hlines : (encode s).trimEnd.lines.dropWhile allBlank =
      (s.trimEnd.lines.dropWhile allBlank).map encode := by
    rw [trimEnd_encode, lines_encode, List.dropWhile_map, hblank]
  simp only [unindent, hlines, commonIndentation?_map_encode]
  cases commonIndentation? (s.trimEnd.lines.dropWhile allBlank) with
  | none => rfl
  | some width =>
    have hout : outdent width ∘ encode = encode ∘ outdent width := funext (outdent_encode width)
    simp only [List.map_map, hout]
    rw [← List.map_map, ofLines_map_encode]

end Text

theorem prepare_encode (source : Text) : prepare (Entity.encode source) = prepare source := by
  rw [prepare, Text.unindent_encode, Entity.encode_encode, prepare]

/-- Reading the entities of a source back makes no difference, since writing them again makes none. -/
theorem prepare_decode (source : Text) : prepare (Entity.decode source) = prepare source := by
  rw [← prepare_encode (Entity.decode source), Entity.encode_decode_eq, prepare_encode]

/-- A source is highlighted the same with its brackets written as entities, as it stands, and with its entities
for brackets read back. -/
theorem Renderer.highlight_encode_and_decode (r : Renderer) (source : Text) :
    r.highlight (Entity.encode source) = r.highlight source ∧
      r.highlight source = r.highlight (Entity.decode source) := by
  constructor
  · rw [highlight, prepare_encode, highlight]
  · rw [highlight, highlight, prepare_decode]

end HtmlHighlight
