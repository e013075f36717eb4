import HtmlHighlight.Proofs.RunRecognition

/-!
# Looking a run up by its bytes

Whether a run stands before a comment can be told from the bytes of the whole text: the string of the run is found at
some byte, and what begins four bytes before its end is looked at (`TextRun.lookUp`). That fails if these four bytes
would begin before the text, beyond its end or within a character. For a run that stands in the text it never does, and
the answer is that of `TextRun.beforeComment` (`TextRun.lookUp_eq_ok`):

* `Text.find?_eq_map_cutAt?`, `Text.fromByte?_eq_some_iff`: places in bytes are those after a part of the text;
* `TextRun.exists_first`: the string of a run occurs first where a run stands, no later than the given one;
* `TextRun.place_eq`: four bytes before the end of that occurrence its closing bracket begins.
-/

namespace HtmlHighlight

namespace Text

/-! ## Places in bytes -/

/-- The first byte of the first occurrence of a mark. -/
def find? (mark : Text) : Text → Option Nat
  | [] => if mark = [] then some 0 else none
  | c :: s => if mark <+: c :: s then some 0 else (find? mark s).map (c.utf8Size + ·)

/-- The text from a byte on, unless that byte lies within a character or beyond the end of the text. -/
def fromByte? : Nat → Text → Option Text
  | 0, s => some s
  | _ + 1, [] => none
  | n + 1, c :: s => if c.utf8Size ≤ n + 1 then fromByte? (n + 1 - c.utf8Size) s else none

theorem find?_eq_map_cutAt? (mark s : Text) :
    find? mark s = (cutAt? mark s).map fun (before, _) => before.byteSize := by
  induction s with
  | nil =>
    rw [find?, cutAt?]
    split <;> rfl
  | cons c s ih =>
    rw [find?, cutAt?]
    split
    next hp =>
      obtain ⟨rest, hr⟩ := hp
      rw [← hr, after?_append]
      rfl
    next hp =>
      split
      next rest hr => exact absurd ⟨rest, (after?_eq_some_iff.1 hr).symm⟩ hp
      next =>
        rw [ih, Option.map_map, Option.map_map]
        rfl

theorem find?_of_cutAt? {mark s before rest : Text} (h : cutAt? mark s = some (before, rest)) :
    find? mark s = some before.byteSize := by
  rw [find?_eq_map_cutAt?, h]
  rfl

theorem fromByte?_eq_some_iff {n : Nat} {s rest : Text} :
    fromByte? n s = some rest ↔ ∃ a, s = a ++ rest ∧ n = a.byteSize := by
  fun_induction fromByte? n s with
  | case1 s =>
    constructor
    · intro h
      exact ⟨[], by simpa using h, rfl⟩
    · rintro ⟨a, rfl, ha⟩
      cases a with
      | nil => rfl
      | cons c a =>
        have := c.utf8Size_pos
        rw [byteSize_cons] at ha
        omega
  | case2 n => simp +contextual [eq_comm]
  | case3 n c s hle ih =>
    rw [ih]
    constructor
    · rintro ⟨a, rfl, ha⟩
      refine ⟨c :: a, rfl, ?_⟩
      rw [byteSize_cons, Nat.add_comm c.utf8Size]
      exact (Nat.sub_eq_iff_eq_add hle).1 ha
    · rintro ⟨a, hs, ha⟩
      cases a with
      | nil => simp at ha
      | cons d a =>
        obtain ⟨rfl, rfl⟩ := List.cons_eq_cons.1 hs
        rw [byteSize_cons, Nat.add_comm c.utf8Size] at ha
        exact ⟨a, rfl, (Nat.sub_eq_iff_eq_add hle).2 ha⟩
  | case4 n c s hlt =>
    refine iff_of_false (by simp) ?_
    rintro ⟨a, hs, ha⟩
    cases a with
    | nil => simp at ha
    | cons d a =>
      obtain ⟨rfl, rfl⟩ := List.cons_eq_cons.1 hs
      rw [byteSize_cons] at ha
      omega

theorem byteSize_eq_utf8ByteSize (s : Text) : s.byteSize = (String.ofList s).utf8ByteSize := by
  induction s with
  | nil => simp
  | cons c s ih => simp [String.ofList_cons, ih]

/-- A text goes on from a byte exactly where a character begins or the text ends. -/
theorem isSome_fromByte?_iff {n : Nat} {s : Text} :
    (fromByte? n s).isSome ↔ String.Pos.Raw.IsValid (String.ofList s) ⟨n⟩ := by
  rw [Option.isSome_iff_exists, String.Pos.Raw.isValid_iff_exists_append]
  constructor
  · rintro ⟨rest, h⟩
    obtain ⟨a, rfl, rfl⟩ := fromByte?_eq_some_iff.1 h
    refine ⟨String.ofList a, String.ofList rest, String.ofList_append, ?_⟩
    rw [byteSize_eq_utf8ByteSize]
    rfl
  · rintro ⟨a, b, hs, hn⟩
    refine ⟨b.toList, fromByte?_eq_some_iff.2 ⟨a.toList, ?_, ?_⟩⟩
    · have := congrArg String.toList hs
      simpa using this
    · rw [byteSize_eq_utf8ByteSize, String.ofList_toList]
      exact congrArg String.Pos.Raw.byteIdx hn

theorem isPrefixOf_eq_isSome_after? (mark s : Text) : mark.isPrefixOf s = (after? mark s).isSome := by
  rw [Bool.eq_iff_iff, List.isPrefixOf_iff_prefix, Option.isSome_iff_exists]
  constructor
  · rintro ⟨rest, hr⟩
    exact ⟨rest, after?_eq_some_iff.2 hr.symm⟩
  · rintro ⟨rest, hr⟩
    exact ⟨rest, (after?_eq_some_iff.1 hr).symm⟩

end Text

namespace TextRun

/-! ## The lookup -/

/-- Why a text cannot be looked at from a place on. -/
inductive SliceFailure where
  /-- The place is before the text. -/
  | beforeBeginning
  /-- The place is within a character or beyond the end. -/
  | noBoundary
  deriving DecidableEq, Repr

/-- The number of bytes of the bracket that ends a run. -/
def bracketSize : Nat := 4

theorem byteSize_lt : Entity.lt.byteSize = bracketSize := rfl

/-- Whether the bracket at the end of a run begins a comment, told from the bytes of the whole text where the string of
the run occurs first. -/
def lookUp (whole : Text) (run : TextRun) : Except SliceFailure Bool :=
  match Text.find? run.source whole with
  | none => .ok false
  | some start =>
    if start + run.source.byteSize < bracketSize then .error .beforeBeginning
    else match Text.fromByte? (start + run.source.byteSize - bracketSize) whole with
      | none => .error .noBoundary
      | some rest => .ok (Comment.opening.isPrefixOf rest)

variable {whole before rest : Text} {run : TextRun}

/-- The string of a run that stands in a text occurs first where a run stands, no later than that one. -/
theorem exists_first (h : run.OccursIn whole before rest) :
    ∃ first after, Text.cutAt? run.source whole = some (first, after) ∧ run.OccursIn whole first after ∧
      first <+: before := by
  obtain ⟨first, after, hcut, hle⟩ := Text.exists_cutAt? before run.source rest
  rw [← h.eq_append] at hcut
  have hfirst : whole = first ++ (run.source ++ after) := by
    rw [Text.eq_append_of_cutAt? hcut, List.append_assoc]
  refine ⟨first, after, hcut, ⟨hfirst, h.content_ne_nil, h.not_mem⟩, ?_⟩
  have hlen := congrArg List.length (h.eq_append.symm.trans hfirst)
  simp only [List.length_append] at hlen
  have hf : first <+: whole := hfirst ▸ List.prefix_append first _
  have hb : before <+: whole := h.eq_append ▸ List.prefix_append before _
  exact List.prefix_of_prefix_length_le hf hb (by omega)

/-- Four bytes before the end of a run, the bracket that ends it begins. -/
theorem place_eq (first : Text) (run : TextRun) :
    bracketSize ≤ first.byteSize + run.source.byteSize ∧
      first.byteSize + run.source.byteSize - bracketSize = Text.byteSize (first ++ (Entity.gt ++ run.content)) := by
  have hsource : run.source.byteSize = Text.byteSize (Entity.gt ++ run.content) + bracketSize := by
    rw [source, Text.byteSize_append, byteSize_lt]
  rw [Text.byteSize_append, hsource]
  omega

theorem OccursIn.fromByte?_eq (h : run.OccursIn whole before rest) :
    Text.fromByte? (before.byteSize + run.source.byteSize - bracketSize) whole = some (Entity.lt ++ rest) := by
  refine Text.fromByte?_eq_some_iff.2 ⟨before ++ (Entity.gt ++ run.content), ?_, (place_eq before run).2⟩
  rw [h.eq_append, source]
  simp only [List.append_assoc]

/-- The lookup of a run that stands in the text does not fail, and is told what stands after its first occurrence. -/
theorem lookUp_eq_ok (h : run.OccursIn whole before rest) : lookUp whole run = .ok (run.beforeComment whole) := by
  obtain ⟨first, after, hcut, hfirst, -⟩ := exists_first h
  have hnot : ¬ first.byteSize + run.source.byteSize < bracketSize := Nat.not_lt.2 (place_eq first run).1
  rw [lookUp, Text.find?_of_cutAt? hcut]
  simp only [if_neg hnot, hfirst.fromByte?_eq]
  rw [beforeComment, hcut, Text.isPrefixOf_eq_isSome_after?]

end TextRun

/-- What is done to each member of a list without a failure is done to the list without one. -/
theorem mapM_eq_ok {α β ε : Type} {f : α → Except ε β} {g : α → β} {l : List α}
    (h : ∀ x ∈ l, f x = .ok (g x)) : l.mapM f = .ok (l.map g) := by
  induction l with
  | nil => rfl
  | cons x l ih =>
    rw [List.forall_mem_cons] at h
    rw [List.mapM_cons, h.1, ih h.2]
    rfl

namespace Renderer

variable (r : Renderer)

/-- A run found in `whole` as the renderer marks it, with its lookup. -/
def writeRunByLookup (whole : Text) (run : TextRun) : Except TextRun.SliceFailure Text :=
  if run.content.allBlank then .ok run.source
  else (run.lookUp whole).map fun precedes =>
    if precedes then run.source else Entity.gt ++ r.style .text run.content ++ Entity.lt

/-- A piece of a text with the runs of `whole` written with their lookups. -/
def writePieceByLookup (whole : Text) : Segment TextRun → Except TextRun.SliceFailure Text
  | .gap c => .ok [c]
  | .hit run => r.writeRunByLookup whole run

/-- Marks the runs of a text with a lookup for each that is not blank. A failure ends it. -/
def markTextByLookup (s : Text) : Except TextRun.SliceFailure Text :=
  ((TextRun.pattern.segments s).mapM (r.writePieceByLookup s)).map List.flatten

theorem writeRunByLookup_eq_ok {whole before rest : Text} {run : TextRun} (h : run.OccursIn whole before rest) :
    r.writeRunByLookup whole run = .ok (r.writeRun whole run) := by
  rw [writeRunByLookup, writeRun, TextRun.lookUp_eq_ok h]
  cases run.content.allBlank <;> rfl

/-- No lookup fails while the runs of a text are marked. -/
theorem markTextByLookup_eq_ok (s : Text) : r.markTextByLookup s = .ok (r.markText s) := by
  have hpiece : ∀ piece ∈ TextRun.pattern.segments s,
      r.writePieceByLookup s piece = .ok (piece.write (r.writeRun s)) := by
    intro piece hmem
    cases piece with
    | gap c => rfl
    | hit run =>
      have hrun : run ∈ TextRun.pattern.hits s := List.mem_filterMap.2 ⟨_, hmem, rfl⟩
      obtain ⟨before, rest, hf⟩ := Pattern.mem_hits_iff.1 hrun
      exact r.writeRunByLookup_eq_ok (TextRun.finds_iff_occursIn.1 hf)
  rw [markTextByLookup, mapM_eq_ok hpiece, markText_eq_replace, Pattern.replace, List.flatMap_def]
  rfl

/-- For every text and every run that the search for runs comes upon in it, the string of the run is found, where it is
found stands a run that the search comes upon, too, no later than the given one, and the place four bytes before its end
is in the text, at the beginning of a character, and is where the bracket that ends it begins. So no lookup fails, and
marking with lookups is marking. -/
theorem lookUp_of_finds (whole : Text) :
    (∀ (run : TextRun) (before rest : Text), TextRun.pattern.Finds whole before run rest →
      ∃ first after, Text.find? run.source whole = some first.byteSize ∧
        TextRun.pattern.Finds whole first run after ∧ first <+: before ∧ first.byteSize ≤ before.byteSize ∧
        TextRun.bracketSize ≤ first.byteSize + run.source.byteSize ∧
        first.byteSize + run.source.byteSize ≤ whole.byteSize ∧
        String.Pos.Raw.IsValid (String.ofList whole)
          ⟨first.byteSize + run.source.byteSize - TextRun.bracketSize⟩ ∧
        first.byteSize + run.source.byteSize - TextRun.bracketSize =
          Text.byteSize (first ++ (Entity.gt ++ run.content)) ∧
        Text.fromByte? (first.byteSize + run.source.byteSize - TextRun.bracketSize) whole =
          some (Entity.lt ++ after) ∧
        TextRun.lookUp whole run = .ok (run.beforeComment whole)) ∧
    ∀ r : Renderer, r.markTextByLookup whole = .ok (r.markText whole) := by
  refine ⟨fun run before rest h => ?_, fun r => r.markTextByLookup_eq_ok whole⟩
  have hrun := TextRun.finds_iff_occursIn.1 h
  obtain ⟨first, after, hcut, hfirst, hprefix⟩ := TextRun.exists_first hrun
  obtain ⟨hle, hplace⟩ := TextRun.place_eq first run
  have hbefore : first.byteSize ≤ before.byteSize := by
    obtain ⟨more, rfl⟩ := hprefix
    rw [Text.byteSize_append]
    omega
  have hwhole : first.byteSize + run.source.byteSize ≤ whole.byteSize := by
    rw [hfirst.eq_append, Text.byteSize_append, Text.byteSize_append]
    omega
  have hslice := hfirst.fromByte?_eq
  have hvalid := Text.isSome_fromByte?_iff.1 (Option.isSome_of_mem hslice)
  exact ⟨first, after, Text.find?_of_cutAt? hcut, TextRun.finds_iff_occursIn.2 hfirst, hprefix, hbefore, hle, hwhole,
    hvalid, hplace, hslice, TextRun.lookUp_eq_ok hrun⟩

/-- The second of two equal runs, among characters of two bytes, is looked up where the first one stands. -/
theorem lookUp_of_finds_repeated :
    TextRun.pattern.Finds "é&gt;ü&lt;!--&gt;ü&lt;b".toList "é&gt;ü&lt;!--".toList ⟨"ü".toList⟩ "b".toList ∧
    (∃ first after, Text.find? "&gt;ü&lt;".toList "é&gt;ü&lt;!--&gt;ü&lt;b".toList = some first.byteSize ∧
      TextRun.pattern.Finds "é&gt;ü&lt;!--&gt;ü&lt;b".toList first ⟨"ü".toList⟩ after ∧
      first <+: "é&gt;ü&lt;!--".toList) ∧
    Text.find? "&gt;ü&lt;".toList "é&gt;ü&lt;!--&gt;ü&lt;b".toList = some 2 ∧
    TextRun.lookUp "é&gt;ü&lt;!--&gt;ü&lt;b".toList ⟨"ü".toList⟩ = .ok true := by
  have hfinds : TextRun.pattern.Finds "é&gt;ü&lt;!--&gt;ü&lt;b".toList "é&gt;ü&lt;!--".toList ⟨"ü".toList⟩
      "b".toList := TextRun.finds_iff_occursIn.2 (by decide +kernel)
  obtain ⟨first, after, hfind, hfirst, hprefix, -, -, -, -, -, -, hlookUp⟩ :=
    (lookUp_of_finds "é&gt;ü&lt;!--&gt;ü&lt;b".toList).1 _ _ _ hfinds
  have hbefore : (⟨"ü".toList⟩ : TextRun).beforeComment "é&gt;ü&lt;!--&gt;ü&lt;b".toList = true := by
    decide +kernel
  exact ⟨hfinds, ⟨first, after, hfind, hfirst, hprefix⟩, by decide +kernel, hlookUp.trans (by rw [hbefore])⟩

end Renderer

end HtmlHighlight
