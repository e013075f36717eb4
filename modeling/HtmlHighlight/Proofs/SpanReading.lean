import HtmlHighlight.Proofs.Nesting

/-!
# Reading the elements of an output

`SpanTag.pattern` reads `<span class="…">` and `</span>`. `enclosures` gives each other character of a text
with the classes of the elements that are open around it, each end tag closing the element opened last. The
three equations `enclosures_append`, `enclosures_spanStart` and `enclosures_spanEnd` are all that is used of
this reading.
-/

namespace HtmlHighlight

/-- A start tag with its class, or an end tag, of an element in an output. -/
inductive SpanTag where
  | start (cssClass : Text)
  | stop
  deriving DecidableEq, Repr

namespace SpanTag

/-- What stands before the class in a start tag. -/
def beforeClass : Text := "<span class=\"".toList

/-- What stands after the class in a start tag. -/
def afterClass : Text := "\">".toList

/-- The characters of a tag. -/
def source : SpanTag → Text
  | start cssClass => beforeClass ++ cssClass ++ afterClass
  | stop => Renderer.spanEnd

/-- The tag that a text starts with and the text after it. -/
def front? (s : Text) : Option (SpanTag × Text) :=
  match Text.after? beforeClass s with
  | some s =>
    (Text.after? afterClass (s.dropWhile (· ≠ '"'))).map fun rest => (start (s.takeWhile (· ≠ '"')), rest)
  | none => (Text.after? Renderer.spanEnd s).map fun rest => (stop, rest)

theorem eq_append_of_front? {s : Text} {t : SpanTag} {rest : Text} (h : front? s = some (t, rest)) :
    s = t.source ++ rest := by
  rw [front?] at h
  split at h
  next u hu =>
    simp only [Option.map_eq_some_iff, Prod.mk.injEq] at h
    obtain ⟨r, hr, rfl, rfl⟩ := h
    rw [Text.after?_eq_some_iff.1 hu, source, List.append_assoc, List.append_assoc,
      ← Text.after?_eq_some_iff.1 hr, List.takeWhile_append_dropWhile]
  next =>
    simp only [Option.map_eq_some_iff, Prod.mk.injEq] at h
    obtain ⟨r, hr, rfl, rfl⟩ := h
    exact Text.after?_eq_some_iff.1 hr

theorem source_ne_nil (t : SpanTag) : t.source ≠ [] := by
  cases t with
  | start cssClass =>
    have h : beforeClass ≠ [] := by decide
    simp [source, h]
  | stop =>
    have h : Renderer.spanEnd ≠ [] := by decide
    exact h

/-- Tags of elements as a pattern. -/
def pattern : Pattern SpanTag where
  front? := front?
  source := source
  source_ne_nil := source_ne_nil
  eq_append := eq_append_of_front?

theorem begins : pattern.Begins '<' := by
  intro d s hd
  show front? (d :: s) = none
  rw [front?, show beforeClass = '<' :: "span class=\"".toList from rfl, Text.after?_cons_eq_none hd,
    Renderer.spanEnd_eq, Text.after?_cons_eq_none hd]
  rfl

theorem front?_spanStart (k : Kind) (s : Text) :
    pattern.front? (Renderer.spanStart k ++ s) = some (start k.cssClass.toList, s) := by
  have hn : '"' ∉ k.cssClass.toList := by cases k <;> decide
  have hq : ∀ c ∈ k.cssClass.toList, decide (c ≠ '"') = true :=
    fun c hc => decide_eq_true fun e => hn (e ▸ hc)
  have hs : Renderer.spanStart k ++ s = beforeClass ++ (k.cssClass.toList ++ '"' :: '>' :: s) := by
    show beforeClass ++ k.cssClass.toList ++ ['"', '>'] ++ s = _
    rw [List.append_assoc, List.append_assoc]
    rfl
  show front? (Renderer.spanStart k ++ s) = _
  rw [hs, front?, Text.after?_append]
  dsimp only
  rw [List.dropWhile_append_of_pos hq, List.takeWhile_append_of_pos hq,
    List.dropWhile_cons_of_neg (by decide), List.takeWhile_cons_of_neg (by decide), List.append_nil]
  rfl

theorem front?_spanEnd (s : Text) : pattern.front? (Renderer.spanEnd ++ s) = some (stop, s) := by
  have hn : Text.after? beforeClass (Renderer.spanEnd ++ s) = none := rfl
  show front? (Renderer.spanEnd ++ s) = _
  rw [front?, hn]
  dsimp only
  rw [Text.after?_append]
  rfl

end SpanTag

/-- The characters of a searched text, each with the classes of the elements around it, innermost first.
`classes` are those of the elements open at its beginning. -/
def enclosed (classes : List Text) : List (Segment SpanTag) → List (Char × List Text)
  | [] => []
  | .gap c :: l => (c, classes) :: enclosed classes l
  | .hit (.start cssClass) :: l => enclosed (cssClass :: classes) l
  | .hit .stop :: l => enclosed classes.tail l

/-- The characters of a text, its tags of elements apart, each with the classes of the elements around it. -/
def enclosures (classes : List Text) (s : Text) : List (Char × List Text) :=
  enclosed classes (SpanTag.pattern.segments s)

theorem enclosures_append {a : Text} (h : '<' ∉ a) (classes : List Text) (b : Text) :
    enclosures classes (a ++ b) = (a.map fun c => (c, classes)) ++ enclosures classes b := by
  rw [enclosures, Pattern.segments_append (Pattern.parts_of_not_mem SpanTag.begins h b),
    Pattern.segments_of_not_mem SpanTag.begins h]
  induction a with
  | nil => rfl
  | cons c a ih =>
    simp only [List.mem_cons, not_or] at h
    rw [List.map_cons, List.cons_append, enclosed, ih h.2]
    rfl

theorem enclosures_spanStart (k : Kind) (classes : List Text) (s : Text) :
    enclosures classes (Renderer.spanStart k ++ s) = enclosures (k.cssClass.toList :: classes) s := by
  rw [enclosures, SpanTag.pattern.segments_of_front? (SpanTag.front?_spanStart k s)]
  rfl

theorem enclosures_spanEnd (classes : List Text) (s : Text) :
    enclosures classes (Renderer.spanEnd ++ s) = enclosures classes.tail s := by
  rw [enclosures, SpanTag.pattern.segments_of_front? (SpanTag.front?_spanEnd s)]
  rfl

end HtmlHighlight
