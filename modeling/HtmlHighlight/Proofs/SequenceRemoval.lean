import HtmlHighlight.Ansi
import HtmlHighlight.Proofs.Search

/-!
# Taking control sequences out

`Sgr` is a control sequence that sets renditions, and `withoutSequences` takes all of them out of a text as a
search from the left finds them. A sequence is taken out whole wherever it stands
(`withoutSequences_source_append`), and a text may be cut before a character that no sequence goes on with
(`withoutSequences_append_cons`).
-/

namespace HtmlHighlight.Ansi

/-- The characters of the parameters of a control sequence. -/
def isParameter (c : Char) : Bool :=
  c.isDigit || c = ';'

/-- A control sequence that sets renditions, known by its parameters. -/
structure Sgr where
  parameters : Text
  isParameter_of_mem : ∀ c ∈ parameters, isParameter c = true

namespace Sgr

/-- The characters of a sequence. -/
def source (q : Sgr) : Text :=
  '\x1b' :: '[' :: (q.parameters ++ ['m'])

/-- The sequence that a text starts with and the text after it. -/
def front? (s : Text) : Option (Sgr × Text) :=
  match Text.after? ['\x1b', '['] s with
  | none => none
  | some s => (Text.after? ['m'] (s.dropWhile isParameter)).map fun rest =>
    (⟨s.takeWhile isParameter, List.all_eq_true.1 List.all_takeWhile⟩, rest)

theorem eq_append_of_front? {s : Text} {q : Sgr} {rest : Text} (h : front? s = some (q, rest)) :
    s = q.source ++ rest := by
  rw [front?] at h
  split at h
  next => cases h
  next t ht =>
    obtain ⟨r, hr, he⟩ := Option.map_eq_some_iff.1 h
    cases he
    have hs : t = t.takeWhile isParameter ++ (['m'] ++ rest) := by
      rw [← Text.after?_eq_some_iff.1 hr, List.takeWhile_append_dropWhile]
    rw [Text.after?_eq_some_iff.1 ht, source]
    simpa using hs

/-- Control sequences that set renditions, as a pattern. -/
def pattern : Pattern Sgr where
  front? := front?
  source := source
  source_ne_nil _ := List.cons_ne_nil _ _
  eq_append := eq_append_of_front?

theorem begins : pattern.Begins '\x1b' := by
  intro d s hd
  show front? (d :: s) = none
  rw [front?, Text.after?_cons_eq_none hd]

theorem front?_source_append (q : Sgr) (s : Text) : pattern.front? (q.source ++ s) = some (q, s) := by
  have ht : (q.parameters ++ 'm' :: s).takeWhile isParameter = q.parameters := by
    rw [List.takeWhile_append_of_pos q.isParameter_of_mem, List.takeWhile_cons_of_neg (by decide),
      List.append_nil]
  have hd : (q.parameters ++ 'm' :: s).dropWhile isParameter = 'm' :: s := by
    rw [List.dropWhile_append_of_pos q.isParameter_of_mem, List.dropWhile_cons_of_neg (by decide)]
  have hs : q.source ++ s = ['\x1b', '['] ++ (q.parameters ++ 'm' :: s) := by simp [source]
  show front? (q.source ++ s) = some (q, s)
  rw [front?, hs, Text.after?_append]
  simp only [ht, hd]
  rfl

/-- A character that no sequence goes on with. -/
def Ends (c : Char) : Prop :=
  isParameter c = false ∧ c ≠ '[' ∧ c ≠ 'm'

instance (c : Char) : Decidable (Ends c) :=
  inferInstanceAs (Decidable (_ ∧ _ ∧ _))

theorem parts_cons {c : Char} (hc : Ends c) (a b : Text) : pattern.Parts a (c :: b) := by
  obtain ⟨hp, hb, hm⟩ := hc
  intro s _ hs
  show front? (s ++ c :: b) = (front? s).map _
  rw [front?, front?, Text.after?_append_cons (by simpa using hb) hs]
  cases Text.after? ['\x1b', '['] s with
  | none => rfl
  | some t =>
    simp only [Option.map_some, Text.takeWhile_append_cons hp, Text.dropWhile_append_cons hp,
      Text.after?_append_of_not_mem (show c ∉ ['m'] by simpa using hm), Option.map_map]
    rfl

/-- The sequence for the given renditions. -/
def ofRenditions (renditions : List Nat) : Sgr where
  parameters := [';'].intercalate (renditions.map Text.ofNat)
  isParameter_of_mem := by
    induction renditions with
    | nil => simp
    | cons n l ih =>
      have hn : ∀ c ∈ Text.ofNat n, isParameter c = true := by
        intro c hc
        rw [isParameter, Nat.isDigit_of_mem_toDigits (by decide) (by decide) hc, Bool.true_or]
      cases l with
      | nil => simpa using hn
      | cons k l =>
        intro c hc
        rw [List.map_cons, List.map_cons, List.intercalate_cons_cons, List.mem_append, List.mem_append] at hc
        rcases hc with (hc | hc) | hc
        · exact hn c hc
        · rw [List.mem_singleton.1 hc]
          rfl
        · exact ih c hc

theorem source_ofRenditions (renditions : List Nat) : (ofRenditions renditions).source = sgr renditions := rfl

theorem not_mem_source_of_ends {c : Char} (hc : Ends c) (hesc : c ≠ '\x1b') (q : Sgr) : c ∉ q.source := by
  obtain ⟨hp, hb, hm⟩ := hc
  have hparameters : c ∉ q.parameters := fun h => by simp [q.isParameter_of_mem c h] at hp
  simp [source, hesc, hb, hm, hparameters]

theorem not_mem_source (q : Sgr) : '&' ∉ q.source :=
  q.not_mem_source_of_ends (by decide) (by decide)

/-- The characters of sequences one after the other. -/
def sources (qs : List Sgr) : Text :=
  qs.flatMap source

theorem not_mem_sources (qs : List Sgr) : '&' ∉ sources qs := by
  rw [sources, List.mem_flatMap]
  rintro ⟨q, -, hq⟩
  exact q.not_mem_source hq

end Sgr

/-- A text without its control sequences that set renditions. -/
def withoutSequences (s : Text) : Text :=
  Sgr.pattern.gaps s

@[simp] theorem withoutSequences_nil : withoutSequences [] = [] :=
  Pattern.gaps_nil

theorem withoutSequences_append_of_not_mem {a : Text} (h : '\x1b' ∉ a) (b : Text) :
    withoutSequences (a ++ b) = a ++ withoutSequences b :=
  Pattern.gaps_append_of_not_mem Sgr.begins h b

theorem withoutSequences_eq_self {s : Text} (h : '\x1b' ∉ s) : withoutSequences s = s := by
  simpa using withoutSequences_append_of_not_mem h []

theorem withoutSequences_append_cons {c : Char} (hc : Sgr.Ends c) (a b : Text) :
    withoutSequences (a ++ c :: b) = withoutSequences a ++ withoutSequences (c :: b) :=
  Pattern.gaps_append (Sgr.parts_cons hc a b)

theorem withoutSequences_sources_append (qs : List Sgr) (s : Text) :
    withoutSequences (Sgr.sources qs ++ s) = withoutSequences s := by
  induction qs with
  | nil => rfl
  | cons q qs ih =>
    rw [Sgr.sources, List.flatMap_cons, List.append_assoc]
    exact (Pattern.gaps_of_front? (q.front?_source_append _)).trans ih

end HtmlHighlight.Ansi
