import HtmlHighlight.Proofs.Passes
import HtmlHighlight.Regex

/-!
# Matching a regular expression step by step

The first of the ways in which an expression reads a text is found by trying one part of the expression after
another: `Regex.tryWays e s k` is what `k` makes of the first way of `e` from which it can go on. Each kind of
expression has its equation. A repetition is left where its class ends, unless it can be left before
(`tryWays_many`, `tryWays_atLeastOne`).

`Regex.replace_eq_replace` compares an expression with a reader that takes the first way.
-/

namespace HtmlHighlight

namespace Regex

variable {β : Type}

/-- What `k` makes of the first way of reading from which it can go on. -/
def tryWays (e : Regex) (s : Text) (k : Way → Option β) : Option β :=
  (e.ways s).findSome? k

theorem head?_ways (e : Regex) (s : Text) : (e.ways s).head? = e.tryWays s some := by
  rw [tryWays]
  cases e.ways s <;> rfl

theorem tryWays_text (t s : Text) (k : Way → Option β) :
    (text t).tryWays s k = (Text.after? t s).bind fun rest => k ⟨t, [], rest⟩ := by
  rw [tryWays, ways]
  cases Text.after? t s <;> simp

theorem map_tryWays {γ : Type} (e : Regex) (s : Text) (k : Way → Option β) (g : β → γ) :
    (e.tryWays s k).map g = e.tryWays s fun x => (k x).map g := by
  rw [tryWays, tryWays, List.map_findSome?]
  rfl

theorem findSome?_flatMap {α γ : Type} (l : List α) (g : α → List γ) (k : γ → Option β) :
    (l.flatMap g).findSome? k = l.findSome? fun x => (g x).findSome? k := by
  induction l with
  | nil => rfl
  | cons x l ih =>
    rw [List.flatMap_cons, List.findSome?_append, ih, List.findSome?_cons]
    cases (g x).findSome? k <;> rfl

theorem tryWays_seq (a b : Regex) (s : Text) (k : Way → Option β) :
    (seq a b).tryWays s k = a.tryWays s fun x => b.tryWays x.rest fun y => k (x.append y) := by
  rw [tryWays, tryWays, ways, findSome?_flatMap]
  simp only [tryWays, List.findSome?_map, Function.comp_def]

theorem tryWays_alt (a b : Regex) (s : Text) (k : Way → Option β) :
    (alt a b).tryWays s k =
      (a.tryWays s fun x => k { x with groups := x.groups ++ List.replicate b.groupCount none }).or
        (b.tryWays s fun x => k { x with groups := List.replicate a.groupCount none ++ x.groups }) := by
  rw [tryWays, ways, List.findSome?_append, List.findSome?_map, List.findSome?_map]
  rfl

theorem tryWays_optional (a : Regex) (s : Text) (k : Way → Option β) :
    (optional a).tryWays s k = (a.tryWays s k).or (k ⟨[], List.replicate a.groupCount none, s⟩) := by
  rw [tryWays, ways, List.findSome?_append, List.findSome?_singleton]
  rfl

theorem tryWays_group (a : Regex) (s : Text) (k : Way → Option β) :
    (group a).tryWays s k = a.tryWays s fun x => k { x with groups := some x.matched :: x.groups } := by
  rw [tryWays, ways, List.findSome?_map]
  rfl

/-- The last cut is where the class ends, and after each other one a character of the class follows. -/
theorem exists_cuts_eq (f : Char → Bool) (s : Text) :
    ∃ early, cuts f s = early ++ [(s.takeWhile f, s.dropWhile f)] ∧
      ∀ q ∈ early, ∃ c rest, q.2 = c :: rest ∧ f c = true ∧ s = q.1 ++ c :: rest ∧ ∀ d ∈ q.1, f d = true := by
  induction s with
  | nil => exact ⟨[], rfl, by simp⟩
  | cons c s ih =>
    by_cases hc : f c = true
    · obtain ⟨early, he, hearly⟩ := ih
      refine ⟨([], c :: s) :: early.map fun q => (c :: q.1, q.2), ?_, ?_⟩
      · rw [cuts, if_pos hc, he, List.takeWhile_cons_of_pos hc, List.dropWhile_cons_of_pos hc, List.map_append]
        rfl
      · rw [List.forall_mem_cons, List.forall_mem_map]
        refine ⟨⟨c, s, rfl, hc, rfl, by simp⟩, fun q hq => ?_⟩
        obtain ⟨d, rest, hrest, hd, rfl, hall⟩ := hearly q hq
        exact ⟨d, rest, hrest, hd, rfl, List.forall_mem_cons.2 ⟨hc, hall⟩⟩
    · refine ⟨[], ?_, by simp⟩
      rw [cuts, if_neg hc, List.takeWhile_cons_of_neg hc, List.dropWhile_cons_of_neg hc]
      rfl

/-- From no place before a character of the class can `k` go on, as long as only such characters are read. -/
def HoldsOn (f : Char → Bool) (s : Text) (k : Way → Option β) : Prop :=
  ∀ x c rest, s = x ++ c :: rest → (∀ d ∈ x, f d = true) → f c = true → k ⟨x, [], c :: rest⟩ = none

/-- A repetition that cannot be left before a character of its class is left where the class ends. If it takes as
much as possible, this has to be known only when it cannot be left where the class ends. -/
theorem tryWays_many {isLazy : Bool} {f : Char → Bool} {s : Text} {k : Way → Option β}
    (h : isLazy = true ∨ k ⟨s.takeWhile f, [], s.dropWhile f⟩ = none → HoldsOn f s k) :
    (many isLazy f).tryWays s k = k ⟨s.takeWhile f, [], s.dropWhile f⟩ := by
  obtain ⟨early, hs, hearly⟩ := exists_cuts_eq f s
  have hnone (hh : HoldsOn f s k) : ∀ q ∈ early, (k ∘ fun q => ⟨q.1, [], q.2⟩) q = none := by
    intro q hq
    obtain ⟨c, rest, hq2, hc, hsq, hall⟩ := hearly q hq
    rw [Function.comp_apply, hq2]
    exact hh q.1 c rest hsq hall hc
  rw [tryWays, ways, List.findSome?_map]
  cases isLazy with
  | true =>
    rw [if_pos rfl, hs, List.findSome?_append, List.findSome?_eq_none_iff.2 (hnone (h (.inl rfl))),
      Option.none_or, List.findSome?_singleton]
    rfl
  | false =>
    rw [if_neg Bool.false_ne_true, hs, List.reverse_concat, List.findSome?_cons, Function.comp_apply]
    cases hk : k ⟨s.takeWhile f, [], s.dropWhile f⟩ with
    | some b => rfl
    | none => exact List.findSome?_eq_none_iff.2 fun q hq => hnone (h (.inr hk)) q (List.mem_reverse.1 hq)

/-- The same for at least one character of a class. -/
theorem tryWays_atLeastOne {isLazy : Bool} {f : Char → Bool} {s : Text} {k : Way → Option β}
    (h : isLazy = true ∨ k ⟨s.takeWhile f, [], s.dropWhile f⟩ = none → HoldsOn f s k) :
    (atLeastOne isLazy f).tryWays s k =
      if s.takeWhile f = [] then none else k ⟨s.takeWhile f, [], s.dropWhile f⟩ := by
  rw [atLeastOne, tryWays_seq, tryWays, ways.eq_def]
  cases s with
  | nil => rfl
  | cons c s =>
    by_cases hc : f c = true
    · rw [List.takeWhile_cons_of_pos hc, List.dropWhile_cons_of_pos hc] at h ⊢
      rw [if_neg (List.cons_ne_nil _ _)]
      simp only [if_pos hc, List.findSome?_singleton]
      refine tryWays_many fun hk x d u hu hall hd => ?_
      exact h hk (c :: x) d u (by rw [hu, List.cons_append]) (List.forall_mem_cons.2 ⟨hc, hall⟩) hd
    · simp [hc]

/-- A greedy repetition goes on if it can be left later, and else is left at once. -/
theorem tryWays_greedy_cons (f : Char → Bool) (c : Char) (s : Text) (k : Way → Option β) :
    (many false f).tryWays (c :: s) k =
      (if f c then (many false f).tryWays s fun x => k { x with matched := c :: x.matched } else none).or
        (k ⟨[], [], c :: s⟩) := by
  rw [tryWays, tryWays, ways, ways, if_neg Bool.false_ne_true, if_neg Bool.false_ne_true, cuts, List.reverse_cons,
    List.map_append, List.findSome?_append, List.map_singleton, List.findSome?_singleton]
  cases f c with
  | true => simp only [if_true, ← List.map_reverse, List.findSome?_map, Function.comp_def]
  | false => rfl

/-- A lazy repetition of all characters is left at once if it can be, and else goes on. -/
theorem tryWays_lazy_cons (c : Char) (s : Text) (k : Way → Option β) :
    (many true fun _ => true).tryWays (c :: s) k =
      (k ⟨[], [], c :: s⟩).or
        ((many true fun _ => true).tryWays s fun x => k { x with matched := c :: x.matched }) := by
  rw [tryWays, tryWays, ways, ways, if_pos rfl, if_pos rfl, cuts, if_pos rfl, List.map_cons, List.findSome?_cons]
  cases k ⟨[], [], c :: s⟩ <;> simp [List.findSome?_map, Function.comp_def]

/-- What is read lazily up to a fixed text is all before the first occurrence of that text. -/
theorem tryWays_lazy_text (t s : Text) (h : Way → Way → β) :
    (many true fun _ => true).tryWays s (fun x => (text t).tryWays x.rest fun y => some (h x y)) =
      (Text.cutAt? t s).map fun (before, rest) => h ⟨before, [], t ++ rest⟩ ⟨t, [], rest⟩ := by
  induction s generalizing h with
  | nil => cases t <;> rfl
  | cons c s ih =>
    rw [tryWays_lazy_cons, tryWays_text, Text.cutAt?]
    cases ha : Text.after? t (c :: s) with
    | some rest =>
      rw [Text.after?_eq_some_iff.1 ha]
      rfl
    | none =>
      have hrec := ih fun x => h { x with matched := c :: x.matched }
      rw [Option.bind_none, Option.none_or, hrec, Option.map_map]
      rfl

/-! ## An expression and a reader for it -/

variable {α : Type} {p : Pattern α} {e : Regex} {toMatch : α → Match}

theorem pattern_front?_eq
    (h : ∀ s, (e.ways s).head? = (p.front? s).map fun (m, rest) =>
      ⟨(toMatch m).matched, (toMatch m).groups, rest⟩) (s : Text) :
    e.pattern.front? s = (p.front? s).map fun (m, rest) => (toMatch m, rest) := by
  show e.front? s = _
  rw [front?, h]
  cases p.front? s with
  | none => rfl
  | some f =>
    rw [Option.map_some, Option.bind_some, dif_neg (toMatch f.1).matched_ne_nil]
    rfl

/-- A reader that takes the first of the ways in which an expression reads a text replaces what it finds as the
matches of the expression are replaced. -/
theorem replace_eq_replace (toMatch : α → Match)
    (h : ∀ s, (e.ways s).head? = (p.front? s).map fun (m, rest) =>
      ⟨(toMatch m).matched, (toMatch m).groups, rest⟩)
    {write : α → Text} {write' : Match → Text} (hw : ∀ m, write' (toMatch m) = write m) (s : Text) :
    e.pattern.replace write' s = p.replace write s := by
  induction s using p.segments_induction with
  | nil => rw [p.replace_nil, e.pattern.replace_nil]
  | hit s m rest hf ih =>
    have he : e.pattern.front? s = some (toMatch m, rest) := by
      rw [pattern_front?_eq h, hf]
      rfl
    rw [p.replace_of_front? write hf, e.pattern.replace_of_front? write' he, hw, ih]
  | gap c s hf ih =>
    have he : e.pattern.front? (c :: s) = none := by
      rw [pattern_front?_eq h, hf]
      rfl
    rw [p.replace_of_front?_eq_none write hf, e.pattern.replace_of_front?_eq_none write' he, ih]

end Regex

end HtmlHighlight
