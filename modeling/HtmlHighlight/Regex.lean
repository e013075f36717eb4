import HtmlHighlight.Pattern

/-!
# Regular expressions

An expression reads a text off the front of another, often in several ways. `Regex.ways` lists them in the order in
which they are preferred: the first of two alternatives before the second, an optional part before its absence, more
repetitions before fewer, or fewer before more where the repetition is lazy. The match at a place is the way that
stands first, as it is for a search that tries one way after the other and takes the first that leads to the end.

* `Regex.eq_append_of_mem_ways`: what is read and what is left are the text, in every way.
* `Regex.pattern`: an expression as a pattern, so that `Pattern.segments` is the search for it.
-/

namespace HtmlHighlight

/-- A regular expression, with repetition of a class of characters only. -/
inductive Regex where
  /-- A fixed text. -/
  | text (t : Text)
  /-- One character of a class. -/
  | oneOf (f : Char → Bool)
  /-- Any number of characters of a class, as many as possible or, if lazy, as few as possible. -/
  | many (isLazy : Bool) (f : Char → Bool)
  | seq (a b : Regex)
  | alt (a b : Regex)
  | optional (a : Regex)
  /-- A part of which the text is kept. -/
  | group (a : Regex)

namespace Regex

/-- At least one character of a class. -/
def atLeastOne (isLazy : Bool) (f : Char → Bool) : Regex :=
  seq (oneOf f) (many isLazy f)

/-- The number of groups in an expression. -/
def groupCount : Regex → Nat
  | text _ | oneOf _ | many _ _ => 0
  | seq a b | alt a b => groupCount a + groupCount b
  | optional a => groupCount a
  | group a => groupCount a + 1

/-- One way of reading the front of a text. -/
structure Way where
  /-- The characters that are read. -/
  matched : Text
  /-- The text of each group in the order in which the groups open; a group that takes no part has none. -/
  groups : List (Option Text)
  /-- The text that is left. -/
  rest : Text
  deriving DecidableEq, Repr

/-- One way after another. -/
def Way.append (x y : Way) : Way :=
  ⟨x.matched ++ y.matched, x.groups ++ y.groups, y.rest⟩

/-- The cuts of a text after characters of a class, the earliest first. -/
def cuts (f : Char → Bool) : Text → List (Text × Text)
  | [] => [([], [])]
  | c :: s => ([], c :: s) :: if f c then (cuts f s).map fun (x, rest) => (c :: x, rest) else []

/-- The ways in which an expression reads the front of a text, the most preferred first. -/
def ways : Regex → Text → List Way
  | text t, s => (Text.after? t s).toList.map fun rest => ⟨t, [], rest⟩
  | oneOf _, [] => []
  | oneOf f, c :: s => if f c then [⟨[c], [], s⟩] else []
  | many isLazy f, s =>
    (if isLazy then cuts f s else (cuts f s).reverse).map fun (x, rest) => ⟨x, [], rest⟩
  | seq a b, s => (ways a s).flatMap fun x => (ways b x.rest).map x.append
  | alt a b, s =>
    (ways a s).map (fun x => { x with groups := x.groups ++ List.replicate b.groupCount none }) ++
      (ways b s).map fun x => { x with groups := List.replicate a.groupCount none ++ x.groups }
  | optional a, s => ways a s ++ [⟨[], List.replicate a.groupCount none, s⟩]
  | group a, s => (ways a s).map fun x => { x with groups := some x.matched :: x.groups }

theorem eq_append_of_mem_cuts {f : Char → Bool} {s x rest : Text} (h : (x, rest) ∈ cuts f s) :
    s = x ++ rest ∧ ∀ c ∈ x, f c = true := by
  induction s generalizing x with
  | nil =>
    obtain ⟨rfl, rfl⟩ : x = [] ∧ rest = [] := by simpa [cuts] using h
    simp
  | cons c s ih =>
    rw [cuts, List.mem_cons] at h
    rcases h with he | h
    · cases he
      simp
    · split at h
      next hc =>
        obtain ⟨⟨y, r⟩, hy, he⟩ := List.mem_map.1 h
        cases he
        obtain ⟨rfl, hall⟩ := ih hy
        exact ⟨rfl, List.forall_mem_cons.2 ⟨hc, hall⟩⟩
      next => cases h

/-- In every way, what is read and what is left are the text. -/
theorem eq_append_of_mem_ways {e : Regex} {s : Text} {x : Way} (h : x ∈ e.ways s) : s = x.matched ++ x.rest := by
  induction e generalizing s x with
  | text t =>
    obtain ⟨rest, hr, rfl⟩ := List.mem_map.1 h
    exact Text.after?_eq_some_iff.1 (Option.mem_toList.1 hr)
  | oneOf f =>
    cases s with
    | nil => cases h
    | cons c s =>
      rw [ways] at h
      split at h
      next =>
        cases List.mem_singleton.1 h
        rfl
      next => cases h
  | many isLazy f =>
    rw [ways] at h
    obtain ⟨⟨y, rest⟩, hy, rfl⟩ := List.mem_map.1 h
    have hc : (y, rest) ∈ cuts f s := by
      split at hy
      · exact hy
      · exact List.mem_reverse.1 hy
    exact (eq_append_of_mem_cuts hc).1
  | seq a b iha ihb =>
    rw [ways] at h
    obtain ⟨y, hy, hx⟩ := List.mem_flatMap.1 h
    obtain ⟨z, hz, rfl⟩ := List.mem_map.1 hx
    rw [Way.append, List.append_assoc, ← ihb hz]
    exact iha hy
  | alt a b iha ihb =>
    rw [ways] at h
    rcases List.mem_append.1 h with h | h
    · obtain ⟨y, hy, rfl⟩ := List.mem_map.1 h
      exact show s = y.matched ++ y.rest from iha hy
    · obtain ⟨y, hy, rfl⟩ := List.mem_map.1 h
      exact show s = y.matched ++ y.rest from ihb hy
  | optional a ih =>
    rw [ways] at h
    rcases List.mem_append.1 h with h | h
    · exact ih h
    · cases List.mem_singleton.1 h
      rfl
  | group a ih =>
    rw [ways] at h
    obtain ⟨y, hy, rfl⟩ := List.mem_map.1 h
    exact show s = y.matched ++ y.rest from ih hy

/-- What an expression matches where a search finds it: one character at least, and the texts of its groups. -/
structure Match where
  matched : Text
  groups : List (Option Text)
  matched_ne_nil : matched ≠ []

/-- The match of an expression at the front of a text and the text after it. An empty match counts as none. -/
def front? (e : Regex) (s : Text) : Option (Match × Text) :=
  (e.ways s).head?.bind fun x =>
    if h : x.matched = [] then none else some (⟨x.matched, x.groups, h⟩, x.rest)

theorem eq_append_of_front? {e : Regex} {s : Text} {m : Match} {rest : Text} (h : e.front? s = some (m, rest)) :
    s = m.matched ++ rest := by
  obtain ⟨x, hx, hm⟩ := Option.bind_eq_some_iff.1 h
  split at hm
  next => cases hm
  next =>
    cases hm
    exact eq_append_of_mem_ways (List.mem_of_head? hx)

/-- An expression as a pattern. -/
def pattern (e : Regex) : Pattern Match where
  front? := e.front?
  source := Match.matched
  source_ne_nil := Match.matched_ne_nil
  eq_append := eq_append_of_front?

end Regex

end HtmlHighlight
