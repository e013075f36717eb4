/-!
# Texts

A text is the list of its characters. Two ways of reading one are used throughout: `Text.after?` reads a
fixed opening and `Text.cutAt?` looks for the first occurrence of a mark.

* `Text.after?_eq_some_iff`: an opening is read exactly when the text starts with it.
* `Text.eq_append_of_cutAt?`: a cut loses nothing but the mark it stands at.
* `Text.cutAt?_eq_none_iff`: there is no cut exactly when the mark does not occur.
-/

namespace HtmlHighlight

/-- A text is the list of its characters, each a Unicode scalar value. -/
abbrev Text := List Char

namespace Text

/-- The number of bytes a text takes in UTF-8. -/
def byteSize (s : Text) : Nat :=
  s.foldr (fun c n => c.utf8Size + n) 0

@[simp] theorem byteSize_nil : byteSize [] = 0 := rfl

@[simp] theorem byteSize_cons (c : Char) (s : Text) : byteSize (c :: s) = c.utf8Size + byteSize s := rfl

@[simp] theorem byteSize_append (s t : Text) : byteSize (s ++ t) = byteSize s + byteSize t := by
  induction s with
  | nil => simp
  | cons c s ih => rw [List.cons_append, byteSize_cons, byteSize_cons, ih, Nat.add_assoc]

/-- A number in decimal digits. -/
def ofNat (n : Nat) : Text :=
  Nat.toDigits 10 n

/-- What stands after `opening` in a text that starts with it. -/
def after? : (opening s : Text) → Option Text
  | [], s => some s
  | _ :: _, [] => none
  | c :: opening, d :: s => if c = d then after? opening s else none

theorem after?_eq_some_iff {opening s rest : Text} :
    after? opening s = some rest ↔ s = opening ++ rest := by
  fun_induction after? opening s with
  | case1 s => simp
  | case2 c opening => simp
  | case3 c opening s ih => simp [ih]
  | case4 c opening d s h => simp [Ne.symm h]

@[simp] theorem after?_append (opening rest : Text) : after? opening (opening ++ rest) = some rest :=
  after?_eq_some_iff.2 rfl

/-- What stands before and what stands after the first occurrence of `mark`. -/
def cutAt? (mark : Text) : Text → Option (Text × Text)
  | [] => if mark = [] then some ([], []) else none
  | c :: s =>
    match after? mark (c :: s) with
    | some rest => some ([], rest)
    | none => (cutAt? mark s).map fun (before, rest) => (c :: before, rest)

theorem eq_append_of_cutAt? {mark s before rest : Text} (h : cutAt? mark s = some (before, rest)) :
    s = before ++ mark ++ rest := by
  induction s generalizing before with
  | nil =>
    by_cases hm : mark = [] <;> simp_all [cutAt?]
  | cons c s ih =>
    rw [cutAt?] at h
    split at h
    next r hr =>
      cases h
      simpa using after?_eq_some_iff.1 hr
    next =>
      obtain ⟨⟨b, r⟩, hb, he⟩ := Option.map_eq_some_iff.1 h
      cases he
      simp [ih hb]

theorem cutAt?_eq_none_iff {mark s : Text} : cutAt? mark s = none ↔ ¬ mark <:+: s := by
  induction s with
  | nil => by_cases hm : mark = [] <;> simp [cutAt?, hm]
  | cons c s ih =>
    rw [cutAt?, List.infix_cons_iff]
    split
    next r hr => simp [after?_eq_some_iff.1 hr]
    next hn =>
      have : ¬ mark <+: c :: s := by
        rintro ⟨r, hr⟩
        simp [← hr] at hn
      simp [ih, this]

end Text

end HtmlHighlight
