import HtmlHighlight.Proofs.EntityPair
import HtmlHighlight.Proofs.Preview

/-!
# The state a terminal is left in

A terminal carries out the renditions of a text from the left (`Ansi.renditions`, `Ansi.State.run`). What closes an
effect closes more than that: the default foreground clears the colour whoever set it, and a reset clears all. So an
effect put around a piece of a text that has sequences of its own may change what the text leaves set, but only one
way: what is set at the end is set without the effect too, and to the same (`Ansi.State.Within`,
`Ansi.Effect.run_enclose_within`).

Each piece is styled where the text may be cut, so this goes for all that the passes style
(`Renderer.StacksEffects.stylesAtCuts`), and a source without escape characters, which sets nothing, leaves nothing set
once it is highlighted (`Renderer.stateAfter_highlight`).
-/

namespace HtmlHighlight

namespace Ansi

/-- What control sequences change in the state of a terminal. -/
inductive Rendition where
  | foreground (c : Colour)
  | defaultForeground
  | bold
  | italic
  | reset
  deriving DecidableEq, Repr

namespace Rendition

/-- The rendition that a number stands for by itself. -/
def ofNumber? : Nat → Option Rendition
  | 0 => some reset
  | 1 => some bold
  | 3 => some italic
  | 39 => some defaultForeground
  | 91 => some (foreground .brightRed)
  | 97 => some (foreground .brightWhite)
  | _ => none

/-- The renditions that the numbers of a sequence stand for, those of a colour together. Other numbers are passed
over. -/
def ofNumbers : List Nat → List Rendition
  | [] => []
  | 38 :: 2 :: red :: green :: blue :: l =>
    foreground (.rgb red.toUInt8 green.toUInt8 blue.toUInt8) :: ofNumbers l
  | n :: l => (ofNumber? n).toList ++ ofNumbers l

theorem ofNumbers_colour (c : Colour) : ofNumbers c.renditions = [foreground c] := by
  cases c with
  | rgb red green blue => simp [Colour.renditions, ofNumbers]
  | brightRed => rfl
  | brightWhite => rfl

end Rendition

/-- How a terminal shows text. -/
structure State where
  /-- The foreground colour, if it is not the default one. -/
  foreground? : Option Colour := none
  bold : Bool := false
  italic : Bool := false
  deriving DecidableEq, Repr

namespace State

/-- The state after a rendition. -/
def step (s : State) : Rendition → State
  | .foreground c => { s with foreground? := some c }
  | .defaultForeground => { s with foreground? := none }
  | .bold => { s with bold := true }
  | .italic => { s with italic := true }
  | .reset => {}

/-- The state after renditions one after the other. -/
def run (s : State) (l : List Rendition) : State :=
  l.foldl step s

@[simp] theorem run_nil (s : State) : s.run [] = s := rfl

@[simp] theorem run_cons (s : State) (r : Rendition) (l : List Rendition) : s.run (r :: l) = (s.step r).run l := rfl

@[simp] theorem run_append (s : State) (l k : List Rendition) : s.run (l ++ k) = (s.run l).run k :=
  List.foldl_append

/-- All that is set in one state is set in the other one, and to the same. -/
structure Within (s t : State) : Prop where
  foreground : s.foreground? = none ∨ s.foreground? = t.foreground?
  bold : s.bold = false ∨ s.bold = t.bold
  italic : s.italic = false ∨ s.italic = t.italic

namespace Within

variable {s t u : State}

theorem refl (s : State) : s.Within s :=
  ⟨.inr rfl, .inr rfl, .inr rfl⟩

theorem trans (h : s.Within t) (h' : t.Within u) : s.Within u where
  foreground := h.foreground.elim .inl fun he => he ▸ h'.foreground
  bold := h.bold.elim .inl fun he => he ▸ h'.bold
  italic := h.italic.elim .inl fun he => he ▸ h'.italic

theorem of_default (s : State) : ({} : State).Within s :=
  ⟨.inl rfl, .inl rfl, .inl rfl⟩

theorem eq_default (h : s.Within {}) : s = {} := by
  obtain ⟨foreground?, bold, italic⟩ := s
  obtain ⟨hf, hb, hi⟩ := h
  simp only [or_self] at hf hb hi
  rw [hf, hb, hi]

theorem step (h : s.Within t) (r : Rendition) : (s.step r).Within (t.step r) := by
  cases r with
  | foreground c => exact ⟨.inr rfl, h.bold, h.italic⟩
  | defaultForeground => exact ⟨.inl rfl, h.bold, h.italic⟩
  | bold => exact ⟨h.foreground, .inr rfl, h.italic⟩
  | italic => exact ⟨h.foreground, h.bold, .inr rfl⟩
  | reset => exact of_default _

theorem run (h : s.Within t) (l : List Rendition) : (s.run l).Within (t.run l) := by
  induction l generalizing s t with
  | nil => exact h
  | cons r l ih => exact ih (h.step r)

end Within

/-- Weight and slant do not depend on the colour that is set before. -/
theorem emphasis_run {s t : State} (hb : s.bold = t.bold) (hi : s.italic = t.italic) (l : List Rendition) :
    (s.run l).bold = (t.run l).bold ∧ (s.run l).italic = (t.run l).italic := by
  induction l generalizing s t with
  | nil => exact ⟨hb, hi⟩
  | cons r l ih =>
    cases r with
    | foreground c => exact ih hb hi
    | defaultForeground => exact ih hb hi
    | bold => exact ih rfl hi
    | italic => exact ih hb rfl
    | reset => exact ih rfl rfl

end State

/-! ## The renditions of a text -/

/-- The number that digits stand for. -/
def toNumber (s : Text) : Nat :=
  Nat.ofDigitChars 10 s 0

/-- The renditions of a sequence; a number that is left out is zero. -/
def Sgr.renditions (q : Sgr) : List Rendition :=
  Rendition.ofNumbers ((q.parameters.splitOn ';').map toNumber)

theorem Sgr.renditions_ofRenditions {l : List Nat} (hl : l ≠ []) :
    (Sgr.ofRenditions l).renditions = Rendition.ofNumbers l := by
  have hparts : ∀ t ∈ l.map Text.ofNat, ';' ∉ t := by
    intro t ht hmem
    obtain ⟨n, -, rfl⟩ := List.mem_map.1 ht
    have hdigit : (';').isDigit = true := Nat.isDigit_of_mem_toDigits (by decide) (by decide) hmem
    exact absurd hdigit (by decide)
  have hsplit : (Sgr.ofRenditions l).parameters.splitOn ';' = l.map Text.ofNat :=
    List.splitOn_intercalate ';' hparts (by simpa using hl)
  have hnumbers : (l.map Text.ofNat).map toNumber = l := by
    rw [List.map_map]
    exact List.map_id'' (fun n => Nat.ofDigitChars_toDigits (by decide) (by decide)) l
  rw [Sgr.renditions, hsplit, hnumbers]

/-- The renditions of a text, as its control sequences have them. -/
def renditions (s : Text) : List Rendition :=
  (Sgr.pattern.hits s).flatMap Sgr.renditions

/-- The state of a terminal after a text that is written to it in the default state. -/
def stateAfter (s : Text) : State :=
  ({} : State).run (renditions s)

@[simp] theorem renditions_nil : renditions [] = [] := by
  simp [renditions]

theorem renditions_append_of_not_mem {a : Text} (h : '\x1b' ∉ a) (b : Text) :
    renditions (a ++ b) = renditions b := by
  rw [renditions, Pattern.hits_append_of_not_mem Sgr.begins h, renditions]

theorem renditions_of_not_mem {s : Text} (h : '\x1b' ∉ s) : renditions s = [] := by
  simpa using renditions_append_of_not_mem h []

theorem renditions_append_cons {c : Char} (hc : Sgr.Ends c) (a b : Text) :
    renditions (a ++ c :: b) = renditions a ++ renditions (c :: b) := by
  rw [renditions, Pattern.hits_append (Sgr.parts_cons hc a b), List.flatMap_append, renditions, renditions]

/-- A sequence stands for its renditions wherever it is put. -/
theorem renditions_append_source (a : Text) (q : Sgr) (b : Text) :
    renditions (a ++ (q.source ++ b)) = renditions a ++ (q.renditions ++ renditions b) := by
  have hq : renditions (q.source ++ b) = q.renditions ++ renditions b := by
    rw [renditions, Pattern.hits_of_front? (q.front?_source_append b), List.flatMap_cons, renditions]
  rw [← hq]
  exact renditions_append_cons (c := '\x1b') (by decide) a _

/-- The search for sequences may be taken up again within one, since none begins there. -/
theorem hits_cons (c : Char) (s : Text) :
    Sgr.pattern.hits (c :: s) = ((Sgr.pattern.front? (c :: s)).map Prod.fst).toList ++ Sgr.pattern.hits s := by
  cases hf : Sgr.pattern.front? (c :: s) with
  | none => exact Pattern.hits_of_front?_eq_none hf
  | some m =>
    obtain ⟨q, rest⟩ := m
    obtain ⟨-, hs⟩ := List.cons_eq_cons.1 (Sgr.pattern.eq_append hf)
    have hesc : '\x1b' ∉ '[' :: (q.parameters ++ ['m']) := by
      have hp : '\x1b' ∉ q.parameters := fun hm => absurd (q.isParameter_of_mem _ hm) (by decide)
      simp [hp]
    have hrest : Sgr.pattern.hits s = Sgr.pattern.hits rest := by
      rw [hs]
      exact Pattern.hits_append_of_not_mem Sgr.begins hesc rest
    rw [Pattern.hits_of_front? hf, hrest]
    rfl

/-- Reading entities back changes no sequence that begins in front of a text. -/
theorem front?_cons_decode (c : Char) (s : Text) : (Sgr.pattern.front? (c :: Entity.decode s)).map Prod.fst =
    (Sgr.pattern.front? (c :: s)).map Prod.fst := by
  by_cases hc : c = '\x1b'
  · subst hc
    have hd : '\x1b' :: Entity.decode s = Entity.decode ('\x1b' :: s) :=
      (Entity.decode_cons_of_ne (by decide) s).symm
    rw [hd]
    cases hf : Sgr.pattern.front? ('\x1b' :: s) with
    | some m =>
      obtain ⟨q, rest⟩ := m
      have hs : '\x1b' :: s = q.source ++ rest := Sgr.pattern.eq_append hf
      rw [hs, Entity.decode_append_of_not_mem q.not_mem_source, q.front?_source_append]
      rfl
    | none =>
      rw [Option.map_none, Option.map_eq_none_iff, Option.eq_none_iff_forall_ne_some]
      rintro ⟨q, rest⟩ hm
      -- a sequence holds no brackets, so it would stand in the text before
      have hq : q.source <+: Entity.decode ('\x1b' :: s) := ⟨rest, (Sgr.pattern.eq_append hm).symm⟩
      have hlt : '<' ∉ q.source := q.not_mem_source_of_ends (by decide) (by decide)
      have hgt : '>' ∉ q.source := q.not_mem_source_of_ends (by decide) (by decide)
      obtain ⟨rest', hr⟩ := Entity.prefix_of_prefix_decode hlt hgt hq
      rw [← hr, q.front?_source_append] at hf
      cases hf
  · rw [Sgr.begins c _ hc, Sgr.begins c _ hc]

/-- Reading entities back makes no sequence and breaks none. -/
theorem hits_decode (s : Text) : Sgr.pattern.hits (Entity.decode s) = Sgr.pattern.hits s := by
  induction s using Entity.decode_induction with
  | nil => rfl
  | lt s ih =>
    rw [Pattern.hits_append_of_not_mem Sgr.begins (by decide), ← ih]
    exact Pattern.hits_append_of_not_mem Sgr.begins (a := ['<']) (by decide) (Entity.decode s)
  | gt s ih =>
    rw [Pattern.hits_append_of_not_mem Sgr.begins (by decide), ← ih]
    exact Pattern.hits_append_of_not_mem Sgr.begins (a := ['>']) (by decide) (Entity.decode s)
  | keep c s h ih => rw [Entity.decode_of_kept h, hits_cons, hits_cons, front?_cons_decode, ih]

theorem renditions_decode (s : Text) : renditions (Entity.decode s) = renditions s := by
  rw [renditions, hits_decode, renditions]

/-! ## Effects -/

/-- What may be put around a piece of text. -/
inductive Effect where
  | foreground (c : Colour)
  | bold
  | italic
  deriving DecidableEq, Repr

namespace Effect

/-- The numbers of the sequence before the text. -/
def start : Effect → List Nat
  | foreground c => c.renditions
  | bold => [1]
  | italic => [3]

/-- The numbers of the sequence after the text: the default foreground, or a reset. -/
def stop : Effect → List Nat
  | foreground _ => [39]
  | bold => [0]
  | italic => [0]

/-- A text with an effect. -/
def around (e : Effect) (s : Text) : Text :=
  Ansi.enclose e.start e.stop s

/-- The rendition that sets the effect. -/
def opens : Effect → Rendition
  | foreground c => .foreground c
  | bold => .bold
  | italic => .italic

/-- The rendition that is carried out after the text. -/
def closes : Effect → Rendition
  | foreground _ => .defaultForeground
  | bold => .reset
  | italic => .reset

/-- The renditions of a text with effects, the first of them outermost. -/
def enclose (es : List Effect) (l : List Rendition) : List Rendition :=
  es.foldr (fun e l => e.opens :: (l ++ [e.closes])) l

theorem renditions_start (e : Effect) : (Sgr.ofRenditions e.start).renditions = [e.opens] := by
  cases e with
  | foreground c =>
    rw [Sgr.renditions_ofRenditions (by cases c <;> exact List.cons_ne_nil _ _)]
    exact Rendition.ofNumbers_colour c
  | bold => exact Sgr.renditions_ofRenditions (List.cons_ne_nil _ _)
  | italic => exact Sgr.renditions_ofRenditions (List.cons_ne_nil _ _)

theorem renditions_stop (e : Effect) : (Sgr.ofRenditions e.stop).renditions = [e.closes] := by
  cases e <;> exact Sgr.renditions_ofRenditions (List.cons_ne_nil _ _)

theorem renditions_around (a : Text) (e : Effect) (s b : Text) :
    renditions (a ++ (e.around s ++ b)) =
      renditions a ++ (e.opens :: (renditions s ++ [e.closes])) ++ renditions b := by
  have he : e.around s = (Sgr.ofRenditions e.start).source ++ (s ++ (Sgr.ofRenditions e.stop).source) := by
    simp [around, Ansi.enclose, Sgr.source_ofRenditions]
  rw [he, List.append_assoc, renditions_append_source, List.append_assoc, renditions_append_source,
    renditions_start, renditions_stop]
  simp

theorem renditions_foldr_around (es : List Effect) (s : Text) :
    renditions (es.foldr around s) = enclose es (renditions s) := by
  induction es with
  | nil => rfl
  | cons e es ih =>
    have h := renditions_around [] e (es.foldr around s) []
    simpa [ih, enclose] using h

/-- An effect around part of what a terminal carries out sets nothing at the end that is not set without it. -/
theorem run_around_within (e : Effect) (s : State) (l : List Rendition) :
    (s.run (e.opens :: (l ++ [e.closes]))).Within (s.run l) := by
  rw [State.run_cons, State.run_append, State.run_cons, State.run_nil]
  cases e with
  | foreground c =>
    obtain ⟨hb, hi⟩ := State.emphasis_run (s := s.step (.foreground c)) (t := s) rfl rfl l
    exact ⟨.inl rfl, .inr hb, .inr hi⟩
  | bold => exact .of_default _
  | italic => exact .of_default _

theorem run_enclose_within (es : List Effect) (s : State) (l : List Rendition) :
    (s.run (enclose es l)).Within (s.run l) := by
  induction es with
  | nil => exact .refl _
  | cons e es ih => exact (e.run_around_within s (enclose es l)).trans ih

end Effect

end Ansi

open Ansi (Effect Sgr State renditions stateAfter)

/-! ## Where a text may be cut -/

theorem CutBefore.renditions_append {b : Text} (h : CutBefore b) (a : Text) :
    renditions (a ++ b) = renditions a ++ renditions b := by
  cases h with
  | cons hc b => exact Ansi.renditions_append_cons hc.2 a b

/-- Such a piece ends with a character that no sequence goes on with and text behind it in which none begins. -/
theorem CutAfter.exists_eq_append {s : Text} (h : CutAfter s) :
    ∃ a c t, s = a ++ c :: t ∧ Sgr.Ends c ∧ '\x1b' ∉ c :: t := by
  induction h with
  | lt => exact ⟨[], _, _, rfl, by decide, by decide⟩
  | gt => exact ⟨[], _, _, rfl, by decide, by decide⟩
  | singleton hc _ hesc => exact ⟨[], _, [], rfl, hc.2, by simpa using Ne.symm hesc⟩
  | append_left _ u ih =>
    obtain ⟨a, c, t, rfl, hc, ht⟩ := ih
    exact ⟨u ++ a, c, t, by rw [List.append_assoc], hc, ht⟩
  | @append_of_not_mem _ u _ _ hesc ih =>
    obtain ⟨a, c, t, rfl, hc, ht⟩ := ih
    refine ⟨a, c, t ++ u, by rw [List.append_assoc, List.cons_append], hc, ?_⟩
    rw [← List.cons_append, List.mem_append, not_or]
    exact ⟨ht, hesc⟩

theorem CutAfter.renditions_append {s : Text} (h : CutAfter s) (b : Text) :
    renditions (s ++ b) = renditions s ++ renditions b := by
  obtain ⟨a, c, t, rfl, hc, ht⟩ := h.exists_eq_append
  have hb : renditions (c :: t ++ b) = renditions b := Ansi.renditions_append_of_not_mem ht b
  rw [List.append_assoc, List.cons_append, Ansi.renditions_append_cons hc, Ansi.renditions_append_cons hc,
    ← List.cons_append, hb, Ansi.renditions_of_not_mem ht, List.append_nil]

namespace Renderer

/-- A renderer that puts effects around what it styles and reads entities back at the end. -/
structure StacksEffects (r : Renderer) : Prop where
  exists_style_eq : ∀ k, ∃ es : List Effect, ∀ s, r.style k s = es.foldr Effect.around s
  finish_eq : r.finish = Entity.decode

theorem stacksEffects_terminal : terminal.StacksEffects where
  exists_style_eq
    | .tagName => ⟨[.bold, .foreground (terminalColour .tagName)], fun _ => rfl⟩
    | .comment => ⟨[.italic, .foreground (terminalColour .comment)], fun _ => rfl⟩
    | .tag => ⟨[.foreground (terminalColour .tag)], fun _ => rfl⟩
    | .attributeName => ⟨[.foreground (terminalColour .attributeName)], fun _ => rfl⟩
    | .attributeValue => ⟨[.foreground (terminalColour .attributeValue)], fun _ => rfl⟩
    | .equalSign => ⟨[.foreground (terminalColour .equalSign)], fun _ => rfl⟩
    | .text => ⟨[.foreground (terminalColour .text)], fun _ => rfl⟩
  finish_eq := rfl

variable {r : Renderer}

/-- From whatever state a terminal starts, a text with a piece styled between two places where it may be cut sets
nothing at the end that the text does not. -/
theorem StacksEffects.stylesAtCuts (hr : r.StacksEffects) :
    r.StylesAtCuts fun u s => ∀ st : State, (st.run (renditions u)).Within (st.run (renditions s)) where
  refl _ _ := .refl _
  trans h h' st := (h st).trans (h' st)
  style k {x s y} hx hy := by
    obtain ⟨es, he⟩ := hr.exists_style_eq k
    have hleft : renditions (x ++ s) = renditions x ++ renditions s := by
      rcases hx with hx | hs
      · exact hx.renditions_append s
      · exact hs.renditions_append x
    have hright : renditions (x ++ s ++ y) = renditions (x ++ s) ++ renditions y := by
      rcases hy with hs | hy
      · exact hs.renditions_append y
      · exact hy.renditions_append (x ++ s)
    have hplain : renditions (x ++ (s ++ y)) = renditions x ++ renditions s ++ renditions y := by
      rw [← List.append_assoc, hright, hleft]
    have hstyled : renditions (x ++ (r.style k s ++ y)) =
        renditions x ++ Effect.enclose es (renditions s) ++ renditions y := by
      rw [he]
      cases es with
      | nil => exact hplain
      | cons e es =>
        rw [List.foldr_cons, Effect.renditions_around, Effect.renditions_foldr_around]
        rfl
    intro st
    rw [hplain, hstyled]
    simp only [State.run_append]
    exact (Effect.run_enclose_within es _ _).run _

theorem StacksEffects.stateAfter_eq (hr : r.StacksEffects) {source : Text} (h : '\x1b' ∉ source) :
    stateAfter (r.highlight source) = {} := by
  have hhighlight : renditions (r.highlight source) = renditions (r.mark (prepare source)) := by
    rw [highlight, hr.finish_eq, Ansi.renditions_decode]
  have hsource : renditions (prepare source) = [] := by
    have hplain : renditions (plainPreview source) = renditions (prepare source) := by
      rw [plainPreview, highlight_plain, Ansi.renditions_decode]
    rw [← hplain, Ansi.renditions_of_not_mem (not_mem_plainPreview h)]
  have hwithin := hr.stylesAtCuts.mark (prepare source) {}
  rw [hsource] at hwithin
  rw [stateAfter, hhighlight]
  exact hwithin.eq_default

/-- A terminal in its default state is in it again after a source without escape characters that is highlighted for
it, whatever stands in the source. That holds of every renderer that puts effects around what it styles. -/
theorem stateAfter_highlight (source : Text) (h : '\x1b' ∉ source) :
    stateAfter (terminal.highlight source) = {} ∧
    ∀ r : Renderer, r.StacksEffects → stateAfter (r.highlight source) = {} :=
  ⟨stacksEffects_terminal.stateAfter_eq h, fun _ hr => hr.stateAfter_eq h⟩

theorem stateAfter_highlight_nested :
    '\x1b' ∉ "<!-- <b a='1'>x</b> -->\n<p c=\"<!-- y -->\">z</p><br/>".toList ∧
    terminal.StacksEffects ∧
    stateAfter (terminal.highlight "<!-- <b a='1'>x</b> -->\n<p c=\"<!-- y -->\">z</p><br/>".toList) = {} := by
  have h : '\x1b' ∉ "<!-- <b a='1'>x</b> -->\n<p c=\"<!-- y -->\">z</p><br/>".toList := by decide
  exact ⟨h, stacksEffects_terminal, (stateAfter_highlight _ h).2 terminal stacksEffects_terminal⟩

end Renderer

end HtmlHighlight
