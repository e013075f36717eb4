import HtmlHighlight.CommandLine.Run
import HtmlHighlight.Proofs.Passes
import HtmlHighlight.Proofs.StylingPlaces

/-!
# Coloured and plain previews

What a reader sees of a text on a terminal (`visible`) stays the same if control sequences are put in at a
place where the text may be cut (`visible_sources_append`): at such a place no entity and no other sequence
goes on. All places where the passes put sequences are of this kind, since there the text before closes or the
text after opens (`Opens`, `Closes`). So no pass changes what is seen
(`Renderer.EnclosesInSequences.stylesAtCuts`), and the coloured preview and the plain one show the same
(`Renderer.withoutSequences_highlight`).
-/

namespace HtmlHighlight

open Ansi (Sgr withoutSequences)

/-- What is seen of a text once its entities are read back: all but the control sequences. -/
def visible (s : Text) : Text :=
  withoutSequences (Entity.decode s)

/-! ## Where a text may be cut -/

/-- A text may be cut before `s`, whatever else stands before and after it. -/
def Opens (s : Text) : Prop :=
  ∀ a b, visible (a ++ (s ++ b)) = visible a ++ visible (s ++ b)

/-- A text may be cut after `s`, whatever else stands before and after it. -/
def Closes (s : Text) : Prop :=
  ∀ a b, visible (a ++ (s ++ b)) = visible (a ++ s) ++ visible b

theorem visible_append_cons {c : Char} (hc : Breaks c) (a b : Text) :
    visible (a ++ c :: b) = visible a ++ visible (c :: b) := by
  obtain ⟨d, t, hd, hdc⟩ := Entity.exists_decode_cons c b
  have hends : Sgr.Ends d := by
    rcases hdc with rfl | rfl | rfl
    · exact hc.2
    · decide
    · decide
  rw [visible, visible, visible, Entity.decode_append_cons hc.1, hd, Ansi.withoutSequences_append_cons hends]

/-- Text without ampersands and control sequences is seen as it is. -/
theorem visible_append_of_not_mem {s : Text} (hamp : '&' ∉ s) (hesc : '\x1b' ∉ s) (b : Text) :
    visible (s ++ b) = s ++ visible b := by
  rw [visible, Entity.decode_append_of_not_mem hamp, Ansi.withoutSequences_append_of_not_mem hesc, visible]

theorem visible_lt_append (b : Text) : visible (Entity.lt ++ b) = '<' :: visible b :=
  Ansi.withoutSequences_append_of_not_mem (a := ['<']) (by decide) (Entity.decode b)

theorem visible_gt_append (b : Text) : visible (Entity.gt ++ b) = '>' :: visible b :=
  Ansi.withoutSequences_append_of_not_mem (a := ['>']) (by decide) (Entity.decode b)

theorem opens_cons {c : Char} (hc : Breaks c) (s : Text) : Opens (c :: s) :=
  fun a b => visible_append_cons hc a (s ++ b)

/-- If a text may be cut before `s`, it is enough to look at what `s` itself is seen as. -/
theorem Opens.closes {s t : Text} (h : Opens s) (ht : ∀ b, visible (s ++ b) = t ++ visible b) : Closes s := by
  intro a b
  have hnil : visible (a ++ s) = visible a ++ visible (s ++ []) := by simpa using h a []
  rw [h, hnil, ht, ht, List.append_assoc]
  simp [visible]

theorem Closes.append_left {s : Text} (h : Closes s) (t : Text) : Closes (t ++ s) := by
  intro a b
  rw [List.append_assoc, ← List.append_assoc, h, List.append_assoc]

theorem Closes.append_of_not_mem {s t : Text} (h : Closes s) (hamp : '&' ∉ t) (hesc : '\x1b' ∉ t) :
    Closes (s ++ t) := by
  intro a b
  have hb := visible_append_of_not_mem hamp hesc
  rw [List.append_assoc, h, h, hb, ← List.append_nil t, hb]
  simp [visible]

theorem opens_lt : Opens Entity.lt :=
  opens_cons (by decide) _

theorem opens_gt : Opens Entity.gt :=
  opens_cons (by decide) _

theorem closes_lt : Closes Entity.lt :=
  opens_lt.closes (t := ['<']) visible_lt_append

theorem closes_gt : Closes Entity.gt :=
  opens_gt.closes (t := ['>']) visible_gt_append

theorem closes_singleton {c : Char} (hc : Breaks c) (hamp : c ≠ '&') (hesc : c ≠ '\x1b') : Closes [c] :=
  (opens_cons hc []).closes
    (visible_append_of_not_mem (by simpa using Ne.symm hamp) (by simpa using Ne.symm hesc))

theorem CutBefore.opens {s : Text} (h : CutBefore s) : Opens s := by
  cases h with
  | cons hc s => exact opens_cons hc s

theorem CutAfter.closes {s : Text} (h : CutAfter s) : Closes s := by
  induction h with
  | lt => exact closes_lt
  | gt => exact closes_gt
  | singleton hc hamp hesc => exact closes_singleton hc hamp hesc
  | append_left _ t ih => exact ih.append_left t
  | append_of_not_mem _ hamp hesc ih => exact ih.append_of_not_mem hamp hesc

/-! ## Putting sequences in -/

theorem visible_sources (qs : List Sgr) (s : Text) : visible (Sgr.sources qs ++ s) = visible s := by
  rw [visible, Entity.decode_append_of_not_mem (Sgr.not_mem_sources qs), Ansi.withoutSequences_sources_append]
  rfl

theorem visible_sources_append {a b : Text} (h : visible (a ++ b) = visible a ++ visible b) (qs : List Sgr) :
    visible (a ++ (Sgr.sources qs ++ b)) = visible (a ++ b) := by
  cases qs with
  | nil => rfl
  | cons q qs =>
    -- the first sequence begins with an escape, before which every text may be cut
    rw [h, ← visible_sources (q :: qs) b]
    exact visible_append_cons (c := '\x1b') (by decide) a _

namespace Renderer

/-- A renderer that puts control sequences around what it styles and reads entities back at the end. -/
structure EnclosesInSequences (r : Renderer) : Prop where
  exists_style_eq : ∀ k s, ∃ start stop, r.style k s = Sgr.sources start ++ (s ++ Sgr.sources stop)
  finish_eq : r.finish = Entity.decode

theorem enclosesInSequences_terminal : terminal.EnclosesInSequences where
  exists_style_eq k s := by
    have hcolour : ∀ c, Ansi.colour c s =
        Sgr.sources [.ofRenditions c.renditions] ++ (s ++ Sgr.sources [.ofRenditions [39]]) := by
      intro c
      simp [Ansi.colour, Ansi.enclose, Sgr.sources, Sgr.source_ofRenditions]
    have hemphasis : ∀ l c, Ansi.enclose l [0] (Ansi.colour c s) =
        Sgr.sources [.ofRenditions l, .ofRenditions c.renditions] ++
          (s ++ Sgr.sources [.ofRenditions [39], .ofRenditions [0]]) := by
      intro l c
      simp [Ansi.colour, Ansi.enclose, Sgr.sources, Sgr.source_ofRenditions]
    cases k with
    | tagName => exact ⟨_, _, hemphasis _ _⟩
    | comment => exact ⟨_, _, hemphasis _ _⟩
    | tag => exact ⟨_, _, hcolour _⟩
    | attributeName => exact ⟨_, _, hcolour _⟩
    | attributeValue => exact ⟨_, _, hcolour _⟩
    | equalSign => exact ⟨_, _, hcolour _⟩
    | text => exact ⟨_, _, hcolour _⟩
  finish_eq := rfl

variable {r : Renderer}

/-- What is seen of a text is kept where a piece of it is styled between two places where it may be cut. -/
theorem EnclosesInSequences.stylesAtCuts (hr : r.EnclosesInSequences) :
    r.StylesAtCuts fun u s => visible u = visible s where
  refl _ := rfl
  trans h h' := h.trans h'
  style k {x s y} hx hy := by
    obtain ⟨start, stop, he⟩ := hr.exists_style_eq k s
    have hstart : ∀ t, visible (x ++ (s ++ t)) = visible x ++ visible (s ++ t) := by
      intro t
      rcases hx with hx | hs
      · exact hx.closes [] _
      · exact hs.opens x t
    have hstop : visible (x ++ s ++ y) = visible (x ++ s) ++ visible y := by
      rcases hy with hs | hy
      · exact hs.closes [] y
      · simpa using hy.opens (x ++ s) []
    calc visible (x ++ (r.style k s ++ y))
        = visible (x ++ (Sgr.sources start ++ (s ++ (Sgr.sources stop ++ y)))) := by
          rw [he]
          simp only [List.append_assoc]
      _ = visible (x ++ (s ++ (Sgr.sources stop ++ y))) := visible_sources_append (hstart _) start
      _ = visible (x ++ s ++ (Sgr.sources stop ++ y)) := by simp only [List.append_assoc]
      _ = visible (x ++ s ++ y) := visible_sources_append hstop stop
      _ = visible (x ++ (s ++ y)) := by simp only [List.append_assoc]

/-! ## The previews -/

theorem plainPreview_eq_decode (source : Text) : plainPreview source = Entity.decode source.unindent := by
  rw [plainPreview, highlight_plain, prepare, Entity.decode_encode_eq]

/-- A source without escape characters has none in its plain preview. -/
theorem not_mem_plainPreview {source : Text} (h : '\x1b' ∉ source) : '\x1b' ∉ plainPreview source := by
  rw [plainPreview_eq_decode, ← List.count_eq_zero, Entity.count_decode (by decide), List.count_eq_zero]
  exact fun hm => h (Text.mem_of_mem_unindent (by decide) hm)

/-- Taking the control sequences out of a source that is highlighted with them leaves its plain preview. -/
theorem EnclosesInSequences.withoutSequences_eq (hr : r.EnclosesInSequences) {source : Text}
    (h : '\x1b' ∉ source) : withoutSequences (r.highlight source) = plainPreview source := by
  calc withoutSequences (r.highlight source)
      = visible (r.mark (prepare source)) := by rw [highlight, hr.finish_eq, visible]
    _ = visible (prepare source) := hr.stylesAtCuts.mark _
    _ = withoutSequences (plainPreview source) := by rw [visible, plainPreview, highlight_plain]
    _ = plainPreview source := Ansi.withoutSequences_eq_self (not_mem_plainPreview h)

/-- The coloured preview of a source without escape characters is its plain preview with control sequences put
in, and both read the entities of the unindented source back. Each of them is written to standard output as a line.
That holds of every renderer that puts control sequences before and after what it styles. -/
theorem withoutSequences_highlight (source : Text) (h : '\x1b' ∉ source) :
    withoutSequences (terminal.highlight source) = plainPreview source ∧
    plainPreview source = Entity.decode source.unindent ∧
    (CommandLine.writePreview false source).output = CommandLine.asLine (plainPreview source) ∧
    (CommandLine.writePreview true source).output = CommandLine.asLine (terminal.highlight source) ∧
    withoutSequences (CommandLine.writePreview true source).output = CommandLine.asLine (plainPreview source) ∧
    ∀ r : Renderer, r.EnclosesInSequences → withoutSequences (r.highlight source) = plainPreview source := by
  have hterminal := enclosesInSequences_terminal.withoutSequences_eq h
  refine ⟨hterminal, plainPreview_eq_decode source, rfl, rfl, ?_, fun r hr => hr.withoutSequences_eq h⟩
  show withoutSequences (terminal.highlight source ++ ['\n']) = plainPreview source ++ ['\n']
  rw [Ansi.withoutSequences_append_cons (by decide), hterminal, Ansi.withoutSequences_eq_self (by decide)]

theorem withoutSequences_highlight_nested :
    '\x1b' ∉ "<!-- <a b='&gt;'> -->\n<p c>x &lt; y</p>&amp;lt;<br/>".toList ∧
    withoutSequences (terminal.highlight "<!-- <a b='&gt;'> -->\n<p c>x &lt; y</p>&amp;lt;<br/>".toList) =
      plainPreview "<!-- <a b='&gt;'> -->\n<p c>x &lt; y</p>&amp;lt;<br/>".toList := by
  have h : '\x1b' ∉ "<!-- <a b='&gt;'> -->\n<p c>x &lt; y</p>&amp;lt;<br/>".toList := by decide
  exact ⟨h, (withoutSequences_highlight _ h).1⟩

end Renderer

end HtmlHighlight
