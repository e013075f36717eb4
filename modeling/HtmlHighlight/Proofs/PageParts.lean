import HtmlHighlight.Page.Template
import HtmlHighlight.Proofs.Search

/-!
# The parts of a page

A page determines its title and its content, and its title stays between the tags it is put between
(`Page.fillIn_eq_iff_and_titleElement`). Three facts carry this:

* no bracket and no quote is written for a title (`Page.not_mem_titleText`), so the title ends at the first
  bracket after it;
* no character of a title is written as a beginning of what another one is written as
  (`Page.eq_of_prefix_titleChar`), so a title can be read back (`Page.titleText_injective`);
* an engine that substitutes once fills in the template to the text of the page (`Page.fillIn_eq`). The engine
  that scans a template is one (`TemplateEngine.substitutesOnce_scanning`).
-/

namespace HtmlHighlight

namespace Page

/-! ## Titles -/

/-- The characters that a title is written with entities for. -/
def special : List Char :=
  ['<', '>', '&', '\'', '"']

theorem titleChar_of_not_mem {c : Char} (h : c ∉ special) : titleChar c = [c] := by
  simp only [special, List.mem_cons, List.not_mem_nil, or_false, not_or] at h
  unfold titleChar
  split <;> simp_all

theorem not_mem_titleChar {c : Char} (hc : c ∈ special) (hamp : c ≠ '&') (d : Char) : c ∉ titleChar d := by
  by_cases hd : d ∈ special
  · have hspecial : special.all (fun d => special.all fun c => c = '&' ∨ c ∉ titleChar d) = true := by decide
    simp only [List.all_eq_true, decide_eq_true_eq] at hspecial
    exact (hspecial d hd c hc).resolve_left hamp
  · rw [titleChar_of_not_mem hd, List.mem_singleton]
    rintro rfl
    exact hd hc

/-- Of what means something to HTML, a title is written with ampersands only. -/
theorem not_mem_titleText {c : Char} (hc : c ∈ special) (hamp : c ≠ '&') (title : Text) :
    c ∉ titleText title := by
  intro h
  obtain ⟨d, -, hd⟩ := List.mem_flatMap.1 h
  exact not_mem_titleChar hc hamp d hd

theorem titleChar_ne_nil (c : Char) : titleChar c ≠ [] := by
  by_cases hc : c ∈ special
  · have hspecial : special.all (titleChar · ≠ []) = true := by decide
    simpa using List.all_eq_true.1 hspecial c hc
  · rw [titleChar_of_not_mem hc]
    exact List.cons_ne_nil c []

theorem head?_titleChar_of_mem {c : Char} (h : c ∈ special) : (titleChar c).head? = some '&' := by
  have hspecial : special.all (fun c => (titleChar c).head? = some '&') = true := by decide
  simpa using List.all_eq_true.1 hspecial c h

theorem eq_of_prefix_titleChar {c d : Char} (h : titleChar c <+: titleChar d) : c = d := by
  have hhead : (titleChar c).head? = (titleChar d).head? := by
    obtain ⟨u, hu⟩ := h
    rw [← hu, List.head?_append_of_ne_nil _ (titleChar_ne_nil c)]
  by_cases hc : c ∈ special <;> by_cases hd : d ∈ special
  · have hspecial : special.all (fun c => special.all fun d => titleChar c <+: titleChar d → c = d) = true := by
      decide
    simp only [List.all_eq_true, decide_eq_true_eq] at hspecial
    exact hspecial c hc d hd h
  · rw [head?_titleChar_of_mem hc, titleChar_of_not_mem hd] at hhead
    cases hhead
    exact absurd (by decide) hd
  · rw [head?_titleChar_of_mem hd, titleChar_of_not_mem hc] at hhead
    cases hhead
    exact absurd (by decide) hc
  · rw [titleChar_of_not_mem hc, titleChar_of_not_mem hd] at hhead
    cases hhead
    rfl

theorem titleText_cons (c : Char) (s : Text) : titleText (c :: s) = titleChar c ++ titleText s := rfl

theorem titleText_injective {s t : Text} (h : titleText s = titleText t) : s = t := by
  induction s generalizing t with
  | nil =>
    cases t with
    | nil => rfl
    | cons d t =>
      rw [titleText_cons] at h
      exact absurd (List.append_eq_nil_iff.1 h.symm).1 (titleChar_ne_nil d)
  | cons c s ih =>
    cases t with
    | nil =>
      rw [titleText_cons] at h
      exact absurd (List.append_eq_nil_iff.1 h).1 (titleChar_ne_nil c)
    | cons d t =>
      rw [titleText_cons, titleText_cons] at h
      obtain rfl : c = d := by
        have hd : titleChar d <+: titleChar c ++ titleText s := h ▸ List.prefix_append ..
        rcases List.prefix_or_prefix_of_prefix (List.prefix_append ..) hd with hp | hp
        · exact eq_of_prefix_titleChar hp
        · exact (eq_of_prefix_titleChar hp).symm
      rw [ih (List.append_cancel_left h)]

/-! ## Pages -/

/-- The start tag of a title. -/
def titleStart : Text :=
  "<title>".toList

/-- The end tag of a title. -/
def titleEnd : Text :=
  "</title>".toList

theorem titleEnd_eq : titleEnd = '<' :: "/title>".toList := rfl

/-- What stands between the first start tag of a title and the first end tag after it. -/
def titleElement? (text : Text) : Option Text :=
  (Text.cutAt? titleStart text).bind fun (_, rest) => (Text.cutAt? titleEnd rest).map Prod.fst

theorem titleEnd_prefix_afterTitle : titleEnd <+: afterTitle := by
  have h : titleEnd <+: "</title>\n<style>\n".toList := by decide
  unfold afterTitle
  rw [List.append_assoc]
  exact h.trans (List.prefix_append ..)

theorem titleElement?_toText (p : Page) : titleElement? p.toText = some (titleText p.title) := by
  have hstart : (Text.cutAt? titleStart beforeTitle).map Prod.snd = some [] := by decide +kernel
  obtain ⟨⟨before, rest⟩, hcut, rfl⟩ := Option.map_eq_some_iff.1 hstart
  obtain ⟨after, hafter⟩ := titleEnd_prefix_afterTitle
  have hlt : '<' ∉ titleText p.title := not_mem_titleText (by decide) (by decide) p.title
  rw [titleElement?, toText, ← hafter]
  simp only [List.append_assoc]
  rw [Text.cutAt?_append hcut, Option.bind_some, List.nil_append, titleEnd_eq,
    Text.cutAt?_append_of_not_infix (by decide) fun h => hlt (h.subset List.mem_cons_self), Option.map_some]

theorem toText_eq_iff {p q : Page} : p.toText = q.toText ↔ p.title = q.title ∧ p.content = q.content := by
  constructor
  · intro h
    obtain ⟨after, hafter⟩ := titleEnd_prefix_afterTitle
    simp only [toText, ← hafter, titleEnd_eq, List.append_assoc, List.cons_append,
      List.append_cancel_left_eq] at h
    -- both titles end at the first bracket
    obtain ⟨htitle, hrest⟩ := Text.eq_and_eq_of_append_cons
      (not_mem_titleText (by decide) (by decide) p.title)
      (not_mem_titleText (by decide) (by decide) q.title) h
    refine ⟨titleText_injective htitle, ?_⟩
    unfold codeBlock at hrest
    simpa only [List.append_assoc, List.append_cancel_left_eq, List.append_cancel_right_eq] using hrest
  · rintro ⟨htitle, hcontent⟩
    rw [toText, toText, htitle, hcontent]

/-! ## Filling in the template -/

theorem lookup_title (p : Page) : p.values.lookup "title".toList = some p.title := rfl

theorem lookup_stylesheet (p : Page) : p.values.lookup "stylesheet".toList = some Stylesheet.text := rfl

theorem lookup_content (p : Page) : p.values.lookup "content".toList = some (codeBlock p.content) := rfl

/-- An engine that substitutes once writes the text of the page. -/
theorem fillIn_eq {e : TemplateEngine} (he : e.SubstitutesOnce) (p : Page) : p.fillIn e = .ok p.toText := by
  have hplain : ∀ part ∈ template, part.isPlain = true := by decide +kernel
  have hescape : [("escape".toList, e.escape)].lookup "escape".toList = some e.escape := rfl
  have hwrite : template.mapM (TemplatePart.write? ⟨[("escape".toList, e.escape)], e.verbatim⟩ p.values) =
      some [beforeTitle, e.escape p.title, "</title>\n<style>\n".toList, e.verbatim Stylesheet.text,
        "</style>\n</head>\n<body>\n".toList, e.verbatim (codeBlock p.content), afterContent] := by
    unfold template
    simp only [List.mapM_cons, List.mapM_nil, TemplatePart.write?, hescape, lookup_title, lookup_stylesheet,
      lookup_content]
    rfl
  rw [fillIn, he.render_eq _ _ _ _ hplain hwrite, he.escape_eq, he.verbatim_eq, he.verbatim_eq]
  unfold toText afterTitle
  simp only [List.flatten_cons, List.flatten_nil, List.append_assoc, List.append_nil]

end Page

namespace TemplateEngine

open TemplatePart

theorem not_mem_of_isName {c : Char} (hc : c.isLower = false) {s : Text} (h : isName s = true) : c ∉ s := by
  intro hm
  simp only [isName, Bool.and_eq_true, List.all_eq_true] at h
  exact Bool.false_ne_true (hc.symm.trans (h.1.2 c hm))

variable {w : Text → Option Text}

theorem scan_append_of_not_mem {s : Text} (h : '\x7b' ∉ s) (t : Text) :
    scan w none (s ++ t) = (scan w none t).map (s ++ ·) := by
  induction s with
  | nil => simp
  | cons c s ih =>
    simp only [List.mem_cons, not_or] at h
    rw [List.cons_append, scan, if_neg (Ne.symm h.1), ih h.2, Option.map_map]
    rfl

theorem scan_place {s : Text} (h : '\x7d' ∉ s) (inner t : Text) :
    scan w (some inner) (s ++ '\x7d' :: t) =
      (w (inner ++ s)).bind fun text => (scan w none t).map (text ++ ·) := by
  induction s generalizing inner with
  | nil => rw [List.nil_append, scan, if_pos rfl, List.append_nil]
  | cons c s ih =>
    simp only [List.mem_cons, not_or] at h
    rw [List.cons_append, scan, if_neg (Ne.symm h.1), ih h.2, List.append_assoc, List.singleton_append]

variable {fs : Formatters} {values : List (Text × Text)}

/-- What stands between the braces of a place is read as its name and its formatter. -/
theorem writePlace?_placeSource {name : Text} (hname : isName name = true) (formatter? : Option Text) :
    writePlace? fs values (placeSource name formatter?) = (place name formatter?).write? fs values := by
  have hcut := fun t => Text.cutAt?_append_of_not_mem (not_mem_of_isName (c := ' ') (by decide) hname)
    "| ".toList t
  rw [show ' ' :: "| ".toList = separator by decide] at hcut
  cases formatter? with
  | none =>
    have hnone := hcut []
    rw [List.append_nil] at hnone
    rw [writePlace?, placeSource, hnone]
    rfl
  | some formatter =>
    rw [writePlace?, placeSource, hcut, Text.cutAt?_self_append (by decide)]
    simp

theorem scan_source {part : TemplatePart} (h : part.isPlain = true) (t : Text) :
    scan (writePlace? fs values) none (part.source ++ t) =
      (part.write? fs values).bind fun text => (scan (writePlace? fs values) none t).map (text ++ ·) := by
  cases part with
  | literal s =>
    simp only [isPlain, List.all_eq_true] at h
    exact scan_append_of_not_mem (fun hm => by simpa using h _ hm) t
  | place name formatter? =>
    simp only [isPlain, Bool.and_eq_true] at h
    have hbrace : '\x7d' ∉ placeSource name formatter? := by
      have hname : '\x7d' ∉ name := not_mem_of_isName (by decide) h.1
      cases formatter? with
      | none => exact hname
      | some formatter =>
        have hsep : '\x7d' ∉ separator := by decide
        have hformatter : '\x7d' ∉ formatter := not_mem_of_isName (by decide) h.2
        simp [placeSource, hname, hsep, hformatter]
    rw [source, List.cons_append, List.append_assoc, scan, if_pos rfl, List.singleton_append,
      scan_place hbrace, List.nil_append, writePlace?_placeSource h.1]

theorem scan_sources {parts : List TemplatePart} {texts : List Text}
    (hplain : ∀ part ∈ parts, part.isPlain = true) (h : parts.mapM (write? fs values) = some texts) :
    scan (writePlace? fs values) none (parts.flatMap source) = some texts.flatten := by
  induction parts generalizing texts with
  | nil =>
    rw [List.mapM_nil] at h
    cases h
    rfl
  | cons part parts ih =>
    rw [List.mapM_cons] at h
    obtain ⟨text, htext, h⟩ := Option.bind_eq_some_iff.1 h
    obtain ⟨rest, hrest, he⟩ := Option.bind_eq_some_iff.1 h
    cases he
    rw [List.flatMap_cons, scan_source (hplain _ List.mem_cons_self), htext,
      ih (fun q hq => hplain q (List.mem_cons_of_mem part hq)) hrest]
    rfl

theorem substitutesOnce_scanning : scanning.SubstitutesOnce where
  escape_eq _ := rfl
  verbatim_eq _ := rfl
  render_eq fs parts values texts hplain h := by
    dsimp only [scanning]
    rw [scan_sources hplain h]

end TemplateEngine

/-- A page that an engine fills in determines its title and its content. Whatever they hold, the text between
its first start tag of a title and the first end tag after that is the title with entities for what means
something to HTML, and holds no bracket and no quote. -/
theorem Page.fillIn_eq_iff_and_titleElement {e : TemplateEngine} (he : e.SubstitutesOnce) (p : Page) :
    (∀ q : Page, p.fillIn e = q.fillIn e ↔ p.title = q.title ∧ p.content = q.content) ∧
    ∃ text, p.fillIn e = .ok text ∧ titleElement? text = some (titleText p.title) ∧
      '<' ∉ titleText p.title ∧ '>' ∉ titleText p.title ∧
      '\'' ∉ titleText p.title ∧ '"' ∉ titleText p.title := by
  refine ⟨fun q => ?_, p.toText, fillIn_eq he p, titleElement?_toText p, ?_, ?_, ?_, ?_⟩
  · rw [fillIn_eq he, fillIn_eq he, Except.ok.injEq, toText_eq_iff]
  all_goals exact not_mem_titleText (by decide) (by decide) p.title

/-- A page whose parts hold what pages and templates are made of. -/
def Page.quoting : Page :=
  ⟨"</title>\x7bcontent\x7d&amp;".toList, "<title>\x7btitle | escape\x7d</title>".toList⟩

/-- Against a page without a title, with the whole of the first page as its content. -/
theorem Page.fillIn_eq_iff_and_titleElement_scanning :
    TemplateEngine.scanning.SubstitutesOnce ∧
    (quoting.fillIn .scanning = (⟨[], quoting.toText⟩ : Page).fillIn .scanning ↔
      quoting.title = [] ∧ quoting.content = quoting.toText) ∧
    ∃ text, quoting.fillIn .scanning = .ok text ∧ titleElement? text = some (titleText quoting.title) ∧
      '<' ∉ titleText quoting.title := by
  have he := TemplateEngine.substitutesOnce_scanning
  obtain ⟨hiff, text, htext, htitle, hlt, -⟩ := fillIn_eq_iff_and_titleElement he quoting
  exact ⟨he, hiff _, text, htext, htitle, hlt⟩

end HtmlHighlight
