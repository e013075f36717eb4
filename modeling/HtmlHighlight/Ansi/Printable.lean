import HtmlHighlight.Text.Basic

/-!
# Text without controls

What is left of a text for output that is no terminal: control sequences are taken out, and so are control
characters other than white space. White space within a control sequence is shown, and so is all after it
up to the next control; there the sequence goes on where it was.

`stripControls_of_forall` says that a text without controls is left as it is.
-/

namespace HtmlHighlight.Ansi

/-- Where a character stands with respect to control sequences. -/
inductive Position where
  | outside
  /-- After the escape character. -/
  | escape
  /-- In an escape sequence of more than one character. -/
  | intermediate
  /-- In a control sequence, before the character that ends it. -/
  | control
  /-- In a string for the operating system. -/
  | systemString
  /-- At the beginning of a string for a device. -/
  | device
  /-- Among the parameters of a string for a device. -/
  | deviceParameters
  /-- Between the parameters of a string for a device and the character that ends its introduction. -/
  | deviceIntermediate
  /-- In any other string. -/
  | string
  deriving DecidableEq, Repr

/-- The control characters that are shown all the same. -/
def isShownControl (c : Char) : Bool :=
  c = '\t' || c = '\n' || c = '\x0c' || c = '\r'

/-- Whether a character outside of control sequences is shown. -/
def isShown (c : Char) : Bool :=
  isShownControl c || (0x20 ≤ c.toNat && c.toNat ≠ 0x7f)

/-- Whether a character is one from `first` to `last`. -/
def isBetween (first last c : Char) : Bool :=
  first ≤ c && c ≤ last

/-- The byte that terminates a string. -/
def stringTerminator : UInt8 := 0x9c

/-- Whether a character has the terminator of strings among its bytes. -/
def terminatesString (c : Char) : Bool :=
  (String.utf8EncodeChar c).contains stringTerminator

namespace Position

/-- The place after a character. -/
def next (p : Position) (c : Char) : Position :=
  if c = '\x1b' then escape
  else if c = '\x18' ∨ c = '\x1a' then outside
  else match p with
    | outside => outside
    | escape =>
      if isBetween ' ' '/' c then intermediate
      else if c = '[' then control
      else if c = ']' then systemString
      else if c = 'P' then device
      else if c = 'X' ∨ c = '^' ∨ c = '_' then string
      else if isBetween '0' '~' c then outside
      else escape
    | intermediate => if isBetween '0' '~' c then outside else intermediate
    | control => if isBetween '@' '~' c then outside else control
    | systemString => if c = '\x07' then outside else systemString
    | device =>
      if isBetween ' ' '/' c then deviceIntermediate
      else if isBetween '0' '?' c then deviceParameters
      else if isBetween '@' '~' c then string
      else device
    | deviceParameters =>
      if isBetween ' ' '/' c then deviceIntermediate
      else if isBetween '<' '~' c then string
      else deviceParameters
    | deviceIntermediate => if isBetween '0' '~' c then string else deviceIntermediate
    | string => if terminatesString c then outside else string

/-- Whether a character is shown at a place. Strings show nothing. -/
def shows (p : Position) (c : Char) : Bool :=
  match p with
  | outside => isShown c
  | escape | intermediate | control => isShownControl c
  | _ => false

/-- The place after a character and whether the character is shown, given whether the one before it was.
What has been shown so far keeps a sequence open, but a character beyond ASCII ends it. -/
def step (p : Position) (afterShown : Bool) (c : Char) : Position × Bool :=
  if afterShown && isShown c then (if c.toNat < 0x80 then p else outside, true)
  else (p.next c, p.shows c)

end Position

/-- The characters that are shown of a text that begins at a place, after a character that was shown or
not. -/
def shownFrom (p : Position) (afterShown : Bool) : Text → Text
  | [] => []
  | c :: s =>
    let (p, isShown) := p.step afterShown c
    if isShown then c :: shownFrom p true s else shownFrom p false s

/-- A text without its control sequences and control characters. -/
def stripControls (s : Text) : Text :=
  shownFrom .outside false s

theorem step_outside {c : Char} (h : isShown c = true) (afterShown : Bool) :
    Position.outside.step afterShown c = (.outside, true) := by
  have hn : Position.outside.next c = .outside := by
    have hc : c ≠ '\x1b' := by
      rintro rfl
      exact absurd h (by decide)
    simp [Position.next, hc]
  cases afterShown <;> simp [Position.step, Position.shows, h, hn]

theorem shownFrom_outside {s : Text} (h : ∀ c ∈ s, isShown c = true) (afterShown : Bool) :
    shownFrom .outside afterShown s = s := by
  induction s generalizing afterShown with
  | nil => rfl
  | cons c s ih =>
    simp only [shownFrom, step_outside (h c List.mem_cons_self), if_true]
    rw [ih fun d hd => h d (List.mem_cons_of_mem c hd)]

theorem stripControls_of_forall {s : Text} (h : ∀ c ∈ s, isShown c = true) : stripControls s = s :=
  shownFrom_outside h false

example : stripControls "a\x1b[1;31mb\x1b]0;t\x07c\x7f\nd".toList = "abc\nd".toList := by decide
example : stripControls "\x1b[\tab\x01cd".toList = "\tabd".toList := by decide

end HtmlHighlight.Ansi
