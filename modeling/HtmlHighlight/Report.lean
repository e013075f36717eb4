import HtmlHighlight.Ansi

/-!
# Reports

A problem is reported on one line, which says what it is about if that is known. The message stands out
in bold whether or not a terminal shows it.
-/

namespace HtmlHighlight

/-- The line that reports a problem, with what it is about if that is known. -/
def reportLine (subject? : Option Text) (message : Text) : Text :=
  let subject := match subject? with
    | some subject => subject ++ ": ".toList
    | none => []
  Ansi.colour .brightRed "error".toList ++ ": ".toList ++ subject ++ Ansi.bold message

end HtmlHighlight
