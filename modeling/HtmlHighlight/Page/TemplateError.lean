import HtmlHighlight.Report

/-!
# Failures of a template

A template of a page can be malformed, or its places cannot be filled. Both kinds of failure know where in
the template they arose.
-/

namespace HtmlHighlight

/-- A failure of the template of a page. -/
inductive TemplateError where
  | malformed (reason : Text) (line column : Nat)
  | unfillable (reason : Text) (line column : Nat)
  | other (reason : Text)
  deriving DecidableEq, Repr

namespace TemplateError

/-- The failure in words. -/
def message : TemplateError → Text
  | malformed reason line column =>
    "Failed to parse the template (line ".toList ++ Text.ofNat line ++ ", column ".toList ++
      Text.ofNat column ++ "). Reason: ".toList ++ reason
  | unfillable reason line column =>
    "Encountered rendering error on line ".toList ++ Text.ofNat line ++ ", column ".toList ++
      Text.ofNat column ++ ". Reason: ".toList ++ reason
  | other reason => reason

/-- The line that reports the failure. -/
def report (e : TemplateError) : Text :=
  reportLine none e.message

end TemplateError

end HtmlHighlight
