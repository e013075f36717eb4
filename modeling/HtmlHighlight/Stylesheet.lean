import HtmlHighlight.Token

/-!
# The default stylesheet

A stylesheet is a list of rules. The default one sets the block that highlighted source stands in and has
a rule for the class of each kind of token (`exists_rule_of_kind`).
-/

namespace HtmlHighlight

/-- A selector and the declarations for what it selects. -/
structure StyleRule where
  selector : String
  declarations : List (String × String)

namespace StyleRule

/-- A declaration on a line of its own. -/
def declarationText : String × String → Text
  | (property, value) => "  ".toList ++ property.toList ++ ": ".toList ++ value.toList ++ ";\n".toList

/-- A rule as it stands in a stylesheet. -/
def toText (rule : StyleRule) : Text :=
  rule.selector.toList ++ " \x7b\n".toList ++ rule.declarations.flatMap declarationText ++
    "\x7d\n".toList

end StyleRule

namespace Stylesheet

/-- The declarations for a kind of token. -/
def declarations : Kind → List (String × String)
  | .tag => [("color", "#999999")]
  | .tagName => [("color", "#3465a4"), ("font-weight", "bold")]
  | .attributeName => [("color", "#8f5902")]
  | .attributeValue => [("color", "#4e9a06")]
  | .comment => [("color", "#888a85"), ("font-style", "italic")]
  | .equalSign => [("color", "#cc0000")]
  | .text => [("color", "#2e3436")]

/-- The rule for a kind of token. -/
def ruleOf (k : Kind) : StyleRule :=
  ⟨"." ++ k.cssClass, declarations k⟩

/-- The rules of the default stylesheet. -/
def rules : List StyleRule :=
  ⟨"pre", [("white-space", "pre"), ("font-family", "\"Inconsolata\", monospace")]⟩ ::
    Kind.all.map ruleOf

theorem exists_rule_of_kind (k : Kind) : ruleOf k ∈ rules :=
  List.mem_cons_of_mem _ (List.mem_map_of_mem k.mem_all)

/-- The text of the default stylesheet. -/
def text : Text :=
  rules.flatMap StyleRule.toText

end Stylesheet

end HtmlHighlight
