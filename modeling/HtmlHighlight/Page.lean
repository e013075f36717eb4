import HtmlHighlight.Stylesheet

/-!
# Pages

Highlighted source is shown in a block that keeps its white space, and a page is a document of its own
around such a block, with a title and the default stylesheet. The title is text, so the characters that
mean something to HTML are written as entities; the content is markup and goes in as it is.
-/

namespace HtmlHighlight

/-- A block that shows `content` with its white space and in one width. -/
def codeBlock (content : Text) : Text :=
  "<pre><code>".toList ++ content ++ "</code></pre>".toList

/-- A standalone document for highlighted source. -/
structure Page where
  title : Text
  content : Text

namespace Page

/-- How a character of a title is written. -/
def titleChar (c : Char) : Text :=
  match c with
  | '<' => "&lt;".toList
  | '>' => "&gt;".toList
  | '&' => "&amp;".toList
  | '\'' => "&#39;".toList
  | '"' => "&quot;".toList
  | c => [c]

/-- A title as it is written in a page. -/
def titleText (title : Text) : Text :=
  title.flatMap titleChar

/-- What stands before the title. -/
def beforeTitle : Text :=
  "<!DOCTYPE html>\n<html>\n<head>\n<meta charset=\"utf-8\">\n<title>".toList

/-- What stands between title and content. -/
def afterTitle : Text :=
  "</title>\n<style>\n".toList ++ Stylesheet.text ++ "</style>\n</head>\n<body>\n".toList

/-- What stands after the content. -/
def afterContent : Text :=
  "\n</body>\n</html>\n".toList

/-- The text of a page. -/
def toText (p : Page) : Text :=
  beforeTitle ++ titleText p.title ++ afterTitle ++ codeBlock p.content ++ afterContent

end Page

end HtmlHighlight
