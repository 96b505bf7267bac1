import RuleTrace.Text.Basic

/-!
# The stylesheet

The style rules for graphs on web pages: the frame around a graph, the graph itself, and one rule
for every class of a segment.
-/

namespace RuleTrace

/-- A style rule: a selector, and properties with their values. A spread rule has each property on
a line of its own. -/
structure CssRule where
  selector : Text
  declarations : List (Text × Text)
  isSpread : Bool := false
deriving DecidableEq, Repr

namespace CssRule

/-- One property with its value. -/
def declaration (d : Text × Text) : Text :=
  d.1 ++ ": ".toList ++ d.2 ++ [';']

/-- A rule as text. -/
def text (r : CssRule) : Text :=
  let body :=
    if r.isSpread then
      '\n' :: r.declarations.flatMap fun d => "  ".toList ++ declaration d ++ ['\n']
    else ' ' :: r.declarations.flatMap fun d => declaration d ++ [' ']
  r.selector ++ ' ' :: '{' :: body ++ ['}', '\n']

/-- The rule for a class inside a graph. -/
def ofClass (name property value : String) : CssRule :=
  { selector := ".parsetrace .".toList ++ name.toList
    declarations := [(property.toList, value.toList)] }

/-- The rule for the frame of a graph. -/
def frame : CssRule :=
  { selector := ".parsetrace".toList
    declarations := [
      ("--parsetrace-bg".toList, "#1e1e1e".toList),
      ("--parsetrace-fg".toList, "#d4d4d4".toList),
      ("background".toList, "var(--parsetrace-bg)".toList),
      ("color".toList, "var(--parsetrace-fg)".toList),
      ("border-radius".toList, "0.5em".toList),
      ("padding".toList, "0.5em 1em".toList),
      ("overflow-x".toList, "auto".toList)]
    isSpread := true }

/-- The rule for the graph in its frame. -/
def graph : CssRule :=
  { selector := ".parsetrace pre.graph".toList
    declarations := [
      ("margin".toList, "0".toList),
      ("font-family".toList,
        "ui-monospace, \"SF Mono\", Menlo, Consolas, monospace".toList),
      ("font-size".toList, "0.9em".toList),
      ("line-height".toList, "1.25".toList),
      ("white-space".toList, "pre".toList)]
    isSpread := true }

/-- The rules for the classes of segments. -/
def segmentClasses : List CssRule :=
  [ofClass "fg-black" "color" "#555555",
    ofClass "fg-red" "color" "#f44747",
    ofClass "fg-green" "color" "#6a9955",
    ofClass "fg-yellow" "color" "#dcdcaa",
    ofClass "fg-blue" "color" "#569cd6",
    ofClass "fg-magenta" "color" "#c586c0",
    ofClass "fg-cyan" "color" "#4ec9b0",
    ofClass "fg-white" "color" "#ffffff",
    ofClass "bg-black" "background" "#000000",
    ofClass "bg-red" "background" "#5a1d1d",
    ofClass "bg-green" "background" "#1e3a1e",
    ofClass "bg-yellow" "background" "#4b4b18",
    ofClass "bg-blue" "background" "#1a2f4b",
    ofClass "bg-magenta" "background" "#3f1f3f",
    ofClass "bg-cyan" "background" "#163f3a",
    ofClass "bg-white" "background" "#bbbbbb",
    ofClass "attr-bold" "font-weight" "bold",
    ofClass "attr-thin" "opacity" "0.6",
    ofClass "attr-underline" "text-decoration" "underline",
    ofClass "attr-blink" "text-decoration" "overline",
    ofClass "attr-reverse" "filter" "invert(1)",
    ofClass "attr-invisible" "visibility" "hidden"]

end CssRule

/-- The stylesheet as text. -/
def stylesheet : Text :=
  (CssRule.frame :: CssRule.graph :: CssRule.segmentClasses).flatMap CssRule.text

end RuleTrace
