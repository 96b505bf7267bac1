import RuleTrace.Text.Basic

/-!
# Styles

A style names a color, a background and a text effect, each of them optional. Terminals select
it by an escape sequence with one parameter for each part that is named, and go back to plain text
by a reset. `Ink` says whether output is decorated at all.

A name that the tables do not know still takes its place in the sequence: a color is then white,
a background black, and an effect the empty parameter.
-/

namespace RuleTrace

/-- The look of a piece of text: the names of its color, background and effect. -/
structure Style where
  color : Option Text := none
  background : Option Text := none
  effect : Option Text := none
deriving DecidableEq, Repr

namespace Style

/-- The parameter of each text color. -/
def colors : List (Text × Text) :=
  [("black".toList, "30".toList), ("red".toList, "31".toList), ("green".toList, "32".toList),
    ("yellow".toList, "33".toList), ("blue".toList, "34".toList), ("magenta".toList, "35".toList),
    ("cyan".toList, "36".toList), ("white".toList, "37".toList)]

/-- The parameter of each background color. -/
def backgrounds : List (Text × Text) :=
  [("black".toList, "40".toList), ("red".toList, "41".toList), ("green".toList, "42".toList),
    ("yellow".toList, "43".toList), ("blue".toList, "44".toList), ("magenta".toList, "45".toList),
    ("cyan".toList, "46".toList), ("white".toList, "47".toList)]

/-- The parameter of each effect. -/
def effects : List (Text × Text) :=
  [("bold".toList, "1".toList), ("thin".toList, "2".toList), ("underline".toList, "4".toList),
    ("blink".toList, "5".toList), ("reverse".toList, "7".toList), ("invisible".toList, "8".toList)]

/-- The style with just a color. -/
def ofColor (name : Text) : Style :=
  { color := some name }

/-- The parameters that select a style: color, background, effect. -/
def parameters (s : Style) : List Text :=
  (s.color.map fun name => (colors.lookup name).getD "37".toList).toList ++
    (s.background.map fun name => (backgrounds.lookup name).getD "40".toList).toList ++
    (s.effect.map fun name => (effects.lookup name).getD []).toList

end Style

/-! ## Escape sequences -/

/-- The character that opens an escape sequence. -/
def escapeChar : Char := '\x1b'

/-- The escape sequence with the given parameters and final letter. -/
def escapeSequence (parameters : Text) (final : Char) : Text :=
  escapeChar :: '[' :: parameters ++ [final]

/-- The sequence that ends every style. -/
def resetCode : Text :=
  escapeSequence ['0'] 'm'

/-- The parameters of a sequence, with semicolons between them. -/
def joinParameters : List Text → Text
  | [] => []
  | [p] => p
  | p :: ps => p ++ ';' :: joinParameters ps

/-- The sequence that selects a style, empty when the style names nothing. -/
def Style.code (s : Style) : Text :=
  match s.parameters with
  | [] => []
  | ps => escapeSequence (joinParameters ps) 'm'

/-- The sequence that selects a style, empty when there is none. -/
def styleCode : Option Style → Text
  | none => []
  | some s => s.code

/-! ## Painting -/

/-- How text is written: with styles, or plain. -/
inductive Ink where
  | colored
  | plain
deriving DecidableEq, Repr

/-- The part of a text that a style applies to. -/
inductive Extent where
  /-- All of it. -/
  | whole
  /-- From an offset to another one. A missing stop, or one of 0, is the end of the text. -/
  | slice (start : Int) (stop : Option Int)
deriving DecidableEq, Repr

/-- The offset where a slice of a text ends. -/
def Extent.stopIn (t : Text) : Option Int → Int
  | none => t.length
  | some stop => if stop = 0 then t.length else stop

namespace Ink

/-- Writes a text with a style on part of it. A style without a code leaves the text as it is. -/
def paint (ink : Ink) (style : Option Style) (t : Text) (extent : Extent := .whole) : Text :=
  match ink with
  | .plain => t
  | .colored =>
    match styleCode style with
    | [] => t
    | code =>
      match extent with
      | .whole => code ++ t ++ resetCode
      | .slice start stop =>
        let stop := Extent.stopIn t stop
        t.upto start ++ code ++ t.between start stop ++ resetCode ++ t.onward stop

@[simp] theorem plain_paint (style : Option Style) (t : Text) (extent : Extent) :
    plain.paint style t extent = t := rfl

@[simp] theorem paint_none (ink : Ink) (t : Text) (extent : Extent) :
    ink.paint none t extent = t := by
  cases ink <;> rfl

end Ink

/-! ## Layout -/

/-- A text of more than `limit` characters loses its front: dots take the place of what is cut,
and the whole has the length of the limit. A limit that is not positive cuts nothing. -/
def truncate (t : Text) (limit : Int) : Text :=
  if 0 < limit ∧ limit < t.length then "...".toList ++ t.drop (t.length + 3 - limit.toNat) else t

/-- An indent followed by a text repeated; negative counts are none. That a runtime refuses counts
past the size of an index is not modelled. -/
def makeLine (indent count : Int) (t : Text) : Text :=
  List.replicate indent.toNat ' ' ++ (List.replicate count.toNat t).flatten

end RuleTrace
