import RuleTrace.Style.Escape

/-!
# Segments

Output for web pages has no escape sequences: a line is cut at its color codes, and every segment
between two of them carries the CSS classes that the codes before it select. Each code adds the
classes of its parameters; a code without parameters, or with a parameter `0`, drops them all.
Sequences that are not color codes stay in the text.
-/

namespace RuleTrace

namespace Segment

/-- The parameters of a table of names, with the class that each of them selects. -/
def classTable (kind : Text) (table : List (Text × Text)) : List (Text × Text) :=
  table.map fun (name, parameter) => (parameter, kind ++ '-' :: name)

/-- The class that each parameter selects. -/
def classes : List (Text × Text) :=
  classTable "fg".toList Style.colors ++ classTable "bg".toList Style.backgrounds ++
    classTable "attr".toList Style.effects

/-- The nonempty parts of a text between its semicolons. -/
def parameterList : Text → List Text
  | [] => []
  | c :: t =>
    if c = ';' then parameterList t
    else match t with
      | [] => [[c]]
      | d :: _ =>
        if d = ';' then [c] :: parameterList t
        else match parameterList t with
          | [] => [[c]]
          | p :: ps => (c :: p) :: ps

/-- The classes in force after a color code with the given parameters. -/
def select (parameters : Text) (before : List Text) : List Text :=
  let ps := parameterList parameters
  if ps.isEmpty || ps.contains ['0'] then [] else before ++ ps.filterMap fun p => classes.lookup p

/-- The text before the first color code, and for each code its parameters and the text up to the
next one. -/
def runs : List Token → Text × List (Text × Text)
  | [] => ([], [])
  | token :: ts =>
    let (t, rest) := runs ts
    match token with
    | .sequence parameters 'm' => ([], (parameters, t) :: rest)
    | _ => (token.text ++ t, rest)

/-- The segment of a text with the given classes, none when there is no text. -/
def ofText (t : Text) (selected : List Text) : List (Text × List Text) :=
  if t.isEmpty then [] else [(t, selected)]

/-- The segments of the runs after a first one. -/
def ofRuns (selected : List Text) : List (Text × Text) → List (Text × List Text)
  | [] => []
  | (parameters, t) :: rest =>
    let selected := select parameters selected
    ofText t selected ++ ofRuns selected rest

end Segment

/-- The segments of a line: nonempty texts with their classes. -/
def segments (line : Text) : List (Text × List Text) :=
  let (t, rest) := Segment.runs (tokens line)
  Segment.ofText t [] ++ Segment.ofRuns [] rest

end RuleTrace
