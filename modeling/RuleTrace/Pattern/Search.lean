import RuleTrace.Pattern.Preference

/-!
# Searching

A set of places of a text is a list of marks, one for each place. An expression takes the places
where a match starts to those where one ends (`Regex.advance`), and a text has a match when some
place is left after starting from all of them. Laziness makes no difference to a set.
-/

namespace RuleTrace

/-- A set of places of a text: for each place whether it belongs to the set. -/
abbrev Places := List Bool

namespace Places

/-- The places of either set. -/
def union (m n : Places) : Places :=
  List.zipWith (· || ·) m n

/-- The places of both sets. -/
def inter (m n : Places) : Places :=
  List.zipWith (· && ·) m n

/-- Takes a step a number of times, or until it changes nothing. -/
def iterate (step : Places → Places) : Nat → Places → Places
  | 0, m => m
  | n + 1, m =>
    let next := step m
    if next = m then m else iterate step n next

/-- Adds what up to a number of steps lead to, stopping when nothing is added. -/
def spread (step : Places → Places) (n : Nat) (m : Places) : Places :=
  iterate (fun m => m.union (step m)) n m

/-- The places one character further, for the characters of a set. -/
def shift (set : CharSet) (t : Text) (m : Places) : Places :=
  false :: List.zipWith (fun here c => here && set.contains c) m t

/-- The places any number of characters further, for the characters of a set. The flag says
whether the first place is reached from before. -/
def sweep (set : CharSet) : Bool → Text → Places → Places
  | _, _, [] => []
  | reached, [], here :: m => (reached || here) :: m
  | reached, c :: t, here :: m =>
    let reached := reached || here
    reached :: sweep set (reached && set.contains c) t m

/-- The places that those of a set lead to. -/
def lead (next : Spot → Option Nat) (t : Text) (m : Places) : Places :=
  let ends := List.zipWith (fun here s => if here then next s else none) m (Spot.all 0 none t)
  let reached := (ends.filterMap id).eraseDups
  (List.range m.length).map reached.contains

end Places

/-- The places of a text where a condition holds. -/
def Anchor.places (a : Anchor) (t : Text) : Places :=
  (Spot.all 0 none t).map fun s => a.holds s.before s.after

namespace Regex

/-- The places where matches end that start at places of a set. -/
def advance (t : Text) : Regex → Places → Places
  | .empty, m => m
  | .chars set, m => m.shift set t
  | .anchor a, m => m.inter (a.places t)
  | .seq r s, m => s.advance t (r.advance t m)
  | .alt r s, m => (r.advance t m).union (s.advance t m)
  | .times r least further _, m =>
    let m := Places.iterate (r.advance t) least m
    match further, r with
    | some n, _ => m.spread (r.advance t) n
    | none, .chars set => m.sweep set false t
    | none, _ => m.spread (r.advance t) (t.length + 1)
  | .atomic r, m => m.lead (r.preferredEnd? t.length) t

/-- Whether some part of a text matches an expression. -/
def search (r : Regex) (t : Text) : Bool :=
  (r.advance t (List.replicate (t.length + 1) true)).any id

end Regex

end RuleTrace
