/-
Places in a state tree.

A segment names one child of a container: a key a child of a mapping, an index a
child of an array, and never the other way round, so the key `2` is not the index 2.
A path is the list of segments from the root down; the root is the empty path.

Paths are ordered segment by segment, with every key before every index.
-/

namespace Reducer

/-- The name of one child of a container. -/
inductive Seg
  | key (name : String)
  | index (position : Nat)
  deriving DecidableEq, Repr

namespace Seg

/-- The name, if this is a key. -/
def key? : Seg → Option String
  | key name => some name
  | index _ => none

/-- The position, if this is an index. -/
def index? : Seg → Option Nat
  | key _ => none
  | index position => some position

/-- The name or position alone. -/
def bare : Seg → String
  | key name => name
  | index position => toString position

/-- How the segment continues a path's text. -/
def text : Seg → String
  | key name => "." ++ name
  | index position => "[" ++ toString position ++ "]"

/-- Keys before indices; keys by code points, indices by size. -/
def order : Seg → Seg → Ordering
  | key a, key b => compare a b
  | key _, index _ => .lt
  | index _, key _ => .gt
  | index a, index b => compare a b

end Seg

/-- The segments from the root to a place. -/
abbrev Path := List Seg

namespace Path

/-- The path as messages show it: the root and each segment after it, nothing escaped. -/
def text (path : Path) : String :=
  "$" ++ String.join (path.map Seg.text)

/-- The path as change reports show it. -/
def dotted (path : Path) : String :=
  String.intercalate "." (path.map Seg.bare)

/-- The path without its last segment, and that segment. -/
def pop? (path : Path) : Option (Path × Seg) :=
  path.getLast?.map fun last => (path.dropLast, last)

/-- The first segment that differs decides; a path comes before all that extend it. -/
def order : Path → Path → Ordering
  | [], [] => .eq
  | [], _ :: _ => .lt
  | _ :: _, [] => .gt
  | a :: rest, b :: others => (a.order b).then (order rest others)

end Path

end Reducer
