import SolidityParser.Location
import SolidityParser.Render.Tree

/-!
# Decorating nodes

Two marks can be added at the end of every node in a JSON value: `range`, its offsets as a pair, and
`loc`, the line and column of either offset. A node is an object with a type and two offsets.
-/

namespace SolidityParser

/-- The marks that are added to nodes. -/
structure Decoration where
  /-- Is the pair of offsets added? -/
  range : Bool
  /-- The lines of the source, if lines and columns are added. -/
  lines : Option LineTable

namespace Decoration

/-- The marks asked for, on the nodes of a source. -/
def ofSource (source : String) (range loc : Bool) : Decoration :=
  ⟨range, if loc then some (LineTable.ofText source.toList) else none⟩

/-- Line and column of an offset. -/
def position (lines : LineTable) (offset : Nat) : Json :=
  let location := lines.locate offset
  .object [("line", .ofNat location.line), ("column", .ofNat location.column)]

/-- The marks of a node: first its range, then its lines. -/
def marks (decoration : Decoration) (span : Span) : List (String × Json) :=
  (if decoration.range then
    [("range", .array [.ofNat span.start, .ofNat span.stop])]
  else []) ++
  match decoration.lines with
  | none => []
  | some lines =>
    [("loc", .object [("start", position lines span.start), ("end", position lines span.stop)])]

end Decoration

namespace Json

/-- The offset that a member with this key gives. -/
def offsetAt? (key : String) (members : List (String × Json)) : Option Nat :=
  match member? key members with
  | some (.number (.integer offset)) => if offset ≤ Span.limit then some offset else none
  | _ => none

/-- Where a node stands, given its members; none if they are not a node's. -/
def nodeSpan? (members : List (String × Json)) : Option Span :=
  match member? "type" members, offsetAt? "start" members, offsetAt? "end" members with
  | some (.string _), some start, some stop => some ⟨start, stop⟩
  | _, _, _ => none

mutual

/-- The value with marks on every node in it. -/
def decorate (decoration : Decoration) : Json → Json
  | array items => array (decorateItems decoration items)
  | object members =>
    let marks := match nodeSpan? members with
      | none => []
      | some span => decoration.marks span
    object (decorateMembers decoration members ++ marks)
  | value => value

/-- Items with marks on every node in them. -/
def decorateItems (decoration : Decoration) : List Json → List Json
  | [] => []
  | item :: items => decorate decoration item :: decorateItems decoration items

/-- Members with marks on every node in them. -/
def decorateMembers (decoration : Decoration) : List (String × Json) → List (String × Json)
  | [] => []
  | (key, value) :: members =>
    (key, decorate decoration value) :: decorateMembers decoration members

end

end Json

/-- A program as a decorated node. -/
def Program.render (program : Program) (decoration : Decoration) : Json :=
  program.toJson.decorate decoration

end SolidityParser
