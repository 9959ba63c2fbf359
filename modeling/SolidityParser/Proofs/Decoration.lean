import Mathlib
import SolidityParser.Proofs.Render.Objects

/-!
# Decorated JSON

**Theorem** (`Source.render_decorated`): the JSON of a program that a source parses to is a value in
which the objects are the nodes of the program, and for every choice of marks the decorated JSON is
that value with these members at the end of each object, and nothing else: `range`, the two offsets
of the node, if it is asked for; then `loc`, the line and column of both, if that is. Without the
members that are named so, it is the JSON again.

Nodes are looked for by their shape when they are decorated. An offset is taken for one only below
four gigabytes, and a source that is longer is not read.
-/

namespace SolidityParser

namespace Program

variable {program : Program}

/-- In a program whose offsets are small enough, every object has the shape of a node. -/
theorem toJson_nodal
    (h : ∀ o ∈ program.rendered, o.2.start ≤ Span.limit ∧ o.2.stop ≤ Span.limit) :
    program.toJson.Nodal := by
  intro v hv
  obtain ⟨o, ho, rfl⟩ := List.mem_map.mp (program.objects_perm.subset hv)
  rw [(program.rendered_isNode o ho).span?_eq (h o ho).1 (h o ho).2]
  rfl

/-- Told by shape, the nodes in the JSON of a program are the nodes of the program. -/
theorem toTree_nodes
    (h : ∀ o ∈ program.rendered, o.2.start ≤ Span.limit ∧ o.2.stop ≤ Span.limit) :
    program.toJson.toTree.nodes.Perm program.rendered := by
  have htold : program.rendered.map (fun o => (o.1, o.1.span?.getD (.point 0))) =
      program.rendered := by
    refine (List.map_congr_left (g := id) fun o ho => ?_).trans (List.map_id _)
    rw [(program.rendered_isNode o ho).span?_eq (h o ho).1 (h o ho).2]
    rfl
  have hperm := program.objects_perm.map fun v => (v, v.span?.getD (.point 0))
  rw [List.map_map] at hperm
  rw [Json.nodes_toTree]
  exact hperm.trans (.of_eq htold)

/-- No object in the JSON of a program has marks. -/
theorem toJson_unmarked (program : Program) : ∀ v ∈ program.toJson.objects, v.Unmarked := by
  intro v hv
  obtain ⟨o, ho, rfl⟩ := List.mem_map.mp (program.objects_perm.subset hv)
  exact (program.rendered_isNode o ho).unmarked

end Program

namespace Source

/-- The JSON of the program of a source consists of the nodes of the program as objects. With marks,
it has the offsets of its node at the end of each of them, and then their lines and columns, each if
asked for; and they can be taken away again. -/
theorem render_decorated {source : String} {tolerant : Bool} {program : Program}
    (h : parse source tolerant = .ok program) :
    ∃ tree : Json.Tree, tree.plain = program.toJson ∧ tree.nodes.Perm program.rendered ∧
      ∀ range loc : Bool,
        program.render (.ofSource source range loc) = tree.decorated (fun span =>
          let first := (LineTable.ofText source.toList).locate span.start
          let last := (LineTable.ofText source.toList).locate span.stop
          (if range then [("range", .array [.ofNat span.start, .ofNat span.stop])] else []) ++
            if loc then [("loc", .object [
              ("start", .object [("line", .ofNat first.line), ("column", .ofNat first.column)]),
              ("end", .object [("line", .ofNat last.line), ("column", .ofNat last.column)])])]
            else []) ∧
          (program.render (.ofSource source range loc)).erase = program.toJson := by
  have hsize : WithinLimit source := withinLimit_of_read h
  have hlaid := parse_laidOut h
  have hlimit (o) (ho : o ∈ program.rendered) :
      o.2.start ≤ Span.limit ∧ o.2.stop ≤ Span.limit := by
    obtain ⟨-, hforward, hstop⟩ := Program.rendered_inside hlaid o ho
    rw [hlaid.span] at hstop
    exact ⟨Nat.le_trans hforward (Nat.le_trans hstop hsize), Nat.le_trans hstop hsize⟩
  refine ⟨program.toJson.toTree, Json.plain_toTree _, Program.toTree_nodes hlimit,
    fun range loc => ⟨?_, Json.erase_decorate _ program.toJson_unmarked⟩⟩
  refine (Json.decorate_eq _ (Program.toJson_nodal hlimit)).trans ?_
  refine congrArg program.toJson.toTree.decorated (funext fun span => ?_)
  cases loc <;> rfl

/-- A contract on the second line. -/
def secondLine : String := "\ncontract C \x7b\x7d"

/-- What it parses to. -/
def secondLineProgram : Program :=
  ⟨⟨0, 14⟩, [.contract ⟨⟨1, 14⟩, "C", .contract, false, [], []⟩]⟩

theorem parse_secondLine : parse secondLine false = .ok secondLineProgram := by
  rw [secondLine, parse, read_ofList_of_le (by decide)]
  cbv

/-- Line and column as JSON. -/
def lineAndColumn (line column : Nat) : Json :=
  .object [("line", .ofNat line), ("column", .ofNat column)]

/-- The JSON of the contract on the second line, with all marks. -/
theorem render_decorated_secondLine :
    parse secondLine = .ok secondLineProgram ∧
      (∃ tree : Json.Tree, tree.plain = secondLineProgram.toJson ∧
        tree.nodes.Perm secondLineProgram.rendered) ∧
      secondLineProgram.render (.ofSource secondLine true true) = .object
        [("type", .string "Program"),
          ("body", .array [.object
            [("type", .string "ContractStatement"), ("name", .string "C"),
              ("kind", .string "contract"), ("is_abstract", .bool false), ("is", .array []),
              ("body", .array []), ("start", .ofNat 1), ("end", .ofNat 14),
              ("range", .array [.ofNat 1, .ofNat 14]),
              ("loc", .object [("start", lineAndColumn 2 1), ("end", lineAndColumn 2 14)])]]),
          ("start", .ofNat 0), ("end", .ofNat 14), ("range", .array [.ofNat 0, .ofNat 14]),
          ("loc", .object [("start", lineAndColumn 1 1), ("end", lineAndColumn 2 14)])] ∧
      (secondLineProgram.render (.ofSource secondLine true true)).erase =
        secondLineProgram.toJson := by
  obtain ⟨tree, hplain, hnodes, hmarks⟩ := render_decorated parse_secondLine
  refine ⟨parse_secondLine, ⟨tree, hplain, hnodes⟩, ?_, (hmarks true true).2⟩
  rfl

end Source

end SolidityParser
