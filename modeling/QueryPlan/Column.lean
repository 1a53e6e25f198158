/-!
# QueryPlan.Column

**Handles of nodes and of their columns.** A plan keeps its nodes in an arena that only
grows, so a node is named by its place there (`NodeId`) and the name stays good for as long
as the plan lives. A column of a node's output is named by the node and a position
(`ColumnRef`).

A `ColumnMap` says where the columns of one node's output are found after a change of the
plan. It is a partial function given by its graph, and of two pairs for one column the first
counts.
-/

namespace QueryPlan

/-- The place of a node in the arena of its plan. -/
structure NodeId where
  index : Nat
  deriving DecidableEq, Repr, Inhabited

/-- Written `n7` for the node at place 7. -/
def NodeId.text (id : NodeId) : String := s!"n{id.index}"

/-- One output column of a node of the same plan. -/
structure ColumnRef where
  source : NodeId
  index : Nat
  deriving DecidableEq, Repr, Inhabited

namespace ColumnRef

/-- Written `n7#2` for column 2 of node 7. -/
def text (c : ColumnRef) : String := s!"{c.source.text}#{c.index}"

/-- The order by node, then by position. -/
def le (a b : ColumnRef) : Bool :=
  a.source.index < b.source.index ||
    (a.source.index == b.source.index && a.index <= b.index)

/-- The first `width` columns of a node, in order. -/
def range (source : NodeId) (width : Nat) : List ColumnRef :=
  (List.range width).map (ColumnRef.mk source)

@[simp] theorem length_range (source : NodeId) (width : Nat) :
    (range source width).length = width := by
  simp [range]

theorem mem_range {source : NodeId} {width : Nat} {c : ColumnRef} :
    c ∈ range source width ↔ c.source = source ∧ c.index < width := by
  cases c with
  | mk s i =>
    simp only [range, List.mem_map, List.mem_range, ColumnRef.mk.injEq]
    constructor
    · rintro ⟨_, hlt, rfl, rfl⟩
      exact ⟨rfl, hlt⟩
    · rintro ⟨rfl, hlt⟩
      exact ⟨i, hlt, rfl, rfl⟩

end ColumnRef

/-- Old position and new position, for every column that a change keeps. -/
abbrev ColumnMap := List (Nat × Nat)

namespace ColumnMap

/-- The new position of an old column, if the change keeps it. -/
def get? (m : ColumnMap) (column : Nat) : Option Nat := List.lookup column m

/-- The map that sends the columns of `kept` to their places in `kept`. -/
def ofKept (kept : List Nat) : ColumnMap := kept.zipIdx

/-- Both sides of a map moved up, the old side by `old` and the new side by `new`. -/
def shift (m : ColumnMap) (old new : Nat) : ColumnMap :=
  m.map fun (o, n) => (old + o, new + n)

/-- The map that moves the first `width` columns from `old` upwards to `new` upwards. -/
def block (width old new : Nat) : ColumnMap :=
  (List.range width).map fun c => (old + c, new + c)

end ColumnMap

end QueryPlan
