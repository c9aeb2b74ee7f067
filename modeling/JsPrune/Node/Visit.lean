import JsPrune.Node.Parts

/-!
# Reading a tree in order

A `Visitor` is shown a tree depth first: every node is entered, then its value is shown if it is a
literal, then its children follow in the order of the recipe, then it is left. Each of its hooks
changes what it knows so far.

`Node.visits` is the record of a whole reading. A `Census` counts the nodes entered, in all and by
kind.
-/

namespace JsPrune

/-- What a reader of trees does at each step; a hook that is not given does nothing. -/
structure Visitor (σ : Type) where
  /-- A node is entered. -/
  enter : Node → σ → σ := fun _ state => state
  /-- A node is left, after its children. -/
  leave : Node → σ → σ := fun _ state => state
  /-- The name of an identifier is shown. -/
  identifier : String → σ → σ := fun _ state => state
  /-- The value of a number literal is shown. -/
  number : Binary64 → σ → σ := fun _ state => state
  /-- The value of a string literal is shown. -/
  string : String → σ → σ := fun _ state => state
  /-- The value of a boolean literal is shown. -/
  boolean : Bool → σ → σ := fun _ state => state

namespace Visitor

variable {σ : Type}

/-- What is shown of a literal between entering and leaving it. -/
def leaf (visitor : Visitor σ) : Node → σ → σ
  | .identifier name => visitor.identifier name
  | .number value => visitor.number value
  | .string value => visitor.string value
  | .boolean value => visitor.boolean value
  | _ => id

/-- Shows a tree to a visitor. -/
def walk (visitor : Visitor σ) (node : Node) (state : σ) : σ :=
  visitor.leave node (node.children.attach.foldl (fun state child => walk visitor child.val state)
    (visitor.leaf node (visitor.enter node state)))
termination_by node
decreasing_by exact Node.sizeOf_lt_of_mem_children child.property

/-- A tree is shown as its children are, in order, between entering and leaving it. -/
theorem walk_eq (visitor : Visitor σ) (node : Node) (state : σ) :
    visitor.walk node state = visitor.leave node (node.children.foldl
      (fun state child => visitor.walk child state)
      (visitor.leaf node (visitor.enter node state))) := by
  rw [walk, List.foldl_attach (f := fun state child => visitor.walk child state)]

end Visitor

/-- One step of a depth-first reading. -/
inductive Visit where
  | enter (kind : Kind)
  | leave (kind : Kind)
  | identifier (name : String)
  | number (value : Binary64)
  | string (value : String)
  | boolean (value : Bool)
deriving DecidableEq

/-- The visitor that writes down every step. -/
def Visitor.scribe : Visitor (Array Visit) where
  enter node visits := visits.push (.enter node.kind)
  leave node visits := visits.push (.leave node.kind)
  identifier name visits := visits.push (.identifier name)
  number value visits := visits.push (.number value)
  string value visits := visits.push (.string value)
  boolean value visits := visits.push (.boolean value)

/-- The depth-first reading of a tree. -/
def Node.visits (node : Node) : List Visit := (Visitor.scribe.walk node #[]).toList

/-- How many nodes there are in a tree. -/
structure Census where
  /-- In all. -/
  total : Nat
  /-- Of each kind. -/
  count : Kind → Nat

namespace Census

/-- No node has been counted yet. -/
def empty : Census := ⟨0, fun _ => 0⟩

/-- One more node of this kind. -/
def add (kind : Kind) (census : Census) : Census :=
  ⟨census.total + 1, fun other => if other = kind then census.count other + 1 else census.count other⟩

/-- The kinds that occur, in their fixed order, with their counts. -/
def byKind (census : Census) : List (Kind × Nat) :=
  (Kind.all.map fun kind => (kind, census.count kind)).filter fun entry => 0 < entry.2

end Census

/-- The visitor that counts nodes. -/
def Visitor.counter : Visitor Census where
  enter node census := census.add node.kind

/-- The census of a tree. -/
def Node.census (node : Node) : Census := Visitor.counter.walk node .empty

end JsPrune
