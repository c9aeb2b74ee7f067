import JsPrune.Proofs.Preorder
import JsPrune.Proofs.Printable
import JsPrune.Proofs.Traversal

/-!
# Trees as the grammar builds them

A tree is `Grammatical` when every child is accepted by its slot and every node is `Shaped`: what
`Spelled` asks of it, save that numbers and keys, which the printer spells afresh, are free. It is
`ElseBound` when no `else` stands behind a body that would take it for itself.

Both say something of every node of the tree, at every depth. `Node.Suits` puts them together with
the slot that a tree is built for, and `formed_of_seats` is how one comes about: a shaped node whose
fields all hold what suits them.
-/

namespace JsPrune

namespace Node

/-- Every node of the tree, at every depth, is as `good` says. -/
def Throughout (good : Node → Prop) (node : Node) : Prop := ∀ inner ∈ node.preorder, good inner

theorem throughout_iff {good : Node → Prop} {node : Node} :
    node.Throughout good ↔ good node ∧ ∀ child ∈ node.children, child.Throughout good :=
  forall_preorder

/-- What the grammar asks of a single node, whatever the values of numbers and keys. -/
def Shaped : Node → Prop
  | number _ => True
  | property _ _ => True
  | node => node.Spelled

/-- No `else` stands behind a body that would take it for itself. -/
def KeepsElse : Node → Prop
  | ifElse _ yes (some _) => yes.endsWithOpenIf = false
  | _ => True

/-- Every child, at every depth, is accepted by its slot, and every node is shaped well. -/
def Grammatical (node : Node) : Prop :=
  node.Throughout fun inner => inner.slotsAccept = true ∧ inner.Shaped

/-- Every `else`, at every depth, belongs to the `if` it is printed behind. -/
def ElseBound (node : Node) : Prop := node.Throughout KeepsElse

theorem Grammatical.conforms {node : Node} (h : node.Grammatical) : node.Conforms :=
  conforms_iff_preorder.mpr fun inner hmem => (h inner hmem).1

/-- A tree with every `else` bound is read back as it is, without further braces. -/
theorem braced_eq_self {node : Node} (h : node.ElseBound) : node.braced = node := by
  induction node using childInduction with
  | step node ih =>
    obtain ⟨keeps, below⟩ := throughout_iff.mp h
    have same : ∀ child ∈ node.children, child.braced = child :=
      fun child hchild => ih child hchild (below child hchild)
    by_cases helse : ∃ test yes no, node = ifElse test yes (some no)
    · obtain ⟨test, yes, no, rfl⟩ := helse
      have closed : yes.endsWithOpenIf = false := keeps
      rw [braced_ifElse, closed, same test Holds.ifElse_test.mem_children,
        same yes Holds.ifElse_yes.mem_children, same no (Holds.ifElse_no rfl).mem_children]
      rfl
    · rw [braced_of_ne_ifElse fun test yes no heq => helse ⟨test, yes, no, heq⟩]
      exact mapChildren_eq_self same

/-- A tree that the grammar may build for a place with this slot. -/
structure Suits (slot : Slot) (node : Node) : Prop where
  accepted : slot.accepts node.kind = true
  grammatical : node.Grammatical
  elseBound : node.ElseBound

end Node

/-- What a field holds suits the slot of the field. -/
def Field.Seats (field : Field) (part : Part) : Prop :=
  ∀ child ∈ part.nodes, ∃ slot, field.role.slot? = some slot ∧ child.Suits slot

namespace Field.Seats

variable {name : String} {slot : Slot}

theorem literal {sort : DataSort} {datum : Datum} :
    Seats ⟨name, .literal sort⟩ (.literal datum) := nofun

theorem child {node : Node} (h : node.Suits slot) : Seats ⟨name, .child slot⟩ (.child node) :=
  List.forall_mem_singleton.mpr ⟨slot, rfl, h⟩

theorem optional {node? : Option Node} (h : ∀ node ∈ node?, node.Suits slot) :
    Seats ⟨name, .optional slot⟩ (.optional node?) :=
  fun node hmem => ⟨slot, rfl, h node (Option.mem_toList.mp hmem)⟩

theorem sequence {nodes : List Node} (h : ∀ node ∈ nodes, node.Suits slot) :
    Seats ⟨name, .sequence slot⟩ (.sequence nodes) := fun node hmem => ⟨slot, rfl, h node hmem⟩

end Field.Seats

namespace Node

/-- A shaped node whose fields hold what suits them. -/
theorem formed_of_seats {node : Node} (shaped : node.Shaped) (keeps : node.KeepsElse)
    (seats : node.fields.Forall fun entry => entry.1.Seats entry.2) :
    node.Grammatical ∧ node.ElseBound := by
  rw [List.forall_iff_forall_mem] at seats
  have slots : node.slotsAccept = true := by
    rw [slotsAccept_iff]
    intro field part hentry child hchild
    obtain ⟨slot, hslot, suits⟩ := seats (field, part) hentry child hchild
    exact ⟨slot, hslot, suits.accepted⟩
  have below : ∀ child ∈ node.children, ∃ slot, child.Suits slot := by
    intro child hchild
    obtain ⟨part, hpart, hchild⟩ := List.mem_flatMap.mp hchild
    obtain ⟨field, hentry⟩ := exists_field hpart
    obtain ⟨slot, _, suits⟩ := seats (field, part) hentry child hchild
    exact ⟨slot, suits⟩
  refine ⟨throughout_iff.mpr ⟨⟨slots, shaped⟩, ?_⟩, throughout_iff.mpr ⟨keeps, ?_⟩⟩
  · intro child hchild
    obtain ⟨slot, suits⟩ := below child hchild
    exact suits.grammatical
  · intro child hchild
    obtain ⟨slot, suits⟩ := below child hchild
    exact suits.elseBound

theorem suits_of_seats {slot : Slot} {node : Node} (ha : slot.accepts node.kind = true)
    (shaped : node.Shaped) (keeps : node.KeepsElse)
    (seats : node.fields.Forall fun entry => entry.1.Seats entry.2) : node.Suits slot := by
  obtain ⟨grammatical, elseBound⟩ := formed_of_seats shaped keeps seats
  exact ⟨ha, grammatical, elseBound⟩

/-- An expression may stand where a declaration may. -/
theorem Suits.forInit {node : Node} (h : node.Suits .expression) : node.Suits .forInit := by
  refine ⟨?_, h.grammatical, h.elseBound⟩
  have expression : node.kind.isExpression = true := h.accepted
  rw [Slot.accepts, expression, Bool.or_true]

end Node

end JsPrune
