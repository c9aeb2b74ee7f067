import JsPrune.Proofs.Conformance

/-!
# What a node holds, and where

`Node.Holds` says that a child stands in a field with a given slot. What is known of the children of a
node depends on the slots they stand in, so an argument that goes through all kinds of nodes asks, for
each child of each kind, for its slot. The answers are collected here, one lemma for each field with
children; the name of a lemma is that of the kind, followed by that of the child if there are several.

Main statements: `Holds.accepts`, by which the kind of a child is known from its slot, and
`Holds.mem_children`.
-/

namespace JsPrune

namespace Node

/-- A child stands in a field with this slot. -/
def Holds (node : Node) (slot : Slot) (child : Node) : Prop :=
  ∃ field part, (field, part) ∈ node.fields ∧ field.role.slot? = some slot ∧ child ∈ part.nodes

namespace Holds

variable {node child : Node} {slot : Slot} {field : String}

/-- What a node holds is one of its children. -/
theorem mem_children (h : node.Holds slot child) : child ∈ node.children := by
  obtain ⟨field, part, hfield, _, hchild⟩ := h
  exact mem_children_of_mem_nodes (List.of_mem_zip hfield).2 hchild

/-- Where all slots accept what stands in them, a child is of a kind that its slot accepts. -/
theorem accepts (h : node.Holds slot child) (hslots : node.slotsAccept = true) :
    slot.accepts child.kind = true := by
  obtain ⟨field, part, hfield, hslot, hchild⟩ := h
  obtain ⟨other, hother, haccepts⟩ := slotsAccept_iff.mp hslots field part hfield child hchild
  rw [hslot] at hother
  cases hother
  exact haccepts

/-! ## By the role of the field -/

/-- A required child stands in the slot of its field. -/
theorem ofChild (h : (⟨field, .child slot⟩, .child child) ∈ node.fields) : node.Holds slot child :=
  ⟨_, _, h, rfl, .head _⟩

/-- An optional child, if it is there, stands in the slot of its field. -/
theorem ofOptional {child? : Option Node}
    (h : (⟨field, .optional slot⟩, .optional child?) ∈ node.fields) (hchild : child ∈ child?) :
    node.Holds slot child :=
  ⟨_, _, h, rfl, Option.mem_toList.mpr hchild⟩

/-- Every element of a list of children stands in the slot of the field. -/
theorem ofSequence {nodes : List Node}
    (h : (⟨field, .sequence slot⟩, .sequence nodes) ∈ node.fields) (hchild : child ∈ nodes) :
    node.Holds slot child :=
  ⟨_, _, h, rfl, hchild⟩

/-! ## Statements and their parts -/

section Statements

variable {test yes no init step repeated subject value : Node}
  {no? init? test? step? value? handler finalizer : Option Node} {nodes : List Node}
  {text : String} {name : Option String} {names : List String}

/-- All lists of statements hold statements, the program included. -/
theorem body (tag : BodyTag) (h : child ∈ nodes) : (body tag nodes).Holds .statement child := by
  cases tag <;> exact ofSequence (.head _) h

/-- An expression statement is the place of an expression. -/
theorem simple : (simple value).Holds .expression value := ofChild (.head _)

/-- A declaration holds its bindings, which stand nowhere else. -/
theorem declaration (tag : DeclarationTag) (h : child ∈ nodes) :
    (declaration tag nodes).Holds .definition child := by
  cases tag <;> exact ofSequence (.head _) h

/-- The value of a binding, if it has one, is an expression. -/
theorem varDef (h : child ∈ value?) : (varDef text value?).Holds .expression child :=
  ofOptional (.tail _ (.head _)) h

theorem ifElse_test : (ifElse test yes no?).Holds .expression test := ofChild (.head _)

theorem ifElse_yes : (ifElse test yes no?).Holds .statement yes := ofChild (.tail _ (.head _))

/-- What stands behind an `else` is a statement like the body. -/
theorem ifElse_no (h : child ∈ no?) : (ifElse test yes no?).Holds .statement child :=
  ofOptional (.tail _ (.tail _ (.head _))) h

/-- The test stands first in the recipe of both loops, though a `do` loop prints it last. -/
theorem loop_test (tag : LoopTag) : (loop tag test repeated).Holds .expression test := by
  cases tag <;> exact ofChild (.head _)

theorem loop_body (tag : LoopTag) : (loop tag test repeated).Holds .statement repeated := by
  cases tag <;> exact ofChild (.tail _ (.head _))

/-- The first part of a loop head has a slot of its own, for a declaration or an expression. -/
theorem forLoop_init (h : child ∈ init?) :
    (forLoop init? test? step? repeated).Holds .forInit child :=
  ofOptional (.head _) h

theorem forLoop_test (h : child ∈ test?) :
    (forLoop init? test? step? repeated).Holds .expression child :=
  ofOptional (.tail _ (.head _)) h

theorem forLoop_step (h : child ∈ step?) :
    (forLoop init? test? step? repeated).Holds .expression child :=
  ofOptional (.tail _ (.tail _ (.head _))) h

theorem forLoop_body : (forLoop init? test? step? repeated).Holds .statement repeated :=
  ofChild (.tail _ (.tail _ (.tail _ (.head _))))

/-- A loop over the keys of an object has its target in the same slot. -/
theorem forIn_init : (forIn init subject repeated).Holds .forInit init := ofChild (.head _)

theorem forIn_subject : (forIn init subject repeated).Holds .expression subject :=
  ofChild (.tail _ (.head _))

theorem forIn_body : (forIn init subject repeated).Holds .statement repeated :=
  ofChild (.tail _ (.tail _ (.head _)))

/-- What is returned or thrown, if anything, is an expression. -/
theorem exit (tag : ExitTag) (h : child ∈ value?) : (exit tag value?).Holds .expression child := by
  cases tag <;> exact ofOptional (.head _) h

theorem labeled : (labeled text repeated).Holds .statement repeated := ofChild (.tail _ (.head _))

theorem switch_subject : (switch subject nodes).Holds .expression subject := ofChild (.head _)

/-- A `switch` holds its branches, each a `case` or the default branch. -/
theorem switch_branch (h : child ∈ nodes) : (switch subject nodes).Holds .switchBranch child :=
  ofSequence (.tail _ (.head _)) h

theorem case_test : (case_ test nodes).Holds .expression test := ofChild (.head _)

theorem case_statement (h : child ∈ nodes) : (case_ test nodes).Holds .statement child :=
  ofSequence (.tail _ (.head _)) h

theorem try_statement (h : child ∈ nodes) :
    (try_ nodes handler finalizer).Holds .statement child :=
  ofSequence (.head _) h

/-- The handler of a `try` stands in a slot that takes nothing else. -/
theorem try_handler (h : child ∈ handler) :
    (try_ nodes handler finalizer).Holds .catchClause child :=
  ofOptional (.tail _ (.head _)) h

/-- So does its last clause. -/
theorem try_finalizer (h : child ∈ finalizer) :
    (try_ nodes handler finalizer).Holds .finallyClause child :=
  ofOptional (.tail _ (.tail _ (.head _))) h

theorem catch_ (h : child ∈ nodes) : (catch_ text nodes).Holds .statement child :=
  ofSequence (.tail _ (.head _)) h

/-- A function that is declared and one that is an expression both have statements for a body. -/
theorem lambda (tag : LambdaTag) (h : child ∈ nodes) :
    (lambda tag name names nodes).Holds .statement child := by
  cases tag <;> exact ofSequence (.tail _ (.tail _ (.head _))) h

end Statements

/-! ## Expressions -/

section Expressions

variable {callee owner index operand left right test yes no value : Node} {nodes : List Node}
  {text : String} {unaryOp : UnaryOp} {binaryOp : BinaryOp}

/-- What is called or constructed is an expression. -/
theorem call_callee (tag : CallTag) : (call tag callee nodes).Holds .expression callee := by
  cases tag <;> exact ofChild (.head _)

theorem call_argument (tag : CallTag) (h : child ∈ nodes) :
    (call tag callee nodes).Holds .expression child := by
  cases tag <;> exact ofSequence (.tail _ (.head _)) h

theorem sequence (h : child ∈ nodes) : (sequence nodes).Holds .expression child :=
  ofSequence (.head _) h

/-- The name behind a point is plain data, so a member by name holds its owner only. -/
theorem dot : (dot owner text).Holds .expression owner := ofChild (.head _)

theorem sub_owner : (sub owner index).Holds .expression owner := ofChild (.head _)

theorem sub_index : (sub owner index).Holds .expression index := ofChild (.tail _ (.head _))

/-- An operand stands second in the recipe, behind the operator. -/
theorem unary (tag : UnaryTag) : (unary tag unaryOp operand).Holds .expression operand := by
  cases tag <;> exact ofChild (.tail _ (.head _))

theorem binary_left (tag : BinaryTag) : (binary tag left binaryOp right).Holds .expression left := by
  cases tag <;> exact ofChild (.head _)

theorem binary_right (tag : BinaryTag) :
    (binary tag left binaryOp right).Holds .expression right := by
  cases tag <;> exact ofChild (.tail _ (.tail _ (.head _)))

theorem conditional_test : (conditional test yes no).Holds .expression test := ofChild (.head _)

theorem conditional_yes : (conditional test yes no).Holds .expression yes :=
  ofChild (.tail _ (.head _))

theorem conditional_no : (conditional test yes no).Holds .expression no :=
  ofChild (.tail _ (.tail _ (.head _)))

theorem array (h : child ∈ nodes) : (array nodes).Holds .expression child := ofSequence (.head _) h

/-- An object holds its entries, which stand nowhere else. -/
theorem object (h : child ∈ nodes) : (object nodes).Holds .property child := ofSequence (.head _) h

/-- The key of an entry is plain data. -/
theorem property : (property text value).Holds .expression value := ofChild (.tail _ (.head _))

end Expressions

end Holds

end Node

end JsPrune
