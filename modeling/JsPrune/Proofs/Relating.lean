import JsPrune.Proofs.Traversal

/-!
# Two traversals side by side

What tells two runs of a traversal apart may be the trail they start from, the state that their
filters keep, or the tree. `Relates P Q` compares two computations: from trails that `P` relates they
give the same answer, a result or an error, and they leave trails that `Q` relates. There is one rule
for each operation that a traversal is made of.

Main result: `descend_relates`. Two descents into a node keep a relation if what is done with each
child keeps it, whatever the relation is.
-/

namespace JsPrune

variable {σ τ α β γ : Type}

/-- From trails that `P` relates, both effects give the same answer and leave trails that `Q`
relates. -/
def TrailM.Relates (P Q : Trail τ → Trail σ → Prop) (effect : TrailM τ α) (other : TrailM σ α) : Prop :=
  ∀ trail trail', P trail trail' → (effect.run trail).1 = (other.run trail').1 ∧
    Q (effect.run trail).2 (other.run trail').2

theorem TrailM.Relates.pure {P : Trail τ → Trail σ → Prop} (value : α) :
    TrailM.Relates P P (Pure.pure value) (Pure.pure value) := fun _ _ h => ⟨rfl, h⟩

/-- From trails that `P` relates, both computations end in the same way, with a result or with an
error, and leave trails that `Q` relates. -/
def Walk.Relates (P Q : Trail τ → Trail σ → Prop) (walk : Walk τ α) (other : Walk σ α) : Prop :=
  TrailM.Relates P Q walk.run other.run

namespace Walk.Relates

variable {P Q R : Trail τ → Trail σ → Prop} {walk : Walk τ α} {other : Walk σ α}

theorem ofExcept (result : Except Error α) :
    Walk.Relates P P (Walk.ofExcept result) (Walk.ofExcept result) := fun _ _ h => ⟨rfl, h⟩

/-- An answer keeps the trails related. -/
theorem pure (value : α) : Walk.Relates P P (Pure.pure value) (Pure.pure value) :=
  ofExcept (.ok value)

theorem throw (error : Error) :
    Walk.Relates (α := α) P P (MonadExcept.throw error) (MonadExcept.throw error) :=
  ofExcept (.error error)

/-- An error of the first step ends both runs, so the trails it leaves must already be as they are
to be in the end. -/
theorem bind (h : Walk.Relates P Q walk other) {next : α → Walk τ β} {next' : α → Walk σ β}
    (hn : ∀ a, Walk.Relates Q Q (next a) (next' a)) :
    Walk.Relates P Q (walk >>= next) (other >>= next') := by
  intro trail trail' htrail
  obtain ⟨answer, left⟩ := h trail trail' htrail
  rw [ExceptT.run_bind, ExceptT.run_bind, StateT.run_bind, StateT.run_bind]
  cases hrun : walk.run.run trail with
  | mk result after =>
    cases hrun' : other.run.run trail' with
    | mk result' after' =>
      rw [hrun, hrun'] at answer left
      cases answer
      cases result with
      | ok a => exact hn a after after' left
      | error error => exact ⟨rfl, left⟩

/-- A change to the answer keeps the trails related. -/
theorem map (f : α → β) (h : Walk.Relates P Q walk other) :
    Walk.Relates P Q (f <$> walk) (f <$> other) := by
  rw [map_eq_pure_bind, map_eq_pure_bind]
  exact h.bind fun a => pure (f a)

/-- So does a change to the error. -/
theorem adapt (f : Error → Error) (h : Walk.Relates P Q walk other) :
    Walk.Relates P Q (ExceptT.adapt f walk) (ExceptT.adapt f other) := by
  intro trail trail' htrail
  obtain ⟨answer, left⟩ := h trail trail' htrail
  rw [run_adapt, run_adapt]
  exact ⟨congrArg (Except.mapError f) answer, left⟩

/-- An effect on the trail comes first; its answers need not be the same. -/
theorem lift_bind {step : TrailM τ β} {step' : TrailM σ γ} {next : β → Walk τ α}
    {next' : γ → Walk σ α}
    (h : ∀ trail trail', P trail trail' → Q (step.run trail).2 (step'.run trail').2 ∧
      Walk.Relates Q R (next (step.run trail).1) (next' (step'.run trail').1)) :
    Walk.Relates P R (ExceptT.lift step >>= next) (ExceptT.lift step' >>= next') := by
  intro trail trail' htrail
  obtain ⟨left, rest⟩ := h trail trail' htrail
  rw [ExceptT.run_bind_lift, ExceptT.run_bind_lift, StateT.run_bind, StateT.run_bind]
  exact rest _ _ left

/-- A change of the trail comes first. -/
theorem modify_bind {change : Trail τ → Trail τ} {change' : Trail σ → Trail σ}
    {next : Unit → Walk τ α} {next' : Unit → Walk σ α}
    (h : ∀ trail trail', P trail trail' → Q (change trail) (change' trail'))
    (hn : Walk.Relates Q R (next ()) (next' ())) :
    Walk.Relates P R ((MonadState.modifyGet fun trail => ((), change trail)) >>= next)
      ((MonadState.modifyGet fun trail => ((), change' trail)) >>= next') :=
  fun trail trail' htrail => hn _ _ (h trail trail' htrail)

/-- Whatever is done with the results. -/
theorem answer (h : Walk.Relates P Q walk other)
    {after : Except Error α → TrailM τ (Except Error β)}
    {after' : Except Error α → TrailM σ (Except Error β)}
    (ha : ∀ result, TrailM.Relates Q R (after result) (after' result)) :
    Walk.Relates P R (ExceptT.mk (walk.run >>= after)) (ExceptT.mk (other.run >>= after')) := by
  intro trail trail' htrail
  obtain ⟨answer, left⟩ := h trail trail' htrail
  rw [ExceptT.run_mk, ExceptT.run_mk, StateT.run_bind, StateT.run_bind]
  cases hrun : walk.run.run trail with
  | mk result last =>
    cases hrun' : other.run.run trail' with
    | mk result' last' =>
      rw [hrun, hrun'] at answer left
      cases answer
      exact ha result last last' left

end Walk.Relates

/-! ## The descent -/

namespace Node

open Walk (Relates)

variable {R : Trail τ → Trail σ → Prop} {walk : Node → Walk τ Outcome}
  {walk' : Node → Walk σ Outcome} {parent : Kind} {field : Field}

/-- Letting a child pass looks at no trail. -/
theorem accept_relates {slot : Slot} (node : Node) :
    Relates R R (accept parent field slot node) (accept parent field slot node) := by
  unfold accept
  split
  · exact .pure node
  · exact .throw _

/-- Descending into a list keeps what each child keeps. -/
theorem descendList_relates {slot : Slot} {nodes : List Node}
    (hw : ∀ child ∈ nodes, Relates R R (walk child) (walk' child)) :
    Relates R R (descendList walk parent field slot nodes)
      (descendList walk' parent field slot nodes) := by
  induction nodes with
  | nil => exact .pure []
  | cons child rest ih =>
    have hrest := ih fun other hmem => hw other (List.mem_cons_of_mem _ hmem)
    refine (hw child (List.mem_cons_self ..)).bind fun outcome => ?_
    cases outcome with
    | removed => exact hrest
    | node new => exact (accept_relates new).bind fun kept => hrest.bind fun _ => .pure _

/-- So does descending into one field. -/
theorem descendPart_relates {part : Part}
    (hw : ∀ child ∈ part.nodes, Relates R R (walk child) (walk' child)) :
    Relates R R (descendPart walk parent field part) (descendPart walk' parent field part) := by
  -- Both walks see the same field, so they take the same branch.
  obtain ⟨name, role⟩ := field
  cases role with
  | literal sort =>
    cases part with
    | literal datum => exact .pure _
    | _ => exact .throw _
  | child slot =>
    cases part with
    | child node =>
      refine (hw node (List.mem_singleton.mpr rfl)).bind fun outcome => ?_
      cases outcome with
      | node new => exact (accept_relates new).bind fun _ => .pure _
      | removed =>
        by_cases h : slot = .statement
        · simp only [h, if_true]
          exact .pure _
        · simp only [h, if_false]
          exact .throw _
    | _ => exact .throw _
  | optional slot =>
    cases part with
    | optional node =>
      cases node with
      | none => exact .pure _
      | some node =>
        refine (hw node (List.mem_singleton.mpr rfl)).bind fun outcome => ?_
        cases outcome with
        | node new => exact (accept_relates new).bind fun _ => .pure _
        | removed => exact .pure _
    | _ => exact .throw _
  | sequence slot =>
    cases part with
    | sequence nodes => exact (descendList_relates hw).bind fun _ => .pure _
    | _ => exact .throw _

/-- So does descending into all of them. -/
theorem descendParts_relates {fields : List Field} {parts : List Part}
    (hw : ∀ part ∈ parts, ∀ child ∈ part.nodes, Relates R R (walk child) (walk' child)) :
    Relates R R (descendParts walk parent fields parts) (descendParts walk' parent fields parts) := by
  induction fields generalizing parts with
  | nil => exact .pure []
  | cons field fields ih =>
    cases parts with
    | nil => exact .pure []
    | cons part parts =>
      have hrest := ih fun other hmem => hw other (List.mem_cons_of_mem _ hmem)
      exact ((descendPart_relates (hw part (List.mem_cons_self ..))).adapt _).bind fun _ =>
        hrest.bind fun _ => .pure _

/-- **Two descents keep a relation** if what is done with the children keeps it. -/
theorem descend_relates {node : Node}
    (hw : ∀ child ∈ node.children, Relates R R (walk child) (walk' child)) :
    Relates R R (node.descend walk) (node.descend walk') := by
  unfold descend
  split
  · exact .pure node
  · split
    · exact (descendParts_relates fun part hp child hc =>
        hw child (mem_children_of_mem_nodes hp hc)).bind fun _ => .pure _
    · exact .throw _

end Node

end JsPrune
