import JsPrune.Proofs.Continuing
import JsPrune.Proofs.Halting
import JsPrune.Proofs.Tidying

/-!
# What a descent does

A descent hands the children of a node to a function with a state of its own, one after the other, and
stops at the first answer that it can not use. `Place.objection?` says which answers these are: an
error, a node that the slot rejects, and the removal of a child that has to be there, unless a lone
semicolon can stand in for it. As long as there is no objection the children are `Heard`, and at the
end the outcomes take the places of the children (`Part.refill`).

`Consults` says this of any step that a descent is made of. It is closed under sequence
(`Consults.bind`), so the places of a node are gone through list by list, field by field.

Main result: `descend_contract`.
-/

namespace JsPrune

variable {σ α β : Type}

namespace Place

/-- What a descent has against an answer for the child in this place, if anything. -/
def objection? (place : Place) : Except Error Outcome → Option Error
  | .error error => some error
  | .ok (.node new) =>
    if place.slot.accepts new.kind then none
    else some (Node.misplaced place.parent place.field place.slot new.kind)
  | .ok .removed =>
    match place.field.role with
    | .child slot =>
      if slot = .statement then none else some (Node.required place.parent place.field slot)
    | _ => none

/-- The function is called on the children in these places, in order, and no answer gives rise to an
objection. `after` is the state that the last call leaves. -/
inductive Heard (walk : Node → ExceptT Error (StateM σ) Outcome) :
    σ → List Place → List Outcome → σ → Prop
  | nil (state : σ) : Heard walk state [] [] state
  | cons {before between after : σ} {place : Place} {places : List Place} {outcome : Outcome}
      {outcomes : List Outcome} (call : (walk place.child).run.run before = (.ok outcome, between))
      (fine : place.objection? (.ok outcome) = none) (rest : Heard walk between places outcomes after) :
      Heard walk before (place :: places) (outcome :: outcomes) after

variable {walk : Node → ExceptT Error (StateM σ) Outcome}

/-- Two stretches of places that were heard one after the other were heard together. -/
theorem Heard.append {before between after : σ} {places more : List Place}
    {outcomes further : List Outcome} (h : Heard walk before places outcomes between)
    (hm : Heard walk between more further after) :
    Heard walk before (places ++ more) (outcomes ++ further) after := by
  induction h with
  | nil => exact hm
  | cons call fine _ ih => exact .cons call fine (ih hm)

/-- A child that nothing is objected to is accepted by its slot. -/
theorem accepts_of_objection?_eq_none {place : Place} {new : Node}
    (h : place.objection? (.ok (.node new)) = none) : place.slot.accepts new.kind = true := by
  rw [objection?] at h
  split at h
  · assumption
  · cases h

/-- An objection to a child is that its slot does not accept it. -/
theorem misplaced_of_objection? {place : Place} {new : Node} {error : Error}
    (h : place.objection? (.ok (.node new)) = some error) : ¬ place.slot.accepts new.kind = true ∧
      error = Node.misplaced place.parent place.field place.slot new.kind := by
  rw [objection?] at h
  split at h
  · cases h
  · next rejected =>
    cases h
    exact ⟨rejected, rfl⟩

/-- An objection is the function's own error, or it names the field. -/
theorem objection?_cases {place : Place} {answer : Except Error Outcome} {error : Error}
    (h : place.objection? answer = some error) : answer = .error error ∨
      ∃ reason, error = .structural place.parent.name place.field.name reason := by
  unfold objection? at h
  split at h
  · cases h
    exact .inl rfl
  · split at h
    · cases h
    · cases h
      exact .inr ⟨_, rfl⟩
  · split at h
    · split at h
      · cases h
      · cases h
        exact .inr ⟨_, rfl⟩
    · cases h

end Place

/-- An objection in the frame of the field. -/
def Place.framed (place : Place) (error : Error) : Error :=
  error.withFrame (Node.frame place.parent place.field)

open Place (Heard)

/-! ## Steps of a descent -/

/-- From whatever state, the step calls `walk` on the children in these places, in order. If no answer
gives rise to an objection, it succeeds with a value that `result` allows for these outcomes; otherwise
the call that does is the last, and the objection comes out, in a frame or not. -/
def Consults (walk : Node → ExceptT Error (StateM σ) Outcome) (framed : Place → Error → Error)
    (step : ExceptT Error (StateM σ) α) (places : List Place) (result : List Outcome → α → Prop) : Prop :=
  ∀ before,
    (∃ outcomes value after, Heard walk before places outcomes after ∧
      step.run.run before = (.ok value, after) ∧ result outcomes value) ∨
    ∃ earlier place later outcomes between answer error after, places = earlier ++ place :: later ∧
      Heard walk before earlier outcomes between ∧
      (walk place.child).run.run between = (answer, after) ∧ place.objection? answer = some error ∧
      step.run.run before = (.error (framed place error), after)

namespace Consults

variable {walk : Node → ExceptT Error (StateM σ) Outcome} {framed : Place → Error → Error}
  {step : ExceptT Error (StateM σ) α} {places more : List Place} {result : List Outcome → α → Prop}

/-- An answer consults no place. -/
theorem pure {value : α} (h : result [] value) :
    Consults walk framed (Pure.pure value) [] result :=
  fun before => .inl ⟨[], value, before, .nil before, rfl, h⟩

/-- What is known of the result may be said in fewer words. -/
theorem mono (h : Consults walk framed step places result) {final : List Outcome → α → Prop}
    (hf : ∀ outcomes value, result outcomes value → final outcomes value) :
    Consults walk framed step places final := by
  intro before
  refine (h before).imp_left ?_
  rintro ⟨outcomes, value, after, heard, run, hvalue⟩
  exact ⟨outcomes, value, after, heard, run, hf _ _ hvalue⟩

/-- Two steps consult the places of the first and then those of the second, and share the outcomes.
-/
theorem bind (h : Consults walk framed step places result) {next : α → ExceptT Error (StateM σ) β}
    {final : List Outcome → β → Prop}
    (hn : ∀ outcomes value, result outcomes value →
      Consults walk framed (next value) more fun further last => final (outcomes ++ further) last) :
    Consults walk framed (step >>= next) (places ++ more) final := by
  intro before
  rw [ExceptT.run_bind, StateT.run_bind]
  obtain ⟨outcomes, value, between, heard, run, hvalue⟩ | ⟨earlier, place, later, outcomes, between,
    answer, error, after, hplaces, heard, call, objection, run⟩ := h before
  · rw [run]
    obtain ⟨further, last, after, heard', run', hlast⟩ | ⟨earlier, place, later, further, between',
      answer, error, after, hmore, heard', call, objection, run'⟩ := hn outcomes value hvalue between
    · exact .inl ⟨_, last, after, heard.append heard', run', hlast⟩
    · refine .inr ⟨places ++ earlier, place, later, _, between', answer, error, after, ?_,
        heard.append heard', call, objection, run'⟩
      rw [hmore, List.append_assoc]
  · rw [run]
    refine .inr ⟨earlier, place, later ++ more, outcomes, between, answer, error, after, ?_, heard,
      call, objection, rfl⟩
    rw [hplaces, List.append_assoc, List.cons_append]

/-- A result that is only changed consults no further place. -/
theorem map (h : Consults walk framed step places result) {f : α → β}
    {final : List Outcome → β → Prop}
    (hf : ∀ outcomes value, result outcomes value → final outcomes (f value)) :
    Consults walk framed (step >>= fun value => Pure.pure (f value)) places final := by
  have whole : Consults walk framed (step >>= fun value => Pure.pure (f value)) (places ++ []) final :=
    h.bind fun outcomes value hvalue =>
      .pure (by rw [List.append_nil]; exact hf outcomes value hvalue)
  rwa [List.append_nil] at whole

/-- A call and what is done with its outcome. -/
theorem call (place : Place) {next : Outcome → ExceptT Error (StateM σ) α}
    (hfine : ∀ outcome, place.objection? (.ok outcome) = none →
      Consults walk (fun _ error => error) (next outcome) more fun further value =>
        result (outcome :: further) value)
    (hobjection : ∀ outcome error, place.objection? (.ok outcome) = some error →
      next outcome = throw error) :
    Consults walk (fun _ error => error) (walk place.child >>= next) (place :: more) result := by
  intro before
  rw [ExceptT.run_bind, StateT.run_bind]
  cases hcall : (walk place.child).run.run before with
  | mk answer between =>
    cases answer with
    | error error =>
      exact .inr ⟨[], place, more, [], before, _, error, between, rfl, .nil before, hcall, rfl, rfl⟩
    | ok outcome =>
      cases objection : place.objection? (.ok outcome) with
      | some error =>
        refine .inr ⟨[], place, more, [], before, _, error, between, rfl, .nil before, hcall,
          objection, ?_⟩
        show (next outcome).run.run between = _
        rw [hobjection outcome error objection]
        rfl
      | none =>
        obtain ⟨further, value, after, heard, run, hvalue⟩ | ⟨earlier, last, later, further, between',
          answer, error, after, hmore, heard, lastCall, lastObjection, run⟩ :=
          hfine outcome objection between
        · exact .inl ⟨_, value, after, .cons hcall objection heard, run, hvalue⟩
        · refine .inr ⟨place :: earlier, last, later, _, between', answer, error, after, ?_,
            .cons hcall objection heard, lastCall, lastObjection, run⟩
          rw [hmore, List.cons_append]

/-- A frame around the step is a frame around each objection. -/
theorem adapt {frame : Error → Error} (h : Consults walk (fun _ error => error) step places result)
    (hframe : ∀ place ∈ places, framed place = frame) :
    Consults walk framed (ExceptT.adapt frame step) places result := by
  intro before
  have run : (ExceptT.adapt frame step).run.run before
      = ((step.run.run before).1.mapError frame, (step.run.run before).2) := rfl
  rw [run]
  obtain ⟨outcomes, value, after, heard, hrun, hvalue⟩ | ⟨earlier, place, later, outcomes, between,
    answer, error, after, hplaces, heard, lastCall, objection, hrun⟩ := h before
  · rw [hrun]
    exact .inl ⟨outcomes, value, after, heard, rfl, hvalue⟩
  · have mem : place ∈ places := by
      rw [hplaces]
      exact List.mem_append_right _ (List.mem_cons_self ..)
    rw [hrun]
    refine .inr ⟨earlier, place, later, outcomes, between, answer, error, after, hplaces, heard,
      lastCall, objection, ?_⟩
    rw [hframe place mem]
    rfl

end Consults

/-! ## Outcomes in the places of children -/

namespace Part

/-- A field with outcomes in the places of its children. A required child that is gone leaves a lone
semicolon, an optional one is absent, and a list closes up. -/
def refill : Part → List Outcome → Part
  | literal datum, _ => literal datum
  | child _, outcomes => child ((outcomes.head?.bind Outcome.toOption).getD .empty)
  | optional _, outcomes => optional (outcomes.head?.bind Outcome.toOption)
  | sequence _, outcomes => sequence (outcomes.filterMap Outcome.toOption)

/-- Fields with outcomes in the places of all their children, in order. -/
def refillAll : List Part → List Outcome → List Part
  | [], _ => []
  | part :: parts, outcomes =>
    part.refill (outcomes.take part.nodes.length) :: refillAll parts (outcomes.drop part.nodes.length)

/-- Refilling a part leaves plain data alone. -/
theorem datum?_refill (part : Part) (outcomes : List Outcome) :
    (part.refill outcomes).datum? = part.datum? := by
  cases part <;> rfl

theorem filterMap_datum?_refillAll (parts : List Part) (outcomes : List Outcome) :
    (refillAll parts outcomes).filterMap datum? = parts.filterMap datum? := by
  induction parts generalizing outcomes with
  | nil => rfl
  | cons part parts ih => rw [refillAll, List.filterMap_cons, datum?_refill, ih, List.filterMap_cons]

/-- The outcomes have taken the places of the children of a field, and its slot accepts them. -/
structure Refilled (field : Field) (part : Part) (outcomes : List Outcome) (new : Part) : Prop where
  contents : new = part.refill outcomes
  length : outcomes.length = part.nodes.length
  fits : new.fits field.role = true
  accepted : field.accepts new = true

end Part

namespace Node

variable {walk : Node → ExceptT Error (StateM σ) Outcome} {parent : Kind} {field : Field}

/-- A place for a child of `parent` in this field. -/
def seat (parent : Kind) (field : Field) (slot : Slot) (child : Node) : Place :=
  ⟨parent, field, slot, child, [frame parent field]⟩

/-- A child that nothing is objected to passes. -/
theorem accept_of_fine {slot : Slot} {child new : Node}
    (h : (seat parent field slot child).objection? (.ok (.node new)) = none) :
    accept (m := StateM σ) parent field slot new = pure new :=
  if_pos (Place.accepts_of_objection?_eq_none h)

/-- A child that is objected to is refused with the objection. -/
theorem accept_of_objection {slot : Slot} {child new : Node} {error : Error}
    (h : (seat parent field slot child).objection? (.ok (.node new)) = some error) :
    accept (m := StateM σ) parent field slot new = throw error := by
  obtain ⟨rejected, rfl⟩ := Place.misplaced_of_objection? h
  exact if_neg rejected

/-- Nothing is missed in a list. -/
theorem objection?_removed {slot : Slot} {child : Node} (h : ∀ required, field.role ≠ .child required) :
    (seat parent field slot child).objection? (.ok .removed) = none := by
  unfold Place.objection? seat
  dsimp only
  split
  · next required hrole => exact absurd hrole (h required)
  · rfl

/-- Only a required statement may be gone. -/
theorem statement_of_fine {name : String} {slot : Slot} {child : Node}
    (h : (seat parent ⟨name, .child slot⟩ slot child).objection? (.ok .removed) = none) :
    slot = .statement := by
  by_contra hne
  have objection : (seat parent ⟨name, .child slot⟩ slot child).objection? (.ok .removed)
      = some (required parent ⟨name, .child slot⟩ slot) := if_neg hne
  rw [h] at objection
  cases objection

/-- A required child that is gone is objected to as required. -/
theorem required_of_objection {name : String} {slot : Slot} {child : Node} {error : Error}
    (h : (seat parent ⟨name, .child slot⟩ slot child).objection? (.ok .removed) = some error) :
    slot ≠ .statement ∧ error = required parent ⟨name, .child slot⟩ slot := by
  by_cases hlone : slot = .statement
  · subst hlone
    cases h
  · have objection : (seat parent ⟨name, .child slot⟩ slot child).objection? (.ok .removed)
        = some (required parent ⟨name, .child slot⟩ slot) := if_neg hlone
    rw [h] at objection
    exact ⟨hlone, Option.some.inj objection⟩

/-- A list keeps what is left of it, in its order, and all of that is accepted. -/
theorem consults_descendList {slot : Slot} (hrole : field.role = .sequence slot) (nodes : List Node) :
    Consults walk (fun _ error => error) (descendList walk parent field slot nodes)
      (nodes.map (seat parent field slot)) fun outcomes new => outcomes.length = nodes.length ∧
        new = outcomes.filterMap Outcome.toOption ∧ ∀ child ∈ new, slot.accepts child.kind = true := by
  induction nodes with
  | nil => exact .pure ⟨rfl, rfl, nofun⟩
  | cons child rest ih =>
    have gone : (seat parent field slot child).objection? (.ok .removed) = none :=
      objection?_removed fun required h => by rw [hrole] at h; cases h
    refine Consults.call (seat parent field slot child) (fun outcome fine => ?_)
      fun outcome error objection => ?_
    · cases outcome with
      | removed =>
        refine ih.mono fun outcomes kept h => ?_
        obtain ⟨length, rfl, accepted⟩ := h
        exact ⟨congrArg (· + 1) length, rfl, accepted⟩
      | node new =>
        dsimp only
        rw [accept_of_fine fine, pure_bind]
        refine ih.map fun outcomes kept h => ?_
        obtain ⟨length, rfl, accepted⟩ := h
        exact ⟨congrArg (· + 1) length, rfl,
          List.forall_mem_cons.mpr ⟨Place.accepts_of_objection?_eq_none fine, accepted⟩⟩
    · cases outcome with
      | removed =>
        rw [gone] at objection
        cases objection
      | node new =>
        dsimp only
        rw [accept_of_objection objection]
        rfl

/-- A part is refilled from the outcomes of the children in it. -/
theorem consults_descendPart {part : Part} (hfit : part.fits field.role = true) :
    Consults walk (fun _ error => error) (descendPart walk parent field part)
      (seatsIn parent field part) (part.Refilled field) := by
  obtain ⟨name, role⟩ := field
  cases role with
  | literal sort =>
    cases part with
    | literal datum => exact .pure ⟨rfl, rfl, hfit, rfl⟩
    | _ => cases hfit
  | child slot =>
    cases part with
    | child node =>
      refine Consults.call (seat parent ⟨name, .child slot⟩ slot node) (fun outcome fine => ?_)
        fun outcome error objection => ?_
      · cases outcome with
        | node new =>
          dsimp only
          rw [accept_of_fine fine, pure_bind]
          refine .pure ⟨rfl, rfl, rfl, Part.accepts_of_slot? rfl ?_⟩
          exact List.forall_mem_singleton.mpr (Place.accepts_of_objection?_eq_none fine)
        | removed =>
          -- The child may go only where a lone semicolon can take its place.
          have lone : slot = .statement := statement_of_fine fine
          subst lone
          exact .pure ⟨rfl, rfl, rfl, Part.accepts_of_slot? rfl (List.forall_mem_singleton.mpr rfl)⟩
      · cases outcome with
        | node new =>
          dsimp only
          rw [accept_of_objection objection]
          rfl
        | removed =>
          obtain ⟨needed, rfl⟩ := required_of_objection objection
          exact if_neg needed
    | _ => cases hfit
  | optional slot =>
    have gone (child : Node) : (seat parent ⟨name, .optional slot⟩ slot child).objection? (.ok .removed)
        = none := rfl
    cases part with
    | optional node =>
      cases node with
      | none => exact .pure ⟨rfl, rfl, rfl, rfl⟩
      | some node =>
        refine Consults.call (seat parent ⟨name, .optional slot⟩ slot node)
          (fun outcome fine => ?_) fun outcome error objection => ?_
        · cases outcome with
          | node new =>
            dsimp only
            rw [accept_of_fine fine, pure_bind]
            refine .pure ⟨rfl, rfl, rfl, Part.accepts_of_slot? rfl ?_⟩
            exact List.forall_mem_singleton.mpr (Place.accepts_of_objection?_eq_none fine)
          | removed => exact .pure ⟨rfl, rfl, rfl, rfl⟩
        · cases outcome with
          | node new =>
            dsimp only
            rw [accept_of_objection objection]
            rfl
          | removed =>
            rw [gone] at objection
            cases objection
    | _ => cases hfit
  | sequence slot =>
    cases part with
    | sequence nodes =>
      refine (consults_descendList rfl nodes).map fun outcomes new h => ?_
      obtain ⟨length, rfl, accepted⟩ := h
      exact ⟨rfl, length, rfl, Part.accepts_of_slot? rfl accepted⟩
    | _ => cases hfit

/-- The seats in a field are seats of that field. -/
theorem of_mem_seatsIn {part : Part} {place : Place} (h : place ∈ seatsIn parent field part) :
    place.parent = parent ∧ place.field = field := by
  unfold seatsIn at h
  split at h
  · cases h
  · obtain ⟨child, _, rfl⟩ := List.mem_map.mp h
    exact ⟨rfl, rfl⟩

/-- The fields of a node are refilled one after the other, and an error carries the frame of its
field. -/
theorem consults_descendParts {recipe : List Field} {contents : List Part}
    (hfit : List.Forall₂ (fun field part => Part.fits field.role part = true) recipe contents) :
    Consults walk Place.framed (descendParts walk parent recipe contents)
      ((recipe.zip contents).flatMap fun entry => seatsIn parent entry.1 entry.2)
      fun outcomes new => new = Part.refillAll contents outcomes ∧
        List.Forall₂ (fun field part => Part.fits field.role part = true ∧ field.accepts part = true)
          recipe new := by
  induction hfit with
  | nil => exact .pure ⟨rfl, .nil⟩
  | @cons field part recipe contents hfirst _ ih =>
    rw [List.zip_cons_cons, List.flatMap_cons]
    refine ((consults_descendPart hfirst).adapt fun place hmem => ?_).bind
      fun outcomes first hrefilled => ?_
    · obtain ⟨hparent, hfield⟩ := of_mem_seatsIn hmem
      funext error
      rw [Place.framed, hparent, hfield]
    · refine ih.map fun further rest h => ?_
      obtain ⟨rfl, hrest⟩ := h
      obtain ⟨rfl, length, fits, accepted⟩ := hrefilled
      refine ⟨?_, .cons ⟨fits, accepted⟩ hrest⟩
      rw [Part.refillAll, ← length, List.take_left, List.drop_left]

/-- What contents that fit and are accepted make of a node. -/
theorem slotsAccept_of_forall₂ {node : Node} {recipe : List Field}
    (hrecipe : node.kind.recipe? = some recipe)
    (h : List.Forall₂ (fun field part => Part.fits field.role part = true ∧ field.accepts part = true)
      recipe node.parts) : node.slotsAccept = true := by
  rw [slotsAccept, fields, hrecipe, List.all_eq_true]
  rintro ⟨field, part⟩ hmem
  exact (List.forall₂_zip h hmem).2

/-- A node comes back with the outcomes in the places of its children. -/
theorem consults_descend (walk : Node → ExceptT Error (StateM σ) Outcome) (node : Node) :
    Consults walk Place.framed (node.descend walk) node.seats fun outcomes new =>
      new.label = node.label ∧ new.parts = Part.refillAll node.parts outcomes ∧
        new.slotsAccept = true := by
  cases hrecipe : node.kind.recipe? with
  | none =>
    have leaf : node.descend walk = pure node := by
      unfold descend
      rw [hrecipe]
    have empty : node.parts = [] := parts_eq_nil_of_recipe?_eq_none hrecipe
    have fields : node.fields = [] := by rw [fields, empty, List.zip_nil_right]
    rw [leaf, seats, fields]
    refine .pure ⟨rfl, by rw [empty]; rfl, ?_⟩
    rw [slotsAccept, fields]
    rfl
  | some recipe =>
    have fit := parts_fit hrecipe
    -- The contents are as many as the fields, so the check of their number is always passed.
    have descent : node.descend walk = (do
        return node.withParts (← descendParts walk node.kind recipe node.parts)) := by
      unfold descend
      rw [hrecipe]
      exact if_pos fit.length_eq
    have places : node.seats
        = (recipe.zip node.parts).flatMap fun entry => seatsIn node.kind entry.1 entry.2 := by
      rw [seats, fields, hrecipe, Option.getD_some]
    rw [descent, places]
    refine (consults_descendParts fit).map fun outcomes contents h => ?_
    obtain ⟨rfl, refilled⟩ := h
    obtain ⟨new, hnew⟩ := exists_ofParts? hrecipe (refilled.imp fun _ _ h => h.1)
    obtain ⟨kind, parts⟩ := parts_of_ofParts? hnew
    have left : node.withParts (Part.refillAll node.parts outcomes) = new := by
      rw [withParts, hnew, Option.getD_some]
    have grown : node.kind.recipe? ≠ none := by
      rw [hrecipe]
      exact Option.some_ne_none _
    rw [left]
    refine ⟨?_, parts, slotsAccept_of_forall₂ (kind ▸ hrecipe) (parts ▸ refilled)⟩
    rw [label, label, kind, parts, Part.filterMap_datum?_refillAll, leaf?_eq_none grown,
      leaf?_eq_none (kind ▸ grown)]

/-- **What a descent does**, for every node and every function with a state. The places of the node
are those of its children, in order, and its contents have the shapes of its recipe. A leaf comes back
as it is and nothing is called. Otherwise the function is called on the children in order, up to the
first answer that gives rise to an objection. If none does, the result has the kind and the literals
of the node and the outcomes in the places of the children, and every slot accepts what is there. If
one does, the call is the last, and the error is the objection with one frame: the function's own
error, or a complaint that names this kind and the field. -/
theorem descend_contract (walk : Node → ExceptT Error (StateM σ) Outcome) (node : Node) (before : σ) :
    let run := (node.descend walk).run.run before
    node.seats.map Place.child = node.children ∧
    (∀ recipe ∈ node.kind.recipe?,
      List.Forall₂ (fun field part => Part.fits field.role part = true) recipe node.parts) ∧
    (node.kind.recipe? = none → run = (.ok node, before)) ∧
    ((∃ outcomes new after, run = (.ok new, after) ∧ Heard walk before node.seats outcomes after ∧
        new.label = node.label ∧ new.parts = Part.refillAll node.parts outcomes ∧
        new.slotsAccept = true) ∨
      ∃ earlier seat later outcomes between answer error after,
        run = (.error (error.withFrame (frame node.kind seat.field)), after) ∧
        node.seats = earlier ++ seat :: later ∧ Heard walk before earlier outcomes between ∧
        (walk seat.child).run.run between = (answer, after) ∧ seat.objection? answer = some error ∧
        (answer = .error error ∨
          ∃ reason, error = .structural node.kind.name seat.field.name reason)) := by
  refine ⟨map_child_seats node, fun recipe hrecipe => parts_fit hrecipe, fun hleaf => ?_, ?_⟩
  · unfold descend
    rw [hleaf]
    rfl
  · obtain ⟨outcomes, new, after, heard, run, hnew⟩ | ⟨earlier, seat, later, outcomes, between, answer,
      error, after, hseats, heard, call, objection, run⟩ := consults_descend walk node before
    · exact .inl ⟨outcomes, new, after, run, heard, hnew⟩
    · have mem : seat ∈ node.seats := by
        rw [hseats]
        exact List.mem_append_right _ (List.mem_cons_self ..)
      -- The frame is that of the seat, and every seat of a node bears its kind.
      have parent : seat.parent = node.kind := by
        obtain ⟨_, _, _, _, _, _, _, rfl⟩ := mem_seats.mp mem
        rfl
      have reason := Place.objection?_cases objection
      rw [Place.framed, parent] at run
      rw [parent] at reason
      exact .inr ⟨earlier, seat, later, outcomes, between, answer, error, after, run, hseats, heard,
        call, objection, reason⟩

end Node

end JsPrune
