import JsPrune.Command.Process
import JsPrune.Proofs.JsonText
import JsPrune.Proofs.Preorder
import JsPrune.Proofs.Traversal
import Mathlib.Data.List.Perm.Basic
import Mathlib.Data.Set.List

/-!
# Trees read back from their JSON

The interchange form of a tree loses nothing. Every field is found by its name, so the entries of all
objects may stand in another order (`Reordered`); contents that come before their kind are held, and
read all the same. What may be lost is the exact value of a number, which the reader rounds more than
once, and what is nested too deep is not read at all: `Rereads` and `isReadable` rule that out.

Main results: `ofJsonWithin?_reordered` and `process_fromTree`.
-/

namespace JsPrune

open JsPrune.Json (Value)

variable {α β : Type}

/-- A lookup that succeeds for each item succeeds for the list. -/
theorem mapM_eq_some_of_forall₂ {f : α → Option β} {items : List α} {found : List β}
    (h : List.Forall₂ (fun a b => f a = some b) items found) : items.mapM f = some found := by
  induction h with
  | nil => rfl
  | cons h _ ih => rw [List.mapM_cons, h, ih]; rfl

/-- What is related pairwise is a member on either side. -/
theorem mem_of_forall₂ {R : α → β → Prop} {items : List α} {others : List β}
    (h : List.Forall₂ R items others) :
    List.Forall₂ (fun a b => a ∈ items ∧ b ∈ others ∧ R a b) items others :=
  List.forall₂_iff_zip.mpr ⟨h.length_eq, fun hmem =>
    ⟨(List.of_mem_zip hmem).1, (List.of_mem_zip hmem).2, List.forall₂_zip h hmem⟩⟩

/-- Every member on the right has its partner on the left. -/
theorem exists_of_mem_forall₂ {R : α → β → Prop} {items : List α} {others : List β}
    (h : List.Forall₂ R items others) {b : β} (hb : b ∈ others) : ∃ a ∈ items, R a b := by
  induction h with
  | nil => cases hb
  | cons h _ ih =>
    rcases List.mem_cons.mp hb with rfl | hb
    · exact ⟨_, List.mem_cons_self .., h⟩
    · obtain ⟨a, ha, hr⟩ := ih hb
      exact ⟨a, List.mem_cons_of_mem _ ha, hr⟩

namespace Json.Value

/-! ## Entries in another order -/

/-- The same value, with the entries of objects, at every depth, perhaps in another order. -/
inductive Reordered : Value → Value → Prop
  | refl (value : Value) : Reordered value value
  | array {items items' : List Value} (h : List.Forall₂ Reordered items items') :
      Reordered (.array items) (.array items')
  | object {entries entries' : List (Option String × Value)} {values : List Value}
      (h : List.Forall₂ Reordered (entries.map Prod.snd) values)
      (order : ((entries.map Prod.fst).zip values).Perm entries') :
      Reordered (.object entries) (.object entries')

/-- Another order of the fields is a reordering. -/
theorem Reordered.of_perm {entries entries' : List (String × Value)} (h : entries.Perm entries') :
    Reordered (.record entries) (.record entries') := by
  refine .object (List.forall₂_same.mpr fun value _ => .refl value) ?_
  rw [List.zip_map', List.map_id']
  exact h.map _

/-- An array keeps its order; only its items can be reordered inside. -/
theorem Reordered.of_array {items : List Value} {value : Value} (h : Reordered (.array items) value) :
    ∃ items', List.Forall₂ Reordered items items' ∧ value = .array items' := by
  cases h with
  | refl => exact ⟨items, List.forall₂_same.mpr fun item _ => .refl item, rfl⟩
  | array h => exact ⟨_, h, rfl⟩

/-- Where all keys denote something they still do. -/
theorem Reordered.of_record {entries : List (String × Value)} {value : Value}
    (h : Reordered (.record entries) value) : ∃ values entries',
      List.Forall₂ Reordered (entries.map Prod.snd) values ∧
        ((entries.map Prod.fst).zip values).Perm entries' ∧ value = .record entries' := by
  generalize hrecord : Value.record entries = whole at h
  cases h with
  | refl =>
    refine ⟨entries.map Prod.snd, entries, List.forall₂_same.mpr fun item _ => .refl item, ?_,
      hrecord.symm⟩
    rw [List.zip_map', List.map_id']
  | array h => cases hrecord
  | @object pairs entries' values h order =>
    have hpairs : pairs = entries.map (Prod.map some id) := (Value.object.inj hrecord).symm
    have keys : pairs.map Prod.fst = (entries.map Prod.fst).map some := by
      rw [hpairs, List.map_map, List.map_map]
      rfl
    have contents : pairs.map Prod.snd = entries.map Prod.snd := by
      rw [hpairs, List.map_map]
      rfl
    rw [keys, List.zip_map_left] at order
    rw [contents] at h
    -- A permutation of entries that all have a key consists of entries that all have a key.
    have image : entries' ∈ Set.range (List.map (Prod.map some id : String × Value → _)) := by
      rw [Set.range_list_map]
      intro pair hpair
      obtain ⟨entry, _, rfl⟩ := List.mem_map.mp (order.mem_iff.mpr hpair)
      exact ⟨entry, rfl⟩
    obtain ⟨listed, rfl⟩ := image
    have injective : Function.Injective (Prod.map some id : String × Value → _) :=
      (Option.some_injective _).prodMap Function.injective_id
    exact ⟨values, listed, h, (List.map_perm_map_iff injective).mp order, rfl⟩

/-- Every entry comes from one of the entries before. -/
theorem Reordered.exists_entry {entries : List (String × Value)} {value : Value}
    (h : Reordered (.record entries) value) : ∃ entries', value = .record entries' ∧
      ∀ entry ∈ entries', ∃ first ∈ entries, Reordered first.2 entry.2 := by
  obtain ⟨values, entries', hvalues, order, rfl⟩ := h.of_record
  refine ⟨entries', rfl, fun entry hentry => ?_⟩
  have hvalue := (List.of_mem_zip (order.mem_iff.mpr hentry)).2
  obtain ⟨held, hheld, same⟩ := exists_of_mem_forall₂ hvalues hvalue
  obtain ⟨first, hfirst, rfl⟩ := List.mem_map.mp hheld
  exact ⟨first, hfirst, same⟩

/-- A reordered value is as plain as it was. -/
theorem Reordered.plain {good : Binary64 → Prop} {value other : Value} (h : value.Plain good)
    (hr : Reordered value other) : other.Plain good := by
  induction h generalizing other with
  | null => cases hr; exact .null
  | bool value => cases hr; exact .bool value
  | number h => cases hr; exact .number h
  | text value => cases hr; exact .text value
  | array _ ih =>
    obtain ⟨items', hitems, rfl⟩ := hr.of_array
    refine .array fun item' hitem => ?_
    obtain ⟨item, hmem, same⟩ := exists_of_mem_forall₂ hitems hitem
    exact ih item hmem same
  | record _ ih =>
    obtain ⟨entries', rfl, origin⟩ := hr.exists_entry
    refine .record fun entry hentry => ?_
    obtain ⟨first, hfirst, same⟩ := origin entry hentry
    exact ih first hfirst same

/-- The nesting of brackets does not depend on the order. -/
theorem Reordered.isReadable {good : Binary64 → Prop} {value other : Value} {room : Nat}
    (h : value.Plain good) (hr : Reordered value other) (hroom : value.isReadable room = true) :
    other.isReadable room = true := by
  induction h generalizing other room with
  | null => cases hr; rfl
  | bool value => cases hr; rfl
  | number h => cases hr; rfl
  | text value => cases hr; rfl
  | array _ ih =>
    obtain ⟨items', hitems, rfl⟩ := hr.of_array
    obtain ⟨pos, below⟩ := isReadable_array.mp hroom
    refine isReadable_array.mpr ⟨pos, fun item' hitem => ?_⟩
    obtain ⟨item, hmem, same⟩ := exists_of_mem_forall₂ hitems hitem
    exact ih item hmem same (below item hmem)
  | record _ ih =>
    obtain ⟨entries', rfl, origin⟩ := hr.exists_entry
    obtain ⟨pos, below⟩ := isReadable_record.mp hroom
    refine isReadable_record.mpr ⟨pos, fun entry hentry => ?_⟩
    obtain ⟨first, hfirst, same⟩ := origin entry hentry
    exact ih first hfirst same (below first hfirst)

end Json.Value

/-! ## Looking entries up -/

namespace Node

/-- The fields of a record are found again. -/
theorem entriesOf?_record (entries : List (String × Value)) :
    entriesOf? (entries.map fun (key, value) => (some key, value)) = some entries := by
  refine mapM_eq_some_of_forall₂ (List.forall₂_map_left_iff.mpr ?_)
  exact List.forall₂_same.mpr fun entry _ => rfl

/-- A name that no entry has is not found. -/
theorem entryOf?_eq_none {key : String} {entries : List (String × Value)}
    (h : key ∉ entries.map Prod.fst) : entryOf? key entries = some none := by
  have none : entries.filter (fun entry => entry.1 == key) = [] := by
    refine List.filter_eq_nil_iff.mpr fun entry hentry hkey => h ?_
    exact List.mem_map.mpr ⟨entry, hentry, eq_of_beq hkey⟩
  rw [entryOf?, none]

/-- Where keys differ an entry is found wherever it stands. -/
theorem entryOf?_eq_some {key : String} {value : Value} {entries : List (String × Value)}
    (hn : (entries.map Prod.fst).Nodup) (h : (key, value) ∈ entries) :
    entryOf? key entries = some (some value) := by
  have one : entries.filter (fun entry => entry.1 == key) = [(key, value)] := by
    induction entries with
    | nil => cases h
    | cons first rest ih =>
      obtain ⟨fresh, distinct⟩ := List.nodup_cons.mp hn
      rcases List.mem_cons.mp h with rfl | h
      · rw [List.filter_cons, if_pos (beq_self_eq_true key)]
        refine congrArg (List.cons _) (List.filter_eq_nil_iff.mpr fun entry hentry hkey => fresh ?_)
        exact List.mem_map.mpr ⟨entry, hentry, eq_of_beq hkey⟩
      · have other : ¬ (first.1 == key) = true := by
          intro hkey
          rw [eq_of_beq hkey] at fresh
          exact fresh (List.mem_map_of_mem (f := Prod.fst) h)
        rw [List.filter_cons, if_neg other]
        exact ih distinct h
  rw [entryOf?, one]

/-- A kind is known by its name. -/
theorem ofName?_name (kind : Kind) : Kind.ofName? kind.name = some kind := by
  cases kind <;> decide

/-- So is an operator with one operand. -/
theorem unaryOp_ofName?_name (operator : UnaryOp) :
    UnaryOp.ofName? operator.name = some operator := by
  cases operator <;> decide

/-- So is an operator with two. -/
theorem binaryOp_ofName?_name (operator : BinaryOp) :
    BinaryOp.ofName? operator.name = some operator := by
  cases operator <;> decide

/-- Kind and contents are found in either order, if the contents could be held. -/
theorem header?_record {entries : List (String × Value)} {scope : Scope} {kind : Kind}
    {contents : Option Value} (hk : entryOf? "kind" entries = some (some (.text kind.name)))
    (hf : entryOf? "fields" entries = some contents)
    (hr : ∀ value ∈ contents, value.isReadable scope.room = true) :
    ∃ held, header? scope (.record entries) = some (kind, contents, { scope with held }) := by
  have readable : contents.all (Value.isReadable scope.room) = true := by
    cases contents with
    | none => rfl
    | some value => exact hr value rfl
  refine ⟨scope.held || (entries.find? fun entry => entry.1 == "kind" || entry.1 == "fields").any
    fun entry => entry.1 == "fields", ?_⟩
  rw [Value.record, header?, entriesOf?_record]
  simp only [Option.bind_eq_bind, Option.bind_some]
  rw [hk]
  simp only [Option.bind_some, Value.text, nameOf?]
  rw [ofName?_name]
  simp only [Option.bind_some]
  rw [hf]
  simp only [Option.bind_some]
  rw [readable, Bool.not_true, Bool.and_false, if_neg Bool.false_ne_true]
  rfl

end Node

/-! ## The contents of fields -/

/-- The contents of a field as a value, where `form` gives the values of children. -/
def Part.toJson (form : Node → Value) : Part → Value
  | literal datum => datum.toJson
  | child node => form node
  | optional none => .null
  | optional (some node) => form node
  | sequence nodes => .array (nodes.map form)

namespace Node

/-- The value of a node that has a recipe. -/
theorem toJson_eq {numeral : Binary64 → Value} {node : Node} {fields : List Field}
    (h : node.kind.recipe? = some fields) : node.toJson numeral = .record
      [("kind", .text node.kind.name), ("fields", .record ((fields.map Field.name).zip
        (node.parts.map (Part.toJson (toJson numeral)))))] := by
  have contents : node.parts.map (Part.toJson (toJson numeral))
      = node.parts.attach.map fun part => Part.toJson (toJson numeral) part.val :=
    List.attach_map_val.symm
  rw [toJson, h, contents]
  refine congrArg (fun values => Value.record [("kind", .text node.kind.name),
    ("fields", .record ((fields.map Field.name).zip values))]) ?_
  refine List.map_congr_left fun ⟨part, _⟩ _ => ?_
  cases part with
  | literal datum => rfl
  | child node => rfl
  | optional node => cases node <;> rfl
  | sequence nodes => exact congrArg Value.array List.attach_map_val

/-- The value of a node that has none. -/
theorem toJson_eq_leaf {numeral : Binary64 → Value} {node : Node} (h : node.kind.recipe? = none) :
    node.toJson numeral = .record (("kind", .text node.kind.name) ::
      (node.scalarJson? numeral).toList.map fun scalar => ("fields", scalar)) := by
  rw [toJson, h]
  dsimp only
  cases node.scalarJson? numeral <;> rfl

/-! ## What a tree is written as -/

section
variable {good : Binary64 → Prop}

/-- Plain data of a node is written plainly. -/
theorem plain_datum (datum : Datum) : datum.toJson.Plain good := by
  cases datum with
  | text value => exact .text value
  | optionalText value =>
    cases value with
    | none => exact .null
    | some value => exact .text value
  | texts values =>
    refine .array fun item hitem => ?_
    obtain ⟨value, _, rfl⟩ := List.mem_map.mp hitem
    exact .text value
  | unaryOp operator => exact .text _
  | binaryOp operator => exact .text _

/-- The contents of a field are written as plainly as the children in it. -/
theorem plain_part {form : Node → Value} {part : Part}
    (h : ∀ child ∈ part.nodes, (form child).Plain good) : (part.toJson form).Plain good := by
  cases part with
  | literal datum => exact plain_datum datum
  | child node => exact h node (List.mem_singleton.mpr rfl)
  | optional node =>
    cases node with
    | none => exact .null
    | some node => exact h node (List.mem_singleton.mpr rfl)
  | sequence nodes =>
    refine .array fun item hitem => ?_
    obtain ⟨child, hchild, rfl⟩ := List.mem_map.mp hitem
    exact h child hchild

/-- So is what a leaf stands for, if its number is good. -/
theorem plain_scalar {node : Node} {scalar : Value} (h : node.scalarJson? plainNumeral = some scalar)
    (hx : ∀ x, node = .number x → good x) : scalar.Plain good := by
  cases node with
  | identifier name => cases h; exact .text name
  | string value => cases h; exact .text value
  | number x => cases h; exact .number (hx x rfl)
  | boolean value => cases h; exact .bool value
  | _ => cases h

/-- The value of a tree has the numbers of the tree and no others. -/
theorem plain_toJson {node : Node} (h : ∀ inner ∈ node.preorder, ∀ x, inner = .number x → good x) :
    (node.toJson plainNumeral).Plain good := by
  induction node using childInduction with
  | step node ih =>
    obtain ⟨here, below⟩ := forall_preorder.mp h
    cases hrecipe : node.kind.recipe? with
    | none =>
      rw [toJson_eq_leaf hrecipe]
      refine .record (List.forall_mem_cons.mpr ⟨.text _, fun entry hentry => ?_⟩)
      obtain ⟨scalar, hscalar, rfl⟩ := List.mem_map.mp hentry
      exact plain_scalar (Option.mem_toList.mp hscalar) here
    | some fields =>
      rw [toJson_eq hrecipe]
      refine .record (List.forall_mem_cons.mpr ⟨.text _, List.forall_mem_singleton.mpr ?_⟩)
      refine .record fun entry hentry => ?_
      obtain ⟨part, hpart, hvalue⟩ := List.mem_map.mp (List.of_mem_zip hentry).2
      rw [← hvalue]
      exact plain_part fun child hchild =>
        have mem := mem_children_of_mem_nodes hpart hchild
        ih child mem (below child mem)

end

/-! ## Reading what was written -/

theorem enter?_of_pos {scope : Scope} (h : 0 < scope.room) :
    scope.enter? = some { scope with room := scope.room - 1 } := by
  obtain ⟨room, held⟩ := scope
  cases room with
  | zero => cases h
  | succ room => rfl

/-- A node is always written as a record. -/
theorem exists_record (numeral : Binary64 → Value) (node : Node) :
    ∃ entries, node.toJson numeral = .record entries := by
  cases hrecipe : node.kind.recipe? with
  | none => exact ⟨_, toJson_eq_leaf hrecipe⟩
  | some fields => exact ⟨_, toJson_eq hrecipe⟩

open Json.Value (Reordered)

/-- Plain data is read back from its field. -/
theorem partOf?_datum {inner : Scope → Value → Option Node} {scope : Scope} {datum : Datum}
    {value : Value} (hv : Reordered datum.toJson value) (hr : value.isReadable scope.room = true) :
    partOf? inner scope (.literal datum.sort) value = some (.literal datum) := by
  cases datum with
  | text text => cases hv; rfl
  | optionalText text => cases text <;> (cases hv; rfl)
  | texts texts =>
    obtain ⟨items, hitems, rfl⟩ := hv.of_array
    obtain ⟨pos, _⟩ := Json.Value.isReadable_array.mp hr
    have same : List.Forall₂ (fun text item => item = Value.text text) texts items :=
      (List.forall₂_map_left_iff.mp hitems).imp fun text item h => by cases h; rfl
    show (textsOf? scope (.array items)).map _ = _
    rw [textsOf?, enter?_of_pos pos]
    simp only [Option.bind_eq_bind, Option.bind_some]
    rw [mapM_eq_some_of_forall₂ (same.imp fun text item h => by rw [h]; rfl).flip]
    rfl
  | unaryOp operator =>
    cases hv
    show ((UnaryOp.ofName? operator.name).map _ : Option Part) = _
    rw [unaryOp_ofName?_name]
    rfl
  | binaryOp operator =>
    cases hv
    show ((BinaryOp.ofName? operator.name).map _ : Option Part) = _
    rw [binaryOp_ofName?_name]
    rfl

/-- The contents of a field are read if the children in it are. -/
theorem partOf?_reordered {inner : Scope → Value → Option Node} {scope : Scope} {role : Role}
    {part : Part} {value : Value} (hfit : Part.fits role part = true)
    (hv : Reordered (part.toJson (toJson plainNumeral)) value)
    (hr : value.isReadable scope.room = true)
    (hi : ∀ child ∈ part.nodes, ∀ place other, place.room ≤ scope.room →
      Reordered (child.toJson plainNumeral) other → other.isReadable place.room = true →
        inner place other = some child) :
    partOf? inner scope role value = some part := by
  cases role with
  | literal sort =>
    cases part with
    | literal datum =>
      obtain rfl : datum.sort = sort := eq_of_beq hfit
      exact partOf?_datum hv hr
    | _ => cases hfit
  | child slot =>
    cases part with
    | child node =>
      rw [partOf?, hi node (List.mem_singleton.mpr rfl) scope value (Nat.le_refl _) hv hr]
      rfl
    | _ => cases hfit
  | optional slot =>
    cases part with
    | optional node =>
      cases node with
      | none => cases hv; rfl
      | some node =>
        have read := hi node (List.mem_singleton.mpr rfl) scope value (Nat.le_refl _) hv hr
        -- The value of a node is an object, so it is not taken for an absent child.
        obtain ⟨entries, hentries⟩ := exists_record plainNumeral node
        obtain ⟨_, _, _, _, rfl⟩ := (hentries ▸ hv : Reordered (.record entries) value).of_record
        show (inner scope (.record _)).map _ = _
        rw [read]
        rfl
    | _ => cases hfit
  | sequence slot =>
    cases part with
    | sequence nodes =>
      obtain ⟨items, hitems, rfl⟩ := hv.of_array
      obtain ⟨pos, below⟩ := Json.Value.isReadable_array.mp hr
      have each := mem_of_forall₂ (List.forall₂_map_left_iff.mp hitems)
      have read : items.mapM (inner { scope with room := scope.room - 1 }) = some nodes :=
        mapM_eq_some_of_forall₂ (each.imp fun child item ⟨hchild, hitem, same⟩ =>
          hi child hchild _ item (Nat.sub_le ..) same (below item hitem)).flip
      rw [partOf?, enter?_of_pos pos]
      simp only [Option.bind_eq_bind, Option.bind_some]
      rw [read]
      rfl
    | _ => cases hfit

/-- No two fields of a kind have the same name, so no order of the fields can confuse them. -/
theorem nodup_names {kind : Kind} {fields : List Field} (h : kind.recipe? = some fields) :
    (fields.map Field.name).Nodup := by
  cases kind <;> cases h <;> decide

/-- If each field is looked up by its name and read back, so are all of them in the order of the
recipe. -/
theorem mapM_fields {form : Node → Value} {lookup : Field → Option Part} {fields : List Field}
    {parts : List Part} {values : List Value}
    (hfit : List.Forall₂ (fun field part => Part.fits field.role part = true) fields parts)
    (hv : List.Forall₂ Reordered (parts.map (Part.toJson form)) values)
    (hl : ∀ field part value, (field.name, value) ∈ (fields.map Field.name).zip values →
      part ∈ parts → Part.fits field.role part = true → Reordered (part.toJson form) value →
        lookup field = some part) : fields.mapM lookup = some parts := by
  refine mapM_eq_some_of_forall₂ ?_
  induction hfit generalizing values with
  | nil => exact .nil
  | @cons field part fields parts fits rest ih =>
    cases hv with
    | @cons _ value _ values same others =>
      refine .cons (hl field part value (.head _) (.head _) fits same) (ih others ?_)
      exact fun field part value hvalue hpart => hl field part value (.tail _ hvalue) (.tail _ hpart)

/-- The contents of all fields are read if the children of the node are. -/
theorem partsOf?_reordered {inner : Scope → Value → Option Node} {scope : Scope} {node : Node}
    {fields : List Field} {value : Value} (hf : node.kind.recipe? = some fields)
    (hv : Reordered (.record ((fields.map Field.name).zip
      (node.parts.map (Part.toJson (toJson plainNumeral))))) value)
    (hr : value.isReadable scope.room = true)
    (hi : ∀ child ∈ node.children, ∀ place other, place.room < scope.room →
      Reordered (child.toJson plainNumeral) other → other.isReadable place.room = true →
        inner place other = some child) :
    partsOf? inner scope fields value = some node.parts := by
  have hfit := parts_fit hf
  have length : (fields.map Field.name).length
      = (node.parts.map (Part.toJson (toJson plainNumeral))).length := by
    rw [List.length_map, List.length_map, hfit.length_eq]
  obtain ⟨values, entries, hvalues, order, rfl⟩ := hv.of_record
  rw [List.map_snd_zip (Nat.le_of_eq length.symm)] at hvalues
  rw [List.map_fst_zip (Nat.le_of_eq length)] at order
  -- The names of the fields differ, so looking one up does not depend on the order.
  have names : (entries.map Prod.fst).Perm (fields.map Field.name) := by
    have keys := (order.map Prod.fst).symm
    rwa [List.map_fst_zip (Nat.le_of_eq (length.trans hvalues.length_eq))] at keys
  have distinct : (entries.map Prod.fst).Nodup := names.nodup_iff.mpr (nodup_names hf)
  obtain ⟨pos, below⟩ := Json.Value.isReadable_record.mp hr
  rw [Json.Value.record, partsOf?, enter?_of_pos pos]
  simp only [Option.bind_eq_bind, Option.bind_some]
  rw [entriesOf?_record]
  simp only [Option.bind_some]
  refine mapM_fields hfit hvalues fun field part value hentry hpart fits same => ?_
  have listed := order.mem_iff.mp hentry
  rw [entryOf?_eq_some distinct listed]
  refine partOf?_reordered fits same (below _ listed) fun child hchild place other hplace => ?_
  have mem := mem_children_of_mem_nodes hpart hchild
  exact hi child mem place other (by simp only at hplace; omega)

/-- Kind and contents are told apart by their keys, in whatever order they stand. -/
theorem header?_reordered (contents : Option Value) {kind : Kind} {value : Value} (scope : Scope)
    (hv : Reordered (.record (("kind", .text kind.name) ::
      contents.toList.map fun content => ("fields", content))) value)
    (hr : value.isReadable (scope.room + 1) = true) :
    ∃ held found, header? scope value = some (kind, found, { scope with held }) ∧
      Option.Rel Reordered contents found ∧
      ∀ content ∈ found, content.isReadable scope.room = true := by
  obtain ⟨values, entries, hvalues, order, rfl⟩ := hv.of_record
  obtain ⟨_, below⟩ := Json.Value.isReadable_record.mp hr
  cases hvalues with
  | @cons _ first _ rest hfirst hrest =>
    cases hfirst
    -- There are only two keys, so every order of them is gone through by looking each of them up.
    cases contents with
    | none =>
      cases hrest
      have keys : (entries.map Prod.fst).Perm ["kind"] := (order.map Prod.fst).symm
      have distinct : (entries.map Prod.fst).Nodup := keys.nodup_iff.mpr (by decide)
      have absent : "fields" ∉ entries.map Prod.fst := fun h => absurd (keys.mem_iff.mp h) (by decide)
      have hk := entryOf?_eq_some distinct (order.mem_iff.mp (List.mem_cons_self ..))
      obtain ⟨held, header⟩ : ∃ held, header? scope (.record entries)
          = some (kind, none, { scope with held }) :=
        header?_record hk (entryOf?_eq_none absent) nofun
      exact ⟨held, none, header, .none, nofun⟩
    | some content =>
      cases hrest with
      | @cons _ second _ rest hsecond hrest =>
        cases hrest
        have keys : (entries.map Prod.fst).Perm ["kind", "fields"] := (order.map Prod.fst).symm
        have distinct : (entries.map Prod.fst).Nodup := keys.nodup_iff.mpr (by decide)
        have listed : ("fields", second) ∈ entries :=
          order.mem_iff.mp (List.mem_cons_of_mem _ (List.mem_cons_self ..))
        have hk := entryOf?_eq_some distinct (order.mem_iff.mp (List.mem_cons_self ..))
        have readable : ∀ content ∈ some second, content.isReadable scope.room = true := by
          rintro _ ⟨⟩
          exact below _ listed
        obtain ⟨held, header⟩ := header?_record hk (entryOf?_eq_some distinct listed) readable
        exact ⟨held, some second, header, .some hsecond, readable⟩

/-- A leaf is read back from what it stands for. -/
theorem leafOf?_reordered {node : Node} (h : node.kind.recipe? = none) {contents : Option Value}
    (hv : Option.Rel Reordered (node.scalarJson? plainNumeral) contents) :
    leafOf? plainNumeral? node.kind contents = some node := by
  cases node with
  | body tag _ | declaration tag _ | loop tag _ _ | exit tag _ | jump tag _ | lambda tag _ _ _
  | call tag _ _ | unary tag _ _ | binary tag _ _ _ => cases tag <;> cases h
  | identifier | number | string | boolean =>
    cases hv with
    | some same => cases same; rfl
  | empty | debugger | null | this => cases hv; rfl
  | _ => cases h

/-- A node needs a level to be read at. -/
theorem room_pos {tree : Node} {value : Value} {room : Nat}
    (hv : Reordered (tree.toJson plainNumeral) value) (hr : value.isReadable room = true) :
    0 < room := by
  obtain ⟨entries, hentries⟩ := exists_record plainNumeral tree
  obtain ⟨_, _, _, _, rfl⟩ := (hentries ▸ hv : Reordered (.record entries) value).of_record
  exact (Json.Value.isReadable_record.mp hr).1

/-- A node is read if its children are. -/
theorem nodeOf?_reordered {inner : Scope → Value → Option Node} {scope : Scope} {node : Node}
    {value : Value} (hv : Reordered (node.toJson plainNumeral) value)
    (hr : value.isReadable scope.room = true)
    (hi : ∀ child ∈ node.children, ∀ place other, place.room < scope.room →
      Reordered (child.toJson plainNumeral) other → other.isReadable place.room = true →
        inner place other = some child) :
    nodeOf? plainNumeral? inner scope value = some node := by
  have pos := room_pos hv hr
  have room : (scope.room - 1) + 1 = scope.room := by omega
  rw [nodeOf?, enter?_of_pos pos]
  simp only [Option.bind_eq_bind, Option.bind_some]
  -- The header says the kind, and the kind says whether a scalar or a record of fields is to come.
  cases hrecipe : node.kind.recipe? with
  | none =>
    rw [toJson_eq_leaf hrecipe] at hv
    obtain ⟨held, found, header, same, _⟩ :=
      header?_reordered (node.scalarJson? plainNumeral) { scope with room := scope.room - 1 } hv
        (room ▸ hr)
    rw [header]
    simp only [Option.bind_some]
    rw [hrecipe]
    exact leafOf?_reordered hrecipe same
  | some fields =>
    rw [toJson_eq hrecipe] at hv
    obtain ⟨held, found, header, same, readable⟩ := header?_reordered
      (some (.record ((fields.map Field.name).zip
        (node.parts.map (Part.toJson (toJson plainNumeral))))))
      { scope with room := scope.room - 1 } hv (room ▸ hr)
    cases same with
    | @some _ content same =>
      have read : partsOf? inner ⟨scope.room - 1, held⟩ fields content = some node.parts :=
        partsOf?_reordered hrecipe same (readable content rfl) fun child hchild place other hplace =>
          hi child hchild place other (by simp only at hplace; omega)
      rw [header]
      simp only [Option.bind_some]
      rw [hrecipe]
      dsimp only
      rw [read]
      exact ofParts?_parts (by rw [hrecipe]; exact Option.some_ne_none fields)

/-- **The interchange form loses nothing**, whatever the order of the entries of its objects. -/
theorem ofJsonWithin?_reordered {tree : Node} {levels : Nat} {scope : Scope} {value : Value}
    (hl : scope.room ≤ levels) (hv : Reordered (tree.toJson plainNumeral) value)
    (hr : value.isReadable scope.room = true) :
    ofJsonWithin? plainNumeral? levels scope value = some tree := by
  induction tree using childInduction generalizing levels scope value with
  | step tree ih =>
    have pos := room_pos hv hr
    obtain ⟨levels, rfl⟩ := Nat.exists_eq_add_one_of_ne_zero (by omega : levels ≠ 0)
    rw [ofJsonWithin?]
    exact nodeOf?_reordered hv hr fun child hchild place other hplace hother =>
      ih child hchild (by omega) hother

/-- The value of a tree, its entries in any order, is read as the tree. -/
theorem ofJson?_reordered {tree : Node}
    (hr : (tree.toJson plainNumeral).isReadable maxBrackets = true) {value : Value}
    (hv : Reordered (tree.toJson plainNumeral) value) : ofJson? value = some tree := by
  have plain : (tree.toJson plainNumeral).Plain fun _ => True := plain_toJson fun _ _ _ _ => trivial
  exact ofJsonWithin?_reordered (Nat.le_refl _) hv (hv.isReadable plain hr)

end Node

namespace Options

open Json.Value (Reordered)

variable {σ : Type} {tree : Node}

/-- Where all numbers are read back from the way they are written, the text is read as the tree. -/
theorem readTree_write (hx : ∀ x, .number x ∈ tree.preorder → Json.Rereads x)
    (hr : (tree.toJson Node.plainNumeral).isReadable maxBrackets = true) {value : Value}
    (hv : Reordered (tree.toJson Node.plainNumeral) value) (options : Options)
    (spacing : Json.Spacing) (level : Nat) :
    { options with fromTree := true }.readTree (Json.write spacing level value) = .ok tree := by
  have plain : (tree.toJson Node.plainNumeral).Plain Json.Rereads :=
    Node.plain_toJson fun inner hinner x h => hx x (h ▸ hinner)
  rw [readTree, if_pos rfl, Json.read?_write (hv.plain plain), Option.bind_some,
    Node.ofJson?_reordered hr hv]

/-- Asked for the tree, and for no pruning, the command writes the tree it has read. -/
theorem process_tree {options : Options} {input : String} (hread : options.readTree input = .ok tree)
    (hprune : options.prune = false) (hemit : options.emit = .tree) :
    Yields (σ := σ) (options.process input)
      (Json.write options.spacing 0 (tree.toJson Node.plainNumeral)) := by
  have unchanged : Yields (σ := σ) (Filter.transform maxDepth options.filters tree) tree := by
    rw [filters, hprune]
    exact (Yields.report _).bind (.pure tree)
  rw [process, hread]
  refine Yields.bind (fun trail => ⟨trail, rfl⟩) (unchanged.bind ((Yields.report _).bind ?_))
  rw [write, hemit]
  exact .pure _

/-- **The interchange form of trees loses nothing.** Take a tree whose numbers are all finite, and
suppose that its finite numbers are read back from the way they are written and that its brackets are
not nested too deep. Its value is read as the tree whatever the order of the entries in each object,
and so is any text of such a value. For a program that is parsed to this tree it makes no difference
whether it is processed itself or its tree is written and then processed, whatever the other
settings. -/
theorem process_fromTree
    (hf : ∀ x, .number x ∈ tree.preorder → x.isNaN = false ∧ x.isInfinite = false)
    (hx : ∀ x, .number x ∈ tree.preorder → x.isNaN = false → x.isInfinite = false → Json.Rereads x)
    (hr : (tree.toJson Node.plainNumeral).isReadable maxBrackets = true) :
    (∀ value, Reordered (tree.toJson Node.plainNumeral) value → Node.ofJson? value = some tree ∧
      ∀ (reading : Options) (spacing : Json.Spacing) (level : Nat),
        { reading with fromTree := true }.readTree (Json.write spacing level value) = .ok tree) ∧
    ∀ (source : String) (writing reading : Options), parse source = .ok tree →
      writing.fromTree = false → writing.prune = false → writing.emit = .tree →
      reading.fromTree = false → ∃ text, Yields (σ := σ) (writing.process source) text ∧
        { reading with fromTree := true }.process (σ := σ) text = reading.process source := by
  have rereads : ∀ x, .number x ∈ tree.preorder → Json.Rereads x := fun x hmem =>
    hx x hmem (hf x hmem).1 (hf x hmem).2
  refine ⟨fun value hv => ⟨Node.ofJson?_reordered hr hv, fun reading spacing level =>
    readTree_write rereads hr hv reading spacing level⟩, ?_⟩
  intro source writing reading parsed hwriting hprune hemit hreading
  have direct (options : Options) (h : options.fromTree = false) :
      options.readTree source = .ok tree := by
    rw [readTree, h, if_neg Bool.false_ne_true, parsed]
  refine ⟨_, process_tree (direct writing hwriting) hprune hemit, ?_⟩
  rw [process, process, readTree_write rereads hr (.refl _), direct reading hreading]
  rfl

/-- `var a = 1.5, b; if (b) f(b);` -/
def sampled : Node := .toplevel
  [.declaration .var [.varDef "a" (some (.number ⟨4609434218613702656⟩)), .varDef "b" none],
    .ifElse (.identifier "b") (.simple (.call .plain (.identifier "f") [.identifier "b"])) none]

/-- The number and the names in a tree of the shape of `sampled`. -/
def leaves? : Except Error Node → Option (Binary64 × List String)
  | .ok (.body .toplevel [.declaration .var [.varDef a (some (.number x)), .varDef b none],
      .ifElse (.identifier c) (.simple (.call .plain (.identifier f) [.identifier d])) none]) =>
    some (x, [a, b, c, f, d])
  | _ => none

theorem parse_sampled : parse "var a = 1.5, b; if (b) f(b);" = .ok sampled := by
  have answer : leaves? (parse "var a = 1.5, b; if (b) f(b);")
      = some (⟨4609434218613702656⟩, ["a", "b", "b", "f", "b"]) := by decide +kernel
  unfold leaves? at answer
  split at answer
  · next h => cases answer; exact h
  · cases answer

theorem rereads_sampled : Json.Rereads ⟨4609434218613702656⟩ := by
  have fraction : Json.natural (Json.numberText ⟨4609434218613702656⟩).toList = none := by
    decide +kernel
  have exact : Json.numeral (Json.numberText ⟨4609434218613702656⟩).toList
      = some (some ⟨4609434218613702656⟩, []) := by decide +kernel
  rw [Json.Rereads, Json.number, fraction, exact]
  rfl

theorem number_sampled {x : Binary64} (h : .number x ∈ sampled.preorder) :
    x = ⟨4609434218613702656⟩ := by
  have numbers : sampled.preorder.filterMap Node.asNumber? = [⟨4609434218613702656⟩] := by cbv
  have listed : x ∈ sampled.preorder.filterMap Node.asNumber? :=
    List.mem_filterMap.mpr ⟨_, h, rfl⟩
  rw [numbers] at listed
  exact List.mem_singleton.mp listed

theorem process_fromTree_sampled :
    (∀ x, .number x ∈ sampled.preorder → x.isNaN = false ∧ x.isInfinite = false) ∧
    (∀ x, .number x ∈ sampled.preorder → x.isNaN = false → x.isInfinite = false → Json.Rereads x) ∧
    (sampled.toJson Node.plainNumeral).isReadable maxBrackets = true ∧
    parse "var a = 1.5, b; if (b) f(b);" = .ok sampled ∧
    (∃ entries, sampled.toJson Node.plainNumeral = .record entries ∧
      Node.ofJson? (.record entries.reverse) = some sampled) ∧
    ∃ text, Yields (σ := Unit)
        (Options.process { standard with emit := .tree, prune := false }
          "var a = 1.5, b; if (b) f(b);") text ∧
      { standard with minify := true, fromTree := true }.process (σ := Unit) text
        = { standard with minify := true }.process "var a = 1.5, b; if (b) f(b);" := by
  have finite : ∀ x, .number x ∈ sampled.preorder → x.isNaN = false ∧ x.isInfinite = false := by
    intro x h
    rw [number_sampled h]
    decide
  have exact : ∀ x, .number x ∈ sampled.preorder → x.isNaN = false → x.isInfinite = false →
      Json.Rereads x := by
    intro x h _ _
    rw [number_sampled h]
    exact rereads_sampled
  have shallow : (sampled.toJson Node.plainNumeral).isReadable maxBrackets = true := by cbv
  obtain ⟨values, texts⟩ := process_fromTree (σ := Unit) finite exact shallow
  obtain ⟨entries, hentries⟩ := Node.exists_record Node.plainNumeral sampled
  have turned : Reordered (sampled.toJson Node.plainNumeral) (.record entries.reverse) := by
    rw [hentries]
    exact .of_perm (List.reverse_perm entries).symm
  exact ⟨finite, exact, shallow, parse_sampled, ⟨entries, hentries, (values _ turned).1⟩,
    texts _ { standard with emit := .tree, prune := false } { standard with minify := true }
      parse_sampled rfl rfl rfl rfl⟩

end Options

end JsPrune
