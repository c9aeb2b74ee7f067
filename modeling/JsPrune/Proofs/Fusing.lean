import JsPrune.Proofs.Repruning
import JsPrune.Proofs.Sweeping

/-!
# Two passes in one traversal

Pruning acts on a node before the traversal goes down, minifying acts on what comes back up. In one
traversal the two take turns at every level: what pruning leaves of a child may be gone when the
parent comes to look at itself, and only then is it seen whether the parent has anything left to do.

Still nothing is lost. A node that is settled and then swept from below is what sweeping makes of the
pruned tree (`swept_pruned`), because sifting the children of a node whose children were replaced is
sifting the replacements (`siftChildren_mapChildren`). The order of the two filters in the chain does
not matter, since one only acts on the way down and the other only on the way up.

Main result: `transform_fused`. One traversal with both filters, in either order, gives what pruning
and then minifying gives.
-/

namespace JsPrune

/-- A computation has one value. -/
theorem Yields.unique {σ α : Type} {walk : Walk σ α} {a b : α} (trail : Trail σ)
    (ha : Yields walk a) (hb : Yields walk b) : a = b := by
  obtain ⟨after, hfirst⟩ := ha trail
  obtain ⟨last, hsecond⟩ := hb trail
  rw [hfirst] at hsecond
  cases hsecond
  rfl

theorem Part.sift_map (f : Node → Outcome) (g : Node → Node) (part : Part) :
    (part.map g).sift f = part.sift fun node => f (g node) := by
  cases part with
  | optional node => cases node <;> rfl
  | sequence nodes => exact congrArg Part.sequence List.filterMap_map
  | _ => rfl

/-- Children that are replaced and then sifted are sifted as what replaces them. -/
theorem Node.siftChildren_mapChildren (f : Node → Outcome) (g : Node → Node) (node : Node) :
    (node.mapChildren g).siftChildren f = node.siftChildren fun child => f (g child) := by
  by_cases h : node.kind.recipe? = none
  · rw [mapChildren_of_recipe?_eq_none g h, siftChildren_of_recipe?_eq_none f h,
      siftChildren_of_recipe?_eq_none _ h]
  · have parts : (node.mapChildren g).parts.map (Part.sift f)
        = node.parts.map (Part.sift fun child => f (g child)) := by
      rw [parts_mapChildren, List.map_map]
      exact List.map_congr_left fun part _ => Part.sift_map f g part
    have inside : (node.mapChildren g).kind.recipe? ≠ none := by rwa [kind_mapChildren]
    have twice := ofParts?_eq_siftChildren f inside
    rw [kind_mapChildren, parts, ofParts?_eq_siftChildren _ h] at twice
    exact (Option.some.inj twice).symm

namespace DeadBranch

open Minify (swept drop)

variable {σ : Type} {known : Predicate}

/-- What both passes leave of a node: it is settled, the same is done to its children, and then it
is dropped if it has nothing left to do. -/
theorem swept_pruned (known : Predicate) (node : Node) : swept (pruned known node)
    = drop (.node ((settle known node).siftChildren fun child => swept (pruned known child))) := by
  rw [Minify.swept_eq, pruned_eq, Node.siftChildren_mapChildren]

/-- Where a child may stand, what both passes leave of it may stand. -/
theorem takes_swept_pruned {node : Node} {slot : Slot} (hc : node.Conforms)
    (h : slot.accepts node.kind = true) : slot.Takes (swept (pruned known node)) := by
  apply Minify.takes_swept
  rw [pruned_eq, Node.kind_mapChildren]
  exact (gentle_settle known).accepted hc h

/-- The chain settles a node on the way down and drops it, if need be, on the way up. -/
def Fuses (known : Predicate) (filters : List (Filter σ)) : Prop :=
  ∀ {walk : Node → Walk σ Outcome} {node out : Node},
    Yields ((settle known node).descend walk) out →
      Yields (Filter.runChain walk filters node) (drop (.node out))

theorem fuses_pruning_first (observe : Node → σ → σ) :
    Fuses known [filter known observe, Minify.filter] := by
  intro walk node out h
  exact Filter.runChain_rewrites (filter_rewrites known observe) (Minify.runChain_yields h)

theorem fuses_minifying_first (observe : Node → σ → σ) :
    Fuses known [Minify.filter, filter known observe] := by
  intro walk node out h
  exact Minify.runChain_drop (Filter.runChain_yields (filter_rewrites known observe) h)

theorem walkNode_fused {filters : List (Filter σ)} (hf : Fuses known filters) {levels : Nat}
    {node : Node} (hc : node.Conforms) (hle : node.height ≤ levels) :
    Yields (Filter.walkNode filters levels node) (swept (pruned known node)) := by
  induction levels generalizing node with
  | zero =>
    rw [Node.height_eq] at hle
    omega
  | succ levels ih =>
    have settled := (gentle_settle known).conforms hc
    have below : ∀ child ∈ (settle known node).children,
        Yields (Filter.walkNode filters levels child) (swept (pruned known child)) := by
      intro child hchild
      have hlt := Node.height_lt_of_mem_children hchild
      have hsettle := (gentle_settle known).height_le node
      exact ih (settled.of_mem_children hchild) (by omega)
    have taken : ∀ field part, (field, part) ∈ (settle known node).fields →
        ∀ child ∈ part.nodes, ∃ slot, field.role.slot? = some slot ∧
          slot.Takes (swept (pruned known child)) := by
      intro field part hentry child hchild
      obtain ⟨slot, hslot, haccepts⟩ :=
        Node.slotsAccept_iff.mp settled.slots field part hentry child hchild
      have mem := Node.mem_children_of_mem_nodes (List.of_mem_zip hentry).2 hchild
      exact ⟨slot, hslot, takes_swept_pruned (settled.of_mem_children mem) haccepts⟩
    rw [Filter.walkNode, swept_pruned]
    exact (Yields.modify _).bind (hf (Node.descend_yields_sift below taken))

/-- A traversal by such a chain. A tree with nothing left is a lone semicolon. -/
theorem transform_yields_fused {filters : List (Filter σ)} (hf : Fuses known filters)
    (hne : filters ≠ []) {tree : Node} (hc : tree.Conforms) (hd : tree.depth ≤ maxDepth) :
    Yields (Filter.transform maxDepth filters tree)
      ((swept (pruned known tree)).toOption.getD .empty) := by
  have walked : Yields (Filter.walk maxDepth filters tree) (swept (pruned known tree)) :=
    Filter.walk_yields hd (walkNode_fused hf hc (Node.depth_eq tree ▸ hd))
  rw [Filter.transform, if_neg (by rwa [List.isEmpty_iff])]
  exact (Yields.report _).bind (walked.bind (Yields.pure _))

/-- One pass after the other. -/
theorem minify_transform_yields (observe : Node → σ → σ) {tree : Node} (hc : tree.Conforms)
    (hd : tree.depth ≤ maxDepth) :
    Yields (Filter.transform maxDepth [filter known observe] tree >>= Minify.minify)
      ((swept (pruned known tree)).toOption.getD .empty) := by
  have shallow : (pruned known tree).depth ≤ maxDepth := by
    rw [Node.depth_eq] at hd ⊢
    exact Nat.le_trans (height_pruned_le known tree) hd
  exact (transform_filter_yields known observe hc hd).bind
    (Minify.minify_yields (conforms_pruned hc) shallow)

/-- **Pruning and minifying fuse.** On a conforming tree of at most `maxDepth` levels, whatever the
predicate, one traversal with the pruning filter and the minifying filter succeeds, whichever of them
comes first, and gives the tree that pruning first and then minifying gives. -/
theorem transform_fused (known : Predicate) (observe : Node → σ → σ) {tree : Node}
    (hc : tree.Conforms) (hd : tree.depth ≤ maxDepth) : ∃ out,
      Yields (Filter.transform maxDepth [filter known observe, Minify.filter] tree) out ∧
      Yields (Filter.transform maxDepth [Minify.filter, filter known observe] tree) out ∧
      Yields (Filter.transform maxDepth [filter known observe] tree >>= Minify.minify) out :=
  ⟨_, transform_yields_fused (fuses_pruning_first observe) (List.cons_ne_nil _ _) hc hd,
    transform_yields_fused (fuses_minifying_first observe) (List.cons_ne_nil _ _) hc hd,
    minify_transform_yields observe hc hd⟩

/-- `while (a) { if (true) ; else b; }` -/
def idling : Node := .toplevel
  [.loop .while_ (.identifier "a")
    (.block [.ifElse (.boolean true) .empty (some (.simple (.identifier "b")))])]

theorem transform_fused_idling : idling.Conforms ∧ idling.depth ≤ maxDepth ∧
    ∃ out : Node, out = .toplevel [.loop .while_ (.identifier "a") .empty] ∧
      Yields (Filter.transform maxDepth
        [filter (fun _ => .next) (fun _ (seen : Unit) => seen), Minify.filter] idling) out ∧
      Yields (Filter.transform maxDepth
        [Minify.filter, filter (fun _ => .next) fun _ (seen : Unit) => seen] idling) out ∧
      Yields (Filter.transform maxDepth
        [filter (fun _ => .next) fun _ (seen : Unit) => seen] idling >>= Minify.minify) out := by
  have fine : Node.conformsWithin 6 idling = true := by decide
  have shallow : idling.depth ≤ maxDepth :=
    Nat.le_trans (Node.depth_le_of_within fine) (by decide)
  -- Pruning from the inside out: the condition that holds is replaced by the branch that does
  -- nothing.
  have test : pruned (fun _ => .next) (.identifier "a") = .identifier "a" := by
    rw [pruned_eq, settle_of_live?_eq_none rfl]
    rfl
  have branch : pruned (fun _ => .next) (.ifElse (.boolean true) .empty
      (some (.simple (.identifier "b")))) = .empty := by
    rw [pruned_eq, settle_of_live?_eq_some rfl, settle_of_live?_eq_none rfl]
    rfl
  have block : pruned (fun _ => .next) (.block [.ifElse (.boolean true) .empty
      (some (.simple (.identifier "b")))]) = .block [.empty] := by
    rw [pruned_eq, settle_of_live?_eq_none rfl]
    exact congrArg (fun child => Node.block [child]) branch
  have loop : pruned (fun _ => .next) (.loop .while_ (.identifier "a") (.block [.ifElse
      (.boolean true) .empty (some (.simple (.identifier "b")))]))
      = .loop .while_ (.identifier "a") (.block [.empty]) := by
    rw [pruned_eq, settle_of_live?_eq_none rfl]
    exact congrArg₂ (Node.loop .while_) test block
  have once : pruned (fun _ => .next) idling
      = .toplevel [.loop .while_ (.identifier "a") (.block [.empty])] := by
    rw [pruned_eq, settle_of_live?_eq_none rfl]
    exact congrArg (fun child => Node.toplevel [child]) loop
  -- Sweeping from the inside out: the block that only held that branch goes, and the loop keeps a
  -- semicolon.
  have left : (swept (pruned (fun _ => .next) idling)).toOption.getD .empty
      = .toplevel [.loop .while_ (.identifier "a") .empty] := by
    have test : swept (.identifier "a") = .node (.identifier "a") := by
      rw [Minify.swept_eq]
      rfl
    have semicolon : swept .empty = .removed := by
      rw [Minify.swept_eq]
      rfl
    have block : swept (.block [.empty]) = .removed := by
      rw [Minify.swept_eq]
      simp only [Node.siftChildren, Node.parts, List.map_cons, Part.sift, List.filterMap_cons,
        semicolon]
      rfl
    have loop : swept (.loop .while_ (.identifier "a") (.block [.empty]))
        = .node (.loop .while_ (.identifier "a") .empty) := by
      rw [Minify.swept_eq]
      simp only [Node.siftChildren, Node.parts, List.map_cons, Part.sift, test, block]
      rfl
    rw [once, Minify.swept_eq]
    simp only [Node.siftChildren, Node.parts, List.map_cons, Part.sift, List.filterMap_cons, loop]
    rfl
  obtain ⟨out, pruningFirst, minifyingFirst, twice⟩ := transform_fused (fun _ => .next)
    (fun _ (seen : Unit) => seen) (.of_within fine) shallow
  have same := twice.unique (.start ()) (minify_transform_yields _ (.of_within fine) shallow)
  exact ⟨.of_within fine, shallow, out, same.trans left, pruningFirst, minifyingFirst, twice⟩

end DeadBranch

end JsPrune
