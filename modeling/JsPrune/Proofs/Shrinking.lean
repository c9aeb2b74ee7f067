import JsPrune.Proofs.Preorder
import JsPrune.Proofs.Repruning
import Mathlib.Logic.Function.Iterate

/-!
# Pruning shrinks

A pass over a tree in which nothing is decided gives the tree back. If anything is decided, at
whatever depth, the pass loses nodes, because a live branch has fewer nodes than its conditional and
nothing ever adds any. So passes can not go on changing a tree for longer than it has nodes, and what
they end with is a tree that a further pass leaves alone.

Main result: `transform_shrinks`.
-/

namespace JsPrune

namespace DeadBranch

variable {known : Predicate} {node : Node}

/-! ## Trees in which something is decided -/

/-- Somewhere in the tree is a conditional whose test is decided. -/
def Prunable (known : Predicate) (tree : Node) : Prop :=
  ∃ node ∈ tree.preorder, ∃ test ∈ test? node, (evalTest known test).isDetermined = true

theorem isDetermined_iff {verdict : Verdict} : verdict.isDetermined = true ↔ verdict ≠ .next := by
  cases verdict <;> simp [Verdict.isDetermined]

/-- A tree with nothing to prune is settled at each of its nodes. -/
theorem settled_iff_preorder :
    Settled known node ↔ ∀ inner ∈ node.preorder, live? known inner = none := by
  induction node using Node.childInduction with
  | step node ih =>
    rw [settled_iff, Node.forall_preorder]
    exact and_congr_right fun _ => forall₂_congr ih

theorem prunable_iff : Prunable known node ↔ ¬ Settled known node := by
  simp only [Prunable, settled_iff_preorder, live?_eq_none_iff, isDetermined_iff, not_forall,
    exists_prop]

/-! ## Fewer nodes -/

/-- If replacing nodes by nodes no larger leaves as many in all, none has become smaller. -/
theorem size_le_of_totalSize_le {f : Node → Node} {nodes : List Node}
    (h : ∀ node ∈ nodes, (f node).size ≤ node.size)
    (hall : Node.totalSize nodes ≤ Node.totalSize (nodes.map f)) :
    ∀ node ∈ nodes, node.size ≤ (f node).size := by
  induction nodes with
  | nil => exact fun node hn => absurd hn List.not_mem_nil
  | cons first rest ih =>
    have hfirst := h first (List.mem_cons_self ..)
    have hrest : ∀ node ∈ rest, (f node).size ≤ node.size :=
      fun node hn => h node (List.mem_cons_of_mem _ hn)
    have below := totalSize_map_le hrest
    have all : first.size + Node.totalSize rest
        ≤ (f first).size + Node.totalSize (rest.map f) := hall
    intro node hn
    rcases List.mem_cons.mp hn with rfl | hn
    · omega
    · exact ih hrest (by omega) node hn

/-- A tree that keeps all its nodes had nothing to prune. -/
theorem settled_of_size_le (h : node.size ≤ (pruned known node).size) : Settled known node := by
  induction node using Node.childInduction with
  | step node ih =>
    have top : live? known node = none :=
      live?_eq_none_of_size_le (Nat.le_trans h (size_pruned_le known node))
    rw [pruned_eq, settle_of_live?_eq_none top, Node.size_eq node,
      Node.size_eq (node.mapChildren _), Node.children_mapChildren] at h
    have smaller : ∀ child ∈ node.children, (pruned known child).size ≤ child.size :=
      fun child _ => Nat.le_trans (size_pruned_le known child) (size_settle_le known child)
    have same := size_le_of_totalSize_le smaller (by omega)
    exact .intro top fun child hc => ih child hc (same child hc)

/-- **A tree in which something is decided loses nodes.** -/
theorem size_pruned_lt (h : Prunable known node) : (pruned known node).size < node.size := by
  by_contra hle
  exact prunable_iff.mp h (settled_of_size_le (Nat.le_of_not_lt hle))

/-! ## Pass after pass -/

/-- Fewer passes than the tree has nodes leave nothing to prune. -/
theorem exists_settled_iterate (known : Predicate) (node : Node) :
    ∃ enough < node.size, Settled known ((pruned known)^[enough] node) := by
  induction hn : node.size using Nat.strongRecOn generalizing node with
  | ind size ih =>
    by_cases h : Settled known node
    · have some_nodes : 0 < size := by
        rw [← hn, Node.size_eq]
        omega
      exact ⟨0, some_nodes, h⟩
    · have smaller : (pruned known node).size < size := hn ▸ size_pruned_lt (prunable_iff.mpr h)
      obtain ⟨enough, hlt, hsettled⟩ := ih _ smaller (pruned known node) rfl
      exact ⟨enough + 1, by omega, hsettled⟩

variable {σ : Type}

/-- So many pruning passes, each over the result of the one before. -/
def passes (known : Predicate) (observe : Node → σ → σ) : Nat → Node → Walk σ Node
  | 0, tree => pure tree
  | count + 1, tree =>
    Filter.transform maxDepth [filter known observe] tree >>= passes known observe count

theorem depth_pruned_le (known : Predicate) (node : Node) :
    (pruned known node).depth ≤ node.depth := by
  rw [Node.depth_eq, Node.depth_eq]
  exact height_pruned_le known node

theorem passes_yields (known : Predicate) (observe : Node → σ → σ) (count : Nat) {tree : Node}
    (hc : tree.Conforms) (hd : tree.depth ≤ maxDepth) :
    Yields (passes known observe count tree) ((pruned known)^[count] tree) := by
  induction count generalizing tree with
  | zero => exact Yields.pure tree
  | succ count ih =>
    have shallow := Nat.le_trans (depth_pruned_le known tree) hd
    exact (transform_filter_yields known observe hc hd).bind (ih (conforms_pruned hc) shallow)

/-- Once a pass changes nothing, no later pass does. -/
theorem passes_yields_fixed {last tree : Node} {enough : Nat} (observe : Node → σ → σ)
    (hc : tree.Conforms) (hd : tree.depth ≤ maxDepth) (hlast : (pruned known)^[enough] tree = last)
    (hfixed : pruned known last = last) {count : Nat} (hcount : enough ≤ count) :
    Yields (passes known observe count tree) last := by
  obtain ⟨more, rfl⟩ := Nat.exists_eq_add_of_le' hcount
  have whole := passes_yields known observe (more + enough) hc hd
  rwa [Function.iterate_add_apply, hlast, Function.iterate_fixed hfixed] at whole

/-- **A pruning pass does nothing or shrinks.** On a conforming tree of at most `maxDepth` levels,
whatever the predicate, pruning succeeds. The result is the tree itself exactly when no conditional
in it has a decided test; otherwise it has fewer nodes. It never has more levels. Passes one after the
other come to a tree that no further pass changes, and it takes fewer of them than the tree has
nodes. -/
theorem transform_shrinks (known : Predicate) (observe : Node → σ → σ) {tree : Node}
    (hc : tree.Conforms) (hd : tree.depth ≤ maxDepth) :
    ∃ out, Yields (Filter.transform maxDepth [filter known observe] tree) out ∧
      (out = tree ↔ ¬ Prunable known tree) ∧
      (Prunable known tree → out.size < tree.size) ∧
      out.depth ≤ tree.depth ∧
      ∃ last, Yields (Filter.transform maxDepth [filter known observe] last) last ∧
        ∃ enough < tree.size, ∀ count ≥ enough, Yields (passes known observe count tree) last := by
  refine ⟨pruned known tree, transform_filter_yields known observe hc hd, ?_, size_pruned_lt,
    depth_pruned_le known tree, ?_⟩
  · rw [pruned_eq_self_iff, prunable_iff, not_not]
  · obtain ⟨enough, hlt, hsettled⟩ := exists_settled_iterate known tree
    have fixed := (pruned_eq_self_iff known _).mpr hsettled
    refine ⟨(pruned known)^[enough] tree, ?_, enough, hlt, fun count hcount =>
      passes_yields_fixed observe hc hd rfl fixed hcount⟩
    -- What a pass accepts it leaves as something that a pass accepts.
    have keeps (node : Node) (h : node.Conforms ∧ node.depth ≤ maxDepth) :
        (pruned known node).Conforms ∧ (pruned known node).depth ≤ maxDepth :=
      ⟨conforms_pruned h.1, Nat.le_trans (depth_pruned_le known node) h.2⟩
    have accepted := Function.Iterate.rec (fun node : Node => node.Conforms ∧ node.depth ≤ maxDepth)
      ⟨hc, hd⟩ keeps enough
    have again := transform_filter_yields known observe accepted.1 accepted.2
    rwa [fixed] at again

theorem transform_shrinks_guarded :
    let known := (FeatureSet.empty.enable "a").known
    FeatureSet.guarded.Conforms ∧ FeatureSet.guarded.depth ≤ maxDepth ∧
      Prunable known FeatureSet.guarded ∧
      ∃ out, Yields (σ := Unit)
          (Filter.transform maxDepth [filter known fun _ seen => seen] FeatureSet.guarded) out ∧
        out.size < FeatureSet.guarded.size ∧ out.depth ≤ FeatureSet.guarded.depth ∧
        ∃ last, Yields (σ := Unit) (Filter.transform maxDepth [filter known fun _ seen => seen] last) last ∧
          ∃ enough < FeatureSet.guarded.size, ∀ count ≥ enough,
            Yields (σ := Unit) (passes known (fun _ seen => seen) count FeatureSet.guarded) last := by
  intro known
  have conforms := Node.Conforms.of_within FeatureSet.conformsWithin_guarded
  -- The argument of the guard is a conditional that is decided.
  have decided : Prunable known FeatureSet.guarded := by
    refine ⟨.conditional (.boolean true) (.string "a") (.string "b"), ?_, .boolean true, rfl, rfl⟩
    simp [FeatureSet.guarded, Node.preorder_eq, Node.children, Node.parts, Part.nodes]
  obtain ⟨out, yields, _, fewer, lower, passes⟩ := transform_shrinks (σ := Unit) known
    (fun _ seen => seen) conforms FeatureSet.depth_guarded_le
  exact ⟨conforms, FeatureSet.depth_guarded_le, decided, out, yields, fewer decided, lower, passes⟩

end DeadBranch

end JsPrune
