import Mathlib.Data.List.AList
import Zkas.Smt.Tree

/-!
# Updates of the tree

Model of `compute_root_update` of `crypto/smt/src/tree.rs`, which computes the root after a batch of
leaf updates from a store it only reads, together with the nodes that change. It walks down along
the updates. A collapsed leaf in the way is pushed down with them, and a leaf that is left alone
moves up, with a tombstone where it was.

`stored m x d n` is the node that a canonical store of the map `m` has at depth `d + n` on the path
of `x`, seen from depth `d`: none below a leaf that is kept whole. -/

namespace Zkas.Smt

open BitPath SparseTree

variable {D : Type}

/-- Set a key to a leaf hash, or remove it if the hash is zero. -/
structure LeafUpdate (D : Type) where
  key : Key
  leaf_hash : D
  deriving DecidableEq

/-- `partition_by_bit`: the updates are sorted, so those that go left come first. -/
def partitionByBit (updates : List (LeafUpdate D)) (depth : ℕ) :
    List (LeafUpdate D) × List (LeafUpdate D) :=
  (updates.takeWhile fun u => !bitAt u.key depth, updates.dropWhile fun u => !bitAt u.key depth)

/-- `first_with_bit`. -/
def firstWithBit (updates : List (LeafUpdate D)) (depth : ℕ) (right : Bool) :
    Option (LeafUpdate D) :=
  if right then (partitionByBit updates depth).2.head? else (partitionByBit updates depth).1.head?

/-- The nodes that change; `some none` is a node that is deleted. -/
abbrev SmtNodeChanges (D : Type) := AList fun _ : BranchKey => Option (Node D)

/-- The change at a position. -/
def SmtNodeChanges.change (changes : SmtNodeChanges D) (bk : BranchKey) :
    Option (Option (Node D)) :=
  changes.lookup bk

instance : CoeFun (SmtNodeChanges D) fun _ => BranchKey → Option (Option (Node D)) where
  coe := SmtNodeChanges.change

section

variable {ε : Type} (H : SmtHasher D) (store : SmtStore ε D) (changes : SmtNodeChanges D)

/-- A node from the changes, or else from the store. -/
def readNode (bk : BranchKey) : Except ε (Option (Node D)) :=
  match changes bk with
  | some node => .ok node
  | none => store.getNode bk

/-- `merged_node`. -/
def mergedNode (left right : NodeResult D) (depth : ℕ) : NodeResult D × Option (Node D) :=
  let result := Summary.merge H (DEPTH - 1 - depth) left right
  (result, NodeResult.node result)

/-- `read_sibling_result`. -/
def readSiblingResult (parent_key : BranchKey) (right : Bool)
    (depth : ℕ) : Except ε (NodeResult D) := do
  let node ← readNode store changes (childBranchKey parent_key right depth)
  return NodeResult.ofNode node

variable [DecidableEq D]

/-- `leaf_result`. -/
def leafResult : Option (LeafUpdate D) → NodeResult D
  | some u => if u.leaf_hash ≠ H.ZERO_HASH then .collapsed u.key u.leaf_hash else .empty
  | none => .empty

variable (subtree_key : BranchKey)

/-- `record_change`. -/
def recordChange (existing new_node : Option (Node D)) : SmtNodeChanges D :=
  if existing ≠ new_node then changes.insert subtree_key new_node else changes

variable (existing : Option (Node D)) (updates : List (LeafUpdate D))

/-- `expand_singleton`: a collapsed leaf in the way becomes one of the updates, unless it is one. -/
def expandSingleton : Option (Node D) × List (LeafUpdate D) :=
  match existing with
  | some (.collapsed cl) =>
    if ∃ u ∈ updates, u.key = cl.lane_key then (none, updates)
    else (none, (updates.takeWhile fun u => u.key < cl.lane_key) ++
      { key := cl.lane_key, leaf_hash := cl.leaf_hash } ::
        updates.dropWhile fun u => u.key < cl.lane_key)
  | other => (other, updates)

/-- What a visit to a node comes to: it is done, or it goes on to both sides. -/
inductive Visit (D : Type) where
  | done (result : NodeResult D) (changes : SmtNodeChanges D)
  | descend (subtree_key : BranchKey) (existing : Option (Node D)) (updates : List (LeafUpdate D))

/-- A single update of a position that is empty, or of the leaf that is alone there. -/
def visitSingle (u : LeafUpdate D) : Option (NodeResult D × SmtNodeChanges D) :=
  match existing with
  | none =>
    if u.leaf_hash = H.ZERO_HASH then some (.empty, changes)
    else some (.collapsed u.key u.leaf_hash, recordChange changes subtree_key none
      (some (.collapsed { lane_key := u.key, leaf_hash := u.leaf_hash })))
  | some (.collapsed cl) =>
    if u.key = cl.lane_key then
      let new_node := if u.leaf_hash = H.ZERO_HASH then none
        else some (.collapsed { lane_key := u.key, leaf_hash := u.leaf_hash })
      some (leafResult H (some u), recordChange changes subtree_key existing new_node)
    else none
  | some (.internal _) => none

/-- What a visit to a node comes to, once the node is read. -/
def visitRead (first : LeafUpdate D) (rest : List (LeafUpdate D)) : Visit D :=
  match if rest = [] then visitSingle H changes subtree_key existing first else none with
  | some (result, changes) => .done result changes
  | none =>
    let (existing_for_write, updates) := expandSingleton existing (first :: rest)
    .descend subtree_key existing_for_write updates

/-- The visit to a node with updates; there has to be one. -/
def visit (depth : ℕ) : Except (Fault ε) (Visit D) :=
  match updates with
  | [] => .error .panic
  | first :: rest => do
    let subtree_key := BranchKey.new depth first.key
    let existing ← (readNode store changes subtree_key).mapError .err
    return visitRead H changes subtree_key existing first rest

variable (recurse : SmtNodeChanges D → List (LeafUpdate D) → Except (Fault ε) (NodeResult D × SmtNodeChanges D))

/-- One side of a node: read when it has no updates, else computed. -/
def computeSide
    (changes : SmtNodeChanges D) (updates : List (LeafUpdate D)) (parent_key : BranchKey)
    (right : Bool) (depth : ℕ) : Except (Fault ε) (NodeResult D × SmtNodeChanges D) :=
  if updates = [] then do
    let result ← (readSiblingResult store changes parent_key right depth).mapError .err
    return (result, changes)
  else recurse changes updates

/-- A leaf that moves up leaves a tombstone where it was. -/
def promote (result : NodeResult D) (depth : ℕ) : SmtNodeChanges D :=
  match result with
  | .collapsed k _ =>
    changes.insert (childBranchKey subtree_key (bitAt k depth) depth) none
  | _ => changes

/-- Both sides of a node above the leaf parents. -/
def computeSides (changes : SmtNodeChanges D) (subtree_key : BranchKey) (existing : Option (Node D))
    (updates : List (LeafUpdate D)) (depth : ℕ) :
    Except (Fault ε) (NodeResult D × SmtNodeChanges D) := do
  let (left_updates, right_updates) := partitionByBit updates depth
  let (left, changes) ← computeSide store recurse changes left_updates subtree_key false depth
  let (right, changes) ← computeSide store recurse changes right_updates subtree_key true depth
  let (result, new_node) := mergedNode H left right depth
  return (result,
    recordChange (promote changes subtree_key result depth) subtree_key existing new_node)

/-- The two leaves of a leaf parent, from the updates alone. -/
def computeLeaves : NodeResult D × SmtNodeChanges D :=
  let left := leafResult H (firstWithBit updates (DEPTH - 1) false)
  let right := leafResult H (firstWithBit updates (DEPTH - 1) true)
  let (result, new_node) := mergedNode H left right (DEPTH - 1)
  (result, recordChange changes subtree_key existing new_node)

/-- `compute_subtree`, with the number of levels down to the leaf parents. -/
def computeSubtree : ℕ → SmtNodeChanges D → List (LeafUpdate D) →
    Except (Fault ε) (NodeResult D × SmtNodeChanges D)
  | 0, changes, updates => do
    match ← visit H store changes updates (DEPTH - 1) with
    | .done result changes => return (result, changes)
    | .descend subtree_key existing updates =>
      return computeLeaves H changes subtree_key existing updates
  | left + 1, changes, updates => do
    let depth := DEPTH - 1 - (left + 1)
    match ← visit H store changes updates depth with
    | .done result changes => return (result, changes)
    | .descend subtree_key existing updates =>
      computeSides H store (computeSubtree left) changes subtree_key existing updates depth

/-- `compute_root_update`. -/
def computeRootUpdate (current_root : D) (updates : List (LeafUpdate D)) :
    Except (Fault ε) (D × SmtNodeChanges D) :=
  if updates = [] then .ok (current_root, ∅)
  else do
    let (result, changes) ← computeSubtree H store (DEPTH - 1) ∅ updates
    return (result.digest H DEPTH, changes)

end

/-! ## Nodes of a canonical store -/

/-- The node at depth `d + n` on the path of `x`, as long as the nodes from depth `d` on are inner
ones. -/
def stored (H : SmtHasher D) (m : Key → Option D) (x : Key) : ℕ → ℕ → Option (Node D)
  | d, 0 => NodeResult.node (nodeAt H m d x)
  | d, n + 1 =>
    match nodeAt H m d x with
    | .internal _ => stored H m x (d + 1) n
    | _ => none

section

variable {H : SmtHasher D} {m m' : Key → Option D} {x : Key} {d n : ℕ}

theorem stored_succ_of_internal {hash : D} (h : nodeAt H m d x = .internal hash) :
    stored H m x d (n + 1) = stored H m x (d + 1) n := by
  rw [stored, h]

theorem stored_succ_of_ne (h : ∀ hash, nodeAt H m d x ≠ .internal hash) :
    stored H m x d (n + 1) = none := by
  rw [stored]
  cases hnode : nodeAt H m d x with
  | internal hash => exact absurd hnode (h hash)
  | empty => rfl
  | collapsed k v => rfl

theorem node_of_stored {v : Node D} (h : stored H m x d n = some v) :
    NodeResult.node (nodeAt H m (d + n) x) = some v := by
  induction n generalizing d with
  | zero => exact h
  | succ n ih =>
    cases hnode : nodeAt H m d x with
    | internal hash =>
      rw [stored_succ_of_internal hnode] at h
      have := ih h
      rwa [show d + 1 + n = d + (n + 1) by omega] at this
    | empty => rw [stored, hnode] at h; cases h
    | collapsed k v => rw [stored, hnode] at h; cases h

theorem stored_of_internal (h : ∀ e < n, ∃ hash, nodeAt H m (d + e) x = .internal hash) :
    stored H m x d n = NodeResult.node (nodeAt H m (d + n) x) := by
  induction n generalizing d with
  | zero => rfl
  | succ n ih =>
    obtain ⟨hash, hnode⟩ := h 0 (Nat.succ_pos n)
    rw [add_zero] at hnode
    rw [stored_succ_of_internal hnode, ih fun e he => ?_, show d + 1 + n = d + (n + 1) by omega]
    rw [show d + 1 + e = d + (e + 1) by omega]
    exact h (e + 1) (Nat.succ_lt_succ he)

theorem exists_leaf_of_stored (hd : d + n ≤ 256) (h : stored H m x d n ≠ none) :
    ∃ y, Agree (d + n) x y ∧ m y ≠ none := by
  obtain ⟨v, hv⟩ := Option.ne_none_iff_exists'.mp h
  by_contra hnone
  push Not at hnone
  have hempty := (nodeAt_eq_empty_iff (H := H) hd).mpr hnone
  have := node_of_stored hv
  rw [hempty] at this
  cases this

theorem internal_of_stored (h : stored H m x d (n + 1) ≠ none) :
    ∃ hash, nodeAt H m d x = .internal hash := by
  by_contra hne
  push Not at hne
  exact h (stored_succ_of_ne hne)

theorem stored_parent (h : stored H m x d (n + 1) ≠ none) :
    ∃ hash, stored H m x d n = some (.internal hash) := by
  obtain ⟨hash, hnode⟩ := internal_of_stored h
  induction n generalizing d hash with
  | zero => exact ⟨hash, by rw [stored, hnode]; rfl⟩
  | succ n ih =>
    rw [stored_succ_of_internal hnode] at h ⊢
    obtain ⟨hash', hnode'⟩ := internal_of_stored h
    exact ih h hash' hnode'

theorem stored_ext {x' : Key} (h : ∀ e ≤ n, nodeAt H m (d + e) x = nodeAt H m' (d + e) x') :
    stored H m x d n = stored H m' x' d n := by
  induction n generalizing d with
  | zero => exact congrArg NodeResult.node (h 0 le_rfl)
  | succ n ih =>
    rw [stored, stored, show nodeAt H m d x = _ from h 0 (Nat.zero_le _), Nat.add_zero]
    cases nodeAt H m' d x' with
    | internal hash =>
      refine ih fun e he => ?_
      rw [show d + 1 + e = d + (e + 1) by omega]
      exact h (e + 1) (Nat.succ_le_succ he)
    | empty => rfl
    | collapsed k v => rfl

theorem stored_agree {x' : Key} (hd : d + n ≤ 256) (hx : Agree (d + n) x x') :
    stored H m x d n = stored H m x' d n :=
  stored_ext fun _ he => nodeAt_agree (by omega) (hx.mono (by omega))

theorem stored_congr (hd : d + n ≤ 256) (hm : ∀ y, Agree d x y → m y = m' y) :
    stored H m x d n = stored H m' x d n :=
  stored_ext fun e he => nodeAt_congr (by omega) (.refl _ x) fun y hy =>
    hm y (hy.mono (Nat.le_add_right d e))

theorem exists_two_of_internal (hd : d ≤ 256) {hash : D} (h : nodeAt H m d x = .internal hash) :
    ∃ y y', y ≠ y' ∧ Agree d x y ∧ Agree d x y' ∧ m y ≠ none ∧ m y' ≠ none := by
  have hsome : ∃ y, Agree d x y ∧ m y ≠ none := by
    by_contra hnone
    push Not at hnone
    rw [(nodeAt_eq_empty_iff hd).mpr hnone] at h
    cases h
  obtain ⟨y, hy, hmy⟩ := hsome
  obtain ⟨v, hv⟩ := Option.ne_none_iff_exists'.mp hmy
  by_contra htwo
  push Not at htwo
  have hcollapsed : nodeAt H m d x = .collapsed y v := by
    refine (nodeAt_eq_collapsed_iff hd).mpr ⟨hy, hv, fun y' hy' hne => ?_⟩
    exact htwo y y' hne.symm hy hy' hmy
  rw [hcollapsed] at h
  cases h

/-- Below a node that is not an inner one there are no inner nodes; one step down there is the leaf
that it holds, or nothing. -/
theorem nodeAt_succ_of_ne (hd : d < 256) (h : ∀ hash, nodeAt H m d x ≠ .internal hash) :
    nodeAt H m (d + 1) x = .empty ∨ nodeAt H m (d + 1) x = nodeAt H m d x := by
  cases hnode : nodeAt H m d x with
  | internal hash => exact absurd hnode (h hash)
  | empty =>
    have hnone := (nodeAt_eq_empty_iff hd.le).mp hnode
    exact .inl ((nodeAt_eq_empty_iff hd).mpr fun y hy => hnone y (hy.mono (Nat.le_succ d)))
  | collapsed k v =>
    obtain ⟨hk, hv, hother⟩ := (nodeAt_eq_collapsed_iff hd.le).mp hnode
    by_cases hside : Agree (d + 1) x k
    · refine .inr ((nodeAt_eq_collapsed_iff hd).mpr ⟨hside, hv, fun y hy hne => ?_⟩)
      exact hother y (hy.mono (Nat.le_succ d)) hne
    · refine .inl ((nodeAt_eq_empty_iff hd).mpr fun y hy => ?_)
      refine hother y (hy.mono (Nat.le_succ d)) ?_
      rintro rfl
      exact hside hy

end

end Zkas.Smt
