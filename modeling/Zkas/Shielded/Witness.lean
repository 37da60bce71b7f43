import Zkas.Lib.MerkleTree
import Zkas.Shielded.Tree

/-!
# Commitment trees and incremental witnesses

The wallet keeps three more types of the crate `incrementalmerkletree`: a `CommitmentTree`, an
`IncrementalWitness` of one of its leaves, and the `MerklePath` from a leaf to the root. Their
operations are those of a `WitnessOps` record, and `WitnessOps.Spec` states the documented behaviour
that the results rely on.

`NoteTree.Holds f xs` says that a frontier is that of the leaves `xs`. Under an injective node hash,
a path that leads to the root of such a frontier starts at the leaf at its position
(`WitnessOps.Spec.leaf_of_root`). -/

namespace Zkas

open MountainRange MerkleTree List NoteTree

variable {H N : Type}

/-! ## Frontiers of leaves -/

namespace NoteTree

variable (T : NoteTree H N)

/-- The node of a tree of leaves. -/
def nodeOf (xs : List N) (l i : ℕ) : N := node T.combine (padded T.emptyLeaf xs) l i

/-- A frontier is that of a list of leaves. -/
def Holds (f : T.Frontier) (xs : List N) : Prop :=
  T.value f = xs.getLast?.map fun leaf => (xs.length - 1, leaf,
    ommers T.combine (padded T.emptyLeaf xs) TREE_DEPTH 0 (xs.length - 1))

variable {T} {xs : List N}

theorem padded_concat_of_lt {e x : N} {j : ℕ} (hj : j < xs.length) :
    padded e (xs ++ [x]) j = padded e xs j := by
  rw [padded, padded, getD_append _ _ _ _ hj]

theorem padded_concat_self (xs : List N) (e x : N) : padded e (xs ++ [x]) xs.length = x := by
  rw [padded, getD_append_right _ _ _ _ le_rfl, Nat.sub_self, getD_cons_zero]

theorem padded_of_le {e : N} {j : ℕ} (hj : xs.length ≤ j) : padded e xs j = e :=
  getD_eq_default _ _ hj

theorem padded_of_lt {e : N} {j : ℕ} (hj : j < xs.length) : padded e xs j = xs[j] :=
  getD_eq_getElem _ _ hj

theorem nodeOf_of_le {l i : ℕ} (h : xs.length ≤ i * 2 ^ l) :
    T.nodeOf xs l i = emptyRoot T.combine T.emptyLeaf l :=
  node_eq_emptyRoot fun _ hj => padded_of_le (h.trans hj)

theorem ommers_concat (xs : List N) (x : N) :
    ommers T.combine (padded T.emptyLeaf (xs ++ [x])) TREE_DEPTH 0 xs.length =
      ommers T.combine (padded T.emptyLeaf xs) TREE_DEPTH 0 xs.length := by
  refine ommers_congr fun j hj => padded_concat_of_lt ?_
  rwa [pow_zero, mul_one] at hj

theorem holds_concat_iff {f : T.Frontier} {x : N} :
    T.Holds f (xs ++ [x]) ↔ T.value f = some (xs.length, x,
      ommers T.combine (padded T.emptyLeaf xs) TREE_DEPTH 0 xs.length) := by
  unfold Holds
  rw [getLast?_concat, Option.map_some, length_append, length_singleton,
    Nat.add_sub_cancel, ommers_concat]

/-- The leaves of a frontier fit into the tree. -/
theorem Holds.length_le (hT : T.FrontierSpec) {f : T.Frontier} (hf : T.Holds f xs) :
    xs.length ≤ 2 ^ TREE_DEPTH := by
  cases hlast : xs.getLast? with
  | none =>
    rw [getLast?_eq_none_iff.mp hlast]
    exact Nat.zero_le _
  | some x =>
    rw [Holds, hlast] at hf
    have := (hT.value_wf hf).1
    omega

/-- The root of a frontier is that of its leaves. -/
theorem Holds.root_eq (hT : T.FrontierSpec) {f : T.Frontier} {ys : List N} {y : N}
    (hf : T.Holds f (ys ++ [y])) : T.root f = T.nodeOf (ys ++ [y]) TREE_DEPTH 0 := by
  have hfits := hf.length_le hT
  rw [length_append, length_singleton] at hfits
  have hfold : rootFrom T.combine T.emptyLeaf TREE_DEPTH 0 ys.length
      (node T.combine (padded T.emptyLeaf (ys ++ [y])) 0 ys.length)
      (ommers T.combine (padded T.emptyLeaf (ys ++ [y])) TREE_DEPTH 0 ys.length) =
        some (node T.combine (padded T.emptyLeaf (ys ++ [y])) (0 + TREE_DEPTH)
          (ys.length / 2 ^ TREE_DEPTH)) :=
    rootFrom_ommers fun j hj => padded_of_le (by rwa [length_append, length_singleton])
  have hleaf : node T.combine (padded T.emptyLeaf (ys ++ [y])) 0 ys.length = y :=
    padded_concat_self ys T.emptyLeaf y
  rw [hleaf, zero_add, Nat.div_eq_of_lt (by omega), ommers_concat] at hfold
  exact Option.some.inj ((hT.root_eq (holds_concat_iff.mp hf)).symm.trans hfold)

end NoteTree

/-! ## Witnesses -/

/-- The operations of the crate `incrementalmerkletree` on commitment trees, witnesses and paths. -/
structure WitnessOps (T : NoteTree H N) where
  CommitmentTree : Type
  IncrementalWitness : Type
  MerklePath : Type
  /-- `CommitmentTree::empty`. -/
  empty : CommitmentTree
  /-- `CommitmentTree::from_frontier`. -/
  fromFrontier : T.Frontier → CommitmentTree
  /-- `CommitmentTree::to_frontier`. -/
  toFrontier : CommitmentTree → T.Frontier
  /-- `CommitmentTree::root`. -/
  treeRoot : CommitmentTree → N
  /-- `IncrementalWitness::from_parts`: there may be no witness with the given parts, or a panic. -/
  fromParts : CommitmentTree → List N → Option CommitmentTree →
    Except (Fault Unit) IncrementalWitness
  tree : IncrementalWitness → CommitmentTree
  filled : IncrementalWitness → List N
  cursor : IncrementalWitness → Option CommitmentTree
  /-- `IncrementalWitness::path`: there may be no path, or a panic. -/
  path : IncrementalWitness → Except (Fault Unit) (Option MerklePath)
  position : MerklePath → ℕ
  path_elems : MerklePath → List N
  /-- `MerklePath::root`: the root a path leads to from a leaf. -/
  root : MerklePath → N → N

namespace WitnessOps

variable {T : NoteTree H N}

/-- The documented behaviour of the witness operations. -/
structure Spec (W : WitnessOps T) : Prop where
  /-- The tree of the empty frontier has the root of the empty tree. -/
  treeRoot_empty : ∀ {f}, T.value f = none →
    W.treeRoot (W.fromFrontier f) = emptyRoot T.combine T.emptyLeaf TREE_DEPTH
  /-- The tree of any other frontier has the frontier's root. -/
  treeRoot_some : ∀ {f v}, T.value f = some v → W.treeRoot (W.fromFrontier f) = T.root f
  /-- The path of a witness has a sibling for each level. -/
  length_path_elems : ∀ {w path}, W.path w = .ok (some path) →
    (W.path_elems path).length = TREE_DEPTH
  /-- The path of a witness stands at a position of the tree. -/
  position_lt : ∀ {w path}, W.path w = .ok (some path) → W.position path < 2 ^ TREE_DEPTH
  /-- A path hashes a leaf with the siblings, each on the side that its position has there. -/
  root_eq : ∀ path leaf, W.root path leaf =
    foldPath T.combine 0 (W.position path) leaf (W.path_elems path)

namespace Spec

variable {W : WitnessOps T} (hW : W.Spec) (hT : T.FrontierSpec) {f : T.Frontier} {xs : List N}
include hW hT

theorem treeRoot_eq (hxs : T.Holds f xs) :
    W.treeRoot (W.fromFrontier f) = T.nodeOf xs TREE_DEPTH 0 := by
  rcases eq_nil_or_concat' xs with rfl | ⟨ys, y, rfl⟩
  · rw [hW.treeRoot_empty hxs, nodeOf_of_le (Nat.zero_le _)]
  · rw [hW.treeRoot_some (holds_concat_iff.mp hxs), hxs.root_eq hT]

/-- Under an injective node hash, a path that leads to the root of a tree of leaves starts at the
leaf at its position. -/
theorem leaf_of_root (hnode : ∀ l, Function.Injective2 (T.combine l)) (hxs : T.Holds f xs)
    {w : W.IncrementalWitness} {path : W.MerklePath} (hpath : W.path w = .ok (some path)) {leaf : N}
    (hroot : W.root path leaf = W.treeRoot (W.fromFrontier f)) (hleaf : leaf ≠ T.emptyLeaf) :
    xs[W.position path]? = some leaf := by
  have htree : foldPath T.combine 0 (W.position path)
      (node T.combine (padded T.emptyLeaf xs) 0 (W.position path))
      (siblings T.combine (padded T.emptyLeaf xs) TREE_DEPTH 0 (W.position path)) =
        node T.combine (padded T.emptyLeaf xs) (0 + TREE_DEPTH)
          (W.position path / 2 ^ TREE_DEPTH) :=
    foldPath_siblings TREE_DEPTH 0 (W.position path)
  rw [zero_add, Nat.div_eq_of_lt (hW.position_lt hpath)] at htree
  rw [hW.root_eq, hW.treeRoot_eq hT hxs, nodeOf, ← htree] at hroot
  have hnode_eq := (foldPath_inj hnode
    ((hW.length_path_elems hpath).trans (length_siblings ..).symm) hroot).1
  -- Past the end of the leaves there are empty ones only.
  have hlt : W.position path < xs.length := by
    by_contra hge
    exact hleaf (hnode_eq.trans (padded_of_le (Nat.le_of_not_lt hge)))
  rw [getElem?_eq_getElem hlt, hnode_eq]
  exact congrArg some (padded_of_lt hlt).symm

end Spec

end WitnessOps

end Zkas
