import Zkas.Lib.Checked
import Zkas.Lib.SparseTree

/-!
# The sparse Merkle tree

Model of `crypto/smt/src/lib.rs`, of the types of `store.rs` and of `SparseMerkleTree::prove` of
`tree.rs`. A `Hash` that is a key is a word of 256 bits, its first byte the most significant one, so
that `bit_at` counts from the top. A `Hash` that is a digest is of an arbitrary type `D`, since no
hash into 32 bytes is injective. A bitmap is a word whose bit `d` from the bottom is that of depth
`d`.

The tree of a map of leaves is `SparseTree.root`; `Canonical` says that a store holds its nodes. -/

namespace Zkas.Smt

open BitPath SparseTree

/-- The number of levels from the root to the leaves. -/
def DEPTH : ℕ := 256

theorem height_succ (d : ℕ) : 256 - (d + 1) = DEPTH - 1 - d := by
  unfold DEPTH
  omega

/-- The key of a leaf. -/
abbrev Key := BitVec 256

/-- The hash of inner nodes, that of collapsed nodes, and the table of empty subtrees. -/
abbrev SmtHasher (D : Type) := Hashing 256 D D

variable {D : Type} (H : SmtHasher D)

/-- The empty leaf. -/
def SmtHasher.ZERO_HASH : D := H.empty 0

/-- `bit_at`. -/
def bitAt (key : Key) (d : ℕ) : Bool := key.getMsbD d

/-- The key of a branch node: a depth, and the key of a leaf with the bits from there on cleared. -/
structure BranchKey where
  depth : ℕ
  node_key : Key
  deriving DecidableEq, Repr

/-- `BranchKey::new`. -/
def BranchKey.new (depth : ℕ) (key : Key) : BranchKey := { depth, node_key := stem depth key }

/-- `child_branch_key`. -/
def childBranchKey (parent : BranchKey) (right : Bool) (depth : ℕ) : BranchKey where
  depth := parent.depth + 1
  node_key := if right then parent.node_key ||| BitVec.twoPow 256 (255 - depth) else parent.node_key

/-- A subtree with a single leaf. -/
structure CollapsedLeaf (D : Type) where
  lane_key : Key
  leaf_hash : D
  deriving DecidableEq

/-- A stored node. -/
inductive Node (D : Type) where
  | internal (hash : D)
  | collapsed (leaf : CollapsedLeaf D)
  deriving DecidableEq

/-- The digest of a stored node. -/
def Node.hash : Node D → D
  | internal hash => hash
  | collapsed cl => H.leaf cl.lane_key cl.leaf_hash

/-- What the computation of a subtree returns. -/
abbrev NodeResult (D : Type) := Summary 256 D D

/-- The node that is stored for a subtree. -/
def NodeResult.node : NodeResult D → Option (Node D)
  | .empty => none
  | .collapsed k v => some (.collapsed { lane_key := k, leaf_hash := v })
  | .internal hash => some (.internal hash)

/-- The subtree that a stored node is of. -/
def NodeResult.ofNode : Option (Node D) → NodeResult D
  | none => .empty
  | some (.collapsed cl) => .collapsed cl.lane_key cl.leaf_hash
  | some (.internal hash) => .internal hash

@[simp] theorem NodeResult.ofNode_node (r : NodeResult D) : ofNode r.node = r := by
  cases r <;> rfl

@[simp] theorem NodeResult.node_ofNode (n : Option (Node D)) : node (ofNode n) = n := by
  rcases n with _ | (_ | _) <;> rfl

/-- The contribution of a subtree to its parent at the given depth. -/
def NodeResult.hash (parent_depth : ℕ) (r : NodeResult D) : D :=
  r.digest H (DEPTH - 1 - parent_depth)

/-- The reads of a tree: nodes, and leaves for the level of the leaf parents. -/
structure SmtStore (ε D : Type) where
  getNode : BranchKey → Except ε (Option (Node D))
  getLeaf : Key → Except ε (Option D)

/-! ## Names of nodes -/

theorem BranchKey.new_eq_iff {d : ℕ} {k k' : Key} (hd : d ≤ 256) :
    BranchKey.new d k = BranchKey.new d k' ↔ Agree d k k' := by
  rw [← stem_eq_iff hd]
  constructor
  · exact fun h => (BranchKey.mk.inj h).2
  · exact fun h => congrArg (BranchKey.mk d) h

theorem BranchKey.new_zero (k k' : Key) : BranchKey.new 0 k = BranchKey.new 0 k' :=
  (BranchKey.new_eq_iff (Nat.zero_le _)).mpr (agree_zero k k')

theorem childBranchKey_new {d : ℕ} (hd : d < 256) (k : Key) (b : Bool) :
    childBranchKey (.new d k) b d = .new (d + 1) (withBit k d b) := by
  have hkey : (if b then stem d k ||| BitVec.twoPow 256 (255 - d) else stem d k) =
      withBit (stem d k) d b := by
    cases b with
    | true => rfl
    | false =>
      -- The bit is clear in the stem.
      apply BitVec.eq_of_getMsbD_eq
      intro i hi
      rw [if_neg Bool.false_ne_true, getMsbD_withBit hd hi]
      by_cases h : i = d
      · rw [if_pos h, getMsbD_stem hi, h, decide_eq_false (lt_irrefl d), Bool.false_and]
      · rw [if_neg h]
  exact congrArg (BranchKey.mk (d + 1)) (hkey.trans (stem_succ hd b).symm)

/-! ## Proofs -/

/-- How the walk of a proof ended. -/
inductive ProofTerminal (D : Type) where
  | full
  | collapsed (depth : Fin 256)
  | collapsedOther (depth : Fin 256) (leaf : CollapsedLeaf D)
  deriving DecidableEq

/-- `ProofTerminal::depth`. -/
def ProofTerminal.depth : ProofTerminal D → ℕ
  | full => DEPTH
  | collapsed depth => depth
  | collapsedOther depth _ => depth

theorem ProofTerminal.depth_le (t : ProofTerminal D) : t.depth ≤ DEPTH := by
  cases t with
  | full => exact le_rfl
  | collapsed depth => exact depth.isLt.le
  | collapsedOther depth _ => exact depth.isLt.le

/-- A compressed proof. A bit of the bitmap is set where the sibling is that of an empty subtree and
left out; the others are listed from the root down. -/
structure SmtProof (D : Type) where
  bitmap : BitVec 256
  siblings : List D
  terminal : ProofTerminal D
  deriving DecidableEq

variable (bitmap : BitVec 256)

/-- Whether the sibling at a depth is left out. -/
def isEmptyAtDepth (d : ℕ) : Bool := bitmap.getLsbD d

/-- Leave the sibling at a depth out. -/
def markEmpty (d : ℕ) : BitVec 256 := bitmap ||| BitVec.twoPow 256 d

/-- Leave all siblings from a depth on out. -/
def markEmptyFrom (depth : ℕ) : BitVec 256 :=
  (List.range' depth (DEPTH - depth)).foldl markEmpty bitmap

section

variable {ε : Type} (H : SmtHasher D) (store : SmtStore ε D) (key : Key)

/-- The sibling at an inner node on the path: nothing when its subtree is empty. The children of a
leaf parent are leaves and not nodes. -/
def readSibling (depth : ℕ) : Except ε (Option D) :=
  if depth = DEPTH - 1 then do
    let leaf ← store.getLeaf (key ^^^ BitVec.twoPow 256 (255 - depth))
    return leaf.map (H.leaf (key ^^^ BitVec.twoPow 256 (255 - depth)))
  else do
    let node ← store.getNode (childBranchKey (.new depth key) (!bitAt key depth) depth)
    return node.map (Node.hash H)

/-- The loop of `prove`, with the number of levels that are left. -/
def proveLoop : ℕ → BitVec 256 → List D → Except ε (SmtProof D)
  | 0, bitmap, siblings => return { bitmap, siblings, terminal := .full }
  | left + 1, bitmap, siblings => do
    let depth := DEPTH - 1 - left
    match ← store.getNode (.new depth key) with
    | some (.internal _) =>
      match ← readSibling H store key depth with
      | none => proveLoop left (markEmpty bitmap depth) siblings
      | some sibling => proveLoop left bitmap (siblings ++ [sibling])
    | some (.collapsed cl) =>
      let bitmap := markEmptyFrom bitmap depth
      if cl.lane_key = key then
        return { bitmap, siblings, terminal := .collapsed (.ofNat 256 depth) }
      else return { bitmap, siblings, terminal := .collapsedOther (.ofNat 256 depth) cl }
    | none => return { bitmap := markEmptyFrom bitmap depth, siblings, terminal := .full }

/-- `SparseMerkleTree::prove`. -/
def prove : Except ε (SmtProof D) := proveLoop H store key DEPTH 0 []

end

/-! ## Stored trees -/

/-- The store holds the leaves of a map, and the node at every position below inner nodes. What it
holds elsewhere does not matter. -/
structure Canonical {ε : Type} (m : Key → Option D) (store : SmtStore ε D) :
    Prop where
  getNode : ∀ d < DEPTH, ∀ key, (∀ e < d, ∃ hash, nodeAt H m e key = .internal hash) →
    store.getNode (.new d key) = .ok (NodeResult.node (nodeAt H m d key))
  getLeaf : ∀ key, store.getLeaf key = .ok (m key)

end Zkas.Smt
