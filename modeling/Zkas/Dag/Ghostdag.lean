import Zkas.Dag.Mergeset

/-!
# GHOSTDAG

Model of `consensus/src/processes/ghostdag/protocol.rs`, of `ordering.rs` and of the block data in
`consensus/src/model/stores/ghostdag.rs`. A new block selects the parent of the highest blue work,
orders what its other parents add to the past of that one, and colours these blocks one by one: a
candidate is blue unless it, or a blue block in its anticone, would then have more than `k` blue
blocks in its anticone. A block only stores the anticone sizes that its own merged blues changed;
the current size of a blue block is the first one found on the way down the selected chain.

The stores are one map from hashes to blocks, and `is_dag_ancestor_of` is the reachability query.
The loops along the selected chain run on a number of rounds above the number of blocks.
`BlueWorkType` is a 192-bit integer whose release addition wraps. -/

namespace Zkas.Dag

open Word

/-- `KType`. -/
abbrev KType := BitVec 16

/-- `BlueWorkType`. -/
abbrev BlueWork := BitVec 192

variable {B : Type}

/-- `GhostdagData`. -/
structure GhostdagData (B : Type) where
  blue_score : BitVec 64
  blue_work : BlueWork
  selected_parent : B
  mergeset_blues : List B
  mergeset_reds : List B
  blues_anticone_sizes : AList fun _ : B => KType

/-- What the node stores about a block: its parents, the bits of its header and its data. -/
structure Block (B : Type) where
  parents : List B
  bits : BitVec 32
  data : GhostdagData B

/-- The stores of the node. -/
abbrev Store (B : Type) := AList fun _ : B => Block B

/-- The constants of the protocol. -/
structure GhostdagManager (B : Type) where
  genesis_hash : B
  /-- `blockhash::ORIGIN`. -/
  origin : B
  genesis_ne_origin : genesis_hash ≠ origin
  k : KType
  level_work : BlueWork
  calc_work : BitVec 32 → BlueWork

/-- A block with the key it is ordered by. -/
structure SortableBlock (B : Type) where
  hash : B
  blue_work : BlueWork

/-- The key: the blue work, and the hash among equals. -/
def SortableBlock.key (block : SortableBlock B) : ℕ ×ₗ B :=
  toLex (block.blue_work.toNat, block.hash)

variable [LinearOrder B] (dag : Store B)

/-- Read a block. -/
def Store.get (b : B) : Except Panic (Block B) := (dag.lookup b).okOr .missing

/-- The parents of a block. -/
def Store.getParents (b : B) : Option (List B) := (dag.lookup b).map Block.parents

/-- A block with its key. -/
def Store.sortable (b : B) : Except Panic (SortableBlock B) := do
  let block ← dag.get b
  return ⟨b, block.data.blue_work⟩

/-- Blocks in the order of their keys. -/
def sortBlocks (blocks : List B) : Except Panic (List B) := do
  let keyed ← blocks.mapM dag.sortable
  return (keyed.mergeSort fun a b => a.key ≤ b.key).map SortableBlock.hash

/-- The parent of the highest key. -/
def findSelectedParent (parents : List B) : Except Panic B := do
  let keyed ← parents.mapM dag.sortable
  let top ← (keyed.argmax SortableBlock.key).okOr .missing
  return top.hash

namespace GhostdagData

/-- The data of a block that merges its selected parent only. -/
def newWithSelectedParent (selected_parent : B) (k : KType) : Except Panic (GhostdagData B) := do
  -- The capacity of the vector is computed in `KType`.
  let _capacity ← (checkedAdd k 1).okOr .sizeOverflow
  return {
    blue_score := 0
    blue_work := 0
    selected_parent
    mergeset_blues := [selected_parent]
    mergeset_reds := []
    blues_anticone_sizes := AList.singleton selected_parent 0 }

/-- One more for an affected blue block. -/
def bumpSize (sizes : AList fun _ : B => KType) (entry : Sigma fun _ : B => KType) :
    Except Panic (AList fun _ : B => KType) := do
  let size ← (checkedAdd entry.2 1).okOr .sizeOverflow
  return sizes.insert entry.1 size

/-- A new blue block, with the sizes of the blues in its anticone before it. -/
def addBlue (data : GhostdagData B) (block : B) (blue_anticone_size : KType)
    (block_blues_anticone_sizes : AList fun _ : B => KType) : Except Panic (GhostdagData B) := do
  let sizes ← block_blues_anticone_sizes.entries.foldlM bumpSize
    (data.blues_anticone_sizes.insert block blue_anticone_size)
  return { data with
    mergeset_blues := data.mergeset_blues ++ [block]
    blues_anticone_sizes := sizes }

/-- A new red block. -/
def addRed (data : GhostdagData B) (block : B) : GhostdagData B :=
  { data with mergeset_reds := data.mergeset_reds ++ [block] }

end GhostdagData

/-- `ColoringState`. -/
inductive ColoringState where
  | Blue
  | Red
  | Pending
  deriving DecidableEq, Repr

/-- `ColoringOutput`. -/
inductive ColoringOutput (B : Type) where
  | Blue (blue_anticone_size : KType) (blues_anticone_sizes : AList fun _ : B => KType)
  | Red

/-- What is collected about a candidate: the sizes of the blues in its anticone, and their number.
-/
structure Collected (B : Type) where
  blues_anticone_sizes : AList fun _ : B => KType
  blue_anticone_size : KType

namespace GhostdagManager

variable (M : GhostdagManager B)

/-- The data of the genesis. -/
def genesisGhostdagData : GhostdagData B where
  blue_score := 0
  blue_work := 0
  selected_parent := M.origin
  mergeset_blues := []
  mergeset_reds := []
  blues_anticone_sizes := ∅

/-- The stores with the genesis alone. -/
def init (bits : BitVec 32) : Store B :=
  AList.singleton M.genesis_hash ⟨[M.origin], bits, M.genesisGhostdagData⟩

/-- The loop down the selected chain for the size of a block. -/
def blueAnticoneSizeLoop (dag : Store B) (block : B) :
    ℕ → (AList fun _ : B => KType) → B → Except Panic KType
  | 0, _, _ => .error .diverged
  | fuel + 1, current_sizes, current_selected_parent =>
    match current_sizes.lookup block with
    | some size => .ok size
    | none =>
      if current_selected_parent = M.genesis_hash ∨ current_selected_parent = M.origin then
        .error .notInBlueSet
      else do
        let parent ← dag.get current_selected_parent
        blueAnticoneSizeLoop dag block fuel parent.data.blues_anticone_sizes
          parent.data.selected_parent

/-- The number of blue blocks in the anticone of a block, in the view of a context. -/
def blueAnticoneSize (dag : Store B) (block : B) (context : GhostdagData B) : Except Panic KType :=
  M.blueAnticoneSizeLoop dag block (dag.entries.length + 1) context.blues_anticone_sizes
    context.selected_parent

variable (is_dag_ancestor_of : B → B → Bool)

/-- The loop over the blue peers of a chain block. -/
def checkPeers (dag : Store B) (new_block_data : GhostdagData B) (blue_candidate : B) :
    List B → Collected B → Except Panic (ColoringState × Collected B)
  | [], collected => .ok (.Pending, collected)
  | peer :: peers, collected =>
    if is_dag_ancestor_of peer blue_candidate then
      checkPeers dag new_block_data blue_candidate peers collected
    else do
      let peer_size ← M.blueAnticoneSize dag peer new_block_data
      let size ← (checkedAdd collected.blue_anticone_size 1).okOr .sizeOverflow
      let collected := ⟨collected.blues_anticone_sizes.insert peer peer_size, size⟩
      if M.k.toNat < size.toNat then .ok (.Red, collected)
      else if peer_size = M.k then .ok (.Red, collected)
      else if M.k.toNat < peer_size.toNat then .error .anticoneAboveK
      else checkPeers dag new_block_data blue_candidate peers collected

/-- A candidate against the blues of a chain block; the new block has no hash. -/
def checkBlueCandidateWithChainBlock (dag : Store B) (new_block_data : GhostdagData B)
    (hash : Option B) (data : GhostdagData B) (blue_candidate : B) (collected : Collected B) :
    Except Panic (ColoringState × Collected B) :=
  if hash.any (is_dag_ancestor_of · blue_candidate) then .ok (.Blue, collected)
  else
    M.checkPeers is_dag_ancestor_of dag new_block_data blue_candidate data.mergeset_blues collected

/-- The loop down the selected chain for a candidate. -/
def checkBlueCandidateLoop (dag : Store B) (new_block_data : GhostdagData B) (blue_candidate : B) :
    ℕ → Option B → GhostdagData B → Collected B → Except Panic (ColoringOutput B)
  | 0, _, _, _ => .error .diverged
  | fuel + 1, hash, data, collected => do
    let (state, collected) ← M.checkBlueCandidateWithChainBlock is_dag_ancestor_of dag
      new_block_data hash data blue_candidate collected
    match state with
    | .Blue => .ok (.Blue collected.blue_anticone_size collected.blues_anticone_sizes)
    | .Red => .ok .Red
    | .Pending =>
      let parent ← dag.get data.selected_parent
      checkBlueCandidateLoop dag new_block_data blue_candidate fuel (some data.selected_parent)
        parent.data collected

/-- The colour of a candidate. -/
def checkBlueCandidate (dag : Store B) (new_block_data : GhostdagData B) (blue_candidate : B) :
    Except Panic (ColoringOutput B) := do
  let k1 ← (checkedAdd M.k 1).okOr .sizeOverflow
  if BitVec.ofNat 16 new_block_data.mergeset_blues.length = k1 then return .Red
  else
    M.checkBlueCandidateLoop is_dag_ancestor_of dag new_block_data blue_candidate
      (dag.entries.length + 2) none new_block_data ⟨∅, 0⟩

/-- Colour a candidate. -/
def colorCandidate (dag : Store B) (data : GhostdagData B) (blue_candidate : B) :
    Except Panic (GhostdagData B) := do
  match ← M.checkBlueCandidate is_dag_ancestor_of dag data blue_candidate with
  | .Blue blue_anticone_size blues_anticone_sizes =>
    data.addBlue blue_candidate blue_anticone_size blues_anticone_sizes
  | .Red => return data.addRed blue_candidate

/-- The mergeset in the order in which it is coloured. -/
def orderedMergesetWithoutSelectedParent (dag : Store B) (selected_parent : B) (parents : List B) :
    Except Panic (List B) := do
  let mergeset ← unorderedMergesetWithoutSelectedParent (parents.length + dag.entries.length + 1)
    dag.getParents is_dag_ancestor_of selected_parent parents
  sortBlocks dag mergeset

/-- The work of a block from the bits of its header. -/
def work (bits : BitVec 32) : BlueWork :=
  if M.level_work.toNat ≤ (M.calc_work bits).toNat then M.calc_work bits else M.level_work

/-- The works of blocks. -/
def works (dag : Store B) (blocks : List B) : Except Panic (List BlueWork) :=
  blocks.mapM fun b => do
    let block ← dag.get b
    return M.work block.bits

/-- The mergeset of a new block, coloured. -/
def colorMergeset (dag : Store B) (selected_parent : B) (parents : List B) :
    Except Panic (GhostdagData B) := do
  let data ← GhostdagData.newWithSelectedParent selected_parent M.k
  let ordered_mergeset ← orderedMergesetWithoutSelectedParent is_dag_ancestor_of dag
    selected_parent parents
  ordered_mergeset.foldlM (M.colorCandidate is_dag_ancestor_of dag) data

/-- The data of a new block with given parents. -/
def ghostdag (dag : Store B) (parents : List B) : Except Panic (GhostdagData B) := do
  if parents.isEmpty then throw .noParents
  let selected_parent ← findSelectedParent dag parents
  if selected_parent = M.origin then GhostdagData.newWithSelectedParent selected_parent 1
  else do
    let data ← M.colorMergeset is_dag_ancestor_of dag selected_parent parents
    let parent ← dag.get selected_parent
    let blue_score ← (checkedAdd parent.data.blue_score
      (BitVec.ofNat 64 data.mergeset_blues.length)).okOr .scoreOverflow
    let works ← M.works dag data.mergeset_blues
    let blue_work := parent.data.blue_work + works.foldl (· + ·) 0
    return { data with blue_score, blue_work }

end GhostdagManager

end Zkas.Dag
