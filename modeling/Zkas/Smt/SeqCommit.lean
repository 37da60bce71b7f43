import Zkas.Lib.ParentTree
import Zkas.Smt.Stores

/-!
# The commitment to the lanes

Model of the KIP-21 part of the virtual processor: `resolve_lane_updates`, `build_seq_commit` and
`recompute_seq_commit` of `utxo_validation.rs`; `expire_stale_lanes`,
`get_parent_lanes_root_and_count` and the inactivity shortcut of `processor.rs`; `bounds.rs`; and
the part of `commit_utxo_state` that writes what was built. The mergeset is given by the activities
of its lanes and by its payload leaves. The blocks are a tree whose root has no lanes: the genesis
block. Blue scores and counts are natural numbers; the count of the active lanes panics where the
code would underflow. -/

namespace Zkas.Smt

/-- The hashes of a commitment. -/
structure SeqCommitHashing (L D : Type) where
  activeNode : SmtHasher D
  laneKey : L → Key
  activityDigestLane : List D → D
  laneTipNext : (parent_ref : D) → (lane_key : Key) → (activity_digest context_hash : D) → D
  smtLeafHash : (lane_tip : D) → (blue_score : ℕ) → D
  mergesetContextHash : (timestamp daa_score blue_score : ℕ) → D
  minerPayloadRoot : List D → D
  payloadAndContextDigest : (context_hash payload_root : D) → D
  activityRootHash : (inactivity_shortcut lanes_root : D) → D
  seqStateRoot : (activity_root payload_and_ctx_digest : D) → D
  seqCommit : (parent_seq_commit state_root : D) → D

/-- The fields of a header that are read. -/
structure Header (D : Type) where
  blue_score : ℕ
  daa_score : ℕ
  timestamp : ℕ
  accepted_id_merkle_root : D

/-- The blocks and the parameters of a network. -/
structure Network (L B D : Type) where
  hashing : SeqCommitHashing L D
  tree : ParentTree B
  zero_hash : B
  header : B → Header D
  /-- The activity leaves of the mergeset of a block, by lane. -/
  lane_activities : B → List (L × List D)
  miner_payload_leaves : B → List D
  /-- The lane of coinbase transactions; its key is `COINBASE_LANE_KEY`. -/
  coinbase_lane : L
  finality_depth : ℕ
  toccata_activation : ℕ

/-- `ForkActivation::is_active`, for the header of a block: whether it commits to lanes. -/
def Network.toccataActive {L B D : Type} (net : Network L B D) (b : B) : Bool :=
  net.toccata_activation ≤ (net.header b).daa_score

/-- `SeqCommitBounds`. -/
structure SeqCommitBounds where
  parent_blue_score : ℕ
  parent_active_min : ℕ
  current_active_min : ℕ

namespace SeqCommitBounds

/-- `SeqCommitBounds::new`. -/
def new (parent_blue_score current_blue_score inactivity_threshold : ℕ) : SeqCommitBounds where
  parent_blue_score := parent_blue_score
  parent_active_min := parent_blue_score - inactivity_threshold
  current_active_min := current_blue_score - inactivity_threshold

/-- `selected_parent_read_bounds`: from the parent down to the window of the current block. -/
def selectedParentReadBounds (b : SeqCommitBounds) : SmtReadBounds where
  target_blue_score := b.parent_blue_score
  min_blue_score := b.current_active_min

/-- `newly_expired_range`. -/
def newlyExpiredRange (b : SeqCommitBounds) : Option (ℕ × ℕ) :=
  if b.current_active_min ≤ b.parent_active_min then none
  else some (b.parent_active_min, b.current_active_min - 1)

end SeqCommitBounds

/-- `ResolvedLaneUpdate`. -/
structure ResolvedLaneUpdate (D : Type) where
  lane_key : Key
  new_tip : D
  is_new : Bool

/-- `ParentBlockSeqState`. -/
structure ParentBlockSeqState (D : Type) where
  seq_commit : D
  blue_score : ℕ
  lanes_root : D
  active_lanes_count : ℕ

/-- `SmtBlockMetadata`. -/
structure SmtBlockMetadata (B D : Type) where
  payload_and_ctx_digest : D
  inactivity_shortcut_block : B
  active_lanes_count : ℕ

/-- The stores of a node that are read and written here. -/
structure SmtState (B D : Type) where
  stores : SmtStores B D
  metadata : AList fun _ : B => SmtBlockMetadata B D

/-- The state of a scan for lanes that expire. -/
structure ExpireScan (D : Type) where
  seen : List Key
  proc : SmtProcessor D
  expired : ℕ

variable {L B D : Type} [LinearOrder B]

/-- `is_smt_canonical`: an imported version, or one of a chain ancestor. -/
def Network.isSmtCanonical (net : Network L B D) (selected_parent block_hash : B) : Bool :=
  block_hash = net.zero_hash ∨ block_hash ∈ net.tree.path selected_parent

section

variable (net : Network L B D) (stores : SmtStores B D) (selected_parent : B)

/-- `resolve_lane_updates`. -/
def resolveLaneUpdates (activities : List (L × List D)) (context_hash : D)
    (current_blue_score parent_blue_score : ℕ) (parent_seq_commit : D) :
    List (ResolvedLaneUpdate D) :=
  activities.map fun (lane_id, activity_leaves) =>
    let lane_key := net.hashing.laneKey lane_id
    let bounds := SeqCommitBounds.new parent_blue_score current_blue_score net.finality_depth
    let existing := stores.getLane lane_key bounds.selectedParentReadBounds
      (net.isSmtCanonical selected_parent)
    { lane_key
      new_tip := net.hashing.laneTipNext ((existing.map Version.value).getD parent_seq_commit)
        lane_key (net.hashing.activityDigestLane activity_leaves) context_hash
      is_new := existing.isNone }

/-- The visit to one lane of the scan. -/
def expireLane (read_bounds : SmtReadBounds) (scan : ExpireScan D) (lane_key : Key) :
    ExpireScan D :=
  if lane_key ∈ scan.seen then scan
  else if (stores.getLane lane_key read_bounds (net.isSmtCanonical selected_parent)).isNone then
    { seen := lane_key :: scan.seen
      proc := scan.proc.expireLane lane_key
      expired := scan.expired + 1 }
  else { scan with seen := lane_key :: scan.seen }

/-- `expire_stale_lanes`. -/
def expireStaleLanes (proc : SmtProcessor D) (bounds : SeqCommitBounds) : SmtProcessor D × ℕ :=
  match bounds.newlyExpiredRange with
  | none => (proc, 0)
  | some (first, last) =>
    let entries := (stores.score_index.getLeafUpdates first last).filter fun entry =>
      net.isSmtCanonical selected_parent entry.block
    let scan := (entries.flatMap Version.value).foldl
      (expireLane net stores selected_parent bounds.selectedParentReadBounds)
      { seen := [], proc, expired := 0 }
    (scan.proc, scan.expired)

/-- The lane changes of `build_seq_commit`: what expires, and then the updates. -/
def laneChanges (parent : ParentBlockSeqState D) (current_blue_score : ℕ)
    (lane_updates : List (ResolvedLaneUpdate D)) : SmtProcessor D × ℕ :=
  let bounds := SeqCommitBounds.new parent.blue_score current_blue_score net.finality_depth
  let proc := SmtProcessor.new current_blue_score bounds.selectedParentReadBounds parent.lanes_root
  let (proc, expired_count) := expireStaleLanes net stores selected_parent proc bounds
  (lane_updates.foldl (fun proc lu => proc.updateLane lu.lane_key lu.new_tip) proc, expired_count)

variable [DecidableEq D]

/-- `build_seq_commit`. -/
def buildSeqCommit (parent : ParentBlockSeqState D) (context_hash : D) (current_blue_score : ℕ)
    (lane_updates : List (ResolvedLaneUpdate D)) (miner_payload_leaves : List D)
    (inactivity_shortcut_block : B) (inactivity_shortcut : D) :
    Except (Fault Empty) (D × SmtBuild B D) := do
  let (proc, expired_count) := laneChanges net stores selected_parent parent current_blue_score
    lane_updates
  let new_lane_count := (lane_updates.filter ResolvedLaneUpdate.is_new).length
  let build ← proc.build net.hashing.activeNode net.hashing.smtLeafHash net.zero_hash stores
    (net.isSmtCanonical selected_parent)
  let payload_and_ctx_digest := net.hashing.payloadAndContextDigest context_hash
    (net.hashing.minerPayloadRoot miner_payload_leaves)
  let state_root := net.hashing.seqStateRoot
    (net.hashing.activityRootHash inactivity_shortcut build.root) payload_and_ctx_digest
  if parent.active_lanes_count + new_lane_count < expired_count then .error .panic
  else return (net.hashing.seqCommit parent.seq_commit state_root, { build with
      payload_and_ctx_digest
      active_lanes_count := parent.active_lanes_count + new_lane_count - expired_count
      inactivity_shortcut_block })

end

/-! ## The inactivity shortcut -/

section

variable (net : Network L B D) (state : SmtState B D)

/-- The walk of `compute_inactivity_shortcut_block` along the chain, from the shortcut block of the
selected parent. -/
def walkShortcut (selected_parent : B) (target_bs : ℕ) : B :=
  let search_from := match state.metadata.lookup selected_parent with
    | some md => md.inactivity_shortcut_block
    | none => selected_parent
  ((net.tree.above search_from selected_parent).takeWhile fun b =>
    (net.header b).blue_score ≤ target_bs).getLastD search_from

/-- `compute_inactivity_shortcut_block`. -/
def computeInactivityShortcutBlock (selected_parent : B) (blue_score : ℕ) : B :=
  if blue_score < net.finality_depth + 1 then net.tree.root
  else
    let target_bs := blue_score - net.finality_depth - 1
    match state.stores.getLane (net.hashing.laneKey net.coinbase_lane) ⟨target_bs, 0⟩
        (net.isSmtCanonical selected_parent) with
    | some v =>
      if v.block ≠ net.zero_hash then v.block else walkShortcut net state selected_parent target_bs
    | none => walkShortcut net state selected_parent target_bs

/-- `inactivity_shortcut`. -/
def inactivityShortcut (inactivity_shortcut_block : B) : Except (Fault Empty) D :=
  if inactivity_shortcut_block = net.zero_hash then .error .panic
  else if net.toccataActive inactivity_shortcut_block then
    .ok (net.header inactivity_shortcut_block).accepted_id_merkle_root
  else .ok net.hashing.activeNode.ZERO_HASH

/-- `inactivity_shortcut_block_for_pov`: back along the chain to a block that is low enough, or that
has no commitment. -/
def inactivityShortcutBlockForPov (pov_block : B) : B :=
  if (net.header pov_block).blue_score < net.finality_depth + 1 then net.tree.root
  else
    let target_bs := (net.header pov_block).blue_score - net.finality_depth - 1
    ((net.tree.path pov_block).reverse.find? fun h => h = net.tree.root ∨
      (net.header h).blue_score ≤ target_bs ∨ ¬net.toccataActive h).getD net.tree.root

end

/-! ## Blocks -/

section

variable (net : Network L B D) [DecidableEq D]

/-- `get_parent_lanes_root_and_count`. -/
def getParentLanesRootAndCount (state : SmtState B D) (selected_parent : B)
    (parent_blue_score : ℕ) : D × ℕ :=
  (state.stores.getLanesRoot net.hashing.activeNode
      (.forPov parent_blue_score net.finality_depth) (net.isSmtCanonical selected_parent),
    match state.metadata.lookup selected_parent with
    | some md => md.active_lanes_count
    | none => 0)

/-- The context hash of a block: the time stamp is that of its selected parent. -/
def contextHash (b : B) : D :=
  net.hashing.mergesetContextHash (net.header (net.tree.parent b)).timestamp
    (net.header b).daa_score (net.header b).blue_score

/-- `recompute_seq_commit`. -/
def recomputeSeqCommit (state : SmtState B D) (b : B) :
    Except (Fault Empty) (D × SmtBuild B D) := do
  let selected_parent := net.tree.parent b
  let parent_header := net.header selected_parent
  let blue_score := (net.header b).blue_score
  let shortcut_block := computeInactivityShortcutBlock net state selected_parent blue_score
  let shortcut ← inactivityShortcut net shortcut_block
  let lane_updates := resolveLaneUpdates net state.stores selected_parent (net.lane_activities b)
    (contextHash net b) blue_score parent_header.blue_score parent_header.accepted_id_merkle_root
  let parent := getParentLanesRootAndCount net state selected_parent parent_header.blue_score
  buildSeqCommit net state.stores selected_parent
    { seq_commit := parent_header.accepted_id_merkle_root, blue_score := parent_header.blue_score,
      lanes_root := parent.1, active_lanes_count := parent.2 }
    (contextHash net b) blue_score lane_updates (net.miner_payload_leaves b) shortcut_block shortcut

/-- What `commit_utxo_state` writes for a block. -/
def commitSmtBuild (state : SmtState B D) (b : B) (build : SmtBuild B D) : SmtState B D where
  stores := build.flush state.stores (net.header b).blue_score b
  metadata := state.metadata.insert b
    { payload_and_ctx_digest := build.payload_and_ctx_digest
      inactivity_shortcut_block := build.inactivity_shortcut_block
      active_lanes_count := build.active_lanes_count }

/-- A block is built and written, if it commits to lanes. -/
def processBlock (state : SmtState B D) (b : B) :
    Except (Fault Empty) (Option (SmtBuild B D) × SmtState B D) :=
  if net.toccataActive b then do
    let (_, build) ← recomputeSeqCommit net state b
    return (some build, commitSmtBuild net state b build)
  else return (none, state)

/-- One block after the other, with what was built for each. -/
def processBlocks (state : SmtState B D) :
    List B → Except (Fault Empty) (List (B × Option (SmtBuild B D)) × SmtState B D)
  | [] => .ok ([], state)
  | b :: bs => do
    let (build, state) ← processBlock net state b
    let (builds, state) ← processBlocks state bs
    return ((b, build) :: builds, state)

end

end Zkas.Smt
