import Zkas.Lib.VersionStore
import Zkas.Smt.UpdateSpec

/-!
# The stores of the lanes tree

Model of `consensus/smt-store`: the versioned stores of branches and lanes with their caches, the
score index, and `processor.rs`, which collects the lane changes of a block, builds the tree and
writes the changes. The database reads do not fail here; the code unwraps them.

The two maps of a cache have the same keys, so there is one here, and the order of eviction is
computed from it. A batch that is written at the end is written at once. Pruning is left out. -/

namespace Zkas.Smt

open BitPath SparseTree

/-- Hashes are ordered by their bytes. -/
instance : LinearOrder Key where
  le_refl := BitVec.le_refl
  le_trans _ _ _ := BitVec.le_trans
  le_antisymm _ _ := BitVec.le_antisymm
  le_total := BitVec.le_total
  lt_iff_le_not_ge a b := by
    rw [BitVec.not_le]
    exact ⟨fun h => ⟨BitVec.le_of_lt h, h⟩, fun h => h.2⟩
  toDecidableLE := inferInstance
  toDecidableEq := inferInstance
  toDecidableLT := inferInstance

/-- The key of a branch as a pair, by depth first. -/
def BranchKey.toPair (bk : BranchKey) : ℕ ×ₗ Key := toLex (bk.depth, bk.node_key)

/-- `BranchEntity`: by depth, then by key. -/
instance : LinearOrder BranchKey where
  le bk bk' := bk.toPair ≤ bk'.toPair
  lt bk bk' := bk.toPair < bk'.toPair
  le_refl bk := le_refl bk.toPair
  le_trans _ _ _ h h' := le_trans (α := ℕ ×ₗ Key) h h'
  lt_iff_le_not_ge bk bk' := lt_iff_le_not_ge (a := bk.toPair) (b := bk'.toPair)
  le_antisymm bk bk' h h' := by
    obtain ⟨d, k⟩ := bk
    obtain ⟨d', k'⟩ := bk'
    obtain ⟨rfl, rfl⟩ := Prod.mk.inj (toLex_inj.mp (le_antisymm h h'))
    rfl
  le_total bk bk' := le_total bk.toPair bk'.toPair
  toDecidableLE bk bk' := inferInstanceAs (Decidable (bk.toPair ≤ bk'.toPair))
  toDecidableEq := inferInstance
  toDecidableLT bk bk' := inferInstanceAs (Decidable (bk.toPair < bk'.toPair))

/-! ## The score index -/

/-- Lanes that were written, or lanes whose branches were. -/
inductive ScoreIndexKind where
  | leafUpdate
  | structural
  deriving DecidableEq

/-- The name of an entry; entries of an import have a batch number. -/
structure ScoreIndexKey (B : Type) where
  blue_score : ℕ
  kind : ScoreIndexKind
  block_hash : B
  batch_id : Option ℕ
  deriving DecidableEq

/-- The lanes of an entry, and the deepest branch that was written for them. -/
structure ScoreIndexValue where
  max_depth : ℕ
  lane_keys : List Key
  deriving DecidableEq

/-- The entries of the score index. -/
abbrev ScoreIndex (B : Type) := AList fun _ : ScoreIndexKey B => ScoreIndexValue

section

variable {B : Type} [LinearOrder B]

/-- The lanes written with a score in a range, newest first. -/
def ScoreIndex.getLeafUpdates (index : ScoreIndex B) (first last : ℕ) :
    List (Version B (List Key)) :=
  ((index.entries.filter fun r =>
      r.1.kind = .leafUpdate ∧ first ≤ r.1.blue_score ∧ r.1.blue_score ≤ last).map
    fun r => ⟨r.1.blue_score, r.1.block_hash, r.2.lane_keys⟩).insertionSort VersionStore.newestFirst

theorem ScoreIndex.mem_getLeafUpdates {index : ScoreIndex B} {first last : ℕ}
    {v : Version B (List Key)} : v ∈ index.getLeafUpdates first last ↔
      ∃ batch_id max_depth, index.lookup ⟨v.score, .leafUpdate, v.block, batch_id⟩ =
        some ⟨max_depth, v.value⟩ ∧ first ≤ v.score ∧ v.score ≤ last := by
  unfold getLeafUpdates
  rw [List.mem_insertionSort, List.mem_map]
  constructor
  · rintro ⟨⟨⟨s, kind, b, batch_id⟩, ⟨max_depth, keys⟩⟩, hr, rfl⟩
    obtain ⟨hrow, hin⟩ := List.mem_filter.mp hr
    obtain ⟨rfl, hfirst, hlast⟩ := of_decide_eq_true hin
    exact ⟨batch_id, max_depth, AList.mem_lookup_iff.mpr hrow, hfirst, hlast⟩
  · rintro ⟨batch_id, max_depth, hv, hfirst, hlast⟩
    refine ⟨⟨⟨v.score, .leafUpdate, v.block, batch_id⟩, ⟨max_depth, v.value⟩⟩,
      List.mem_filter.mpr ⟨AList.mem_lookup_iff.mp hv, ?_⟩, rfl⟩
    exact decide_eq_true ⟨rfl, hfirst, hlast⟩

end

/-! ## The stores -/

/-- The window of a read: from the target down to the minimum, both included. -/
structure SmtReadBounds where
  target_blue_score : ℕ
  min_blue_score : ℕ
  deriving DecidableEq

/-- `SmtReadBounds::for_pov`. -/
def SmtReadBounds.forPov (pov_blue_score inactivity_threshold : ℕ) : SmtReadBounds where
  target_blue_score := pov_blue_score
  min_blue_score := pov_blue_score - inactivity_threshold

/-- `SmtStores`. A branch version without a node says that the node is gone. -/
structure SmtStores (B D : Type) where
  branch_version : VersionStore BranchKey B (Option (Node D))
  lane_version : VersionStore Key B D
  score_index : ScoreIndex B
  branch_cache : VersionedCache BranchKey B (Option (Node D))
  lane_cache : VersionedCache Key B D

variable {B D : Type}

/-- Empty stores. This is also what `clear_all` leaves. -/
def SmtStores.new (branch_cache_capacity lane_cache_capacity : ℕ) : SmtStores B D where
  branch_version := ∅
  lane_version := ∅
  score_index := ∅
  branch_cache := { rows := ∅, capacity := branch_cache_capacity }
  lane_cache := { rows := ∅, capacity := lane_cache_capacity }

namespace SmtStores

variable [LinearOrder B] (stores : SmtStores B D)

/-- `get_node`. -/
def getNode (entity : BranchKey) (bounds : SmtReadBounds)
    (is_canonical : B → Bool) : Option (Version B (Option (Node D))) :=
  stores.branch_cache.read stores.branch_version entity bounds.target_blue_score
    bounds.min_blue_score is_canonical

/-- `get_lane`. -/
def getLane (lane_key : Key) (bounds : SmtReadBounds)
    (is_canonical : B → Bool) : Option (Version B D) :=
  stores.lane_cache.read stores.lane_version lane_key bounds.target_blue_score
    bounds.min_blue_score is_canonical

/-- `get_lanes_root`: the digest of the node at depth zero. -/
def getLanesRoot (H : SmtHasher D) (stores : SmtStores B D) (bounds : SmtReadBounds)
    (is_canonical : B → Bool) : D :=
  match stores.getNode (.new 0 0) bounds is_canonical with
  | some v => (NodeResult.ofNode v.value).digest H DEPTH
  | none => H.empty DEPTH

/-- `VersionedBranchReader`: the nodes as the window shows them. It has no leaves. -/
def reader (bounds : SmtReadBounds) (is_canonical : B → Bool) : SmtStore Empty D where
  getNode bk := .ok ((stores.getNode bk bounds is_canonical).bind Version.value)
  getLeaf _ := .ok none

end SmtStores

/-! ## The changes of a block -/

/-- The lanes that a block changes: a new tip, or none for a lane that expires. -/
structure BlockLaneChanges (D : Type) where
  blue_score : ℕ
  changes : AList fun _ : Key => Option D

namespace BlockLaneChanges

/-- `BlockLaneChanges::new`. -/
def new (blue_score : ℕ) : BlockLaneChanges D := { blue_score, changes := ∅ }

variable (c : BlockLaneChanges D)

/-- `expire`. -/
def expire (lane_key : Key) : BlockLaneChanges D :=
  { c with changes := c.changes.insert lane_key none }

/-- `update`. -/
def update (lane_key : Key) (lane_tip_hash : D) : BlockLaneChanges D :=
  { c with changes := c.changes.insert lane_key (some lane_tip_hash) }

/-- The changes in the order of the keys. -/
def sorted : List (Key × Option D) :=
  (c.changes.entries.map fun r => (r.1, r.2)).insertionSort fun r r' => r.1 ≤ r'.1

/-- `to_leaf_updates`. -/
def toLeafUpdates (H : SmtHasher D) (smt_leaf_hash : D → ℕ → D) (c : BlockLaneChanges D) :
    List (LeafUpdate D) :=
  c.sorted.map fun (key, change) =>
    { key, leaf_hash := change.elim H.ZERO_HASH (smt_leaf_hash · c.blue_score) }

/-- The lanes with a new tip. -/
def updated : List (Key × D) := c.sorted.filterMap fun (key, change) => change.map (key, ·)

/-- The lanes that expire. -/
def expired : List Key :=
  c.sorted.filterMap fun (key, change) => if change.isNone then some key else none

end BlockLaneChanges

/-- `flush_score_index`: an entry for the lanes with a new tip, and one for those that expire and
the further ones whose branches were written. -/
def BlockLaneChanges.flushScoreIndex [DecidableEq B] (c : BlockLaneChanges D) (index : ScoreIndex B)
    (block_hash : B) (max_depth : ℕ) (structural_extra : List Key) : ScoreIndex B :=
  let updated := c.updated.map Prod.fst
  let structural := c.expired ++ structural_extra
  let index := if updated ≠ [] then
      index.insert ⟨c.blue_score, .leafUpdate, block_hash, none⟩ ⟨max_depth, updated⟩
    else index
  if structural ≠ [] then
    index.insert ⟨c.blue_score, .structural, block_hash, none⟩ ⟨max_depth, structural⟩
  else index

/-- `SmtProcessor`, without the stores. -/
structure SmtProcessor (D : Type) where
  bounds : SmtReadBounds
  current_lanes_root : D
  lane_changes : BlockLaneChanges D

namespace SmtProcessor

/-- `SmtProcessor::new`. -/
def new (write_blue_score : ℕ) (bounds : SmtReadBounds) (current_lanes_root : D) : SmtProcessor D :=
  { bounds, current_lanes_root, lane_changes := .new write_blue_score }

/-- `update_lane`. -/
def updateLane (p : SmtProcessor D) (lane_key : Key) (lane_tip_hash : D) : SmtProcessor D :=
  { p with lane_changes := p.lane_changes.update lane_key lane_tip_hash }

/-- `expire_lane`. -/
def expireLane (p : SmtProcessor D) (lane_key : Key) : SmtProcessor D :=
  { p with lane_changes := p.lane_changes.expire lane_key }

end SmtProcessor

/-- `SmtBuild`. -/
structure SmtBuild (B D : Type) where
  root : D
  node_changes : SmtNodeChanges D
  lane_changes : BlockLaneChanges D
  payload_and_ctx_digest : D
  active_lanes_count : ℕ
  inactivity_shortcut_block : B

/-- `SmtProcessor::build`. -/
def SmtProcessor.build [LinearOrder B] [DecidableEq D] (H : SmtHasher D)
    (smt_leaf_hash : D → ℕ → D) (zero_hash : B) (stores : SmtStores B D) (p : SmtProcessor D)
    (is_canonical : B → Bool) : Except (Fault Empty) (SmtBuild B D) := do
  let (root, node_changes) ←
    (if p.lane_changes.changes.entries = [] then .ok (p.current_lanes_root, ∅)
    else computeRootUpdate H (stores.reader p.bounds is_canonical) p.current_lanes_root
      (p.lane_changes.toLeafUpdates H smt_leaf_hash))
  return { root, node_changes, lane_changes := p.lane_changes,
           payload_and_ctx_digest := H.ZERO_HASH, active_lanes_count := 0,
           inactivity_shortcut_block := zero_hash }

namespace SmtBuild

variable (build : SmtBuild B D)

/-- The nodes that are written. -/
def nodes : List (BranchKey × Option (Node D)) := build.node_changes.entries.map fun r => (r.1, r.2)

/-- The leaves that moved up and whose lanes are not changed. -/
def promotedLaneKeys : List Key :=
  (build.nodes.filterMap fun (_, node) =>
    match node with
    | some (.collapsed cl) =>
      if cl.lane_key ∈ build.lane_changes.changes then none else some cl.lane_key
    | _ => none).dedup

/-- `SmtBuild::flush`. -/
def flush [LinearOrder B] (stores : SmtStores B D) (branch_blue_score : ℕ)
    (block_hash : B) : SmtStores B D where
  branch_version := stores.branch_version.putAll branch_blue_score block_hash build.nodes
  branch_cache := stores.branch_cache.insertAll branch_blue_score block_hash build.nodes
  lane_version := stores.lane_version.putAll build.lane_changes.blue_score block_hash
    build.lane_changes.updated
  lane_cache := stores.lane_cache.insertAll build.lane_changes.blue_score block_hash
    build.lane_changes.updated
  score_index := build.lane_changes.flushScoreIndex stores.score_index block_hash
    ((build.nodes.map fun r => r.1.depth).foldl max 0) build.promotedLaneKeys

end SmtBuild

end Zkas.Smt
