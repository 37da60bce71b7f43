import Zkas.Smt.Proof
import Zkas.Smt.SeqCommit
import Zkas.Smt.Streaming

/-!
# Import of the lanes of a block

Model of `streaming_import/mod.rs`, and of its two ends in `consensus/mod.rs`: the stream of lanes
that a node exports for its pruning point (`open_pruning_point_smt_lane_stream`,
`get_pruning_point_smt_metadata`) and `import_pruning_point_smt`. Batches are written at once. The
lanes arrive in chunks; the entry of a chunk in the score index waits until all its lanes are
sealed. -/

namespace Zkas.Smt

/-- `SMT_PROOF_INTERVAL`. -/
def SMT_PROOF_INTERVAL : ℕ := 1 <<< 20

/-- `ImportLane`. -/
structure ImportLane (D : Type) where
  lane_key : Key
  lane_tip : D
  blue_score : ℕ
  proof : Option (SmtProof D)

/-- What is sent of the metadata of a block and read here. -/
structure SmtExportMetadata (D : Type) where
  lanes_root : D
  payload_and_ctx_digest : D
  active_lanes_count : ℕ

/-! ## Export -/

section

variable {L B D : Type} [LinearOrder B]

/-- `iter_all_canonical`: the newest version on the chain of every lane with one in the window, in
the order of the keys. -/
def iterAllCanonical (lane_version : VersionStore Key B D) (min_blue_score max_blue_score : ℕ)
    (is_canonical : B → Bool) : List (Key × Version B D) :=
  ((lane_version.entries.map fun r => r.1.entity).dedup.insertionSort (· ≤ ·)).filterMap fun k =>
    (lane_version.getAtCanonical k max_blue_score min_blue_score is_canonical).map (k, ·)

variable (net : Network L B D)

/-- The lane at a position of the stream; every so often it comes with a proof. -/
def exportLane (stores : SmtStores B D) (pp : B) (bounds : SmtReadBounds)
    (r : (Key × Version B D) × ℕ) : Except Empty (ImportLane D) := do
  let proof ← (if r.2 % SMT_PROOF_INTERVAL = 0 then do
      let proof ← prove net.hashing.activeNode (stores.reader bounds (net.isSmtCanonical pp)) r.1.1
      return some proof
    else return none)
  return { lane_key := r.1.1, lane_tip := r.1.2.value, blue_score := r.1.2.score, proof }

/-- `open_pruning_point_smt_lane_stream`, drained. -/
def exportLanes (stores : SmtStores B D) (pp : B) : Except Empty (List (ImportLane D)) :=
  let max_score := (net.header pp).blue_score
  let min_score := max_score - net.finality_depth
  (iterAllCanonical stores.lane_version min_score max_score
    (net.isSmtCanonical pp)).zipIdx.mapM (exportLane net stores pp ⟨max_score, min_score⟩)

/-- `get_pruning_point_smt_metadata`: there is none for the genesis block. -/
def exportMetadata (state : SmtState B D) (pp : B) : Option (SmtExportMetadata D) := do
  if pp = net.tree.root then none
  else
    let md ← state.metadata.lookup pp
    return {
      lanes_root := state.stores.getLanesRoot net.hashing.activeNode
        (.forPov (net.header pp).blue_score net.finality_depth) (net.isSmtCanonical pp)
      payload_and_ctx_digest := md.payload_and_ctx_digest
      active_lanes_count := md.active_lanes_count }

end

/-! ## The score index -/

/-- `PendingScoreIndex`. -/
structure PendingScoreIndex where
  batch_id : ℕ
  groups : List (ℕ × List Key)

variable {B D : Type}

namespace PendingScoreIndex

/-- `from_chunk`: the lanes by score. -/
def fromChunk (batch_id : ℕ) (chunk : List (ImportLane D)) : PendingScoreIndex where
  batch_id
  groups := ((chunk.map ImportLane.blue_score).dedup.insertionSort (· ≤ ·)).map fun bs =>
    (bs, (chunk.filter fun lane => lane.blue_score = bs).map ImportLane.lane_key)

variable (p : PendingScoreIndex)

/-- `into_lane_keys`. -/
def laneKeys : List Key := p.groups.flatMap Prod.snd

/-- `is_resolvable`. -/
def isResolvable (sink : DbSink B D) : Bool :=
  p.groups.all fun (_, lks) => lks.all fun lk => (sink.sealDepthFor lk).isSome

/-- `write_to_batch`. -/
def writeToBatch [DecidableEq B] (sink : DbSink B D) (block_hash : B)
    (index : ScoreIndex B) : ScoreIndex B :=
  p.groups.foldl (fun index (bs, lane_keys) =>
    let max_depth := (lane_keys.filterMap sink.sealDepthFor).foldl max 0
    index.insert ⟨bs, .leafUpdate, block_hash, some p.batch_id⟩ ⟨max_depth, lane_keys⟩) index

end PendingScoreIndex

/-- `Vec::swap_remove`: the last item takes the place of the one that is removed. -/
def swapRemove {α : Type} (xs : List α) (i : ℕ) : List α :=
  match xs.getLast? with
  | none => []
  | some last => (xs.set i last).dropLast

theorem length_swapRemove {α : Type} {xs : List α} {i : ℕ} (hi : i < xs.length) :
    (swapRemove xs i).length = xs.length - 1 := by
  unfold swapRemove
  cases hlast : xs.getLast? with
  | none =>
    rw [List.getLast?_eq_none_iff] at hlast
    rw [hlast] at hi
    exact absurd hi (Nat.not_lt_zero i)
  | some last => rw [List.length_dropLast, List.length_set]

section

variable [DecidableEq B]

/-- `flush_resolved_pending`, from position `i` on. -/
def flushResolvedPending (block_hash : B) (i : ℕ) (pending : List PendingScoreIndex)
    (sink : DbSink B D) (index : ScoreIndex B) :
    List PendingScoreIndex × DbSink B D × ScoreIndex B :=
  if h : i < pending.length then
    let entry := pending[i]
    if entry.isResolvable sink then
      flushResolvedPending block_hash i (swapRemove pending i) (sink.forgetLanes entry.laneKeys)
        (entry.writeToBatch sink block_hash index)
    else flushResolvedPending block_hash (i + 1) pending sink index
  else (pending, sink, index)
termination_by pending.length - i
decreasing_by
  · rw [length_swapRemove h]
    omega
  · omega

end

/-! ## Import -/

/-- The state of an import. -/
structure ImportState (B D : Type) where
  builder : StreamingSmtBuilder (DbSink B D) D
  lane_version : VersionStore Key B D
  score_index : ScoreIndex B
  pending : List PendingScoreIndex
  batch_id : ℕ
  lanes_imported : ℕ

/-- `StreamingImportResult`. -/
structure StreamingImportResult (D : Type) where
  root : D
  lanes_imported : ℕ
  nodes_written : ℕ

section

variable [DecidableEq B] [DecidableEq D] (H : SmtHasher D) (smt_leaf_hash : D → ℕ → D)
  (block_hash : B) (lanes_root : D)

/-- The check of the proof of a lane, if it has one. -/
def checkProof (lane : ImportLane D) : Except (Fault (StreamError Empty)) Unit :=
  match lane.proof with
  | none => .ok ()
  | some proof =>
    match proof.verify H lane.lane_key (some (smt_leaf_hash lane.lane_tip lane.blue_score))
        lanes_root with
    | .ok true => .ok ()
    | .error .panic => .error .panic
    | _ => .error (.err (.proofFailed lane.lane_key))

/-- One chunk of `streaming_import`. -/
def importChunk (st : ImportState B D) (chunk : List (ImportLane D)) :
    Except (Fault (StreamError Empty)) (ImportState B D) :=
  if chunk = [] then .ok st
  else do
    chunk.forM (checkProof H smt_leaf_hash lanes_root)
    let builder ← chunk.foldlM (fun b lane => StreamingSmtBuilder.feed H (DbSink.mergeSink H) b
      lane.lane_key (smt_leaf_hash lane.lane_tip lane.blue_score) lane.blue_score) st.builder
    let lane_version := chunk.foldl (fun db lane =>
      db.insert ⟨lane.lane_key, lane.blue_score, block_hash⟩ lane.lane_tip) st.lane_version
    let pending := st.pending ++ [.fromChunk st.batch_id chunk]
    let (pending, sink, score_index) :=
      flushResolvedPending block_hash 0 pending builder.sink st.score_index
    return { builder := { builder with sink }, lane_version, score_index, pending
             batch_id := st.batch_id + 1, lanes_imported := st.lanes_imported + chunk.length }

/-- `streaming_import`. -/
def streamingImport (stores : SmtStores B D) (total_count : ℕ)
    (chunks : List (List (ImportLane D))) :
    Except (Fault (StreamError Empty)) (StreamingImportResult D × SmtStores B D) :=
  if total_count = 0 then
    .ok ({ root := H.empty DEPTH, lanes_imported := 0, nodes_written := 0 }, stores)
  else do
    let sink : DbSink B D :=
      { branch_version := stores.branch_version, block_hash, nodes_written := 0
        lane_seal_depth := ∅ }
    let st ← chunks.foldlM (importChunk H smt_leaf_hash block_hash lanes_root)
      { builder := .new H total_count sink, lane_version := stores.lane_version
        score_index := stores.score_index, pending := [], batch_id := 0, lanes_imported := 0 }
    let (root, sink) ← st.builder.finish
    let (pending, sink, score_index) :=
      flushResolvedPending block_hash 0 st.pending sink st.score_index
    if pending ≠ [] then .error .panic
    else return ({ root, lanes_imported := st.lanes_imported, nodes_written := sink.nodes_written },
      { stores with
        branch_version := sink.branch_version, lane_version := st.lane_version, score_index })

end

/-- Why an import is refused. -/
inductive SmtImportError (D : Type) where
  | stream (e : StreamError Empty)
  | smtRootMismatch (expected computed : D)
  | activeLanesCountMismatch (expected got : ℕ)

/-- `import_pruning_point_smt`, for a node with the given state. -/
def importPruningPointSmt {L : Type} [LinearOrder B] [DecidableEq D] (net : Network L B D)
    (state : SmtState B D) (new_pruning_point : B) (metadata : SmtExportMetadata D)
      (inactivity_shortcut_block : B)
    (lane_batches : List (List (ImportLane D))) :
    Except (Fault (SmtImportError D)) (StreamingImportResult D × SmtState B D) := do
  let (result, stores) ← (streamingImport net.hashing.activeNode net.hashing.smtLeafHash
    net.zero_hash metadata.lanes_root state.stores metadata.active_lanes_count
    lane_batches).mapError (Fault.map .stream)
  if result.root ≠ metadata.lanes_root then
    .error (.err (.smtRootMismatch metadata.lanes_root result.root))
  else if result.lanes_imported ≠ metadata.active_lanes_count then
    .error (.err (.activeLanesCountMismatch metadata.active_lanes_count result.lanes_imported))
  else return (result,
    { stores
      metadata := state.metadata.insert new_pruning_point
        { payload_and_ctx_digest := metadata.payload_and_ctx_digest, inactivity_shortcut_block
          active_lanes_count := metadata.active_lanes_count } })

end Zkas.Smt
