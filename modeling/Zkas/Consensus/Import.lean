import Zkas.Consensus.VirtualProcessor

/-!
# Transfer of the shielded state at a pruning point

Model of the import side of pruning-point sync: `PruningPointShieldedMetadata` with its wire
generations, `verify_pruning_point_shielded`, `clear_for_pruning_reimport` and
`seed_pruning_point_shielded` of `processes/shielded.rs`, `verify_import_binding_versioned`,
`seed_pruning_point_shielded`, `shielded_state_root_at` and `anchor_log_export` of
`virtual_processor/processor.rs`, and `import_pruning_point_shielded` of `consensus/mod.rs`.

Everything in the metadata and in the nullifier stream is chosen by the peer; the node trusts the
state root that the pruning point's selected child commits. A function that stages writes is a
function on the stores. Texts of errors leave out block hashes; the flag that marks the imported
state as stable is not modelled. -/

namespace Zkas

open Function (update)
open Word

variable {H N G : Type}

/-- The result of an import step: an error text or a panic. -/
abbrev ImportResult := Except (Fault String)

/-! ## Metadata -/

/-- The first wire layout. -/
structure LegacyPruningPointShieldedMetadata (H G : Type) where
  frontier : FrontierState H
  supply : SupplyTotals
  nullifier_muhash : MuHash G
  burns : List (ExitReceipt H)
  state_root : H
  /-- Pairs of an anchor and its source block. -/
  in_window_anchors : List (H × H)

/-- The layout with the dev balance. -/
structure PreAnchorScoresPruningPointShieldedMetadata (H G : Type)
    extends LegacyPruningPointShieldedMetadata H G where
  dev_accrued : U64

/-- The layout with the blue scores of the anchor sources. -/
structure PreWindowPruningPointShieldedMetadata (H G : Type)
    extends PreAnchorScoresPruningPointShieldedMetadata H G where
  in_window_anchor_source_scores : List (H × U64)

/-- The current layout: the anchor-log entries up to the pruning point, the miner slot and the log
right before the entries. -/
structure PruningPointShieldedMetadata (H G : Type)
    extends PreWindowPruningPointShieldedMetadata H G where
  window_entries : List (WindowEntry H)
  miner_accrual : MinerAccrual
  window_prefix : AnchorLog H

/-- Read the layout before the log as the current one. -/
def PreWindowPruningPointShieldedMetadata.toCurrent
    (v : PreWindowPruningPointShieldedMetadata H G) : PruningPointShieldedMetadata H G :=
  { v with window_entries := [], miner_accrual := .default, window_prefix := .default }

/-- Read the layout before the scores as the current one. -/
def PreAnchorScoresPruningPointShieldedMetadata.toCurrent
    (v : PreAnchorScoresPruningPointShieldedMetadata H G) : PruningPointShieldedMetadata H G :=
  PreWindowPruningPointShieldedMetadata.toCurrent { v with in_window_anchor_source_scores := [] }

/-- Read the first layout as the current one. -/
def LegacyPruningPointShieldedMetadata.toCurrent
    (v : LegacyPruningPointShieldedMetadata H G) : PruningPointShieldedMetadata H G :=
  PreAnchorScoresPruningPointShieldedMetadata.toCurrent { v with dev_accrued := 0 }

/-- The decoders of the wire layouts, from the crate `bincode`. -/
structure WireFormat (H G : Type) where
  current : List UInt8 → Except String (PruningPointShieldedMetadata H G)
  pre_window : List UInt8 → Option (PreWindowPruningPointShieldedMetadata H G)
  pre_anchor_scores : List UInt8 → Option (PreAnchorScoresPruningPointShieldedMetadata H G)
  legacy : List UInt8 → Option (LegacyPruningPointShieldedMetadata H G)

/-- Decode metadata, the newest layout first. -/
def WireFormat.fromWireBytes (W : WireFormat H G) (bytes : List UInt8) :
    Except String (PruningPointShieldedMetadata H G) :=
  match W.current bytes with
  | .ok md => .ok md
  | .error text =>
    (((W.pre_window bytes).map (·.toCurrent)).orElse fun _ =>
      ((W.pre_anchor_scores bytes).map (·.toCurrent)).orElse fun _ =>
        (W.legacy bytes).map (·.toCurrent)).okOr
      s!"malformed shielded pruning-point metadata: {text}"

/-- The slot as the commitment takes it. -/
def minerAccrualRef (slot : MinerAccrual) : MinerAccrualRef where
  script_version := slot.script_public_key.version
  script := slot.script_public_key.script
  amount := slot.amount

/-- A tree error as it is printed. -/
def TreeStateError.text : TreeStateError → String
  | .NonCanonicalNode => "NonCanonicalNode"
  | .Inconsistent => "Inconsistent"

def MAX_IMPORTED_IN_WINDOW_ANCHORS : ℕ := 2 ^ 18

def MAX_IMPORTED_BURN_RECEIPTS : ℕ := 2 ^ 20

def MAX_SHIELDED_NULLIFIER_IMPORT_COUNT : ℕ := 2 ^ 26

/-- The metadata on the wire with the number of nullifiers to be streamed. -/
structure ShieldedExportMetadata where
  data : List UInt8
  nullifier_count : U64

section

variable [CommGroupWithZero G] (C : Crypto H N G)

/-- The state root of transferred parts. -/
def recomputeStateRoot (frontier : FrontierState H) (supply : SupplyTotals)
    (nullifier_muhash : MuHash G) (burns : List (ExitReceipt H)) : Except TreeStateError H := do
  let tree ← GlobalTree.fromState C.T frontier
  return shieldedStateRoot C.hf (C.T.toBytes (tree.anchor C.T)) (nullifier_muhash.finalize C.mf)
    supply.cumulative_coinbase supply.cumulative_fees
    ((BurnAccumulator.fromReceipts C.hf burns).root C.hf)

variable [DecidableEq H] [DecidableEq G]

/-- Check the metadata against the streamed nullifiers: the number of nullifiers. -/
def verifyPruningPointShielded (md : PruningPointShieldedMetadata H G) (nullifiers : List H) :
    ImportResult ℕ :=
  let anchors := md.in_window_anchors.length
  let scores := md.in_window_anchor_source_scores.length
  let burns := md.burns.length
  let count := nullifiers.length
  if md.nullifier_muhash.denominator ≠ 1 then
    .error (.err "pruning-point nullifier accumulator is not in normalized form")
  else if MAX_IMPORTED_IN_WINDOW_ANCHORS < anchors then
    .error (.err (s!"pruning-point metadata carries {anchors} in-window anchors, " ++
      s!"above the {MAX_IMPORTED_IN_WINDOW_ANCHORS} ceiling"))
  else if MAX_IMPORTED_IN_WINDOW_ANCHORS < scores then
    .error (.err (s!"pruning-point metadata carries {scores} attested source scores, " ++
      s!"above the {MAX_IMPORTED_IN_WINDOW_ANCHORS} ceiling"))
  else if md.burns ≠ [] ∧ !BRIDGE_ENABLED then
    .error (.err (s!"pruning-point metadata carries {burns} burn receipts while the bridge is " ++
      "disabled; no burn can exist on this chain"))
  else if MAX_IMPORTED_BURN_RECEIPTS < burns then
    .error (.err (s!"pruning-point metadata carries {burns} burn receipts, " ++
      s!"above the {MAX_IMPORTED_BURN_RECEIPTS} ceiling"))
  else if (MuHash.new.addAll C.mf nullifiers).finalize C.mf ≠ md.nullifier_muhash.finalize C.mf then
    .error (.err s!"streamed nullifier set ({count}) does not reproduce the committed accumulator")
  else if md.frontier.size < count then
    .error (.err (s!"streamed nullifier set ({count}) exceeds the committed note count " ++
      s!"({md.frontier.size}); a spend implies a note"))
  else do
    let recomputed ← (recomputeStateRoot C md.frontier md.supply md.nullifier_muhash
      md.burns).mapError
      fun e => .err s!"malformed shielded frontier in pruning-point metadata: {e.text}"
    if recomputed ≠ md.state_root then
      .error (.err ("declared shielded state root is inconsistent with (frontier, supply, " ++
        "nullifier_muhash, burns)"))
    else return count

/-- The binding of an import before the security fork. -/
def verifyImportBinding (md : PruningPointShieldedMetadata H G) (committed_state_root : H) :
    ImportResult Unit :=
  if md.state_root ≠ committed_state_root then
    .error (.err ("imported shielded state root does not match the PoW-committed coinbase " ++
      "binding (import is not anchored to the proof-verified header chain — refusing to seed)"))
  else .ok ()

/-! ## The stores of the manager -/

namespace ShieldedStores

variable (s : ShieldedStores H G)

/-- Clear the imported state: the nullifier set, the snapshots of the pruning point and the whole
anchor indexes. The log entries, the nullifier diffs and the collection queue stay. -/
def clearForPruningReimport (pruning_point : H) : ShieldedStores H G :=
  { s with
    nullifiers := ∅
    tree_store := update s.tree_store pruning_point none
    supply_store := update s.supply_store pruning_point none
    nullifier_muhash := update s.nullifier_muhash pruning_point none
    burn_store := update s.burn_store pruning_point none
    dev_accrued_store := update s.dev_accrued_store pruning_point none
    miner_accrual_store := update s.miner_accrual_store pruning_point none
    anchor_window := update s.anchor_window pruning_point none
    anchor_block := fun _ => none
    anchor_producers := fun _ => none
    anchor_source_scores := fun _ => none }

/-- The producers of each seeded root: the pruning point for its own anchor, and the sources of the
pairs. -/
def seededProducers (anchor block : H) (pairs : List (H × H)) : H → List H :=
  pairs.foldl (fun producers (root, source) =>
    if source ∈ producers root then producers
    else update producers root (producers root ++ [source])) (update (fun _ => []) anchor [block])

/-- The last value a list of pairs gives to a key. -/
def lastScore (scores : List (H × U64)) : H → Option U64 :=
  scores.foldl (fun f (source, blue_score) => update f source (some blue_score)) fun _ => none

/-- Seed the rows of a pruning point from verified metadata. -/
def seedPruningPointShielded (block : H) (md : PruningPointShieldedMetadata H G)
    (nullifiers : List H) : ImportResult (ShieldedStores H G) := do
  let tree ← (GlobalTree.fromState C.T md.frontier).mapError fun e =>
    .err ("seeding shielded stores failed: malformed shielded frontier in pruning-point " ++
      s!"metadata: {e.text}")
  let anchor := C.T.toBytes (tree.anchor C.T)
  let producers := seededProducers anchor block md.in_window_anchors
  let scores := lastScore md.in_window_anchor_source_scores
  return { s with
    tree_store := update s.tree_store block (some md.frontier)
    anchor_block := md.in_window_anchors.foldl (fun f (root, source) => update f root (some source))
      (update s.anchor_block anchor (some block))
    anchor_producers := fun root => if producers root = [] then s.anchor_producers root
      else some (producers root)
    anchor_source_scores := fun source => (scores source).orElse fun _ =>
      s.anchor_source_scores source
    anchor_gc := md.in_window_anchors.foldl (fun queue (root, source) =>
      match scores source with
      | some blue_score => insert (blue_score, root, source) queue
      | none => queue) s.anchor_gc
    supply_store := if 0 < md.supply.cumulative_coinbase.toNat ∨ 0 < md.supply.cumulative_fees.toNat
      then update s.supply_store block (some md.supply) else s.supply_store
    burn_store := if md.burns ≠ [] then update s.burn_store block (some md.burns) else s.burn_store
    nullifier_muhash := if md.nullifier_muhash.finalize C.mf ≠ MuHash.EMPTY_MUHASH C.mf
      then update s.nullifier_muhash block (some md.nullifier_muhash) else s.nullifier_muhash
    -- The dev balance is written also when it is zero.
    dev_accrued_store := update s.dev_accrued_store block (some md.dev_accrued)
    miner_accrual_store := update s.miner_accrual_store block
      (if md.miner_accrual.isEmpty then none else some md.miner_accrual)
    nullifiers := s.nullifiers ∪ nullifiers.toFinset }

end ShieldedStores

end

/-! ## The processor -/

/-- What a node knows of block headers and reachability: a missing header or pruned reachability
data gives `none`. -/
structure HeaderView (H : Type) where
  blue_score : H → Option U64
  is_chain_ancestor_of : H → H → Option Bool

/-- The most log entries an export can carry. -/
def SecurityParams.anchorLogMaxEntries (P : SecurityParams) : ℕ :=
  (saturatingAdd P.max_shielded_anchor_age 2).toNat

/-- The oldest blue score of an anchor source that a spend above the pruning point may use. -/
def SecurityParams.oldestUsable (P : SecurityParams) (D : BlockDag H) (pp : H) : U64 :=
  saturatingSub (D.blue_score pp) P.max_shielded_anchor_age

section

variable [DecidableEq H]

/-- The loop body for a pair: the kept pairs and the proven sources so far. -/
def retainPair (view : HeaderView H) (pp : H) (lo pp_bs : U64)
    (acc : List (H × H) × List (H × U64)) (pair : H × H) : List (H × H) × List (H × U64) :=
  match acc.2.lookup pair.2 with
  | some bs => if lo.toNat ≤ bs.toNat then (acc.1 ++ [pair], acc.2) else acc
  | none =>
    match view.blue_score pair.2 with
    | none => acc
    | some bs =>
      if lo.toNat ≤ bs.toNat ∧ bs.toNat ≤ pp_bs.toNat ∧
          view.is_chain_ancestor_of pair.2 pp = some true then
        (acc.1 ++ [pair], acc.2 ++ [(pair.2, bs)])
      else acc

/-- Keep the peer's pairs whose source is a header of the window below the pruning point, with the
headers' own scores. -/
def retainProvableWindowAnchors (D : BlockDag H) (P : SecurityParams) (view : HeaderView H) (pp : H)
    (md : PruningPointShieldedMetadata H G) : PruningPointShieldedMetadata H G :=
  let kept := md.in_window_anchors.foldl
    (retainPair view pp (P.oldestUsable D pp) (D.blue_score pp)) ([], [])
  { md with in_window_anchors := kept.1, in_window_anchor_source_scores := kept.2 }

variable [CommGroupWithZero G] (C : Crypto H N G) (D : BlockDag H) (P : SecurityParams)

/-- The checks of a replayed log: it ends at the pruning point, it reaches the oldest usable source,
and the root of everything is the committed one. -/
def verifyReplayedWindow (pp : H) (md : PruningPointShieldedMetadata H G) (committed : H)
    (window : AnchorLog H) : ImportResult (Option (AnchorLog H)) :=
  let oldest_usable := (P.oldestUsable D pp).toNat
  let first_bs := md.window_entries.head?.elim (2 ^ 64 - 1) (·.blue_score.toNat)
  if md.window_entries.getLast?.map (·.block) ≠ some pp then
    .error (.err "pruning-point anchor window does not end at the pruning point")
  else if md.window_prefix.count ≠ 0 ∧ oldest_usable < first_bs then
    .error (.err ("pruning-point anchor log stops above the oldest usable anchor " ++
      s!"(blue {first_bs} > {oldest_usable})"))
  else if shieldedStateRootV1 C.hf md.state_root md.dev_accrued (window.commitment C.hf)
      (minerAccrualRef md.miner_accrual) ≠ committed then
    .error (.err ("imported shielded state (with its dev accrual, " ++
      "anchor window and miner accrual) does not match the PoW-committed root"))
  else .ok (some window)

/-- Bind metadata to the committed root by the pruning point's DAA score: the replayed anchor log of
a post-fork pruning point. -/
def verifyImportBindingVersioned (pp : H) (md : PruningPointShieldedMetadata H G) (committed : H) :
    ImportResult (Option (AnchorLog H)) :=
  let pp_daa := D.daa_score pp
  let dev_accrued := md.dev_accrued.toNat
  if md.dev_accrued ≠ 0 ∧ (!P.dev_fee_accrual_activation.isActive pp_daa ∨
      P.dev_fee_end_activation.isActive pp_daa) then
    .error (.err (s!"pruning-point metadata carries a dev balance {dev_accrued} where none can " ++
      "exist"))
  else if !P.security_fork_activation.isActive pp_daa then
    if !md.miner_accrual.isEmpty then
      .error (.err "pruning-point metadata carries a miner accrual slot before the security fork")
    else do
      verifyImportBinding md committed
      return none
  else
    let max_entries := P.anchorLogMaxEntries
    let entries := md.window_entries.length
    if max_entries < entries then
      .error (.err (s!"pruning-point anchor window has {entries} entries, " ++
        s!"more than a window can hold ({max_entries})"))
    else if !md.window_prefix.isWellFormed then
      .error (.err "pruning-point anchor log prefix is malformed")
    else do
      let window ← ( md.window_prefix.replay C.hf md.window_entries).mapError
        (Fault.map fun e => s!"pruning-point anchor log: {e}")
      verifyReplayedWindow C D P pp md committed window

/-- Pair each entry with the log right before it. -/
def pairWithLogs (log : AnchorLog H) :
    List (WindowEntry H) → ImportResult (List (WindowEntry H × AnchorLog H))
  | [] => .ok []
  | e :: es => do
    let next ← (log.append C.hf e).mapError fun _ => .panic
    let rest ← pairWithLogs next es
    return (e, log) :: rest

/-- Attest the score of an entry's block, unless it has one. -/
def addScore (scores : List (H × U64)) (e : WindowEntry H) : List (H × U64) :=
  if e.block ∈ scores.map (·.1) then scores else scores ++ [(e.block, e.blue_score)]

/-- Add the proven entries to the pairs and the scores of the metadata. -/
def addProvenEntries (md : PruningPointShieldedMetadata H G)
    (proven : List (WindowEntry H × AnchorLog H)) : PruningPointShieldedMetadata H G :=
  let entries := proven.map (·.1)
  { md with
    in_window_anchors := md.in_window_anchors ++ entries.map fun e => (e.root, e.block)
    in_window_anchor_source_scores := entries.foldl addScore md.in_window_anchor_source_scores }

/-- Write the proven entries of the log. -/
def ShieldedStores.persistEntries (s : ShieldedStores H G)
    (proven : List (WindowEntry H × AnchorLog H)) : ShieldedStores H G :=
  { s with
    anchor_entries :=
      proven.foldl (fun f (e, log_before) => update f e.block (some (e, log_before)))
      s.anchor_entries }

/-- Write the log of the pruning point. -/
def ShieldedStores.persistWindowOnly (s : ShieldedStores H G) (block : H) (window : AnchorLog H) :
    ShieldedStores H G :=
  { s with anchor_window := update s.anchor_window block (some window) }

variable [DecidableEq G] (W : WireFormat H G) (view : HeaderView H)

/-- The metadata that is seeded, and the proven log entries. Of a post-fork pruning point only the
entries are kept, none of the peer's pairs. -/
def provenMetadata (md : PruningPointShieldedMetadata H G) (window : Option (AnchorLog H)) :
    ImportResult (PruningPointShieldedMetadata H G × List (WindowEntry H × AnchorLog H)) :=
  match window with
  | none => .ok (addProvenEntries md [], [])
  | some _ => do
    let proven ← pairWithLogs C md.window_prefix md.window_entries
    return (addProvenEntries { md with
      in_window_anchors := [], in_window_anchor_source_scores := [] } proven, proven)

/-- Verify the imported state of a pruning point and replace the old one by it. -/
def ShieldedStores.processorSeed (s : ShieldedStores H G) (pp : H)
    (metadata : ShieldedExportMetadata) (expected_state_root : Option H) (nullifiers : List H) :
    ImportResult (ShieldedStores H G) := do
  let md ← (W.fromWireBytes metadata.data).mapError .err
  let window ← match expected_state_root with
    | some committed => verifyImportBindingVersioned C D P pp md committed
    | none => .ok none
  let n ← verifyPruningPointShielded C md nullifiers
  let (md, proven) ← provenMetadata C (retainProvableWindowAnchors D P view pp md) window
  let declared := metadata.nullifier_count.toNat
  if n ≠ declared then
    .error (.err s!"nullifier count mismatch: metadata says {declared}, streamed {n}")
  else do
    let s ← (s.clearForPruningReimport pp).seedPruningPointShielded C pp md nullifiers
    match window with
    | some window => return (s.persistWindowOnly pp window).persistEntries proven
    | none => return s

/-! ## The import -/

/-- Collect the streamed batches, up to the declared count. -/
def collectBatches (nullifier_count : ℕ) : List H → List (List H) → ImportResult (List H)
  | nullifiers, [] => .ok nullifiers
  | nullifiers, batch :: batches =>
    if nullifier_count < (nullifiers ++ batch).length then
      .error (.err s!"streamed nullifiers exceed the declared count {nullifier_count}")
    else collectBatches nullifier_count (nullifiers ++ batch) batches

/-- Import the shielded state of a pruning point: the stores after the import. -/
def importPruningPointShielded (s : ShieldedStores H G) (new_pruning_point : H)
    (metadata : ShieldedExportMetadata) (expected_state_root : Option H)
    (nullifier_batches : List (List H)) : ImportResult (ShieldedStores H G) :=
  let declared := metadata.nullifier_count.toNat
  if MAX_SHIELDED_NULLIFIER_IMPORT_COUNT < declared then
    .error (.err (s!"declared nullifier count {declared} exceeds the sanity cap " ++
      s!"{MAX_SHIELDED_NULLIFIER_IMPORT_COUNT}"))
  else do
    let md ← (W.fromWireBytes metadata.data).mapError .err
    if MAX_IMPORTED_IN_WINDOW_ANCHORS < md.in_window_anchors.length ∨
        MAX_IMPORTED_IN_WINDOW_ANCHORS < md.in_window_anchor_source_scores.length ∨
        MAX_IMPORTED_BURN_RECEIPTS < md.burns.length then
      .error (.err ("pruning-point metadata exceeds a structural ceiling; " ++
        "refusing it before streaming"))
    else
      match expected_state_root with
      | none =>
        .error (.err "shielded import is not bound to a PoW-committed state root; refusing")
      | some committed => do
        let _ ← verifyImportBindingVersioned C D P new_pruning_point md committed
        if md.frontier.size < declared then
          .error (.err (s!"declared nullifier count {declared} exceeds the committed note " ++
            s!"count {md.frontier.size}; a spend implies a note"))
        else do
          let nullifiers ← collectBatches declared [] nullifier_batches
          s.processorSeed C D P W view new_pruning_point metadata expected_state_root nullifiers

end

/-! ## Roots and exports -/

section

variable [DecidableEq H] [CommGroupWithZero G] (C : Crypto H N G) (D : BlockDag H)
  (P : SecurityParams) (s : ShieldedStores H G)

namespace ShieldedStores

/-- The metadata of a pruning point with shielded state; the anchor log is attached by the
processor. -/
def exportPruningPointShielded (block : H) :
    ImportResult (Option (PruningPointShieldedMetadata H G)) :=
  let frontier := s.frontierAt block
  if frontier.size = 0 then .ok none
  else do
    let state_root ← (recomputeStateRoot C frontier (s.supplyTotalsAt block)
      (s.nullifierMuhashAt block) (s.burnsAt block)).mapError fun e =>
        .err s!"stored shielded frontier is corrupt: {e.text}"
    return some {
      frontier, supply := s.supplyTotalsAt block, nullifier_muhash := s.nullifierMuhashAt block
      burns := s.burnsAt block, state_root, in_window_anchors := []
      dev_accrued := s.devAccruedAt block, in_window_anchor_source_scores := []
      window_entries := [], miner_accrual := s.minerAccrualAt block, window_prefix := .default }

/-- The log a post-fork root commits: only genesis has no row. -/
def committedWindow (block : H) (is_genesis : Bool) : ImportResult (AnchorLog H) :=
  match s.anchor_window block with
  | some window => .ok window
  | none =>
    if is_genesis then .ok .default else .error (.err "post-fork block has no anchor window")

/-- The post-fork state root as of a block. -/
def stateRootV1At (block : H) (is_genesis : Bool) : ImportResult H := do
  let root0 ← (s.stateRootAt C block).mapError fun _ => .panic
  let window ← s.committedWindow block is_genesis
  return shieldedStateRootV1 C.hf root0 (s.devAccruedAt block) (window.commitment C.hf)
    (minerAccrualRef (s.minerAccrualAt block))

/-- The state root as of a block, by the block's own DAA score. -/
def shieldedStateRootAt (block : H) : ImportResult H :=
  if P.isPostSecurityFork D block then s.stateRootV1At C block (block = D.root)
  else (s.stateRootAt C block).mapError fun _ => .panic

/-- The loop of the export. `remaining` is how many more entries may be pushed after the current
one. -/
def exportFrom (oldest_usable : U64) : ℕ → H → List (WindowEntry H) →
    Option (List (WindowEntry H) × AnchorLog H)
  | remaining, cursor, entries =>
    match s.anchor_entries cursor with
    | none => none
    | some (entry, log_before) =>
      if log_before.count = 0 ∨ entry.blue_score.toNat ≤ oldest_usable.toNat then
        some ((entries ++ [entry]).reverse, log_before)
      else
        match remaining with
        | 0 => none
        | remaining + 1 => exportFrom oldest_usable remaining entry.parent (entries ++ [entry])

/-- The log entries a node serves for a pruning point, oldest first, and the log just below them. -/
def anchorLogExport (pp : H) : Option (List (WindowEntry H) × AnchorLog H) :=
  s.exportFrom (P.oldestUsable D pp) P.anchorLogMaxEntries pp []

end ShieldedStores

end

end Zkas
