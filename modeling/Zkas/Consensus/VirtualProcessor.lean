import Zkas.Consensus.UtxoValidation
import Zkas.Lib.ParentTree

/-!
# The virtual processor

Model of `calculate_utxo_state_relatively` and `commit_utxo_state` in
`pipeline/virtual_processor/processor.rs`. A call walks down from the last UTXO-valid block to the
split point, reverting the stored nullifier diffs, and up towards the new candidate, re-applying the
diffs of blocks validated before and validating the others.

The selected chains form a tree. What a block is validated with besides the stores is the
`BlockVerdict` of the call. A staged deletion is seen by reads only after its batch is written, a
staged insertion at once. -/

namespace Zkas

open Function (update)

variable {H N G : Type}

/-- The selected-chain tree of the block DAG with the header fields validation reads. Blue scores
grow along a selected chain. -/
structure BlockDag (H : Type) extends ParentTree H where
  daa_score : H → U64
  blue_score : H → U64
  blue_score_lt : ∀ b, b ≠ root → (blue_score (parent b)).toNat < (blue_score b).toNat

/-- The parameters of the security fork. -/
structure SecurityParams where
  security_fork_activation : ForkActivation
  dev_fee_accrual_activation : ForkActivation
  dev_fee_end_activation : ForkActivation
  shielded_anchor_depth : U64
  max_shielded_anchor_age : U64

/-- Whether a block's own state is described by the post-fork root. -/
def SecurityParams.isPostSecurityFork (P : SecurityParams) (D : BlockDag H) (block : H) : Bool :=
  P.security_fork_activation.isActive (D.daa_score block)

/-- What a call finds about a block besides the stores. -/
structure BlockVerdict (H N : Type) where
  /-- The shielded transactions of the merged blocks, in consensus order. -/
  shielded_txs : List (ShieldedTx H N)
  anchor_final : ShieldedTx H N → Bool
  /-- The mint of the block's coinbase. -/
  coinbase : Option (CoinbaseMint N)
  /-- Whether the block meets every other rule. -/
  other_rules : Bool
  /-- The balances the block's coinbase carries on. -/
  dev_accrued : U64
  miner_accrual : MinerAccrual

/-- The state of the processor: the shielded stores, the blocks with a stored UTXO diff, and the
blocks known to be disqualified. -/
structure ProcessorState (H G : Type) where
  stores : ShieldedStores H G
  utxo_diffs : Finset H
  disqualified : Finset H

/-! ## Batches of nullifier writes -/

/-- A staged write of the nullifier set. -/
inductive NullifierOp (H : Type) where
  | insert (nf : H)
  | delete (nf : H)

section

variable [DecidableEq H]

/-- The set after a staged write. -/
def NullifierOp.apply (set : Finset H) : NullifierOp H → Finset H
  | .insert nf => Insert.insert nf set
  | .delete nf => set.erase nf

namespace ShieldedStores

variable (s : ShieldedStores H G) (batch : List (NullifierOp H))

/-- Write a batch. -/
def writeNullifiers : ShieldedStores H G :=
  { s with nullifiers := batch.foldl NullifierOp.apply s.nullifiers }

/-- Stage an insertion, which reads see at once. -/
def insertBatch (nf : H) : ShieldedStores H G × List (NullifierOp H) :=
  ({ s with nullifiers := insert nf s.nullifiers }, batch ++ [.insert nf])

/-- Stage the insertion of a block's nullifiers. -/
def applyNullifiersFromStore (block : H) : ShieldedStores H G × List (NullifierOp H) :=
  (s.nullifierDiffAt block).foldl (fun (s, batch) nf => s.insertBatch batch nf) (s, batch)

/-- Stage the deletion of a block's nullifiers, which reads do not see. -/
def revertNullifiersFromStore (block : H) :
    List (NullifierOp H) := batch ++ (s.nullifierDiffAt block).map .delete

end ShieldedStores

end

/-! ## Committing a block -/

section

variable [DecidableEq H] [CommGroupWithZero G] (C : Crypto H N G) (D : BlockDag H)
  (P : SecurityParams)

namespace ShieldedStores

variable (s : ShieldedStores H G)

/-- The shielded transactions a block applies. -/
def keptOf (v : BlockVerdict H N) : List (ShieldedTx H N) :=
  keptTxs v.shielded_txs (s.partitionApplied v.shielded_txs v.anchor_final)

/-- Validate a block on top of its selected parent: partition, transition and the other rules. -/
def validate (selected_parent : H) (v : BlockVerdict H N) :
    BlockProcessResult (ComputedBlockShielded H N G) :=
  if v.other_rules then
    (s.compute C selected_parent v.coinbase (s.keptOf v)).mapError
      (Fault.map fun e => .InvalidShieldedState (.State e))
  else .error (.err .Other)

/-- The anchor log a block extends: the selected parent's, or the empty one at the start. -/
def parentWindow (selected_parent : H) : BlockProcessResult (AnchorLog H) :=
  match s.anchor_window selected_parent with
  | some log => .ok log
  | none =>
    if selected_parent = D.root ∨ !P.isPostSecurityFork D selected_parent then .ok .default
    else .error .panic

/-- Write a block's log and its log entry. -/
def persistWindow (block : H) (window : AnchorLog H)
    (entry : WindowEntry H) (log_before : AnchorLog H) : ShieldedStores H G :=
  { s with
    anchor_entries := update s.anchor_entries block (some (entry, log_before))
    anchor_window := update s.anchor_window block (some window) }

/-- The log entry of a block with the anchor its transition computed. -/
def entryOf (current : H) (c : ComputedBlockShielded H N G) : WindowEntry H where
  block := current
  parent := D.parent current
  root := C.T.toBytes c.outcome.anchor
  blue_score := D.blue_score current

/-- Extend the anchor log by a block, from the security fork on. -/
def extendWindow (current : H) (c : ComputedBlockShielded H N G) :
    BlockProcessResult (ShieldedStores H G) :=
  if P.isPostSecurityFork D current then do
    let parent_window ← s.parentWindow D P (D.parent current)
    let entry := entryOf C D current c
    let window ← (parent_window.append C.hf entry).mapError fun _ => .panic
    return s.persistWindow current window entry parent_window
  else .ok s

/-- Write the balances a block carries on; zero and the empty slot are not written. -/
def persistBalances (block : H) (dev_accrued : U64)
    (miner_accrual : MinerAccrual) : ShieldedStores H G :=
  { s with
    dev_accrued_store := if 0 < dev_accrued.toNat then
        update s.dev_accrued_store block (some dev_accrued)
      else s.dev_accrued_store
    miner_accrual_store := if miner_accrual.isEmpty then s.miner_accrual_store
      else update s.miner_accrual_store block (some miner_accrual) }

/-- The shielded writes of `commit_utxo_state`. -/
def commitUtxoState (current : H) (c : ComputedBlockShielded H N G)
    (v : BlockVerdict H N) : BlockProcessResult (ShieldedStores H G) := do
  let s ← (s.persist C current c).extendWindow C D P current c
  return s.persistBalances current v.dev_accrued v.miner_accrual

end ShieldedStores

/-! ## The walk -/

namespace ProcessorState

/-- Mark a block as disqualified. -/
def disqualify (σ : ProcessorState H G) (block : H) : ProcessorState H G :=
  { σ with disqualified := insert block σ.disqualified }

/-- The down-walk over the blocks from the last UTXO-valid one: stage the reverts until a chain
ancestor of the candidate is met. -/
def walkDown (σ : ProcessorState H G) (is_ancestor : H → Bool) :
    List H → List (NullifierOp H) → BlockProcessResult (H × List (NullifierOp H))
  | [], _ => .error .panic
  | current :: rest, batch =>
    if is_ancestor current then .ok (current, batch)
    else if current ∉ σ.utxo_diffs then .error .panic
    else walkDown σ is_ancestor rest (σ.stores.revertNullifiersFromStore batch current)

/-- Re-apply a block validated before. -/
def rejoin (σ : ProcessorState H G) (current : H) : ProcessorState H G :=
  let (stores, batch) := σ.stores.applyNullifiersFromStore [] current
  { σ with stores := stores.writeNullifiers batch }

/-- One step of the up-walk: the state and the most recent UTXO-valid block. -/
def stepUp (verdict : H → BlockVerdict H N) (σ : ProcessorState H G) (diff_point : H)
    (selected_parent current : H) : BlockProcessResult (ProcessorState H G × H) :=
  if selected_parent ≠ diff_point then .ok (σ.disqualify current, diff_point)
  else if current ∈ σ.utxo_diffs then .ok (σ.rejoin current, current)
  else if current ∈ σ.disqualified then .ok (σ, diff_point)
  else
    match σ.stores.validate C selected_parent (verdict current) with
    | .error .panic => .error .panic
    | .error (.err _) => .ok (σ.disqualify current, diff_point)
    | .ok c => do
      let stores ← σ.stores.commitUtxoState C D P current c (verdict current)
      return ({ σ with stores, utxo_diffs := insert current σ.utxo_diffs }, current)

/-- The up-walk over the blocks above the split point. -/
def walkUp (verdict : H → BlockVerdict H N) :
    ProcessorState H G → H → H → List H → BlockProcessResult (ProcessorState H G × H)
  | σ, diff_point, _, [] => .ok (σ, diff_point)
  | σ, diff_point, selected_parent, current :: rest => do
    let (σ, diff_point) ← σ.stepUp C D P verdict diff_point selected_parent current
    walkUp verdict σ diff_point current rest

/-- Move from the UTXO-valid block `start` towards `target`: the state and the block reached. -/
def calculateUtxoStateRelatively (verdict : H → BlockVerdict H N) (σ : ProcessorState H G)
    (start target : H) : BlockProcessResult (ProcessorState H G × H) :=
  if target ∈ σ.disqualified then .ok (σ, start)
  else do
    let (split_point, batch) ← σ.walkDown (· ∈ D.path target) (D.path start).reverse []
    let σ := { σ with stores := σ.stores.writeNullifiers batch }
    walkUp C D P verdict σ split_point split_point (D.above split_point target)

/-- The state after genesis. -/
def genesis : ProcessorState H G := { stores := .empty, utxo_diffs := {D.root}, disqualified := ∅ }

/-- A run of calls, each from the block the one before returned. -/
def run : ProcessorState H G → H → List ((H → BlockVerdict H N) × H) →
    BlockProcessResult (ProcessorState H G × H)
  | σ, tip, [] => .ok (σ, tip)
  | σ, tip, (verdict, target) :: calls => do
    let (σ, tip) ← σ.calculateUtxoStateRelatively C D P verdict tip target
    run σ tip calls

end ProcessorState

end

end Zkas
