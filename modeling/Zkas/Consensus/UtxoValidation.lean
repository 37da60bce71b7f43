import Zkas.Consensus.CoinbaseChain
import Zkas.Consensus.Manager
import Zkas.Shielded.Bundle

/-!
# Validation of a chain block

Model of the shielded part of `pipeline/virtual_processor/utxo_validation.rs` on a shielded-coinbase
network. `calculateUtxoState` collects the rewards and the shielded transactions of the merged
blocks in consensus order, lets the manager's partition decide which transactions are applied, and
takes the fees of the dropped ones out of their source blocks' rewards. `verifyExpectedUtxoState`
verifies the coinbase against these rewards, mints its outputs as notes, computes the shielded
transition and checks the growth of the pool.

The checks of the header commitments, of the pruning point and of the transparent transactions come
first and are left out. Transparent transactions appear with the fee their validation computed. -/

namespace Zkas

open Function (update)
open Framing Word

variable {H N G : Type}

/-- A transaction of a merged block that passed validation. A shielded one pays its bundle's value
balance, which validation requires not to be negative. -/
inductive ValidatedTransaction (H : Type) where
  | transparent (calculated_fee : U64)
  | shielded (bundle : ShieldedBundle H) (nonneg : 0 ≤ bundle.value_balance.toInt)

/-- The fee validation computed. -/
def ValidatedTransaction.calculatedFee : ValidatedTransaction H → U64
  | .transparent fee => fee
  | .shielded bundle _ => bundle.value_balance

/-- A merged block: its accepted transactions apart from the coinbase, and what its own coinbase
declares. -/
structure MergedBlock (H : Type) where
  hash : H
  transactions : List (ValidatedTransaction H)
  subsidy : U64
  script_public_key : ScriptPublicKey

/-- What the merged blocks have contributed so far: their rewards, and the shielded transactions
with their source blocks. -/
structure MergeState (H N : Type) where
  mergeset_rewards : H → Option BlockRewardData
  shielded_txs : List (ShieldedTx H N × H)

/-- What `calculate_utxo_state` leaves for verification. -/
structure UtxoProcessingContext (H N : Type) where
  mergeset_rewards : H → Option BlockRewardData
  shielded_txs : List (ShieldedTx H N)

/-- A chain block with the data its validation reads. The merged blocks, in consensus order, are the
blues and the reds of its mergeset. -/
structure ChainBlockInput (H : Type) where
  hash : H
  daa_score : U64
  parent_daa_score : U64
  ghostdag_data : GhostdagData H
  mergeset_non_daa : H → Bool
  merged : List (MergedBlock H)
  /-- The block's own coinbase. -/
  coinbase : CoinbaseTransaction H
  /-- The state root of the selected parent. -/
  shielded_commitment : H
  merged_perm : (merged.map (·.hash)).Perm
    (ghostdag_data.mergeset_blues ++ ghostdag_data.mergeset_reds)
  merged_nodup : (merged.map (·.hash)).Nodup

/-- The network parameters validation reads. -/
structure NetworkParams where
  coinbase_manager : CoinbaseManager
  shielded_coinbase_seed_activation : ForkActivation

/-- Why a block's shielded state is invalid. -/
inductive InvalidShieldedReason where
  | CoinbaseMint (text : String)
  | State (e : ShieldedStateError)
  /-- The growth of the pool is not the expected one; the balances are given as parent and block. -/
  | PoolDelta (actual expected : ℤ) (dev_accrual miner_accrual : U64 × U64)
  deriving DecidableEq

/-- The rule errors of the modelled checks, and one for all other rules. -/
inductive RuleError where
  | BadCoinbaseTransaction
  | InvalidShieldedState (reason : InvalidShieldedReason)
  | Other
  deriving DecidableEq

/-- A step of block validation: a rule error or a panic. -/
abbrev BlockProcessResult := Except (Fault RuleError)

/-! ## Collecting the mergeset -/

variable (T : NoteTree H N)

/-- The loop body for an accepted transaction of a merged block: its fee is added, and taken off
again when its bundle cannot be applied. -/
def acceptTransaction (merged_block : H)
    (acc : U64 × List (ShieldedTx H N × H)) (tx : ValidatedTransaction H) :
    BlockProcessResult (U64 × List (ShieldedTx H N × H)) := do
  let block_fee ← (checkedAdd acc.1 tx.calculatedFee).okOr .panic
  match tx with
  | .transparent _ => return (block_fee, acc.2)
  | .shielded bundle _ =>
    match ShieldedTx.fromBundle T bundle with
    | .ok stx => return (block_fee, acc.2 ++ [(stx, merged_block)])
    | .error _ => return (← (checkedSub block_fee tx.calculatedFee).okOr .panic, acc.2)

/-- The shielded transaction of a validated one, if its bundle can be applied. -/
def ValidatedTransaction.offered : ValidatedTransaction H → List (ShieldedTx H N)
  | .transparent _ => []
  | .shielded bundle _ => (ShieldedTx.fromBundle T bundle).toOption.toList

/-- The shielded transactions of merged blocks. -/
def offeredTxs (merged : List (MergedBlock H)) : List (ShieldedTx H N) :=
  merged.flatMap fun b => b.transactions.flatMap (·.offered T)

variable [DecidableEq H]

/-- The loop body for a merged block. -/
def mergeBlock (acc : MergeState H N) (b : MergedBlock H) :
    BlockProcessResult (MergeState H N) := do
  let (block_fee, shielded_txs) ← b.transactions.foldlM (acceptTransaction T b.hash)
    (0, acc.shielded_txs)
  return {
    mergeset_rewards := update acc.mergeset_rewards b.hash
      (some { subsidy := b.subsidy, total_fees := block_fee,
              script_public_key := b.script_public_key })
    shielded_txs }

/-- Take the fees of the dropped transactions out of their source blocks' rewards. -/
def deductDropped : List (ShieldedTx H N × H) → List PartitionOutcome →
    (H → Option BlockRewardData) → BlockProcessResult (H → Option BlockRewardData)
  | (stx, source) :: txs, o :: os, rewards =>
    if o.kept then deductDropped txs os rewards
    else do
      let reward ← (rewards source).okOr .panic
      let total_fees ← (checkedSub reward.total_fees stx.fee).okOr .panic
      deductDropped txs os (update rewards source (some { reward with total_fees }))
  | _, _, rewards => .ok rewards

variable [CommGroupWithZero G] (C : Crypto H N G) (s : ShieldedStores H G)

/-- The rewards of the mergeset and the shielded transactions the block applies. -/
def calculateUtxoState (anchor_final : ShieldedTx H N → Bool) (b : ChainBlockInput H) :
    BlockProcessResult (UtxoProcessingContext H N) := do
  let acc ← b.merged.foldlM (mergeBlock C.T)
    { mergeset_rewards := fun _ => none, shielded_txs := [] }
  let txs := acc.shielded_txs.map (·.1)
  let outcomes := s.partitionApplied txs anchor_final
  let mergeset_rewards ← deductDropped acc.shielded_txs outcomes acc.mergeset_rewards
  return { mergeset_rewards, shielded_txs := keptTxs txs outcomes }

/-! ## Verification -/

/-- The coinbase id and the note commitment of a coinbase output, from the crate `orchard`: the
commitment for a recipient address, a seed and a value, if the address is canonical. -/
structure CoinbaseNoteFns (H N : Type) where
  txid : CoinbaseTransaction H → H
  commitment : List UInt8 → Preimage H → U64 → Option N

/-- The notes of the outputs from index `i` on. -/
def coinbaseNotesFrom (F : CoinbaseNoteFns H N) (coinbase_txid : H) (block_hash : Option H) :
    ℕ → List TransactionOutput → Except String (List (CoinbaseNote N))
  | _, [] => .ok []
  | i, out :: outs =>
    if out.script_public_key.script.length < 43 then
      .error "coinbase reward script too short for an Orchard address"
    else do
      let recipient := out.script_public_key.script.take 43
      let seed := block_hash.elim [] Preimage.digest ++ Preimage.digest coinbase_txid ++
        Preimage.word (BitVec.ofNat 32 i)
      let commitment ← (F.commitment recipient seed out.value).okOr
        "coinbase reward recipient is not a canonical Orchard address"
      let notes ← coinbaseNotesFrom F coinbase_txid block_hash (i + 1) outs
      return { value := out.value, commitment } :: notes

/-- The mint of a coinbase: a note per output. -/
def buildCoinbaseMint (F : CoinbaseNoteFns H N) (coinbase_tx : CoinbaseTransaction H)
    (block_hash : Option H) : Except String (CoinbaseMint N) := do
  return { notes := ← coinbaseNotesFrom F (F.txid coinbase_tx) block_hash 0 coinbase_tx.outputs }

variable (b : ChainBlockInput H)

/-- What the expected coinbase of a block is built from. -/
def ChainBlockInput.coinbaseInput (ctx : UtxoProcessingContext H N) : CoinbaseInput H where
  daa_score := b.daa_score
  miner_data := b.coinbase.payload.miner_data
  ghostdag_data := b.ghostdag_data
  mergeset_rewards := ctx.mergeset_rewards
  mergeset_non_daa := b.mergeset_non_daa
  shielded_commitment := b.shielded_commitment

/-- What the selected parent of a block hands on. -/
def ShieldedStores.coinbaseParent : CoinbaseParent where
  daa_score := b.parent_daa_score
  dev_accrued := s.devAccruedAt b.ghostdag_data.selected_parent
  miner_accrual := s.minerAccrualAt b.ghostdag_data.selected_parent

/-- Verify the coinbase against the expected one. The source compares the hashes of the two. -/
def verifyCoinbaseTransaction (m : CoinbaseManager) (b : ChainBlockInput H)
    (ctx : UtxoProcessingContext H N) : BlockProcessResult (CoinbaseTransactionTemplate H) := do
  let expected ← (m.expectedCoinbaseTransaction (b.coinbaseInput ctx) (s.coinbaseParent b)).mapError
    fun _ => .panic
  if b.coinbase ≠ expected.tx then .error (.err .BadCoinbaseTransaction) else return expected

variable (rewards : H → Option BlockRewardData) (non_daa : H → Bool)

/-- The expected growth of the pool after a blue: a non-DAA blue's fees are collected, never
minted. -/
def blueDelta (delta : ℤ) (blue : H) :
    BlockProcessResult ℤ := do
  let reward ← (rewards blue).okOr .panic
  return if non_daa blue then delta - reward.total_fees.toNat else delta + reward.subsidy.toNat

/-- The expected growth of the pool after a red. -/
def redDelta (delta : ℤ) (red : H) : BlockProcessResult ℤ :=
  if non_daa red then .ok delta
  else do
    let reward ← (rewards red).okOr .panic
    return delta + reward.subsidy.toNat

/-- The growth of the pool a mergeset accounts for. -/
def mergesetDelta (g : GhostdagData H) :
    BlockProcessResult ℤ := do
  let delta ← g.mergeset_blues.foldlM (blueDelta rewards non_daa) 0
  g.mergeset_reds.foldlM (redDelta rewards non_daa) delta

/-- The check of the growth of the pool at the end of `verify_expected_utxo_state`. The `i128` sums
are integers here: they are sums of fewer than `2^62` amounts of 64 bits. -/
def verifyPoolDelta (ctx : UtxoProcessingContext H N)
    (t : CoinbaseTransactionTemplate H) (c : ComputedBlockShielded H N G) :
    BlockProcessResult Unit := do
  let parent := s.supplyTotalsAt b.ghostdag_data.selected_parent
  let minted ← (checkedSub c.supply_totals.cumulative_coinbase parent.cumulative_coinbase).okOr
    .panic
  let fees ← (checkedSub c.supply_totals.cumulative_fees parent.cumulative_fees).okOr .panic
  let actual_delta : ℤ := minted.toNat - fees.toNat
  let delta ← mergesetDelta ctx.mergeset_rewards b.mergeset_non_daa b.ghostdag_data
  let p := s.coinbaseParent b
  let expected_delta := delta - (t.dev_accrued.toNat - p.dev_accrued.toNat) -
    (t.miner_accrual.amount.toNat - p.miner_accrual.amount.toNat)
  if actual_delta ≠ expected_delta then
    .error (.err (.InvalidShieldedState (.PoolDelta actual_delta expected_delta
      (p.dev_accrued, t.dev_accrued) (p.miner_accrual.amount, t.miner_accrual.amount))))
  else return ()

/-- The block hash that seeds a block's coinbase notes, once that fork is active. -/
def NetworkParams.seedBlock (P : NetworkParams) (b : ChainBlockInput H) : Option H :=
  if P.shielded_coinbase_seed_activation.isActive b.daa_score then some b.hash else none

/-- Verify a block: its coinbase, its mint, its shielded transition and the growth of the pool. -/
def verifyExpectedUtxoState (P : NetworkParams) (F : CoinbaseNoteFns H N) (b : ChainBlockInput H)
    (ctx : UtxoProcessingContext H N) :
    BlockProcessResult (ComputedBlockShielded H N G × CoinbaseTransactionTemplate H) := do
  let t ← verifyCoinbaseTransaction s P.coinbase_manager b ctx
  let mint ← (buildCoinbaseMint F b.coinbase (P.seedBlock b)).mapError fun text =>
    .err (.InvalidShieldedState (.CoinbaseMint text))
  let c ← (s.compute C b.ghostdag_data.selected_parent (some mint) ctx.shielded_txs).mapError
    (Fault.map fun e => .InvalidShieldedState (.State e))
  verifyPoolDelta s b ctx t c
  return (c, t)

end Zkas
