import Zkas.Shielded.Turnstile

/-!
# The expected coinbase

Model of `CoinbaseManager` in `consensus/src/processes/coinbase.rs`. The expected coinbase of a
block pays one reward per rewarded mergeset blue and one for the merged reds, skims the dev fee off
the subsidies, and from its activations on carries the miner reward and the dev fee in balances
handed from chain block to chain block. Release builds check overflow, so an overflowing sum is a
panic, as is the `unwrap` of a missing reward; the dev balance saturates. `calc_block_subsidy` only
enters the payload and is a field of the manager. -/

namespace Zkas

open Word

variable {H : Type}

/-- A fork that activates at a DAA score. -/
structure ForkActivation where
  daa_score : U64
  deriving DecidableEq

/-- Whether the fork is active at a DAA score. -/
def ForkActivation.isActive (a : ForkActivation) (daa_score : U64) : Bool :=
  a.daa_score.toNat ≤ daa_score.toNat

theorem ForkActivation.isActive_mono {a : ForkActivation} {d d' : U64} (hle : d.toNat ≤ d'.toNat)
    (h : a.isActive d) : a.isActive d' := by
  unfold isActive at h ⊢
  rw [decide_eq_true_iff] at h ⊢
  omega

/-- A script with its version. -/
structure ScriptPublicKey where
  version : BitVec 16
  script : List UInt8
  deriving DecidableEq

/-- The empty script of version zero. -/
def ScriptPublicKey.default : ScriptPublicKey := { version := 0, script := [] }

/-- An output of a coinbase. -/
structure TransactionOutput where
  value : U64
  script_public_key : ScriptPublicKey
  deriving DecidableEq

/-- The miner's part of a coinbase payload. -/
structure MinerData where
  script_public_key : ScriptPublicKey
  extra_data : List UInt8
  deriving DecidableEq

/-- The content of a coinbase payload. -/
structure CoinbaseData (H : Type) where
  blue_score : U64
  subsidy : U64
  shielded_commitment : H
  miner_data : MinerData
  deriving DecidableEq

/-- What a merged block earns. -/
structure BlockRewardData where
  subsidy : U64
  total_fees : U64
  script_public_key : ScriptPublicKey
  deriving DecidableEq

/-- The miner reward a chain block carries forward: one slot. -/
structure MinerAccrual where
  script_public_key : ScriptPublicKey
  amount : U64
  deriving DecidableEq

/-- The empty slot. -/
def MinerAccrual.default : MinerAccrual := { script_public_key := .default, amount := 0 }

/-- A slot is empty when its amount is zero. -/
def MinerAccrual.isEmpty (slot : MinerAccrual) : Bool := slot.amount = 0

/-- The mergeset part of a block's ghostdag data. -/
structure GhostdagData (H : Type) where
  blue_score : U64
  selected_parent : H
  mergeset_blues : List H
  mergeset_reds : List H

/-- Errors of the coinbase manager. -/
inductive CoinbaseError where
  | PayloadScriptPublicKeyLenAboveMax (len max : ℕ)
  | AccrualOverflow
  deriving DecidableEq, Repr

/-- The coinbase parameters of a network. The payout intervals are positive, as `new` clamps
them. -/
structure CoinbaseManager where
  coinbase_payload_script_public_key_max_len : ℕ
  toccata_activation : ForkActivation
  dev_fee_permille : U64
  /-- The 43-byte Orchard address of the dev fund. -/
  dev_fee_recipient : Option (List UInt8)
  dev_fee_accrual_activation : ForkActivation
  dev_fee_payout_interval : U64
  dev_fee_end_activation : ForkActivation
  miner_accrual_payout_interval : U64
  miner_accrual_activation : ForkActivation
  /-- The emission schedule. -/
  calc_block_subsidy : U64 → U64
  dev_fee_payout_interval_pos : 0 < dev_fee_payout_interval.toNat
  miner_accrual_payout_interval_pos : 0 < miner_accrual_payout_interval.toNat

/-- A coinbase transaction: the fields that are not constant. -/
structure CoinbaseTransaction (H : Type) where
  version : BitVec 16
  outputs : List TransactionOutput
  payload : CoinbaseData H
  deriving DecidableEq

/-- A coinbase with the balances its block carries forward. -/
structure CoinbaseTransactionTemplate (H : Type) where
  tx : CoinbaseTransaction H
  has_red_reward : Bool
  dev_accrued : U64
  miner_accrual : MinerAccrual
  deriving DecidableEq

/-- A coinbase computation: an error of the manager or a panic. -/
abbrev CoinbaseResult := Except (Fault CoinbaseError)

/-- `a + b` under overflow checks. -/
def addOrPanic (a b : U64) : CoinbaseResult U64 := (checkedAdd a b).okOr .panic

/-- `a - b` under overflow checks. -/
def subOrPanic (a b : U64) : CoinbaseResult U64 := (checkedSub a b).okOr .panic

namespace CoinbaseManager

variable (m : CoinbaseManager)

/-- The dev fee skimmed from one rewarded block's subsidy. -/
def devFeeCut (subsidy : U64) : U64 :=
  if m.dev_fee_recipient.isSome && 0 < m.dev_fee_permille.toNat then
    BitVec.ofNat 64 (subsidy.toNat * m.dev_fee_permille.toNat / 1000)
  else 0

/-- The cut a block with `daa_score` takes: nothing from the dev-fee end on. -/
def cutAt (daa_score subsidy : U64) : U64 :=
  if m.dev_fee_end_activation.isActive daa_score then 0 else m.devFeeCut subsidy

/-- Whether a block crosses a multiple of `interval` over its parent. -/
def crosses (interval parent_daa_score daa_score : U64) : Bool :=
  parent_daa_score.toNat / interval.toNat < daa_score.toNat / interval.toNat

/-- Whether a block pays out the accrued dev fee. -/
def isDevFeePayout (parent_daa_score daa_score : U64) : Bool :=
  crosses m.dev_fee_payout_interval parent_daa_score daa_score

/-- The accumulators of the reward loops. -/
structure Rewards where
  payments : List (U64 × ScriptPublicKey)
  dev_fee_accum : U64
  red_reward : U64

/-- The loop body for a rewarded blue. -/
def addBlue (cut : U64 → U64) (mergeset_rewards : H → Option BlockRewardData) (acc : Rewards)
    (blue : H) : CoinbaseResult Rewards := do
  let reward_data ← (mergeset_rewards blue).okOr .panic
  let dev_cut := cut reward_data.subsidy
  let dev_fee_accum ← addOrPanic acc.dev_fee_accum dev_cut
  let net ← subOrPanic reward_data.subsidy dev_cut
  let miner_reward ← addOrPanic net reward_data.total_fees
  return { acc with
    dev_fee_accum
    payments := if 0 < miner_reward.toNat then
        acc.payments ++ [(miner_reward, reward_data.script_public_key)]
      else acc.payments }

/-- The loop body for a merged red. -/
def addRed (cut : U64 → U64) (mergeset_rewards : H → Option BlockRewardData)
    (mergeset_non_daa : H → Bool) (acc : Rewards) (red : H) : CoinbaseResult Rewards := do
  let reward_data ← (mergeset_rewards red).okOr .panic
  if mergeset_non_daa red then
    return { acc with red_reward := ← addOrPanic acc.red_reward reward_data.total_fees }
  else
    let dev_cut := cut reward_data.subsidy
    let dev_fee_accum ← addOrPanic acc.dev_fee_accum dev_cut
    let net ← subOrPanic reward_data.subsidy dev_cut
    let reward ← addOrPanic net reward_data.total_fees
    return { acc with dev_fee_accum, red_reward := ← addOrPanic acc.red_reward reward }

/-- The loop body of `accrue_miner_rewards`: outputs so far and the slot. -/
def accrueStep (acc : List TransactionOutput × MinerAccrual) (payment : U64 × ScriptPublicKey) :
    CoinbaseResult (List TransactionOutput × MinerAccrual) :=
  let (outputs, slot) := acc
  let (value, spk) := payment
  if !slot.isEmpty && slot.script_public_key = spk then do
    let amount ← (checkedAdd slot.amount value).okOr (.err .AccrualOverflow)
    return (outputs, { slot with amount })
  else
    return (if slot.isEmpty then outputs else outputs ++ [⟨slot.amount, slot.script_public_key⟩],
      { script_public_key := spk, amount := value })

/-- The security-fork miner reward rule. -/
def accrueMinerRewards (parent : MinerAccrual) (payments : List (U64 × ScriptPublicKey))
    (payout : Bool) : CoinbaseResult (List TransactionOutput × MinerAccrual) := do
  let (outputs, slot) ← payments.foldlM accrueStep ([], parent)
  if payout && !slot.isEmpty then
    return (outputs ++ [⟨slot.amount, slot.script_public_key⟩], .default)
  else return (outputs, slot)

/-- The dev fee a block pays and the balance it carries forward. -/
def devFee (daa_score parent_daa_score dev_accrued_parent dev_fee_accum : U64) : U64 × U64 :=
  if !m.dev_fee_accrual_activation.isActive daa_score then (dev_fee_accum, 0)
  else if m.dev_fee_end_activation.isActive daa_score || m.isDevFeePayout parent_daa_score daa_score
  then (saturatingAdd dev_accrued_parent dev_fee_accum, 0)
  else (0, saturatingAdd dev_accrued_parent dev_fee_accum)

/-- The output that pays the dev fund, if any. -/
def devOutput (dev_fee_paid : U64) : List TransactionOutput :=
  match m.dev_fee_recipient with
  | some recipient =>
    if 0 < dev_fee_paid.toNat then [⟨dev_fee_paid, { version := 0, script := recipient }⟩] else []
  | none => []

/-- The payload check of `serialize_coinbase_payload`; the payload is kept as the record it
encodes. -/
def serializeCoinbasePayload (data : CoinbaseData H) : CoinbaseResult (CoinbaseData H) :=
  let len := data.miner_data.script_public_key.script.length
  if m.coinbase_payload_script_public_key_max_len < len then
    .error (.err (.PayloadScriptPublicKeyLenAboveMax len
      m.coinbase_payload_script_public_key_max_len))
  else .ok data

end CoinbaseManager

/-- What the expected coinbase of a block is built from, apart from its parent. -/
structure CoinbaseInput (H : Type) where
  daa_score : U64
  miner_data : MinerData
  ghostdag_data : GhostdagData H
  mergeset_rewards : H → Option BlockRewardData
  mergeset_non_daa : H → Bool
  shielded_commitment : H

/-- What the selected parent hands on: its DAA score and the two carried balances. -/
structure CoinbaseParent where
  daa_score : U64
  dev_accrued : U64
  miner_accrual : MinerAccrual

namespace CoinbaseManager

variable (m : CoinbaseManager) (b : CoinbaseInput H)

/-- The two reward loops and the red payment. -/
def collectRewards : CoinbaseResult Rewards := do
  let cut := m.cutAt b.daa_score
  let acc ← (b.ghostdag_data.mergeset_blues.filter (!b.mergeset_non_daa ·)).foldlM
    (addBlue cut b.mergeset_rewards) { payments := [], dev_fee_accum := 0, red_reward := 0 }
  let acc ← b.ghostdag_data.mergeset_reds.foldlM
    (addRed cut b.mergeset_rewards b.mergeset_non_daa) acc
  return if 0 < acc.red_reward.toNat then
      { acc with payments := acc.payments ++ [(acc.red_reward, b.miner_data.script_public_key)] }
    else acc

/-- The miner outputs and the slot carried forward. -/
def minerOutputs (parent : CoinbaseParent) (payments : List (U64 × ScriptPublicKey)) :
    CoinbaseResult (List TransactionOutput × MinerAccrual) :=
  if m.miner_accrual_activation.isActive b.daa_score then
    accrueMinerRewards parent.miner_accrual payments
      (crosses m.miner_accrual_payout_interval parent.daa_score b.daa_score)
  else .ok (payments.map fun p => ⟨p.1, p.2⟩, .default)

/-- Build the expected coinbase for a block. -/
def expectedCoinbaseTransaction (parent : CoinbaseParent) :
    CoinbaseResult (CoinbaseTransactionTemplate H) := do
  let acc ← m.collectRewards b
  let (outputs, miner_accrual) ← m.minerOutputs b parent acc.payments
  let (dev_fee_paid, dev_accrued) :=
    m.devFee b.daa_score parent.daa_score parent.dev_accrued acc.dev_fee_accum
  let payload ← m.serializeCoinbasePayload {
    blue_score := b.ghostdag_data.blue_score
    subsidy := m.calc_block_subsidy b.daa_score
    shielded_commitment := b.shielded_commitment
    miner_data := b.miner_data }
  return {
    tx := {
      version := if m.toccata_activation.isActive b.daa_score then 1 else 0
      outputs := outputs ++ m.devOutput dev_fee_paid
      payload }
    has_red_reward := 0 < acc.red_reward.toNat
    dev_accrued
    miner_accrual }

end CoinbaseManager

end Zkas
