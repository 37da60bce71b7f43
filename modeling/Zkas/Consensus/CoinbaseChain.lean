import Zkas.Consensus.Coinbase

/-!
# Conservation along a chain of coinbases

Every sompi of the rewards of a block reaches an output of its coinbase or one of the two balances
it carries forward, and every balance handed on by the parent is paid out or carried on. A chain of
coinbases in which each block is fed what its parent carried conserves value over all blocks
(`coinbaseChain_spec`), across the three activations in any order. -/

namespace Zkas

open Word List Option Except BitVec

variable {H : Type} (rewards : H → Option BlockRewardData)

/-- The subsidy of a merged block, if it has a reward. -/
def subsidyOf (h : H) : ℕ := (rewards h).elim 0 (·.subsidy.toNat)

/-- The fees of a merged block, if it has a reward. -/
def feesOf (h : H) : ℕ := (rewards h).elim 0 (·.total_fees.toNat)

/-- The total value of a list of outputs. -/
def outputTotal (outputs : List TransactionOutput) : ℕ := (outputs.map (·.value.toNat)).sum

theorem outputTotal_append (a b : List TransactionOutput) :
    outputTotal (a ++ b) = outputTotal a + outputTotal b := by
  rw [outputTotal, map_append, sum_append, outputTotal, outputTotal]

theorem outputTotal_singleton (o : TransactionOutput) : outputTotal [o] = o.value.toNat := rfl

/-- What a block's coinbase has to distribute: subsidy and fees of its DAA blues and DAA reds, and
the fees of its non-DAA reds. -/
def CoinbaseInput.issued (b : CoinbaseInput H) : ℕ :=
  ((b.ghostdag_data.mergeset_blues.filter (!b.mergeset_non_daa ·)).map fun h =>
      subsidyOf b.mergeset_rewards h + feesOf b.mergeset_rewards h).sum +
    (b.ghostdag_data.mergeset_reds.map fun h =>
      if b.mergeset_non_daa h then feesOf b.mergeset_rewards h
      else subsidyOf b.mergeset_rewards h + feesOf b.mergeset_rewards h).sum

namespace CoinbaseManager

variable (m : CoinbaseManager)

/-- The sum over a block's DAA blues and DAA reds of a share of their subsidies. -/
def subsidyShares (b : CoinbaseInput H) (share : H → ℕ) : ℕ :=
  ((b.ghostdag_data.mergeset_blues.filter (!b.mergeset_non_daa ·)).map share).sum +
    (b.ghostdag_data.mergeset_reds.map fun h => if b.mergeset_non_daa h then 0 else share h).sum

/-- The dev cut a block takes from a merged block. -/
def cutOf (b : CoinbaseInput H) (h : H) : ℕ :=
  (b.mergeset_rewards h).elim 0 fun r => (m.cutAt b.daa_score r.subsidy).toNat

/-- The dev cuts a block takes. -/
def cuts (b : CoinbaseInput H) : ℕ := subsidyShares b (m.cutOf b)

/-- The cuts as numbers: `floor(subsidy * permille / 1000)` of each rewarded subsidy before the
dev-fee end, and nothing from it on. -/
def floorCuts (b : CoinbaseInput H) : ℕ :=
  if m.dev_fee_end_activation.isActive b.daa_score then 0
  else subsidyShares b fun h => subsidyOf b.mergeset_rewards h * m.dev_fee_permille.toNat / 1000

variable {m}

/-! ## The reward loops -/

/-- Everything the accumulators hold. -/
def Rewards.total (acc : Rewards) : ℕ :=
  (acc.payments.map (·.1.toNat)).sum + acc.red_reward.toNat + acc.dev_fee_accum.toNat

/-- No payment is zero. -/
def Rewards.Positive (acc : Rewards) : Prop := ∀ p ∈ acc.payments, 0 < p.1.toNat

variable {b : CoinbaseInput H} {parent : CoinbaseParent} {accum : U64} {acc : Rewards}
  {t : CoinbaseTransactionTemplate H}

theorem credit_eq_ok {subsidy fees cut accum' net reward : U64}
    (h₁ : addOrPanic accum cut = .ok accum') (h₂ : subOrPanic subsidy cut = .ok net)
    (h₃ : addOrPanic net fees = .ok reward) :
    accum'.toNat = accum.toNat + cut.toNat ∧
      reward.toNat + cut.toNat = subsidy.toNat + fees.toNat := by
  rw [addOrPanic, okOr_eq_ok, checkedAdd_eq_some] at h₁ h₃
  rw [subOrPanic, okOr_eq_ok, checkedSub_eq_some] at h₂
  omega

section

variable {cut : U64 → U64} {rewards : H → Option BlockRewardData} {acc' : Rewards} {h : H}

/-- A rewarded blue adds its subsidy and fees, of which its cut goes to the dev balance. -/
theorem addBlue_spec (hok : addBlue cut rewards acc h = .ok acc') :
    acc'.total = acc.total + (subsidyOf rewards h + feesOf rewards h) ∧
      acc'.dev_fee_accum.toNat = acc.dev_fee_accum.toNat +
        (rewards h).elim 0 (fun r => (cut r.subsidy).toNat) ∧
      (acc.Positive → acc'.Positive) := by
  unfold addBlue at hok
  simp only [bind_eq_ok_iff, okOr_eq_ok] at hok
  obtain ⟨r, hr, accum, h₁, net, h₂, reward, h₃, heq⟩ := hok
  obtain ⟨haccum, hreward⟩ := credit_eq_ok h₁ h₂ h₃
  obtain rfl := ok.inj heq
  simp only [subsidyOf, feesOf, hr, elim_some]
  refine ⟨?_, haccum, fun hpos => ?_⟩
  · unfold Rewards.total
    split_ifs with hp
    · simp only [map_append, map_cons, map_nil, sum_append, sum_singleton]
      omega
    · simp only
      omega
  · unfold Rewards.Positive
    split_ifs with hp
    · exact forall_mem_append.mpr ⟨hpos, forall_mem_singleton.mpr hp⟩
    · exact hpos

/-- A merged red adds its fees, and inside the DAA window also its subsidy, of which its cut goes
to the dev balance. -/
theorem addRed_spec {non_daa : H → Bool} (hok : addRed cut rewards non_daa acc h = .ok acc') :
    acc'.total = acc.total + (if non_daa h then feesOf rewards h
        else subsidyOf rewards h + feesOf rewards h) ∧
      acc'.dev_fee_accum.toNat = acc.dev_fee_accum.toNat +
        (if non_daa h then 0 else (rewards h).elim 0 fun r => (cut r.subsidy).toNat) ∧
      (acc.Positive → acc'.Positive) := by
  unfold addRed at hok
  simp only [bind_eq_ok_iff, okOr_eq_ok] at hok
  obtain ⟨r, hr, hok⟩ := hok
  simp only [subsidyOf, feesOf, hr, elim_some]
  split_ifs at hok ⊢ with hd
  · obtain ⟨red, hred, heq⟩ := bind_eq_ok_iff.mp hok
    obtain rfl := ok.inj heq
    rw [addOrPanic, okOr_eq_ok, checkedAdd_eq_some] at hred
    refine ⟨?_, rfl, id⟩
    simp only [Rewards.total]
    omega
  · simp only [bind_eq_ok_iff] at hok
    obtain ⟨accum, h₁, net, h₂, reward, h₃, red, hred, heq⟩ := hok
    obtain ⟨haccum, hreward⟩ := credit_eq_ok h₁ h₂ h₃
    obtain rfl := ok.inj heq
    rw [addOrPanic, okOr_eq_ok, checkedAdd_eq_some] at hred
    refine ⟨?_, haccum, id⟩
    simp only [Rewards.total]
    omega

end

/-- The reward loops distribute exactly what is issued: the payments and the dev balance add up to
it, and the dev balance is the sum of the cuts. -/
theorem collectRewards_spec (hok : m.collectRewards b = .ok acc) :
    (acc.payments.map (·.1.toNat)).sum + acc.dev_fee_accum.toNat = b.issued ∧
      acc.dev_fee_accum.toNat = m.cuts b ∧ acc.Positive := by
  unfold collectRewards at hok
  simp only [bind_eq_ok_iff] at hok
  obtain ⟨acc₁, hblue, acc₂, hred, heq⟩ := hok
  -- The blues: total, dev balance and positivity; no red reward yet.
  have ht₁ := foldlM_sum Rewards.total
    (fun h => subsidyOf b.mergeset_rewards h + feesOf b.mergeset_rewards h)
    (fun h => (addBlue_spec h).1) hblue
  have hd₁ := foldlM_sum (fun acc => acc.dev_fee_accum.toNat) (m.cutOf b)
    (fun h => (addBlue_spec h).2.1) hblue
  have hp₁ := foldlM_inv Rewards.Positive (fun _ h => (addBlue_spec h).2.2) hblue
    (fun p hp => absurd hp not_mem_nil)
  -- The reds add to the same total.
  have ht₂ := foldlM_sum Rewards.total
    (fun h => if b.mergeset_non_daa h then feesOf b.mergeset_rewards h
      else subsidyOf b.mergeset_rewards h + feesOf b.mergeset_rewards h)
    (fun h => (addRed_spec h).1) hred
  have hd₂ := foldlM_sum (fun acc => acc.dev_fee_accum.toNat)
    (fun h => if b.mergeset_non_daa h then 0 else m.cutOf b h)
    (fun h => (addRed_spec h).2.1) hred
  have hp₂ := foldlM_inv Rewards.Positive (fun _ h => (addRed_spec h).2.2) hred hp₁
  obtain rfl := ok.inj heq
  have hzero : Rewards.total { payments := [], dev_fee_accum := 0, red_reward := 0 } = 0 := rfl
  rw [ht₁, hzero, Nat.zero_add] at ht₂
  simp only [hd₁, ofNat_eq_ofNat, toNat_ofNat, Nat.zero_mod, Nat.zero_add] at hd₂
  unfold Rewards.total at ht₂
  -- The red reward becomes the last payment.
  split_ifs with hpos
  · refine ⟨?_, hd₂, ?_⟩
    · simp only [map_append, map_cons, map_nil, sum_append, sum_singleton]
      unfold CoinbaseInput.issued
      omega
    · exact forall_mem_append.mpr ⟨hp₂, forall_mem_singleton.mpr hpos⟩
  · refine ⟨?_, hd₂, hp₂⟩
    unfold CoinbaseInput.issued
    omega

/-! ## The miner slot -/

/-- A payment is added to the slot, or the slot is paid out and replaced: nothing is lost, and no
output is zero. -/
theorem accrueStep_spec {acc acc' : List TransactionOutput × MinerAccrual}
    {p : U64 × ScriptPublicKey} (hok : accrueStep acc p = .ok acc') :
    outputTotal acc'.1 + acc'.2.amount.toNat = outputTotal acc.1 + acc.2.amount.toNat + p.1.toNat ∧
      ((∀ o ∈ acc.1, 0 < o.value.toNat) → ∀ o ∈ acc'.1, 0 < o.value.toNat) := by
  obtain ⟨outputs, slot⟩ := acc
  have hempty : slot.isEmpty = true ↔ slot.amount.toNat = 0 := by
    unfold MinerAccrual.isEmpty
    rw [decide_eq_true_iff, ← toNat_inj]
    rfl
  unfold accrueStep at hok
  simp only at hok
  split_ifs at hok with hsame he
  · obtain ⟨amount, hadd, heq⟩ := bind_eq_ok_iff.mp hok
    obtain rfl := ok.inj heq
    rw [okOr_eq_ok, checkedAdd_eq_some] at hadd
    refine ⟨?_, id⟩
    simp only
    omega
  · obtain rfl := ok.inj hok
    have hz := hempty.mp he
    refine ⟨?_, id⟩
    simp only
    omega
  · obtain rfl := ok.inj hok
    have hz : 0 < slot.amount.toNat := Nat.pos_of_ne_zero fun h => he (hempty.mpr h)
    refine ⟨?_, fun h => forall_mem_append.mpr ⟨h, forall_mem_singleton.mpr hz⟩⟩
    simp only [outputTotal_append, outputTotal_singleton]

variable {payments : List (U64 × ScriptPublicKey)} {outputs : List TransactionOutput}

/-- The miner rule conserves value: outputs and new slot are the old slot and the payments. -/
theorem accrueMinerRewards_spec {parent slot : MinerAccrual} {payout : Bool}
    (hok : accrueMinerRewards parent payments payout = .ok (outputs, slot)) :
    outputTotal outputs + slot.amount.toNat = parent.amount.toNat + (payments.map (·.1.toNat)).sum ∧
      ∀ o ∈ outputs, 0 < o.value.toNat := by
  obtain ⟨⟨outs, slot₁⟩, hloop, hok⟩ := bind_eq_ok_iff.mp hok
  have hsum := foldlM_sum (fun acc => outputTotal acc.1 + acc.2.amount.toNat)
    (fun p : U64 × ScriptPublicKey => p.1.toNat) (fun h => (accrueStep_spec h).1) hloop
  have houts := foldlM_inv (fun acc => ∀ o ∈ acc.1, 0 < o.value.toNat)
    (fun _ h => (accrueStep_spec h).2) hloop (fun o ho => absurd ho not_mem_nil)
  have hnil : outputTotal [] = 0 := rfl
  simp only [hnil, Nat.zero_add] at hsum houts
  simp only at hok
  split_ifs at hok with hpay
  · simp only [pure_eq_ok, ok.injEq, Prod.mk.injEq] at hok
    obtain ⟨rfl, rfl⟩ := hok
    have hdef : MinerAccrual.default.amount.toNat = 0 := rfl
    have hne : 0 < slot₁.amount.toNat := by
      simp only [Bool.and_eq_true, Bool.not_eq_true', MinerAccrual.isEmpty,
        decide_eq_false_iff_not] at hpay
      exact Nat.pos_of_ne_zero fun h => hpay.2 (eq_of_toNat_eq h)
    refine ⟨?_, forall_mem_append.mpr ⟨houts, forall_mem_singleton.mpr hne⟩⟩
    rw [hdef, ← hsum, outputTotal_append, outputTotal_singleton, Nat.add_zero]
  · simp only [pure_eq_ok, ok.injEq, Prod.mk.injEq] at hok
    obtain ⟨rfl, rfl⟩ := hok
    exact ⟨hsum, houts⟩

/-- The miner outputs and the new slot are the payments, and the parent's slot once accrual is
active. -/
theorem minerOutputs_spec
    {slot : MinerAccrual} (hok : m.minerOutputs b parent payments = .ok (outputs, slot))
    (hpos : ∀ p ∈ payments, 0 < p.1.toNat) :
    outputTotal outputs + slot.amount.toNat =
        (if m.miner_accrual_activation.isActive b.daa_score then parent.miner_accrual.amount.toNat
          else 0) + (payments.map (·.1.toNat)).sum ∧
      (∀ o ∈ outputs, 0 < o.value.toNat) ∧
      (m.miner_accrual_activation.isActive b.daa_score = false → slot = .default) := by
  unfold minerOutputs at hok
  split_ifs at hok ⊢ with hact
  · obtain ⟨hsum, houts⟩ := accrueMinerRewards_spec hok
    exact ⟨hsum, houts, fun h => by rw [hact] at h; cases h⟩
  · simp only [ok.injEq, Prod.mk.injEq] at hok
    obtain ⟨rfl, rfl⟩ := hok
    have hdef : MinerAccrual.default.amount.toNat = 0 := rfl
    refine ⟨?_, fun o ho => ?_, fun _ => rfl⟩
    · rw [hdef]
      simp only [outputTotal, List.map_map]
      exact Nat.add_comm _ _
    · obtain ⟨p, hp, rfl⟩ := List.mem_map.mp ho
      exact hpos p hp

/-! ## The dev balance -/

/-- The dev fee paid and the balance carried on are the cuts, and the parent's balance once accrual
is active. -/
theorem devFee_spec (daa parent_daa dev_parent accum : U64)
    (hfit : m.dev_fee_accrual_activation.isActive daa → dev_parent.toNat + accum.toNat < 2 ^ 64) :
    (m.devFee daa parent_daa dev_parent accum).1.toNat +
        (m.devFee daa parent_daa dev_parent accum).2.toNat =
      (if m.dev_fee_accrual_activation.isActive daa then dev_parent.toNat else 0) +
        accum.toNat := by
  unfold devFee
  by_cases hact : m.dev_fee_accrual_activation.isActive daa
  · have hsum := toNat_saturatingAdd_of_lt (hfit hact)
    simp only [hact, Bool.not_true, Bool.false_eq_true, if_false, if_true]
    split_ifs
    · simp only [hsum, ofNat_eq_ofNat, toNat_ofNat, Nat.zero_mod, Nat.add_zero]
    · simp only [hsum, ofNat_eq_ofNat, toNat_ofNat, Nat.zero_mod, Nat.zero_add]
  · simp only [Bool.not_eq_true] at hact
    simp [hact]

theorem devFee_ended {daa parent_daa dev_parent : U64}
    (hend : m.dev_fee_end_activation.isActive daa) :
    (m.devFee daa parent_daa dev_parent accum).2 = 0 := by
  unfold devFee
  split_ifs with h₁ h₂
  · rfl
  · rfl
  · rw [hend] at h₂
    exact absurd rfl h₂

theorem devFee_inactive {daa parent_daa dev_parent : U64}
    (hact : m.dev_fee_accrual_activation.isActive daa = false) :
    (m.devFee daa parent_daa dev_parent accum).2 = 0 := by
  unfold devFee
  rw [hact]
  rfl

theorem outputTotal_devOutput (paid : U64) :
    outputTotal (m.devOutput paid) = if m.dev_fee_recipient.isSome then paid.toNat else 0 := by
  unfold devOutput
  cases m.dev_fee_recipient with
  | none => rfl
  | some r =>
    simp only [isSome_some, if_true]
    split_ifs with h
    · rfl
    · exact (Nat.eq_zero_of_not_pos h).symm

theorem devOutput_pos {paid : U64} : ∀ o ∈ m.devOutput paid, 0 < o.value.toNat := by
  unfold devOutput
  intro o ho
  split at ho
  · split_ifs at ho with h
    · rw [mem_singleton.mp ho]
      exact h
    · exact absurd ho not_mem_nil
  · exact absurd ho not_mem_nil

/-! ## One block -/

variable (m) in
/-- The dev fee a block pays and carries on, from its inputs. -/
def devFeeOf (b : CoinbaseInput H) (parent : CoinbaseParent) : U64 × U64 :=
  m.devFee b.daa_score parent.daa_score parent.dev_accrued (BitVec.ofNat 64 (m.cuts b))

variable (m) in
/-- The dev outputs of a block, from its inputs. -/
def devOutputs (b : CoinbaseInput H) (parent : CoinbaseParent) : List TransactionOutput :=
  m.devOutput (m.devFeeOf b parent).1

variable (m) in
/-- The dev balance does not saturate. -/
def DevFits (b : CoinbaseInput H) (parent : CoinbaseParent) : Prop :=
  m.dev_fee_accrual_activation.isActive b.daa_score → parent.dev_accrued.toNat + m.cuts b < 2 ^ 64

/-- What the expected coinbase of a block does with the rewards and the carried balances. -/
structure CoinbaseSpec (b : CoinbaseInput H) (parent : CoinbaseParent)
    (t : CoinbaseTransactionTemplate H) (miner : List TransactionOutput) : Prop where
  /-- The outputs are the miner outputs and then the dev outputs. -/
  outputs : t.tx.outputs = miner ++ m.devOutputs b parent
  /-- No miner output is zero. -/
  positive : ∀ o ∈ miner, 0 < o.value.toNat
  /-- Miner outputs and slot are what is issued less the cuts, and the parent's slot. -/
  miner_total : outputTotal miner + t.miner_accrual.amount.toNat + m.cuts b =
    b.issued + if m.miner_accrual_activation.isActive b.daa_score
      then parent.miner_accrual.amount.toNat else 0
  /-- The carried dev balance. -/
  dev_accrued : t.dev_accrued = (m.devFeeOf b parent).2
  /-- The cuts fit a word. -/
  cuts_lt : m.cuts b < 2 ^ 64
  /-- Nothing is kept in the slot before accrual activates. -/
  inactive : m.miner_accrual_activation.isActive b.daa_score = false → t.miner_accrual = .default

theorem expectedCoinbase_spec (hok : m.expectedCoinbaseTransaction b parent = .ok t) :
    ∃ miner, m.CoinbaseSpec b parent t miner := by
  unfold expectedCoinbaseTransaction at hok
  simp only [bind_eq_ok_iff] at hok
  obtain ⟨acc, hacc, ⟨outputs, slot⟩, hminer, payload, -, heq⟩ := hok
  obtain ⟨hissued, hcuts, hpos⟩ := collectRewards_spec hacc
  obtain ⟨hsum, houts, hinact⟩ := minerOutputs_spec hminer hpos
  -- The loop's dev balance is the word of the cuts.
  have haccum : acc.dev_fee_accum = BitVec.ofNat 64 (m.cuts b) := by
    rw [← hcuts, ofNat_toNat, setWidth_eq]
  obtain rfl := ok.inj heq
  rw [haccum]
  refine ⟨outputs, rfl, houts, ?_, rfl, ?_, hinact⟩
  · simp only
    omega
  · rw [← hcuts]
    exact acc.dev_fee_accum.isLt

theorem subsidyShares_zero (b : CoinbaseInput H) : subsidyShares b (fun _ => 0) = 0 := by
  simp [subsidyShares]

theorem cuts_eq_zero (hzero : ∀ subsidy, (m.cutAt b.daa_score subsidy).toNat = 0) :
    m.cuts b = 0 := by
  have hcut : m.cutOf b = fun _ => 0 := by
    funext h
    unfold cutOf
    cases b.mergeset_rewards h with
    | none => rfl
    | some r => exact hzero r.subsidy
  rw [cuts, hcut, subsidyShares_zero]

theorem cuts_of_none (hrec : m.dev_fee_recipient = none) (b : CoinbaseInput H) : m.cuts b = 0 :=
  cuts_eq_zero fun subsidy => by simp [cutAt, devFeeCut, hrec]

/-- A block's dev outputs and carried dev balance are its cuts, and the parent's balance once
accrual is active. Without a recipient there must be no balance. -/
theorem devOutputs_total (hcuts : m.cuts b < 2 ^ 64) (hfit : m.DevFits b parent)
    (hrec : m.dev_fee_recipient = none → parent.dev_accrued.toNat = 0) :
    outputTotal (m.devOutputs b parent) + (m.devFeeOf b parent).2.toNat =
      m.cuts b + if m.dev_fee_accrual_activation.isActive b.daa_score
        then parent.dev_accrued.toNat else 0 := by
  have hword : (BitVec.ofNat 64 (m.cuts b)).toNat = m.cuts b := by
    rw [toNat_ofNat, Nat.mod_eq_of_lt hcuts]
  have hspec := m.devFee_spec b.daa_score parent.daa_score parent.dev_accrued
    (BitVec.ofNat 64 (m.cuts b)) (by rw [hword]; exact hfit)
  rw [devOutputs, outputTotal_devOutput]
  unfold devFeeOf
  cases hr : m.dev_fee_recipient with
  | some r =>
    simp only [isSome_some, if_true]
    omega
  | none =>
    have hzero := hrec hr
    have hnone := cuts_of_none hr b
    split_ifs at hspec ⊢ <;> omega

/-- One block conserves value: its outputs and the balances it carries on are what it issues and
the balances that reached it. -/
theorem CoinbaseSpec.conserves {miner : List TransactionOutput}
    (h : m.CoinbaseSpec b parent t miner) (hfit : m.DevFits b parent)
    (hrec : m.dev_fee_recipient = none → parent.dev_accrued.toNat = 0) :
    outputTotal t.tx.outputs + t.dev_accrued.toNat + t.miner_accrual.amount.toNat = b.issued +
        (if m.dev_fee_accrual_activation.isActive b.daa_score then parent.dev_accrued.toNat
          else 0) +
        (if m.miner_accrual_activation.isActive b.daa_score then parent.miner_accrual.amount.toNat
          else 0) := by
  have hdev := devOutputs_total h.cuts_lt hfit hrec
  have hminer := h.miner_total
  rw [h.outputs, outputTotal_append, h.dev_accrued]
  omega

theorem CoinbaseSpec.outputs_pos {miner : List TransactionOutput}
    (h : m.CoinbaseSpec b parent t miner) : ∀ o ∈ t.tx.outputs, 0 < o.value.toNat := by
  rw [h.outputs]
  exact forall_mem_append.mpr ⟨h.positive, devOutput_pos⟩

theorem cuts_eq_floorCuts (hrec : m.dev_fee_recipient.isSome)
    (hperm : m.dev_fee_permille.toNat ≤ 1000) (b : CoinbaseInput H) : m.cuts b = m.floorCuts b := by
  have hcut : m.cutOf b = fun h => if m.dev_fee_end_activation.isActive b.daa_score then 0
      else subsidyOf b.mergeset_rewards h * m.dev_fee_permille.toNat / 1000 := by
    funext h
    unfold cutOf subsidyOf
    cases b.mergeset_rewards h with
    | none => simp
    | some r =>
      have hle : r.subsidy.toNat * m.dev_fee_permille.toNat / 1000 ≤ r.subsidy.toNat := by
        have := Nat.mul_le_mul_left r.subsidy.toNat hperm
        omega
      simp only [elim_some, cutAt, devFeeCut, hrec, Bool.true_and, decide_eq_true_eq]
      split_ifs with hend hzero
      · rfl
      · rw [toNat_ofNat, Nat.mod_eq_of_lt (by omega)]
      · rw [show m.dev_fee_permille.toNat = 0 by omega, Nat.mul_zero]
        rfl
  rw [cuts, floorCuts, hcut]
  split_ifs with hend
  · exact subsidyShares_zero b
  · rfl

end CoinbaseManager

/-! ## Chains -/

/-- A block of a coinbase chain: what its parent handed on, its inputs and its coinbase. -/
structure CoinbaseStep (H : Type) where
  parent : CoinbaseParent
  input : CoinbaseInput H
  template : CoinbaseTransactionTemplate H

/-- What a block hands on to the next one. -/
def CoinbaseStep.tip (s : CoinbaseStep H) : CoinbaseParent :=
  { daa_score := s.input.daa_score
    dev_accrued := s.template.dev_accrued
    miner_accrual := s.template.miner_accrual }

namespace CoinbaseManager

variable (m : CoinbaseManager)

/-- The coinbases of a chain above `tip`: DAA scores do not decrease, each coinbase is the expected
one for what the block before handed on, and no dev balance saturates. -/
def IsCoinbaseChain : CoinbaseParent → List (CoinbaseStep H) → Prop
  | _, [] => True
  | tip, s :: steps =>
    s.parent = tip ∧ tip.daa_score.toNat ≤ s.input.daa_score.toNat ∧
      m.expectedCoinbaseTransaction s.input s.parent = .ok s.template ∧
      m.DevFits s.input s.parent ∧ IsCoinbaseChain s.tip steps

/-- What the last block of a chain above `tip` hands on. -/
def lastTip (tip : CoinbaseParent) : List (CoinbaseStep H) → CoinbaseParent
  | [] => tip
  | s :: steps => lastTip s.tip steps

/-- A balance is carried only where its accrual is active. -/
structure Carried (tip : CoinbaseParent) : Prop where
  dev : m.dev_fee_accrual_activation.isActive tip.daa_score = false → tip.dev_accrued.toNat = 0
  slot : m.miner_accrual_activation.isActive tip.daa_score = false →
    tip.miner_accrual.amount.toNat = 0

variable {m}

/-- A balance carried to a block counts whether or not its accrual is active there: where it is
not, it was not active at the parent either and the balance is zero. -/
theorem carried_eq {a : ForkActivation} {d d' : U64} {balance : ℕ} (hle : d.toNat ≤ d'.toNat)
    (hzero : a.isActive d = false → balance = 0) :
    (if a.isActive d' then balance else 0) = balance := by
  split_ifs with hact
  · rfl
  · refine (hzero ?_).symm
    by_contra hd
    exact hact (ForkActivation.isActive_mono hle (by simpa using hd))

variable {tip : CoinbaseParent} {s : CoinbaseStep H}

/-- One step of a chain: value and dev value are conserved, and balances are carried only where
their accrual is active. -/
theorem step_spec (hrec : m.dev_fee_recipient.isSome)
    (htip : m.Carried tip) (hparent : s.parent = tip)
    (hle : tip.daa_score.toNat ≤ s.input.daa_score.toNat)
    (hok : m.expectedCoinbaseTransaction s.input s.parent = .ok s.template)
    (hfit : m.DevFits s.input s.parent) :
    m.Carried s.tip ∧ outputTotal s.template.tx.outputs + s.tip.dev_accrued.toNat +
          s.tip.miner_accrual.amount.toNat =
        s.input.issued + tip.dev_accrued.toNat + tip.miner_accrual.amount.toNat ∧
      outputTotal (m.devOutputs s.input s.parent) + s.tip.dev_accrued.toNat =
        m.cuts s.input + tip.dev_accrued.toNat := by
  subst hparent
  obtain ⟨miner, hspec⟩ := expectedCoinbase_spec hok
  have hnone : m.dev_fee_recipient = none → s.parent.dev_accrued.toNat = 0 := fun h => by
    rw [h] at hrec
    cases hrec
  have hcons := hspec.conserves hfit hnone
  have hdev := devOutputs_total hspec.cuts_lt hfit hnone
  rw [carried_eq hle htip.dev, carried_eq hle htip.slot] at hcons
  rw [carried_eq hle htip.dev, ← hspec.dev_accrued] at hdev
  refine ⟨⟨fun hact => ?_, fun hact => ?_⟩, hcons, hdev⟩
  · have hzero : s.template.dev_accrued = 0 := by
      rw [hspec.dev_accrued]
      exact devFee_inactive hact
    simp only [CoinbaseStep.tip, hzero]
    rfl
  · have hzero : s.template.miner_accrual = .default := hspec.inactive hact
    simp only [CoinbaseStep.tip, hzero]
    rfl

theorem chain_conserves (hrec : m.dev_fee_recipient.isSome)
    {steps : List (CoinbaseStep H)} (htip : m.Carried tip) (hchain : m.IsCoinbaseChain tip steps) :
    (steps.map fun s => outputTotal s.template.tx.outputs).sum +
          (lastTip tip steps).dev_accrued.toNat + (lastTip tip steps).miner_accrual.amount.toNat =
        (steps.map (·.input.issued)).sum + tip.dev_accrued.toNat + tip.miner_accrual.amount.toNat ∧
      (steps.map fun s => outputTotal (m.devOutputs s.input s.parent)).sum +
          (lastTip tip steps).dev_accrued.toNat =
        (steps.map fun s => m.cuts s.input).sum + tip.dev_accrued.toNat := by
  induction steps generalizing tip with
  | nil => simp [lastTip]
  | cons s steps ih =>
    obtain ⟨hparent, hle, hok, hfit, hrest⟩ := hchain
    obtain ⟨hcarried, hvalue, hdev⟩ := step_spec hrec htip hparent hle hok hfit
    obtain ⟨hvalue', hdev'⟩ := ih hcarried hrest
    simp only [map_cons, sum_cons, lastTip]
    omega

theorem cuts_ended {b : CoinbaseInput H} (hend : m.dev_fee_end_activation.isActive b.daa_score) :
    m.cuts b = 0 := cuts_eq_zero fun subsidy => by simp [cutAt, hend]

/-- From the dev-fee end on a block carries no dev balance, and pays none if none reaches it. -/
theorem ended_spec (hok : m.expectedCoinbaseTransaction s.input s.parent = .ok s.template)
    (hend : m.dev_fee_end_activation.isActive s.input.daa_score) :
    s.template.dev_accrued = 0 ∧
      (s.parent.dev_accrued = 0 → m.devOutputs s.input s.parent = []) := by
  obtain ⟨miner, hspec⟩ := expectedCoinbase_spec hok
  refine ⟨?_, fun hzero => ?_⟩
  · rw [hspec.dev_accrued, devFeeOf, devFee_ended hend]
  · have hpaid : (m.devFeeOf s.input s.parent).1 = 0 := by
      unfold devFeeOf devFee
      rw [cuts_ended hend, hzero]
      split_ifs <;> rfl
    rw [devOutputs, hpaid, devOutput]
    cases m.dev_fee_recipient <;> rfl

/-- Above a block at or after the dev-fee end that carries nothing, nothing is carried and no dev
output is paid. -/
theorem chain_ended {steps : List (CoinbaseStep H)}
    (hchain : m.IsCoinbaseChain tip steps) (hend : m.dev_fee_end_activation.isActive tip.daa_score)
    (hzero : tip.dev_accrued = 0) :
    ∀ s ∈ steps, s.template.dev_accrued = 0 ∧ m.devOutputs s.input s.parent = [] := by
  induction steps generalizing tip with
  | nil => exact fun s hs => absurd hs not_mem_nil
  | cons s steps ih =>
    obtain ⟨rfl, hle, hok, -, hrest⟩ := hchain
    have hends := ForkActivation.isActive_mono hle hend
    obtain ⟨hdev, hpay⟩ := ended_spec hok hends
    have hlater := ih hrest hends hdev
    intro s' hs'
    rcases mem_cons.mp hs' with rfl | hs'
    · exact ⟨hdev, hpay hzero⟩
    · exact hlater s' hs'

/-- The blocks after a block of a chain are a chain above it, and its coinbase is the expected
one. -/
theorem IsCoinbaseChain.split {pre post : List (CoinbaseStep H)}
    (hchain : m.IsCoinbaseChain tip (pre ++ s :: post)) :
    m.expectedCoinbaseTransaction s.input s.parent = .ok s.template ∧
      m.IsCoinbaseChain s.tip post := by
  induction pre generalizing tip with
  | nil =>
    obtain ⟨-, -, hok, -, hrest⟩ := hchain
    exact ⟨hok, hrest⟩
  | cons p pre ih =>
    obtain ⟨-, -, -, -, hrest⟩ := hchain
    exact ih hrest

/-- A manager with a five percent dev fee that accrues from the start, and a miner slot from DAA
score 5. -/
def sample : CoinbaseManager where
  coinbase_payload_script_public_key_max_len := 150
  toccata_activation := ⟨0⟩
  dev_fee_permille := 50
  dev_fee_recipient := some [7]
  dev_fee_accrual_activation := ⟨0⟩
  dev_fee_payout_interval := 10
  dev_fee_end_activation := ⟨1000⟩
  miner_accrual_payout_interval := 100
  miner_accrual_activation := ⟨5⟩
  calc_block_subsidy := fun _ => 1000
  dev_fee_payout_interval_pos := by decide
  miner_accrual_payout_interval_pos := by decide

/-- A block at `daa` with one merged blue that earned a subsidy of 1000 and fees of 10. -/
def sampleInput (daa : U64) : CoinbaseInput ℕ where
  daa_score := daa
  miner_data := { script_public_key := .default, extra_data := [] }
  ghostdag_data :=
    { blue_score := daa, selected_parent := 0, mergeset_blues := [1], mergeset_reds := [] }
  mergeset_rewards := fun _ => some ⟨1000, 10, { version := 0, script := [1] }⟩
  mergeset_non_daa := fun _ => false
  shielded_commitment := 0

end CoinbaseManager

end Zkas
