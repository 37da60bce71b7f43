import Zkas.Consensus.Instance
import Zkas.Consensus.UtxoValidation

/-!
# The growth of the shielded pool

Three accountings meet in the pool-delta check: the fee each source block keeps after the dropped
spends are deducted (`calculateUtxoState_spec`), the coinbase built from these fees with its two
carried balances, and the ledger that collected the fees of the applied spends. -/

namespace Zkas

open ValidatedTransaction ShieldedTx CoinbaseManager

open Function (update)
open Word List Option Except

variable {H N G : Type}

/-! ## Fees by source -/

section

variable [DecidableEq H]

/-- The fees of the transactions that come from a block. -/
def feesFrom (h : H) (txs : List (ShieldedTx H N × H)) : ℕ :=
  (txs.map fun p => if p.2 = h then p.1.fee.toNat else 0).sum

theorem feesFrom_append (h : H) (xs ys : List (ShieldedTx H N × H)) :
    feesFrom h (xs ++ ys) = feesFrom h xs + feesFrom h ys := by
  rw [feesFrom, map_append, sum_append]
  rfl

variable {txs : List (ShieldedTx H N × H)}

theorem feesFrom_eq_sum {h : H} (hsrc : ∀ p ∈ txs, p.2 = h) :
    feesFrom h txs = (txs.map (·.1.fee.toNat)).sum := by
  have hmap : (txs.map fun p => if p.2 = h then p.1.fee.toNat else 0) =
      txs.map (·.1.fee.toNat) := map_congr_left fun p hp => if_pos (hsrc p hp)
  rw [feesFrom, hmap]

theorem feesFrom_eq_zero {h : H} (hsrc : ∀ p ∈ txs, p.2 ≠ h) :
    feesFrom h txs = 0 := by
  have hmap : (txs.map fun p => if p.2 = h then p.1.fee.toNat else 0) = txs.map fun _ => 0 :=
    map_congr_left fun p hp => if_neg (hsrc p hp)
  rw [feesFrom, hmap, map_const', sum_replicate, smul_zero]

/-- The fees of transactions whose sources are among distinct blocks, block by block. -/
theorem sum_feesFrom {hashes : List H} (hnodup : hashes.Nodup) (hsrc : ∀ p ∈ txs, p.2 ∈ hashes) :
    (hashes.map fun h => feesFrom h txs).sum = (txs.map (·.1.fee.toNat)).sum := by
  induction txs with
  | nil => simp [feesFrom]
  | cons p txs ih =>
    have hrest := ih fun q hq => hsrc q (mem_cons_of_mem _ hq)
    have hone : (hashes.map fun h => if p.2 = h then p.1.fee.toNat else 0).sum = p.1.fee.toNat := by
      rw [← sum_toFinset _ hnodup, Finset.sum_ite_eq,
        if_pos (mem_toFinset.mpr (hsrc p mem_cons_self))]
    have hsplit : (hashes.map fun h => feesFrom h (p :: txs)) =
        hashes.map fun h => (if p.2 = h then p.1.fee.toNat else 0) + feesFrom h txs := rfl
    rw [hsplit, sum_map_add, hone, hrest, map_cons, sum_cons]

end

/-! ## Collecting the mergeset -/

/-- The fee of a transparent transaction. -/
def ValidatedTransaction.transparentFee : ValidatedTransaction H → ℕ
  | .transparent fee => fee.toNat
  | .shielded _ _ => 0

/-- The transparent fees of a merged block. -/
def MergedBlock.transparentFees (b : MergedBlock H) : ℕ :=
  (b.transactions.map (·.transparentFee)).sum

/-- What accepting the transactions of a block collected: the new shielded transactions burn
nothing, and the fees are the transparent ones and theirs. -/
structure CollectSpec (block : H) (transparent : ℕ) (acc acc' : U64 × List (ShieldedTx H N × H))
    (new : List (ShieldedTx H N)) : Prop where
  collected : acc'.2 = acc.2 ++ new.map (·, block)
  burns : ∀ stx ∈ new, stx.burn = none
  fees : acc'.1.toNat = acc.1.toNat + transparent + (new.map (·.fee.toNat)).sum

section

variable {T : NoteTree H N} {block : H} {acc acc' : U64 × List (ShieldedTx H N × H)}
  {tx : ValidatedTransaction H} {txs : List (ValidatedTransaction H)}

theorem acceptTransaction_eq_ok (h : acceptTransaction T block acc tx = .ok acc') :
    CollectSpec block tx.transparentFee acc acc' (tx.offered T) := by
  unfold acceptTransaction at h
  rw [bind_eq_ok_iff] at h
  obtain ⟨fee, hfee, h⟩ := h
  have hadd := checkedAdd_eq_some.mp (okOr_eq_ok.mp hfee)
  cases tx with
  | transparent f =>
    obtain rfl := ok.inj h
    refine ⟨(append_nil _).symm, fun _ hp => absurd hp not_mem_nil, ?_⟩
    simpa [offered, transparentFee,
      calculatedFee] using hadd
  | shielded bundle nonneg =>
    cases hbundle : fromBundle T bundle with
    | ok stx =>
      simp only [hbundle] at h
      obtain rfl := ok.inj h
      obtain ⟨hstx, hburn, -⟩ := fromBundle_eq_ok hbundle
      rw [offered, hbundle]
      refine ⟨rfl, fun p hp => mem_singleton.mp hp ▸ hburn, ?_⟩
      change _ = _ + _ + ([stx].map (·.fee.toNat)).sum
      rw [map_singleton, sum_singleton, hstx]
      exact hadd
    | error e =>
      simp only [hbundle] at h
      rw [bind_eq_ok_iff] at h
      obtain ⟨fee', hfee', h⟩ := h
      obtain rfl := ok.inj h
      have hsub := checkedSub_eq_some.mp (okOr_eq_ok.mp hfee')
      rw [offered, hbundle]
      refine ⟨(append_nil _).symm, fun _ hp => absurd hp not_mem_nil, ?_⟩
      change _ = _ + _ + ([].map fun stx : ShieldedTx H N => stx.fee.toNat).sum
      simp only [calculatedFee, transparentFee, map_nil,
        sum_nil] at hadd hsub ⊢
      omega

theorem acceptTransactions_eq_ok (h : txs.foldlM (acceptTransaction T block) acc = .ok acc') :
    CollectSpec block (txs.map (·.transparentFee)).sum acc acc' (txs.flatMap (·.offered T)) := by
  induction txs generalizing acc with
  | nil =>
    obtain rfl := ok.inj h
    exact ⟨(append_nil _).symm, fun _ hp => absurd hp not_mem_nil, rfl⟩
  | cons tx txs ih =>
    rw [foldlM_cons, bind_eq_ok_iff] at h
    obtain ⟨acc₁, hfirst, hrest⟩ := h
    have hspec₁ := acceptTransaction_eq_ok hfirst
    have hspec₂ := ih hrest
    have hfees₁ := hspec₁.fees
    have hfees₂ := hspec₂.fees
    rw [flatMap_cons]
    refine ⟨?_, forall_mem_append.mpr ⟨hspec₁.burns, hspec₂.burns⟩, ?_⟩
    · rw [hspec₂.collected, hspec₁.collected, append_assoc, map_append]
    · rw [map_cons, sum_cons, map_append, sum_append]
      omega

theorem exists_acceptTransaction (T : NoteTree H N) (block : H)
    (hfit : acc.1.toNat + tx.calculatedFee.toNat < 2 ^ 64) :
    ∃ acc', acceptTransaction T block acc tx = .ok acc' ∧
      acc'.1.toNat ≤ acc.1.toNat + tx.calculatedFee.toNat := by
  obtain ⟨fee₁, hadd, hfee₁⟩ := exists_checkedAdd hfit
  unfold acceptTransaction
  rw [hadd, okOr, ok_bind]
  cases tx with
  | transparent f => exact ⟨(fee₁, acc.2), rfl, hfee₁.le⟩
  | shielded bundle nonneg =>
    cases hbundle : fromBundle T bundle with
    | ok stx => exact ⟨(fee₁, acc.2 ++ [(stx, block)]), by simp only [hbundle]; rfl, hfee₁.le⟩
    | error e =>
      -- The fee is taken off again.
      simp only [calculatedFee] at hfee₁ ⊢
      have hle : bundle.value_balance.toNat ≤ fee₁.toNat := by omega
      obtain ⟨fee₂, hsub, hfee₂⟩ := exists_checkedSub hle
      exact ⟨(fee₂, acc.2), by simp only [hbundle, hsub]; rfl, by simp only; omega⟩

theorem exists_acceptTransactions (T : NoteTree H N) (block : H)
    (acc : U64 × List (ShieldedTx H N × H))
    (hfit : acc.1.toNat + (txs.map (·.calculatedFee.toNat)).sum < 2 ^ 64) :
    ∃ acc', txs.foldlM (acceptTransaction T block) acc = .ok acc' := by
  induction txs generalizing acc with
  | nil => exact ⟨acc, rfl⟩
  | cons tx txs ih =>
    rw [map_cons, sum_cons] at hfit
    have hfirst : acc.1.toNat + tx.calculatedFee.toNat < 2 ^ 64 := by omega
    obtain ⟨acc₁, hok₁, hle⟩ := exists_acceptTransaction T block hfirst
    obtain ⟨acc₂, hok₂⟩ := ih acc₁ (by omega)
    exact ⟨acc₂, by rw [foldlM_cons, hok₁, ok_bind, hok₂]⟩

end

/-- A merged block without transparent fees whose fees fit a word. -/
structure MergedBlock.Plain (b : MergedBlock H) : Prop where
  free : ∀ fee, .transparent fee ∈ b.transactions → fee = 0
  fits : (b.transactions.map (·.calculatedFee.toNat)).sum < 2 ^ 64

theorem MergedBlock.Plain.transparentFees {b : MergedBlock H} (h : b.Plain) :
    b.transparentFees = 0 := by
  refine sum_eq_zero fun n hn => ?_
  obtain ⟨tx, htx, rfl⟩ := mem_map.mp hn
  cases tx with
  | transparent fee =>
    rw [h.free fee htx]
    rfl
  | shielded bundle nonneg => rfl

section

variable [DecidableEq H] {rewards : H → Option BlockRewardData} {b h : H} {r : BlockRewardData}
  {merged : List (MergedBlock H)} {T : NoteTree H N} {acc acc' : MergeState H N}

theorem isSome_update (hh : h ≠ b → (rewards h).isSome) : (update rewards b (some r) h).isSome := by
  by_cases heq : h = b
  · rw [heq, Function.update_self, isSome_some]
  · rw [Function.update_of_ne heq]
    exact hh heq

theorem feesOf_update_self : feesOf (update rewards b (some r)) b = r.total_fees.toNat := by
  rw [feesOf, Function.update_self, elim_some]

theorem feesOf_update_of_ne (hne : h ≠ b) :
    feesOf (update rewards b (some r)) h = feesOf rewards h := by
  rw [feesOf, Function.update_of_ne hne, feesOf]

/-- What the merged blocks have contributed: every one has a reward, whose fees are the transparent
ones and those of its shielded transactions, and every shielded transaction comes from one of them
and burns nothing. -/
structure MergeSpec (merged : List (MergedBlock H)) (rewards : H → Option BlockRewardData)
    (txs : List (ShieldedTx H N × H)) : Prop where
  rewarded : ∀ b ∈ merged, (rewards b.hash).isSome
  fees : ∀ b ∈ merged, feesOf rewards b.hash = b.transparentFees + feesFrom b.hash txs
  sources : ∀ p ∈ txs, p.2 ∈ merged.map (·.hash) ∧ p.1.burn = none

theorem mergeBlock_eq_ok {b : MergedBlock H}
    (hacc : MergeSpec merged acc.mergeset_rewards acc.shielded_txs)
    (hnew : b.hash ∉ merged.map (·.hash)) (h : mergeBlock T acc b = .ok acc') :
    MergeSpec (merged ++ [b]) acc'.mergeset_rewards acc'.shielded_txs := by
  obtain ⟨⟨fee, txs⟩, hfold, h⟩ := bind_eq_ok_iff.mp h
  obtain rfl := ok.inj h
  have hspec := acceptTransactions_eq_ok hfold
  obtain ⟨new, hcollected, hsources, hfee⟩ : ∃ new, txs = acc.shielded_txs ++ new ∧
      (∀ p ∈ new, p.2 = b.hash ∧ p.1.burn = none) ∧
      fee.toNat = b.transparentFees + (new.map (·.1.fee.toNat)).sum := by
    refine ⟨_, hspec.collected, fun p hp => ?_, ?_⟩
    · obtain ⟨stx, hstx, rfl⟩ := mem_map.mp hp
      exact ⟨rfl, hspec.burns stx hstx⟩
    · have hfees : fee.toNat = 0 + b.transparentFees + _ := hspec.fees
      rw [List.map_map, hfees, Nat.zero_add]
      rfl
  have hne : ∀ x ∈ merged, x.hash ≠ b.hash := fun x hx heq => hnew (heq ▸ mem_map_of_mem hx)
  rw [hcollected]
  refine ⟨forall_mem_append.mpr ⟨fun x hx => isSome_update fun _ => hacc.rewarded x hx,
      forall_mem_singleton.mpr (isSome_update fun hne => absurd rfl hne)⟩,
    forall_mem_append.mpr ⟨fun x hx => ?_, forall_mem_singleton.mpr ?_⟩,
    forall_mem_append.mpr ⟨fun p hp => ?_, fun p hp => ?_⟩⟩
  · have hown : feesFrom x.hash new = 0 := feesFrom_eq_zero fun p hp hsrc =>
      hne x hx (hsrc.symm.trans (hsources p hp).1)
    rw [feesOf_update_of_ne (hne x hx), hacc.fees x hx, feesFrom_append, hown, Nat.add_zero]
  · have hold : feesFrom b.hash acc.shielded_txs = 0 := feesFrom_eq_zero fun p hp hsrc =>
      hnew (hsrc ▸ (hacc.sources p hp).1)
    rw [feesOf_update_self, feesFrom_append, hold, Nat.zero_add,
      feesFrom_eq_sum fun p hp => (hsources p hp).1]
    exact hfee
  · rw [map_append]
    exact (hacc.sources p hp).imp_left (mem_append_left _)
  · rw [map_append, (hsources p hp).1]
    exact ⟨mem_append_right _ (mem_singleton_self _), (hsources p hp).2⟩

theorem mergeBlocks_eq_ok {merging : List (MergedBlock H)}
    (hacc : MergeSpec merged acc.mergeset_rewards acc.shielded_txs)
    (hnodup : ((merged ++ merging).map (·.hash)).Nodup)
    (h : merging.foldlM (mergeBlock T) acc = .ok acc') :
    MergeSpec (merged ++ merging) acc'.mergeset_rewards acc'.shielded_txs := by
  induction merging generalizing acc merged with
  | nil =>
    obtain rfl := ok.inj h
    rwa [append_nil]
  | cons b merging ih =>
    rw [foldlM_cons, bind_eq_ok_iff] at h
    obtain ⟨acc₁, hfirst, hrest⟩ := h
    have hnew : b.hash ∉ merged.map (·.hash) := fun hmem => by
      rw [map_append, nodup_append'] at hnodup
      exact hnodup.2.2 hmem mem_cons_self
    rw [append_cons] at hnodup ⊢
    exact ih (mergeBlock_eq_ok hacc hnew hfirst) hnodup hrest

/-- The merged blocks have contributed their shielded transactions, in order. -/
theorem mergeBlocks_collected {merging : List (MergedBlock H)}
    (h : merging.foldlM (mergeBlock T) acc = .ok acc') :
    acc'.shielded_txs.map (·.1) = acc.shielded_txs.map (·.1) ++ offeredTxs T merging := by
  induction merging generalizing acc with
  | nil =>
    obtain rfl := ok.inj h
    exact (append_nil _).symm
  | cons b merging ih =>
    rw [foldlM_cons, bind_eq_ok_iff] at h
    obtain ⟨acc₁, hfirst, hrest⟩ := h
    obtain ⟨⟨fee, txs⟩, hfold, hfirst⟩ := bind_eq_ok_iff.mp hfirst
    obtain rfl := ok.inj hfirst
    have hcollected : txs = _ := (acceptTransactions_eq_ok hfold).collected
    rw [ih hrest, hcollected, offeredTxs, offeredTxs, flatMap_cons, ← append_assoc, map_append,
      List.map_map]
    exact congrArg (_ ++ · ++ _) (map_id _)

/-- Deducting the fees of the dropped transactions leaves those of the kept ones: no deduction
underflows. `done` are the kept transactions already passed. -/
theorem deductDropped_spec (hnodup : (merged.map (·.hash)).Nodup) {txs : List (ShieldedTx H N × H)}
    {os : List PartitionOutcome} (hlen : os.length = txs.length)
    {done : List (ShieldedTx H N × H)} (hspec : MergeSpec merged rewards (done ++ txs)) :
    ∃ rewards', deductDropped txs os rewards = .ok rewards' ∧
      MergeSpec merged rewards' (done ++ keptTxs txs os) := by
  induction txs generalizing os rewards done with
  | nil => exact ⟨rewards, by rw [deductDropped]; simp, by simpa [keptTxs] using hspec⟩
  | cons p txs ih =>
    obtain ⟨stx, source⟩ := p
    obtain ⟨o, os, rfl⟩ := exists_cons_of_length_eq_add_one hlen
    have hlen' : os.length = txs.length := Nat.succ.inj hlen
    rw [deductDropped, keptTxs]
    split_ifs with hkept
    · rw [append_cons] at hspec ⊢
      exact ih hlen' hspec
    · obtain ⟨hmem, -⟩ := hspec.sources (stx, source) (by simp)
      obtain ⟨b, hb, rfl⟩ := mem_map.mp hmem
      obtain ⟨reward, hreward⟩ := isSome_iff_exists.mp (hspec.rewarded b hb)
      -- The source's fees are the sum over its transactions, this one among them.
      have hfees : reward.total_fees.toNat =
          stx.fee.toNat + (b.transparentFees + feesFrom b.hash (done ++ txs)) := by
        have h := hspec.fees b hb
        rw [feesOf, hreward, feesFrom_append] at h
        rw [feesFrom_append]
        simp only [elim_some, feesFrom, map_cons, sum_cons, if_true] at h ⊢
        omega
      obtain ⟨fees', hsub, hfees'⟩ := exists_checkedSub (a := reward.total_fees) (b := stx.fee)
        (by omega)
      have hspec' : MergeSpec merged
          (update rewards b.hash (some { reward with total_fees := fees' })) (done ++ txs) := by
        refine ⟨fun x hx => isSome_update fun _ => hspec.rewarded x hx, fun x hx => ?_,
          fun q hq => hspec.sources q ?_⟩
        · by_cases heq : x.hash = b.hash
          · rw [inj_on_of_nodup_map hnodup hx hb heq, feesOf_update_self]
            simp only
            omega
          · have hskip : feesFrom x.hash ((stx, b.hash) :: txs) = feesFrom x.hash txs := by
              simp only [feesFrom, map_cons, sum_cons, if_neg (Ne.symm heq), Nat.zero_add]
            rw [feesOf_update_of_ne heq, hspec.fees x hx, feesFrom_append, hskip, feesFrom_append]
        · exact mem_append.mpr ((mem_append.mp hq).imp_right (mem_cons_of_mem _))
      obtain ⟨rewards', hok, hspec''⟩ := ih hlen' hspec'
      refine ⟨rewards', ?_, hspec''⟩
      rw [hreward, okOr, ok_bind, hsub, okOr, ok_bind, hok]

end

variable (rewards : H → Option BlockRewardData) (non_daa : H → Bool)

/-- What a blue adds to the growth of the pool. -/
def blueShare (h : H) : ℤ := if non_daa h then -feesOf rewards h else subsidyOf rewards h

/-- What a red adds to the growth of the pool. -/
def redShare (h : H) : ℤ := if non_daa h then 0 else subsidyOf rewards h

/-- The growth of the pool a mergeset accounts for, as a sum. -/
def mergesetGrowth (g : GhostdagData H) : ℤ :=
  (g.mergeset_blues.map (blueShare rewards non_daa)).sum +
    (g.mergeset_reds.map (redShare rewards non_daa)).sum

/-- The loops of the check compute that sum when every merged block has a reward. -/
theorem mergesetDelta_eq_ok {rewards : H → Option BlockRewardData}
    {g : GhostdagData H} (hrewarded : ∀ h ∈ g.mergeset_blues ++ g.mergeset_reds,
      (rewards h).isSome) :
    mergesetDelta rewards non_daa g = .ok (mergesetGrowth rewards non_daa g) := by
  have hblue : ∀ h ∈ g.mergeset_blues, ∀ d : ℤ,
      blueDelta rewards non_daa d h = .ok (d + blueShare rewards non_daa h) := fun h hh d => by
    obtain ⟨r, hr⟩ := isSome_iff_exists.mp (hrewarded h (mem_append_left _ hh))
    unfold blueDelta blueShare feesOf subsidyOf
    rw [hr, okOr, ok_bind]
    split_ifs <;> rfl
  have hred : ∀ h ∈ g.mergeset_reds, ∀ d : ℤ,
      redDelta rewards non_daa d h = .ok (d + redShare rewards non_daa h) := fun h hh d => by
    obtain ⟨r, hr⟩ := isSome_iff_exists.mp (hrewarded h (mem_append_right _ hh))
    unfold redDelta redShare subsidyOf
    split_ifs
    · rw [add_zero]
    · rw [hr, okOr, ok_bind]
      rfl
  unfold mergesetDelta
  rw [foldlM_add hblue, ok_bind, foldlM_add hred, zero_add, mergesetGrowth]

theorem sum_blueShare (blues : List H) :
    (((blues.filter (!non_daa ·)).map fun h => subsidyOf rewards h + feesOf rewards h).sum : ℤ) =
      (blues.map (feesOf rewards)).sum + (blues.map (blueShare rewards non_daa)).sum := by
  induction blues with
  | nil => simp
  | cons h blues ih =>
    rw [map_cons, map_cons, sum_cons, sum_cons, filter_cons, blueShare]
    cases hn : non_daa h
    · simp only [Bool.not_false, if_true, map_cons, sum_cons, Bool.false_eq_true, if_false]
      omega
    · simp only [Bool.not_true, Bool.false_eq_true, if_false, if_true]
      omega

theorem sum_redShare (reds : List H) :
    ((reds.map fun h => if non_daa h then feesOf rewards h
        else subsidyOf rewards h + feesOf rewards h).sum : ℤ) =
      (reds.map (feesOf rewards)).sum + (reds.map (redShare rewards non_daa)).sum := by
  induction reds with
  | nil => simp
  | cons h reds ih =>
    rw [map_cons, map_cons, map_cons, sum_cons, sum_cons, sum_cons, redShare]
    split_ifs <;> omega

/-- A block issues the fees of its mergeset and the growth its mergeset accounts for. -/
theorem issued_eq (inp : CoinbaseInput H) : (inp.issued : ℤ) =
      ((inp.ghostdag_data.mergeset_blues ++ inp.ghostdag_data.mergeset_reds).map
        (feesOf inp.mergeset_rewards)).sum +
      mergesetGrowth inp.mergeset_rewards inp.mergeset_non_daa inp.ghostdag_data := by
  have hblues := sum_blueShare inp.mergeset_rewards inp.mergeset_non_daa
    inp.ghostdag_data.mergeset_blues
  have hreds := sum_redShare inp.mergeset_rewards inp.mergeset_non_daa
    inp.ghostdag_data.mergeset_reds
  rw [CoinbaseInput.issued, mergesetGrowth, map_append, sum_append]
  omega

/-- What verification finds: a reward per merged block, with the fees of the applied transactions in
total, all of which the transition accepts and none of which burns. -/
structure ContextSpec [DecidableEq H] (s : ShieldedStores H G) (b : ChainBlockInput H)
    (ctx : UtxoProcessingContext H N) : Prop where
  rewarded : ∀ h ∈ b.ghostdag_data.mergeset_blues ++ b.ghostdag_data.mergeset_reds,
    (ctx.mergeset_rewards h).isSome
  fees : ((b.ghostdag_data.mergeset_blues ++ b.ghostdag_data.mergeset_reds).map
    (feesOf ctx.mergeset_rewards)).sum = (ctx.shielded_txs.map (·.fee.toNat)).sum
  resolved : s.resolved ctx.shielded_txs = ctx.shielded_txs
  burns : ∀ stx ∈ ctx.shielded_txs, stx.burn = none

section

variable [DecidableEq H] {b : ChainBlockInput H}

theorem mergeset_spec {T : NoteTree H N} {acc : MergeState H N}
    (hmerge :
      b.merged.foldlM (mergeBlock T) { mergeset_rewards := fun _ => none, shielded_txs := [] } =
      .ok acc) : MergeSpec b.merged acc.mergeset_rewards acc.shielded_txs := by
  have hstart : MergeSpec ([] : List (MergedBlock H)) (fun _ => none)
      ([] : List (ShieldedTx H N × H)) := ⟨by simp, by simp, by simp⟩
  exact mergeBlocks_eq_ok hstart b.merged_nodup hmerge

theorem exists_deductDropped {C : Crypto H N G} (s : ShieldedStores H G)
    (anchor_final : ShieldedTx H N → Bool) {acc : MergeState H N}
    (hmerge :
      b.merged.foldlM (mergeBlock C.T) { mergeset_rewards := fun _ => none, shielded_txs := [] } =
      .ok acc) :
    ∃ rewards, deductDropped acc.shielded_txs
        (s.partitionApplied (acc.shielded_txs.map (·.1)) anchor_final) acc.mergeset_rewards =
          .ok rewards ∧
      MergeSpec b.merged rewards (keptTxs acc.shielded_txs
        (s.partitionApplied (acc.shielded_txs.map (·.1)) anchor_final)) := by
  have hlen : (s.partitionApplied (acc.shielded_txs.map (·.1)) anchor_final).length =
      acc.shielded_txs.length := by
    rw [ShieldedStores.partitionApplied, length_partitionFrom, length_map]
  have hspec : MergeSpec b.merged acc.mergeset_rewards ([] ++ acc.shielded_txs) :=
    mergeset_spec hmerge
  exact deductDropped_spec b.merged_nodup hlen hspec

/-- What `calculateUtxoState` leaves: the kept ones of the offered transactions, which burn nothing,
and a reward per merged block, whose fees are in total the transparent ones and those of the kept
transactions. -/
theorem calculateUtxoState_eq_ok {C : Crypto H N G} {s : ShieldedStores H G}
    {anchor_final : ShieldedTx H N → Bool} {ctx : UtxoProcessingContext H N}
    (h : calculateUtxoState C s anchor_final b = .ok ctx) :
    (∀ mb ∈ b.merged, (ctx.mergeset_rewards mb.hash).isSome) ∧
      (∀ tx ∈ offeredTxs C.T b.merged, tx.burn = none) ∧
      ctx.shielded_txs = keptTxs (offeredTxs C.T b.merged)
        (s.partitionApplied (offeredTxs C.T b.merged) anchor_final) ∧
      ((b.merged.map (·.hash)).map (feesOf ctx.mergeset_rewards)).sum =
        (b.merged.map (·.transparentFees)).sum + (ctx.shielded_txs.map (·.fee.toNat)).sum := by
  unfold calculateUtxoState at h
  simp only [bind_eq_ok_iff] at h
  obtain ⟨acc, hmerge, rewards, hdeduct, heq⟩ := h
  obtain rfl := ok.inj heq
  obtain ⟨rewards', hok, hspec⟩ := exists_deductDropped s anchor_final hmerge
  obtain rfl := ok.inj (hdeduct.symm.trans hok)
  rw [← show acc.shielded_txs.map (·.1) = offeredTxs C.T b.merged from mergeBlocks_collected hmerge]
  refine ⟨hspec.rewarded, fun tx htx => ?_, rfl, ?_⟩
  · obtain ⟨p, hp, rfl⟩ := mem_map.mp htx
    exact ((mergeset_spec hmerge).sources p hp).2
  · -- Sum the fees over the merged blocks, source by source.
    have hsum := sum_feesFrom b.merged_nodup fun p hp => (hspec.sources p hp).1
    have hfees := congrArg sum (map_congr_left hspec.fees)
    rw [sum_map_add] at hfees
    rw [List.map_map] at hsum ⊢
    rw [keptTxs_map, List.map_map]
    exact hfees.trans (congrArg _ hsum)

/-- `calculateUtxoState` succeeds on merged blocks without transparent fees whose fees fit, and
leaves a context with exactly the fees of the applied transactions. -/
theorem calculateUtxoState_spec (C : Crypto H N G) (s : ShieldedStores H G)
    (anchor_final : ShieldedTx H N → Bool) (hplain : ∀ mb ∈ b.merged, mb.Plain) :
    ∃ ctx, calculateUtxoState C s anchor_final b = .ok ctx ∧ ContextSpec s b ctx := by
  have hstep : ∀ mb ∈ b.merged, ∀ acc, ∃ acc', mergeBlock C.T acc mb = .ok acc' := by
    intro mb hmb acc
    have hfit : (0 : U64).toNat + (mb.transactions.map (·.calculatedFee.toNat)).sum < 2 ^ 64 := by
      simpa using (hplain mb hmb).fits
    obtain ⟨acc', hok⟩ := exists_acceptTransactions C.T mb.hash (0, acc.shielded_txs) hfit
    exact ⟨_, by rw [mergeBlock, hok]; rfl⟩
  obtain ⟨acc, hmerge⟩ :=
    exists_foldlM hstep { mergeset_rewards := fun _ => none, shielded_txs := [] }
  obtain ⟨rewards, hdeduct, -⟩ := exists_deductDropped s anchor_final hmerge
  have hok : calculateUtxoState C s anchor_final b = .ok
      { mergeset_rewards := rewards
        shielded_txs := keptTxs (acc.shielded_txs.map (·.1))
          (s.partitionApplied (acc.shielded_txs.map (·.1)) anchor_final) } := by
    rw [calculateUtxoState, hmerge, ok_bind]
    dsimp only
    rw [hdeduct]
    rfl
  obtain ⟨hrewarded, hburns, hkept, hfees⟩ := calculateUtxoState_eq_ok hok
  have hzero : (b.merged.map (·.transparentFees)).sum = 0 := by
    refine sum_eq_zero fun n hn => ?_
    obtain ⟨mb, hmb, rfl⟩ := mem_map.mp hn
    exact (hplain mb hmb).transparentFees
  rw [hzero, Nat.zero_add] at hfees
  refine ⟨_, hok, fun h hh => ?_, (b.merged_perm.map _).sum_eq.symm.trans hfees, ?_,
    fun stx hstx => ?_⟩
  · obtain ⟨mb, hmb, rfl⟩ := mem_map.mp (b.merged_perm.mem_iff.mpr hh)
    exact hrewarded mb hmb
  · exact acceptInOrder_keptTxs anchor_final _ (acc.shielded_txs.map (·.1))
  · rw [hkept] at hstx
    exact hburns stx (mem_of_mem_keptTxs hstx)

variable [CommGroupWithZero G] {C : Crypto H N G} {s : ShieldedStores H G}

omit [DecidableEq H] in
theorem coinbaseNotesFrom_values {F : CoinbaseNoteFns H N} {txid : H} {block_hash : Option H}
    {i : ℕ} {outs : List TransactionOutput} {notes : List (CoinbaseNote N)}
    (h : coinbaseNotesFrom F txid block_hash i outs = .ok notes) :
    notes.map (·.value) = outs.map (·.value) := by
  induction outs generalizing i notes with
  | nil =>
    obtain rfl := ok.inj h
    rfl
  | cons out outs ih =>
    rw [coinbaseNotesFrom] at h
    split_ifs at h
    simp only [bind_eq_ok_iff] at h
    obtain ⟨cm, -, rest, hrest, heq⟩ := h
    obtain rfl := ok.inj heq
    rw [map_cons, map_cons, ih hrest]

omit [DecidableEq H] in
theorem totalMint_buildCoinbaseMint {F : CoinbaseNoteFns H N} {tx : CoinbaseTransaction H}
    {block_hash : Option H} {mint : CoinbaseMint N}
    (h : buildCoinbaseMint F tx block_hash = .ok mint) :
    totalMint (some mint) = outputTotal tx.outputs := by
  unfold buildCoinbaseMint at h
  rw [Except.bind_eq_ok_iff] at h
  obtain ⟨notes, hnotes, heq⟩ := h
  obtain rfl := ok.inj heq
  have hvalues := congrArg (map BitVec.toNat) (coinbaseNotesFrom_values hnotes)
  rw [List.map_map, List.map_map] at hvalues
  exact congrArg sum hvalues

/-- The growth of the pool is the expected one, for a block whose coinbase has the expected outputs
and whose context has the fees of the applied transactions. -/
theorem verifyPoolDelta_eq_ok {m : CoinbaseManager} {F : CoinbaseNoteFns H N}
    {ctx : UtxoProcessingContext H N} {t : CoinbaseTransactionTemplate H} {mint : CoinbaseMint N}
    {seed : Option H} {c : ComputedBlockShielded H N G}
    (hdaa : b.parent_daa_score.toNat ≤ b.daa_score.toNat)
    (hcarried : m.Carried (s.coinbaseParent b))
    (hrec : m.dev_fee_recipient = none → (s.coinbaseParent b).dev_accrued.toNat = 0)
    (hctx : ContextSpec s b ctx)
    (hexpected : m.expectedCoinbaseTransaction (b.coinbaseInput ctx) (s.coinbaseParent b) = .ok t)
    (houtputs : b.coinbase.outputs = t.tx.outputs)
    (hfits : m.DevFits (b.coinbaseInput ctx) (s.coinbaseParent b))
    (hmint : buildCoinbaseMint F b.coinbase seed = .ok mint)
    (hcompute : s.compute C b.ghostdag_data.selected_parent (some mint) ctx.shielded_txs = .ok c) :
    verifyPoolDelta s b ctx t c = .ok () := by
  -- The coinbase: outputs and balances on, against what is issued and the balances handed on.
  obtain ⟨miner, hcoinbase⟩ := expectedCoinbase_spec hexpected
  have hdaa' : (s.coinbaseParent b).daa_score.toNat ≤ (b.coinbaseInput ctx).daa_score.toNat := hdaa
  have hconserves := hcoinbase.conserves hfits hrec
  rw [carried_eq hdaa' hcarried.dev,
    carried_eq hdaa' hcarried.slot] at hconserves
  have hminted : totalMint (some mint) = outputTotal t.tx.outputs := by
    rw [totalMint_buildCoinbaseMint hmint, houtputs]
  -- The ledger: the mint and the fees of the applied transactions.
  obtain ⟨tree, tree', supply', hspec⟩ := ShieldedStores.compute_spec hcompute
  obtain ⟨hcoinbase', hfees', -, -⟩ := hspec.totals
  have hburns : (ctx.shielded_txs.map (·.burnValue.toNat)).sum = 0 := by
    refine sum_eq_zero fun v hv => ?_
    obtain ⟨stx, hstx, rfl⟩ := mem_map.mp hv
    rw [burnValue, hctx.burns stx hstx]
    rfl
  rw [hctx.resolved, hburns, ← hctx.fees] at hfees'
  -- The mergeset: what is issued beyond the fees.
  have hissued : ((b.coinbaseInput ctx).issued : ℤ) =
      ((b.ghostdag_data.mergeset_blues ++ b.ghostdag_data.mergeset_reds).map
        (feesOf ctx.mergeset_rewards)).sum +
      mergesetGrowth ctx.mergeset_rewards b.mergeset_non_daa b.ghostdag_data := issued_eq _
  obtain ⟨minted, hsub, hminted'⟩ := exists_checkedSub (a := c.supply_totals.cumulative_coinbase)
    (b := (s.supplyTotalsAt b.ghostdag_data.selected_parent).cumulative_coinbase) (by omega)
  obtain ⟨fees, hsubf, hfees''⟩ := exists_checkedSub (a := c.supply_totals.cumulative_fees)
    (b := (s.supplyTotalsAt b.ghostdag_data.selected_parent).cumulative_fees) (by omega)
  unfold verifyPoolDelta
  simp only [hsub, hsubf, okOr, ok_bind, mergesetDelta_eq_ok b.mergeset_non_daa hctx.rewarded]
  rw [if_neg]
  · rfl
  · rw [not_not]
    omega

/-- The pool-delta check never disqualifies a block whose coinbase has the outputs of the expected
coinbase. For every block without transparent fees whose fees fit, on any stores whose balances at
the selected parent are carried only where their accrual was active, and for any anchor verdicts:
`calculateUtxoState` returns, and once the coinbase has the expected outputs, its mint is built and
the transition is computed, the growth of the pool is the expected one. -/
theorem verifyPoolDelta_never_fails (C : Crypto H N G) (F : CoinbaseNoteFns H N)
    (P : NetworkParams) (s : ShieldedStores H G) (anchor_final : ShieldedTx H N → Bool)
    (b : ChainBlockInput H) (hplain : ∀ mb ∈ b.merged, mb.Plain)
    (hdaa : b.parent_daa_score.toNat ≤ b.daa_score.toNat)
    (hcarried : P.coinbase_manager.Carried (s.coinbaseParent b))
    (hrec : P.coinbase_manager.dev_fee_recipient = none →
      (s.coinbaseParent b).dev_accrued.toNat = 0) :
    ∃ ctx, calculateUtxoState C s anchor_final b = .ok ctx ∧ ∀ t mint c,
        P.coinbase_manager.expectedCoinbaseTransaction (b.coinbaseInput ctx)
          (s.coinbaseParent b) = .ok t →
        b.coinbase.outputs = t.tx.outputs →
        P.coinbase_manager.DevFits (b.coinbaseInput ctx) (s.coinbaseParent b) →
        buildCoinbaseMint F b.coinbase (P.seedBlock b) = .ok mint →
        s.compute C b.ghostdag_data.selected_parent (some mint) ctx.shielded_txs = .ok c →
        verifyPoolDelta s b ctx t c = .ok () := by
  obtain ⟨ctx, hok, hctx⟩ := calculateUtxoState_spec C s anchor_final hplain
  refine ⟨ctx, hok, fun t mint c hexpected houtputs hfits hmint hcompute => ?_⟩
  exact verifyPoolDelta_eq_ok hdaa hcarried hrec hctx hexpected houtputs hfits hmint hcompute

end

/-! ## A block with a dropped spend -/

section

open Symbolic

/-- Parameters with both accruals active and a dev fee of five percent. -/
def sampleParams : NetworkParams where
  coinbase_manager :=
    { CoinbaseManager.sample with
      dev_fee_recipient := some (replicate 43 9)
      miner_accrual_activation := ⟨0⟩
      calc_block_subsidy := fun _ => 100 }
  shielded_coinbase_seed_activation := ⟨0⟩

/-- The script of a miner. -/
def minerScript (n : UInt8) : ScriptPublicKey := { version := 0, script := replicate 43 n }

/-- The stores of a node whose tip carries a dev balance and a miner slot. -/
def sampleStores : ShieldedStores Term ℚ :=
  { ShieldedStores.empty with
    supply_store := fun _ => some ⟨1000, 0⟩
    dev_accrued_store := fun _ => some 7
    miner_accrual_store := fun _ => some { script_public_key := minerScript 1, amount := 30 } }

/-- A bundle that spends one nullifier for a fee. -/
def sampleBundle (nullifier : ℕ) (fee : BitVec 64) : ShieldedBundle Term where
  actions := [{ nullifier := .atom nullifier, cmx := .atom 40 }]
  value_balance := fee
  anchor := .atom 0
  burn := none
  anchor_block := none

/-- A block that merges a blue and a red with conflicting spends. -/
def sampleBlock : ChainBlockInput Term where
  hash := .atom 3
  daa_score := 12
  parent_daa_score := 11
  ghostdag_data :=
    { blue_score := 5, selected_parent := .atom 1, mergeset_blues := [.atom 1],
      mergeset_reds := [.atom 2] }
  mergeset_non_daa := fun _ => false
  merged :=
    [{ hash := .atom 1, transactions := [.shielded (sampleBundle 20 10) (by decide)],
       subsidy := 100, script_public_key := minerScript 1 },
     { hash := .atom 2, transactions := [.shielded (sampleBundle 20 4) (by decide)],
       subsidy := 50, script_public_key := minerScript 2 }]
  coinbase :=
    { version := 1
      outputs := [⟨135, minerScript 1⟩]
      payload := { blue_score := 5, subsidy := 100, shielded_commitment := .atom 8,
                   miner_data := { script_public_key := minerScript 3, extra_data := [] } } }
  shielded_commitment := .atom 8
  merged_perm := List.Perm.refl _
  merged_nodup := by decide

/-- Note commitments that are the values. -/
def sampleNotes : CoinbaseNoteFns Term ℕ where
  txid _ := .atom 9
  commitment _ _ v := some v.toNat

theorem verifyPoolDelta_never_fails_sample :
    (calculateUtxoState Crypto.sample sampleStores (fun _ => true) sampleBlock >>=
        verifyExpectedUtxoState Crypto.sample sampleStores sampleParams sampleNotes
          sampleBlock).isOk ∧
      ∃ ctx, calculateUtxoState Crypto.sample sampleStores (fun _ => true) sampleBlock = .ok ctx ∧
        ∀ t mint c,
          sampleParams.coinbase_manager.expectedCoinbaseTransaction (sampleBlock.coinbaseInput ctx)
            (sampleStores.coinbaseParent sampleBlock) = .ok t →
          sampleBlock.coinbase.outputs = t.tx.outputs →
          sampleParams.coinbase_manager.DevFits (sampleBlock.coinbaseInput ctx)
            (sampleStores.coinbaseParent sampleBlock) →
          buildCoinbaseMint sampleNotes sampleBlock.coinbase (sampleParams.seedBlock sampleBlock) =
            .ok mint →
          sampleStores.compute Crypto.sample sampleBlock.ghostdag_data.selected_parent (some mint)
            ctx.shielded_txs = .ok c →
          verifyPoolDelta sampleStores sampleBlock ctx t c = .ok () := by
  refine ⟨by decide +kernel, verifyPoolDelta_never_fails Crypto.sample sampleNotes sampleParams
    sampleStores (fun _ => true) sampleBlock ?_ (by decide) ⟨by decide, by decide⟩ (by decide)⟩
  intro mb hmb
  rcases mem_cons.mp hmb with rfl | hmb
  · exact ⟨fun fee hfee => by simp at hfee, by decide⟩
  · rw [mem_singleton.mp hmb]
    exact ⟨fun fee hfee => by simp at hfee, by decide⟩

end

end Zkas
