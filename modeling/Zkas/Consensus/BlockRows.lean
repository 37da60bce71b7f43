import Zkas.Consensus.VirtualProcessor

/-!
# The rows of a block

Every per-block store is keyed by the block, so what validation reads at a block is a function of
that block's rows and of the nullifier set. `validate_congr` says so for validation, and
`commitUtxoState_spec` says what a commit does: it leaves the rows of every other block, and the
rows of the block read back as what was computed. -/

namespace Zkas

open Except

open Function (update)

variable {H N G : Type}

/-- The rows of one block. -/
structure BlockRows (H G : Type) where
  nullifier_diff : Option (List H)
  frontier : Option (FrontierState H)
  supply : Option SupplyTotals
  dev_accrued : Option U64
  miner_accrual : Option MinerAccrual
  nullifier_muhash : Option (MuHash G)
  burns : Option (List (ExitReceipt H))
  window : Option (AnchorLog H)
  entry : Option (WindowEntry H × AnchorLog H)

/-- No rows at all. -/
def BlockRows.none : BlockRows H G :=
  { nullifier_diff := .none, frontier := .none, supply := .none, dev_accrued := .none,
    miner_accrual := .none, nullifier_muhash := .none, burns := .none, window := .none,
    entry := .none }

/-- A slot as it is read back: an empty one is not written. -/
def MinerAccrual.normalize (slot : MinerAccrual) : MinerAccrual :=
  if slot.isEmpty then .default else slot

namespace ShieldedStores

/-- The rows of a block. -/
def rows (s : ShieldedStores H G) (block : H) : BlockRows H G where
  nullifier_diff := s.nullifier_diffs block
  frontier := s.tree_store block
  supply := s.supply_store block
  dev_accrued := s.dev_accrued_store block
  miner_accrual := s.miner_accrual_store block
  nullifier_muhash := s.nullifier_muhash block
  burns := s.burn_store block
  window := s.anchor_window block
  entry := s.anchor_entries block

section

variable {s s' : ShieldedStores H G} {b b' : H} (h : s.rows b = s'.rows b')
include h

theorem frontierAt_congr : s.frontierAt b = s'.frontierAt b' :=
  congrArg (fun r => r.frontier.getD .default) h

theorem supplyTotalsAt_congr : s.supplyTotalsAt b = s'.supplyTotalsAt b' :=
  congrArg (fun r => r.supply.getD .default) h

theorem devAccruedAt_congr : s.devAccruedAt b = s'.devAccruedAt b' :=
  congrArg (fun r => r.dev_accrued.getD 0) h

theorem minerAccrualAt_congr : s.minerAccrualAt b = s'.minerAccrualAt b' :=
  congrArg (fun r => r.miner_accrual.getD .default) h

theorem burnsAt_congr : s.burnsAt b = s'.burnsAt b' := congrArg (fun r => r.burns.getD []) h

theorem nullifierDiffAt_congr : s.nullifierDiffAt b = s'.nullifierDiffAt b' :=
  congrArg (fun r => r.nullifier_diff.getD []) h

theorem nullifierMuhashAt_congr [CommGroupWithZero G] :
    s.nullifierMuhashAt b = s'.nullifierMuhashAt b' :=
  congrArg (fun r => r.nullifier_muhash.getD .new) h

theorem window_congr : s.anchor_window b = s'.anchor_window b' := congrArg BlockRows.window h

theorem entry_congr : s.anchor_entries b = s'.anchor_entries b' := congrArg BlockRows.entry h

end

section

variable [DecidableEq H] [CommGroupWithZero G] {C : Crypto H N G} {D : BlockDag H}
  {P : SecurityParams} {s s' : ShieldedStores H G}
variable {current p b : H} {c : ComputedBlockShielded H N G}

section

variable (hnf : s.nullifiers = s'.nullifiers)
include hnf

theorem compute_congr {p' : H} (hfrontier : s.frontierAt p = s'.frontierAt p')
    (hsupply : s.supplyTotalsAt p = s'.supplyTotalsAt p')
    (hmuhash : s.nullifierMuhashAt p = s'.nullifierMuhashAt p')
    (hburns : s.burnsAt p = s'.burnsAt p') (coinbase : Option (CoinbaseMint N))
    (txs : List (ShieldedTx H N)) : s.compute C p coinbase txs = s'.compute C p' coinbase txs := by
  unfold compute loadTree loadSupply loadBurns
  rw [hnf, hfrontier, hsupply, hmuhash, hburns]

omit [CommGroupWithZero G] in
theorem keptOf_congr (v : BlockVerdict H N) : s.keptOf v = s'.keptOf v := by
  unfold keptOf partitionApplied
  rw [hnf]

theorem validate_congr {p' : H} (hrows : s.rows p = s'.rows p') (v : BlockVerdict H N) :
    s.validate C p v = s'.validate C p' v := by
  have hcompute := compute_congr (C := C) hnf (frontierAt_congr hrows) (supplyTotalsAt_congr hrows)
    (nullifierMuhashAt_congr hrows) (burnsAt_congr hrows) v.coinbase (s.keptOf v)
  unfold validate
  rw [hcompute, keptOf_congr hnf]

end

theorem compute_ne_panic {tree : GlobalTree C.T}
    (hload : GlobalTree.fromState C.T (s.frontierAt p) = .ok tree)
    (coinbase : Option (CoinbaseMint N)) (txs : List (ShieldedTx H N)) :
    s.compute C p coinbase txs ≠ .error .panic := by
  unfold compute loadTree
  rw [hload]
  simp only [Except.mapError, ok_bind]
  split <;> simp_all

theorem validate_ne_panic {tree : GlobalTree C.T}
    (hload : GlobalTree.fromState C.T (s.frontierAt p) = .ok tree) (v : BlockVerdict H N) :
    s.validate C p v ≠ .error .panic := by
  have hcompute := compute_ne_panic (s := s) hload v.coinbase (s.keptOf v)
  unfold validate
  split_ifs
  · cases hc : s.compute C p v.coinbase (s.keptOf v) with
    | ok c => simp [Except.mapError]
    | error e =>
      cases e with
      | err e => simp [Except.mapError, Fault.map]
      | panic => exact absurd hc hcompute
  · simp

theorem validate_eq_ok {v : BlockVerdict H N}
    (h : s.validate C p v = .ok c) : s.compute C p v.coinbase (s.keptOf v) = .ok c := by
  unfold validate at h
  split_ifs at h
  exact mapError_eq_ok.mp h

/-! ## Committing a block -/

theorem rows_persist_of_ne (c : ComputedBlockShielded H N G) (hne : b ≠ current) :
    (s.persist C current c).rows b = s.rows b := by
  unfold rows persist
  simp only [update_of_ne hne]

omit [CommGroupWithZero G] in
theorem rows_persistBalances_of_ne (dev : U64) (slot : MinerAccrual)
    (hne : b ≠ current) : (s.persistBalances current dev slot).rows b = s.rows b := by
  unfold rows persistBalances
  simp only [update_of_ne hne, BlockRows.mk.injEq, true_and, and_true]
  split_ifs
  · rfl
  · exact Function.update_of_ne hne _ _

omit [CommGroupWithZero G] in
theorem rows_persistWindow_of_ne (window before : AnchorLog H)
    (entry : WindowEntry H) (hne : b ≠ current) :
    (s.persistWindow current window entry before).rows b = s.rows b := by
  unfold rows persistWindow
  simp only [Function.update_of_ne hne]

omit [CommGroupWithZero G] in
/-- What extending the log does: nothing before the security fork, and from it on the parent's log
with the block's entry is written together with the entry. -/
theorem extendWindow_eq_ok (h : s.extendWindow C D P current c = .ok s') :
    (P.isPostSecurityFork D current = false ∧ s' = s) ∨
      (P.isPostSecurityFork D current = true ∧ ∃ before window,
        s.parentWindow D P (D.parent current) = .ok before ∧
        before.append C.hf (entryOf C D current c) = .ok window ∧
        s' = s.persistWindow current window (entryOf C D current c) before) := by
  unfold extendWindow at h
  split_ifs at h with hpost
  · simp only [bind_eq_ok_iff, mapError_eq_ok] at h
    obtain ⟨before, hbefore, window, hwindow, heq⟩ := h
    exact .inr ⟨hpost, before, window, hbefore, hwindow, (ok.inj heq).symm⟩
  · exact .inl ⟨by simpa using hpost, (ok.inj h).symm⟩

variable (C D P) in
/-- What is read at a block that was committed with the transition `c` and the verdict `v`: the
computed values, the balances, and from the security fork on the log after the block with its
entry. -/
structure RowsSpec (s : ShieldedStores H G) (current : H) (c : ComputedBlockShielded H N G)
    (v : BlockVerdict H N) : Prop where
  frontier : s.frontierAt current = c.frontier_state
  supply : s.supplyTotalsAt current = c.supply_totals
  diff : s.nullifierDiffAt current = c.outcome.new_nullifiers
  muhash : s.nullifierMuhashAt current = c.nullifier_muhash
  burns : s.burnsAt current = c.burns
  dev : s.devAccruedAt current = v.dev_accrued
  slot : s.minerAccrualAt current = v.miner_accrual.normalize
  log : P.isPostSecurityFork D current = true → ∃ before window,
    s.parentWindow D P (D.parent current) = .ok before ∧
    before.append C.hf (entryOf C D current c) = .ok window ∧
    s.anchor_window current = some window ∧
    s.anchor_entries current = some (entryOf C D current c, before)
  no_log : P.isPostSecurityFork D current = false →
    s.anchor_window current = none ∧ s.anchor_entries current = none

/-- What a commit does to the stores of a block without rows. -/
structure CommitSpec (s s' : ShieldedStores H G) (current : H) (c : ComputedBlockShielded H N G) :
    Prop where
  others : ∀ b, b ≠ current → s'.rows b = s.rows b
  nullifiers : s'.nullifiers = s.nullifiers ∪ c.outcome.new_nullifiers.toFinset

omit [CommGroupWithZero G] in
theorem parentWindow_congr (h : s.rows p = s'.rows p) :
    s.parentWindow D P p = s'.parentWindow D P p := by
  unfold parentWindow
  rw [window_congr h]

omit [CommGroupWithZero G] in
theorem persistBalances_reads (s : ShieldedStores H G) (dev : U64)
    (slot : MinerAccrual) (hrows : s.dev_accrued_store current = none ∧
      s.miner_accrual_store current = none) :
    (s.persistBalances current dev slot).devAccruedAt current = dev ∧
      (s.persistBalances current dev slot).minerAccrualAt current = slot.normalize := by
  refine ⟨getD_update_self hrows.1 fun hzero => ?_, ?_⟩
  · exact BitVec.eq_of_toNat_eq (Nat.eq_zero_of_not_pos hzero)
  · unfold minerAccrualAt persistBalances MinerAccrual.normalize
    simp only
    split_ifs
    · rw [hrows.2, Option.getD_none]
    · rw [Function.update_self, Option.getD_some]

/-- A commit of a block without rows, with values that read back. -/
theorem commitUtxoState_spec
    {v : BlockVerdict H N} (h : s.commitUtxoState C D P current c v = .ok s')
    (hparent : D.parent current ≠ current) (hrows : s.rows current = .none)
    (hfrontier : c.frontier_state.size = 0 → c.frontier_state = .default)
    (hmuhash : c.nullifier_muhash.finalize C.mf = MuHash.EMPTY_MUHASH C.mf →
      c.nullifier_muhash = .new) :
    CommitSpec s s' current c ∧ RowsSpec C D P s' current c v := by
  unfold commitUtxoState at h
  rw [bind_eq_ok_iff] at h
  obtain ⟨s₁, hext, heq⟩ := h
  obtain rfl := ok.inj heq
  simp only [rows, BlockRows.none, BlockRows.mk.injEq] at hrows
  obtain ⟨hdiff, htree, hsupply, hdev, hslot, hmu, hburn, hwin, hent⟩ := hrows
  -- The values persisted for the block are read back after `persist`.
  have rfrontier := frontierAt_persist (C := C) htree hfrontier
  have rsupply := supplyTotalsAt_persist (C := C) (c := c) hsupply
  have rdiff := nullifierDiffAt_persist (C := C) (c := c) hdiff
  have rmuhash := nullifierMuhashAt_persist (C := C) hmu hmuhash
  have rburns := burnsAt_persist (C := C) (c := c) hburn
  obtain ⟨hpost, rfl⟩ | ⟨hpost, before, window, hbefore, hwindow, rfl⟩ := extendWindow_eq_ok hext
  · have hbal := persistBalances_reads (s.persist C current c) v.dev_accrued v.miner_accrual
      ⟨hdev, hslot⟩
    refine ⟨⟨fun b hne => ?_, rfl⟩, rfrontier, rsupply, rdiff, rmuhash, rburns, hbal.1, hbal.2,
      fun hp => ?_, fun _ => ⟨hwin, hent⟩⟩
    · rw [rows_persistBalances_of_ne _ _ hne, rows_persist_of_ne c hne]
    · rw [hpost] at hp
      cases hp
  · have hbal := persistBalances_reads
      ((s.persist C current c).persistWindow current window (entryOf C D current c) before)
      v.dev_accrued v.miner_accrual ⟨hdev, hslot⟩
    refine ⟨⟨fun b hne => ?_, rfl⟩, rfrontier, rsupply, rdiff, rmuhash, rburns, hbal.1, hbal.2,
      fun _ => ⟨before, window, ?_, hwindow, ?_, ?_⟩, fun hp => ?_⟩
    · rw [rows_persistBalances_of_ne _ _ hne, rows_persistWindow_of_ne _ _ _ hne,
        rows_persist_of_ne c hne]
    · rw [← hbefore]
      refine parentWindow_congr ?_
      rw [rows_persistBalances_of_ne _ _ hparent, rows_persistWindow_of_ne _ _ _ hparent]
    · simp only [persistBalances, persistWindow, Function.update_self]
    · simp only [persistBalances, persistWindow, Function.update_self]
    · rw [hpost] at hp
      cases hp

theorem commitUtxoState_isOk (c : ComputedBlockShielded H N G)
    (v : BlockVerdict H N) (hlog : P.isPostSecurityFork D current = true → ∃ before,
      s.parentWindow D P (D.parent current) = .ok before ∧ before.isWellFormed ∧
        before.count.toNat + 1 < 2 ^ 64) : ∃ s', s.commitUtxoState C D P current c v = .ok s' := by
  have hext : ∃ s₁, (s.persist C current c).extendWindow C D P current c = .ok s₁ := by
    unfold extendWindow
    split_ifs with hpost
    · obtain ⟨before, hbefore, hwf, hroom⟩ := hlog hpost
      have happend : ∃ window, before.append C.hf (entryOf C D current c) = .ok window :=
        AnchorLog.append_of_isWellFormed hwf hroom _
      obtain ⟨window, hwindow⟩ := happend
      have hbefore' : (s.persist C current c).parentWindow D P (D.parent current) = .ok before :=
        hbefore
      rw [hbefore', ok_bind]
      simp only [hwindow]
      exact ⟨_, rfl⟩
    · exact ⟨_, rfl⟩
  obtain ⟨s₁, hs₁⟩ := hext
  unfold commitUtxoState
  rw [hs₁]
  exact ⟨_, rfl⟩

end

end ShieldedStores

end Zkas
