import Zkas.Consensus.Coinbase
import Zkas.Shielded.AnchorLog
import Zkas.Shielded.Commitment
import Zkas.Shielded.MuHash
import Zkas.Shielded.State

/-!
# The shielded state manager

Model of the stores of `consensus/src/model/stores/shielded.rs` and of `ShieldedStateManager` in
`consensus/src/processes/shielded.rs`. A store is a partial function from its keys; a missing row
reads back as the store's default. `compute` runs the transition of one chain block against the rows
of its selected parent, and `persist` writes the rows of the block that do not hold the default.

All keys and 32-byte values are of the type `H`. The functions other crates supply are the fields of
a `Crypto` record. The compact scan archive is left out: no consensus rule reads it. -/

namespace Zkas

open List SupplyLedger

open Function (update)

variable {H N G : Type}

/-- The functions supplied by other crates. -/
structure Crypto (H N G : Type) where
  /-- BLAKE2b and SHA-256. -/
  hf : HashFns H
  /-- The Orchard note tree. -/
  T : NoteTree H N
  /-- The hashes of the nullifier accumulator. -/
  mf : MuHashFns H G

/-- The persisted turnstile totals of a block. -/
structure SupplyTotals where
  cumulative_coinbase : U128
  cumulative_fees : U128
  deriving DecidableEq

/-- The totals a missing row reads back as. -/
def SupplyTotals.default : SupplyTotals := { cumulative_coinbase := 0, cumulative_fees := 0 }

theorem SupplyTotals.eq_default_of_not_pos {t : SupplyTotals}
    (h : ¬(0 < t.cumulative_coinbase.toNat ∨ 0 < t.cumulative_fees.toNat)) : t = .default := by
  obtain ⟨coinbase, fees⟩ := t
  rw [not_or] at h
  have hcoinbase : coinbase = 0 := BitVec.eq_of_toNat_eq (Nat.eq_zero_of_not_pos h.1)
  have hfees : fees = 0 := BitVec.eq_of_toNat_eq (Nat.eq_zero_of_not_pos h.2)
  rw [hcoinbase, hfees, SupplyTotals.default]

/-- The shielded stores of a node. -/
structure ShieldedStores (H G : Type) where
  /-- The global set of spent nullifiers. -/
  nullifiers : Finset H
  /-- The nullifiers each block spent. -/
  nullifier_diffs : H → Option (List H)
  tree_store : H → Option (FrontierState H)
  supply_store : H → Option SupplyTotals
  dev_accrued_store : H → Option U64
  miner_accrual_store : H → Option MinerAccrual
  nullifier_muhash : H → Option (MuHash G)
  /-- The last block that produced a root. -/
  anchor_block : H → Option H
  /-- Every block that produced a root. -/
  anchor_producers : H → Option (List H)
  burn_store : H → Option (List (ExitReceipt H))
  /-- Attested blue scores of anchor sources below the pruning point. -/
  anchor_source_scores : H → Option U64
  /-- The anchor log as of a block. -/
  anchor_window : H → Option (AnchorLog H)
  /-- A block's log entry with the log right before it. -/
  anchor_entries : H → Option (WindowEntry H × AnchorLog H)
  /-- The garbage-collection queue of anchor rows: blue score, root and block. -/
  anchor_gc : Finset (U64 × H × H)

namespace ShieldedStores

/-- Stores without rows. -/
def empty : ShieldedStores H G where
  nullifiers := ∅
  nullifier_diffs _ := none
  tree_store _ := none
  supply_store _ := none
  dev_accrued_store _ := none
  miner_accrual_store _ := none
  nullifier_muhash _ := none
  anchor_block _ := none
  anchor_producers _ := none
  burn_store _ := none
  anchor_source_scores _ := none
  anchor_window _ := none
  anchor_entries _ := none
  anchor_gc := ∅

variable (s : ShieldedStores H G) (block : H)

/-- The frontier of a block, empty if there is no row. -/
def frontierAt : FrontierState H := (s.tree_store block).getD .default

/-- The totals of a block, zero if there is no row. -/
def supplyTotalsAt : SupplyTotals := (s.supply_store block).getD .default

/-- The dev balance of a block, zero if there is no row. -/
def devAccruedAt : U64 := (s.dev_accrued_store block).getD 0

/-- The miner slot of a block, empty if there is no row. -/
def minerAccrualAt : MinerAccrual := (s.miner_accrual_store block).getD .default

/-- The nullifier accumulator of a block, empty if there is no row. -/
def nullifierMuhashAt [CommGroupWithZero G] : MuHash G := (s.nullifier_muhash block).getD .new

/-- The burn receipts as of a block, none if there is no row. -/
def burnsAt : List (ExitReceipt H) := (s.burn_store block).getD []

/-- The nullifiers a block spent, none if there is no row. -/
def nullifierDiffAt : List H := (s.nullifier_diffs block).getD []

/-- Total value burned as of a block. -/
def burnTotalAt : ℕ := ((s.burnsAt block).map (·.v.toNat)).sum

end ShieldedStores

/-- A computed, not yet persisted transition of one chain block. -/
structure ComputedBlockShielded (H N G : Type) where
  frontier_state : FrontierState H
  supply_totals : SupplyTotals
  nullifier_muhash : MuHash G
  outcome : BlockShieldedOutcome H N
  burns : List (ExitReceipt H)

/-- The verdict of the partition on one candidate transaction. -/
structure PartitionOutcome where
  anchor_ok : Bool
  conflict_ok : Bool
  deriving DecidableEq

/-- Whether the transaction is applied. -/
def PartitionOutcome.kept (o : PartitionOutcome) : Bool := o.anchor_ok && o.conflict_ok

variable [DecidableEq H]

/-- The partition's loop over the candidates with the resolver so far. -/
def partitionFrom (anchor_final : ShieldedTx H N → Bool) (r : NullifierConflictResolver H) :
    List (ShieldedTx H N) → List PartitionOutcome
  | [] => []
  | stx :: txs =>
    let anchor_ok := stx.nullifiers.isEmpty || anchor_final stx
    -- `try_accept` does not run when the anchor check already failed.
    if anchor_ok then
      match r.tryAccept stx.nullifiers with
      | .ok r' => ⟨true, true⟩ :: partitionFrom anchor_final r' txs
      | .error _ => ⟨true, false⟩ :: partitionFrom anchor_final r txs
    else ⟨false, false⟩ :: partitionFrom anchor_final r txs

/-- The candidates a partition keeps, or what is aligned with them. -/
def keptTxs {α : Type} : List α → List PartitionOutcome → List α
  | tx :: txs, o :: os => if o.kept then tx :: keptTxs txs os else keptTxs txs os
  | _, _ => []

namespace ShieldedStores

variable [CommGroupWithZero G] (C : Crypto H N G) (s : ShieldedStores H G)

/-- Decide in accepted order which candidates a block applies. -/
def partitionApplied (txs : List (ShieldedTx H N)) (anchor_final : ShieldedTx H N → Bool) :
    List PartitionOutcome :=
  partitionFrom anchor_final (.new (· ∈ s.nullifiers)) txs

variable (block : H)

/-- The tree of a block; a corrupt row is a panic. -/
def loadTree : Except (Fault ShieldedStateError) (GlobalTree C.T) :=
  (GlobalTree.fromState C.T (s.frontierAt block)).mapError fun _ => .panic

/-- The ledger of a block. -/
def loadSupply : SupplyLedger :=
  .fromTotals (s.supplyTotalsAt block).cumulative_coinbase (s.supplyTotalsAt block).cumulative_fees

/-- The burn accumulator of a block. -/
def loadBurns : BurnAccumulator H := .fromReceipts C.hf (s.burnsAt block)

/-- Compute one chain block's transition against its selected parent's rows. -/
def compute (selected_parent : H) (coinbase : Option (CoinbaseMint N))
    (txs : List (ShieldedTx H N)) :
    Except (Fault ShieldedStateError) (ComputedBlockShielded H N G) := do
  let tree ← s.loadTree C selected_parent
  let (outcome, tree, supply, burns) ← (applyChainBlockTo C.hf C.T (· ∈ s.nullifiers) tree
    (s.loadSupply selected_parent) coinbase txs (s.loadBurns C selected_parent)).mapError .err
  return {
    frontier_state := tree.toState C.T
    supply_totals := {
      cumulative_coinbase := supply.cumulative_coinbase
      cumulative_fees := supply.cumulative_fees }
    nullifier_muhash := (s.nullifierMuhashAt selected_parent).addAll C.mf outcome.new_nullifiers
    outcome
    burns := burns.receipts }

/-- Add a producer of a root, unless it is recorded already. -/
def addProducer (root block : H) : H → Option (List H) :=
  let producers := (s.anchor_producers root).getD []
  if block ∈ producers then s.anchor_producers
  else update s.anchor_producers root (some (producers ++ [block]))

/-- Persist a validated block's transition: only rows that differ from their default are
written. -/
def persist (c : ComputedBlockShielded H N G) : ShieldedStores H G :=
  let hasNotes := 0 < c.frontier_state.size
  let hasSupply := 0 < c.supply_totals.cumulative_coinbase.toNat ∨
    0 < c.supply_totals.cumulative_fees.toNat
  let anchor := C.T.toBytes c.outcome.anchor
  { s with
    tree_store := if hasNotes then update s.tree_store block (some c.frontier_state)
      else s.tree_store
    anchor_block := if hasNotes then update s.anchor_block anchor (some block)
      else s.anchor_block
    anchor_producers := if hasNotes then s.addProducer anchor block else s.anchor_producers
    supply_store := if hasSupply then update s.supply_store block (some c.supply_totals)
      else s.supply_store
    burn_store := if c.burns ≠ [] then update s.burn_store block (some c.burns)
      else s.burn_store
    nullifier_diffs := if c.outcome.new_nullifiers ≠ [] then
        update s.nullifier_diffs block (some c.outcome.new_nullifiers)
      else s.nullifier_diffs
    nullifiers := s.nullifiers ∪ c.outcome.new_nullifiers.toFinset
    nullifier_muhash := if c.nullifier_muhash.finalize C.mf ≠ MuHash.EMPTY_MUHASH C.mf then
        update s.nullifier_muhash block (some c.nullifier_muhash)
      else s.nullifier_muhash }

/-- The shielded state root as of a block. -/
def stateRootAt : Except (Fault ShieldedStateError) H := do
  let tree ← s.loadTree C block
  return shieldedStateRoot C.hf (C.T.toBytes (tree.anchor C.T))
    ((s.nullifierMuhashAt block).finalize C.mf) (s.supplyTotalsAt block).cumulative_coinbase
    (s.supplyTotalsAt block).cumulative_fees ((s.loadBurns C block).root C.hf)

end ShieldedStores

/-! ## What the partition and the transition do -/

@[simp] theorem length_partitionFrom (anchor_final : ShieldedTx H N → Bool)
    (r : NullifierConflictResolver H) (txs : List (ShieldedTx H N)) :
    (partitionFrom anchor_final r txs).length = txs.length := by
  induction txs generalizing r with
  | nil => rfl
  | cons tx txs ih =>
    unfold partitionFrom
    simp only
    split_ifs
    · split <;> rw [length_cons, ih, length_cons]
    · rw [length_cons, ih, length_cons]

/-- The transition accepts every transaction the partition kept: the two run the same resolver over
the same set. -/
theorem acceptInOrder_keptTxs (anchor_final : ShieldedTx H N → Bool)
    (r : NullifierConflictResolver H) (txs : List (ShieldedTx H N)) :
    acceptInOrder r (keptTxs txs (partitionFrom anchor_final r txs)) =
      keptTxs txs (partitionFrom anchor_final r txs) := by
  induction txs generalizing r with
  | nil => rfl
  | cons tx txs ih =>
    unfold partitionFrom
    simp only
    split_ifs with hanchor
    · cases hacc : r.tryAccept tx.nullifiers with
      | ok r' =>
        simp only [keptTxs, PartitionOutcome.kept, Bool.and_self, if_true, acceptInOrder, hacc, ih]
      | error e =>
        exact ih r
    · simp only [keptTxs, PartitionOutcome.kept, Bool.and_self, Bool.false_eq_true, if_false]
      exact ih r

theorem keptTxs_map {α β : Type} (f : α → β) (xs : List α) (os : List PartitionOutcome) :
    keptTxs (xs.map f) os = (keptTxs xs os).map f := by
  induction xs generalizing os with
  | nil => rfl
  | cons x xs ih =>
    cases os with
    | nil => rfl
    | cons o os =>
      rw [map_cons, keptTxs, keptTxs, ih]
      split_ifs <;> rfl

theorem mem_of_mem_keptTxs {α : Type} {x : α} {xs : List α} {os : List PartitionOutcome}
    (h : x ∈ keptTxs xs os) : x ∈ xs := by
  induction xs generalizing os with
  | nil => cases h
  | cons y ys ih =>
    cases os with
    | nil => cases h
    | cons o os =>
      rw [keptTxs] at h
      split_ifs at h
      · rcases mem_cons.mp h with rfl | h
        · exact mem_cons_self
        · exact mem_cons_of_mem _ (ih h)
      · exact mem_cons_of_mem _ (ih h)

omit [DecidableEq H] in
theorem sum_receipts (acc : List (ShieldedTx H N)) :
    ((acc.flatMap (·.burn.toList)).map (·.v.toNat)).sum = (acc.map (·.burnValue.toNat)).sum := by
  induction acc with
  | nil => rfl
  | cons tx acc ih =>
    rw [flatMap_cons, map_append, sum_append, ih, map_cons, sum_cons]
    cases hb : tx.burn <;> simp [ShieldedTx.burnValue, hb]

namespace ShieldedStores

variable [CommGroupWithZero G] {C : Crypto H N G} {s : ShieldedStores H G}

/-- The transactions of a list that the transition on these stores accepts. -/
def resolved (s : ShieldedStores H G) (txs : List (ShieldedTx H N)) : List (ShieldedTx H N) :=
  acceptInOrder (.new (· ∈ s.nullifiers)) txs

/-- What a computed block holds: the transition from the parent's rows. -/
structure ComputeSpec (C : Crypto H N G) (s : ShieldedStores H G) (selected_parent : H)
    (coinbase : Option (CoinbaseMint N)) (txs : List (ShieldedTx H N))
    (c : ComputedBlockShielded H N G) (tree tree' : GlobalTree C.T) (supply' : SupplyLedger) :
    Prop where
  loaded : s.loadTree C selected_parent = .ok tree
  block : BlockSpec (· ∈ s.nullifiers) tree (s.loadSupply selected_parent) coinbase c.outcome
    (s.resolved txs) tree' supply'
  accepted : acceptedTxs txs c.outcome.accepted = s.resolved txs
  frontier : c.frontier_state = tree'.toState C.T
  supply : c.supply_totals = ⟨supply'.cumulative_coinbase, supply'.cumulative_fees⟩
  muhash : c.nullifier_muhash =
    (s.nullifierMuhashAt selected_parent).addAll C.mf c.outcome.new_nullifiers
  burns : c.burns = s.burnsAt selected_parent ++ c.outcome.burn_receipts

variable {block : H} {c : ComputedBlockShielded H N G} {coinbase : Option (CoinbaseMint N)}

theorem compute_spec {selected_parent : H} {txs : List (ShieldedTx H N)}
    (h : s.compute C selected_parent coinbase txs = .ok c) :
    ∃ tree tree' supply', ComputeSpec C s selected_parent coinbase txs c tree tree' supply' := by
  unfold compute at h
  simp only [Except.bind_eq_ok_iff, Except.mapError_eq_ok] at h
  obtain ⟨tree, htree, ⟨o, tree', supply', burns'⟩, hblock, heq⟩ := h
  obtain rfl := Except.ok.inj heq
  obtain ⟨hspec, hacc, hburns⟩ := applyChainBlockTo_spec hblock
  refine ⟨tree, tree', supply', htree, hspec, hacc, rfl, rfl, rfl, ?_⟩
  rw [hburns, BurnAccumulator.receipts_pushAll, loadBurns, BurnAccumulator.receipts_fromReceipts]

/-- The totals of a computed block: its mint and its exits are added to the parent's totals, its
burns to the parent's receipts, and its own exits passed the check. -/
theorem ComputeSpec.totals {selected_parent : H}
    {txs : List (ShieldedTx H N)} {tree tree' : GlobalTree C.T}
    {supply' : SupplyLedger}
    (h : ComputeSpec C s selected_parent coinbase txs c tree tree' supply') :
    c.supply_totals.cumulative_coinbase.toNat =
        (s.supplyTotalsAt selected_parent).cumulative_coinbase.toNat + totalMint coinbase ∧
      c.supply_totals.cumulative_fees.toNat + ((s.resolved txs).map (·.burnValue.toNat)).sum =
        (s.supplyTotalsAt selected_parent).cumulative_fees.toNat +
          ((s.resolved txs).map (·.fee.toNat)).sum ∧
      (c.burns.map (·.v.toNat)).sum =
        s.burnTotalAt selected_parent + ((s.resolved txs).map (·.burnValue.toNat)).sum ∧
      c.supply_totals.cumulative_fees.toNat + ((s.resolved txs).map (·.burnValue.toNat)).sum ≤
        c.supply_totals.cumulative_coinbase.toNat := by
  have hzero : (s.loadSupply selected_parent).cumulative_burns.toNat = 0 := rfl
  have hpeg : supply'.cumulative_pegged_in = 0 := by rw [h.block.pegged_eq]; rfl
  have hexits := h.block.exits_eq
  have hburns := h.block.burns_eq
  have hcheck := (check_eq_ok hpeg).mp h.block.check
  rw [hzero] at hexits hburns
  refine ⟨?_, ?_, ?_, ?_⟩
  · rw [h.supply]
    exact h.block.coinbase_eq
  · rw [h.supply]
    simp only [loadSupply, fromTotals, fromTotalsWithBurns,
      fromTotalsFull] at hexits ⊢
    omega
  · rw [h.burns, h.block.receipts, map_append, sum_append, sum_receipts]
    rfl
  · rw [h.supply]
    simp only
    omega

/-! ## Reading back what was persisted -/

/-- A row written under a condition is what is read back, if it is the default where the condition
fails and there was no row before. -/
theorem getD_update_self {ν : Type} {store : H → Option ν} {v d : ν} {p : Prop}
    [Decidable p] (hnone : store block = none) (hdefault : ¬p → v = d) :
    ((if p then update store block (some v) else store) block).getD d = v := by
  split_ifs with hp
  · rw [Function.update_self, Option.getD_some]
  · rw [hnone, Option.getD_none, hdefault hp]

theorem update_of_ne {ν : Type} {store : H → Option ν} {b : H} {v : ν} {p : Prop}
    [Decidable p] (hne : b ≠ block) :
    (if p then update store block (some v) else store) b = store b := by
  split_ifs
  · exact Function.update_of_ne hne _ _
  · rfl

theorem supplyTotalsAt_persist (hnone : s.supply_store block = none) :
    (s.persist C block c).supplyTotalsAt block = c.supply_totals := by
  exact getD_update_self hnone fun hzero => SupplyTotals.eq_default_of_not_pos hzero

theorem burnsAt_persist
    (hnone : s.burn_store block = none) : (s.persist C block c).burnsAt block = c.burns :=
  getD_update_self hnone fun h => not_not.mp h

theorem nullifierDiffAt_persist (hnone : s.nullifier_diffs block = none) :
    (s.persist C block c).nullifierDiffAt block = c.outcome.new_nullifiers :=
  getD_update_self hnone fun h => not_not.mp h

/-- The accumulator persisted for a block is read back, if only the empty one has the empty
hash. -/
theorem nullifierMuhashAt_persist (hnone : s.nullifier_muhash block = none)
    (hempty : c.nullifier_muhash.finalize C.mf = MuHash.EMPTY_MUHASH C.mf →
      c.nullifier_muhash = .new) :
    (s.persist C block c).nullifierMuhashAt block = c.nullifier_muhash :=
  getD_update_self hnone fun h => hempty (not_not.mp h)

theorem frontierAt_persist (hnone : s.tree_store block = none)
    (hempty : c.frontier_state.size = 0 → c.frontier_state = .default) :
    (s.persist C block c).frontierAt block = c.frontier_state :=
  getD_update_self hnone fun h => hempty (by omega)

theorem persist_of_ne (C : Crypto H N G) (s : ShieldedStores H G)
    (c : ComputedBlockShielded H N G) {b : H} (hne : b ≠ block) :
    (s.persist C block c).frontierAt b = s.frontierAt b ∧
      (s.persist C block c).supplyTotalsAt b = s.supplyTotalsAt b ∧
      (s.persist C block c).burnsAt b = s.burnsAt b ∧
      (s.persist C block c).nullifierDiffAt b = s.nullifierDiffAt b ∧
      (s.persist C block c).nullifierMuhashAt b = s.nullifierMuhashAt b := by
  unfold frontierAt supplyTotalsAt burnsAt nullifierDiffAt nullifierMuhashAt persist
  simp only [update_of_ne hne, and_self]

end ShieldedStores

end Zkas
