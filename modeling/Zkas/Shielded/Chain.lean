import Zkas.Shielded.State

/-!
# Chains of blocks on the in-memory state

A run applies chain blocks in order to a `ShieldedState` and skips the blocks that fail. A state
`Represents` the history of the blocks applied so far when its nullifier set, tree, ledger and burn
accumulator are exactly what the accepted transactions and the mints of that history make. -/

namespace Zkas

open List

variable {H N : Type} [DecidableEq H] {hf : HashFns H} {T : NoteTree H N}

/-- A chain block's shielded content. -/
structure ChainBlock (H N : Type) where
  coinbase : Option (CoinbaseMint N)
  txs : List (ShieldedTx H N)

/-- An applied block with its accepted transactions. -/
structure AppliedBlock (H N : Type) where
  block : ChainBlock H N
  acc : List (ShieldedTx H N)

namespace AppliedBlock

variable (b : AppliedBlock H N)

/-- The leaves an applied block adds: the mint's commitments, then the accepted ones. -/
def leaves : List N :=
  (mintNotes b.block.coinbase).map (·.commitment) ++ b.acc.flatMap (·.commitments)

/-- The nullifiers an applied block spends. -/
def nullifiers : List H := b.acc.flatMap (·.nullifiers)

/-- The receipts an applied block records. -/
def receipts : List (ExitReceipt H) := b.acc.flatMap (·.burn.toList)

/-- What an applied block mints. -/
def minted : ℕ := totalMint b.block.coinbase

/-- What leaves the pool in an applied block. -/
def fees : ℕ := (b.acc.map (·.fee.toNat)).sum

end AppliedBlock

namespace ShieldedState

variable (hf)

/-- The state after a run, with the blocks that fail skipped. -/
def run (s : ShieldedState T) : List (ChainBlock H N) → ShieldedState T
  | [] => s
  | b :: bs => ((s.applyChainBlock hf T b.coinbase b.txs).1).run bs

/-- The blocks applied in a run, with their accepted transactions. -/
def applied (s : ShieldedState T) : List (ChainBlock H N) → List (AppliedBlock H N)
  | [] => []
  | b :: bs =>
    let rest := ((s.applyChainBlock hf T b.coinbase b.txs).1).applied bs
    match (s.applyChainBlock hf T b.coinbase b.txs).2 with
    | .ok o => ⟨b, acceptedTxs b.txs o.accepted⟩ :: rest
    | .error _ => rest

/-- The state is exactly what the history of applied blocks makes. -/
structure Represents (s : ShieldedState T) (hist : List (AppliedBlock H N)) : Prop where
  nodup : (hist.flatMap (·.nullifiers)).Nodup
  nullifiers : s.nullifiers = (hist.flatMap (·.nullifiers)).toFinset
  tree : (GlobalTree.new T).appendSubtree T (hist.flatMap (·.leaves)) = .ok s.tree
  coinbase : s.supply.cumulative_coinbase.toNat = (hist.map (·.minted)).sum
  exits : s.supply.cumulative_fees.toNat + s.supply.cumulative_burns.toNat = (hist.map (·.fees)).sum
  pegged : s.supply.cumulative_pegged_in = 0
  check : s.supply.check = .ok ()
  burns : s.burns = .fromReceipts hf (hist.flatMap (·.receipts))

variable {hf}

theorem new_represents : (new T).Represents hf [] where
  nodup := nodup_nil
  nullifiers := rfl
  tree := rfl
  coinbase := rfl
  exits := rfl
  pegged := rfl
  check := (SupplyLedger.check_eq_ok rfl).mpr (Nat.le_refl _)
  burns := rfl

/-- A block either fails and changes nothing, or is applied as `applyChainBlockTo` applies it. -/
theorem applyChainBlock_cases (s : ShieldedState T) (b : ChainBlock H N) :
    (∃ e, s.applyChainBlock hf T b.coinbase b.txs = (s, .error e)) ∨ ∃ o tree supply burns,
        applyChainBlockTo hf T (· ∈ s.nullifiers) s.tree s.supply b.coinbase b.txs s.burns =
          .ok (o, tree, supply, burns) ∧
        s.applyChainBlock hf T b.coinbase b.txs =
          ({ nullifiers := s.nullifiers ∪ o.new_nullifiers.toFinset, tree, supply, burns },
            .ok o) := by
  unfold applyChainBlock
  cases h : applyChainBlockTo hf T (· ∈ s.nullifiers) s.tree s.supply b.coinbase b.txs s.burns with
  | error e => exact .inl ⟨e, rfl⟩
  | ok r =>
    obtain ⟨o, tree, supply, burns⟩ := r
    exact .inr ⟨o, tree, supply, burns, rfl, rfl⟩

theorem Represents.apply {s : ShieldedState T} {hist : List (AppliedBlock H N)}
    (hs : s.Represents hf hist) {b : ChainBlock H N} {o : BlockShieldedOutcome H N}
    {tree : GlobalTree T} {supply : SupplyLedger} {burns : BurnAccumulator H}
    (h : applyChainBlockTo hf T (· ∈ s.nullifiers) s.tree s.supply b.coinbase b.txs s.burns =
      .ok (o, tree, supply, burns)) :
    Represents hf (T := T)
      { nullifiers := s.nullifiers ∪ o.new_nullifiers.toFinset, tree, supply, burns }
      (hist ++ [⟨b, acceptedTxs b.txs o.accepted⟩]) := by
  obtain ⟨hblock, hacc, hburns⟩ := applyChainBlockTo_spec h
  rw [← hacc] at hblock
  have hnew : o.new_nullifiers = (AppliedBlock.mk b (acceptedTxs b.txs o.accepted)).nullifiers :=
    hblock.new_nullifiers
  -- A new nullifier is not in the represented set, which is the set of all earlier ones.
  have hdisj : List.Disjoint (hist.flatMap (·.nullifiers)) o.new_nullifiers := by
    intro nf hold hnf
    have hfresh := hblock.fresh nf hnf
    simp only [decide_eq_false_iff_not] at hfresh
    exact hfresh (by rw [hs.nullifiers]; exact mem_toFinset.mpr hold)
  have hpeg : supply.cumulative_pegged_in = 0 := by rw [hblock.pegged_eq, hs.pegged]
  refine ⟨?_, ?_, ?_, ?_, ?_, hpeg, hblock.check, ?_⟩
  · rw [flatMap_append, flatMap_singleton, ← hnew]
    exact hs.nodup.append hblock.nodup hdisj
  · rw [flatMap_append, flatMap_singleton, ← hnew, toFinset_append, hs.nullifiers]
  · have hleaves : o.subtree = (AppliedBlock.mk b (acceptedTxs b.txs o.accepted)).leaves :=
      hblock.subtree
    rw [flatMap_append, flatMap_singleton, ← hleaves, GlobalTree.appendSubtree_append,
      hs.tree, Except.ok_bind]
    exact hblock.tree_eq
  · have hmint := hblock.coinbase_eq
    simp only [map_append, map_cons, map_nil, sum_append, sum_singleton]
    rw [hmint, hs.coinbase]
    rfl
  · have hexits := hblock.exits_eq
    simp only [map_append, map_cons, map_nil, sum_append, sum_singleton]
    rw [hexits, hs.exits]
    rfl
  · have hrec : o.burn_receipts = (AppliedBlock.mk b (acceptedTxs b.txs o.accepted)).receipts :=
      hblock.receipts
    rw [flatMap_append, flatMap_singleton, ← hrec]
    simp only [hburns, hs.burns, BurnAccumulator.fromReceipts, BurnAccumulator.pushAll,
      foldl_append]

/-- A run extends the represented history by its applied blocks. -/
theorem Represents.run {s : ShieldedState T} {hist : List (AppliedBlock H N)}
    (hs : s.Represents hf hist) (bs : List (ChainBlock H N)) :
    (s.run hf bs).Represents hf (hist ++ s.applied hf bs) := by
  induction bs generalizing s hist with
  | nil =>
    rw [applied, append_nil]
    exact hs
  | cons b bs ih =>
    obtain ⟨e, hfail⟩ | ⟨o, tree, supply, burns, hblock, hok⟩ := applyChainBlock_cases s b
    · unfold ShieldedState.run applied
      rw [hfail]
      exact ih hs
    · simp only [ShieldedState.run, applied, hok]
      have hnext := ih (hs.apply hblock)
      rwa [append_assoc, singleton_append] at hnext

/-- After any sequence of blocks from genesis, failing ones skipped: no nullifier occurs twice over
the accepted transactions and the set is the set of their nullifiers; the tree is that of the
leaves block by block; the pool is the mints minus the fees; the receipts are the accepted ones. -/
theorem run_new_spec (bs : List (ChainBlock H N)) :
    let s := (new T).run hf bs
    let hist := (new T).applied hf bs
    ((hist.flatMap (·.nullifiers)).Nodup ∧ s.nullifiers = (hist.flatMap (·.nullifiers)).toFinset) ∧
      ((GlobalTree.new T).appendSubtree T (hist.flatMap (·.leaves)) = .ok s.tree ∧
        s.tree.size = (hist.flatMap (·.leaves)).length) ∧
      (∃ v, s.supply.poolValue = .ok v ∧
        v.toNat + (hist.map (·.fees)).sum = (hist.map (·.minted)).sum) ∧
      s.burns.receipts = hist.flatMap (·.receipts) := by
  intro s hist
  have hs : s.Represents hf hist := new_represents.run bs
  have hsize := GlobalTree.appendSubtree_size hs.tree
  obtain ⟨v, hv, -⟩ := Except.bind_eq_ok_iff.mp hs.check
  have hpool := (SupplyLedger.poolValue_spec hs.pegged).mp hv
  have hexits := hs.exits
  have hcoinbase := hs.coinbase
  refine ⟨⟨hs.nodup, hs.nullifiers⟩, ⟨hs.tree, ?_⟩, ⟨v, hv, by omega⟩, ?_⟩
  · rw [hsize]
    exact Nat.zero_add _
  · rw [hs.burns, BurnAccumulator.receipts_fromReceipts]

end ShieldedState

end Zkas
