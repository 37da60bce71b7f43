import Zkas.Consensus.Instance

/-!
# Runs of the shielded state manager

A run offers blocks to the manager one after the other on top of the last persisted one: `compute`
against the tip's rows, then `persist`; a block that `compute` rejects is skipped. `loadSupply`
rebuilds the ledger without the burns of earlier blocks, so the turnstile check of a block sees only
its own burns. `pool_covers_iff` says what follows for whole runs. -/

namespace Zkas

open List ShieldedStores

variable {H N G : Type}

/-- A block offered to the manager. -/
structure ManagerBlock (H N : Type) where
  hash : H
  coinbase : Option (CoinbaseMint N)
  txs : List (ShieldedTx H N)

/-- The stores with the tip and the persisted blocks, oldest first. -/
structure ManagerChain (H G : Type) where
  stores : ShieldedStores H G
  tip : H
  persisted : List H

/-- The pool covers its exits as of a block. -/
def ShieldedStores.PoolCovers (s : ShieldedStores H G) (block : H) : Prop :=
  (s.supplyTotalsAt block).cumulative_fees.toNat + s.burnTotalAt block ≤
    (s.supplyTotalsAt block).cumulative_coinbase.toNat
deriving Decidable

/-- Every burn of a block's transactions is part of its fee. -/
def ManagerBlock.BurnsWithinFees (b : ManagerBlock H N) : Prop :=
  ∀ tx ∈ b.txs, tx.burnValue.toNat ≤ tx.fee.toNat
deriving Decidable

namespace ManagerChain

/-- Empty stores, with the genesis block as the tip. -/
def start (genesis : H) : ManagerChain H G := { stores := .empty, tip := genesis, persisted := [] }

variable [DecidableEq H] [CommGroupWithZero G] (C : Crypto H N G) (m : ManagerChain H G)
variable (b : ManagerBlock H N)

/-- Offer a block: compute it on the tip's rows and persist it, or skip it. -/
def extend : ManagerChain H G :=
  match m.stores.compute C m.tip b.coinbase b.txs with
  | .ok c =>
    { stores := m.stores.persist C b.hash c, tip := b.hash, persisted := m.persisted ++ [b.hash] }
  | .error _ => m

/-- Offer blocks in order. -/
def run (blocks : List (ManagerBlock H N)) : ManagerChain H G := blocks.foldl (extend C) m

/-- The manager accepts a block on top of the tip. -/
def Accepts : Prop := ∃ c, m.stores.compute C m.tip b.coinbase b.txs = .ok c

/-- What a block takes out of the pool is within what is left on its parent's rows, burns counted;
asked only of a block whose parent has burns. -/
def WithinPool : Prop :=
  m.stores.burnTotalAt m.tip ≠ 0 →
    (m.stores.supplyTotalsAt m.tip).cumulative_fees.toNat + m.stores.burnTotalAt m.tip +
        ((m.stores.resolved b.txs).map (·.fee.toNat)).sum ≤
      (m.stores.supplyTotalsAt m.tip).cumulative_coinbase.toNat + totalMint b.coinbase

variable {C} {m : ManagerChain H G} {b : ManagerBlock H N}

theorem extend_cases (C : Crypto H N G) (m : ManagerChain H G) (b : ManagerBlock H N) :
    (m.extend C b = m ∧ ∀ c, m.stores.compute C m.tip b.coinbase b.txs ≠ .ok c) ∨
      ∃ c, m.stores.compute C m.tip b.coinbase b.txs = .ok c ∧
        m.extend C b = ⟨m.stores.persist C b.hash c, b.hash, m.persisted ++ [b.hash]⟩ := by
  cases hc : m.stores.compute C m.tip b.coinbase b.txs with
  | error e => exact .inl ⟨by rw [extend, hc], fun c h => by cases h⟩
  | ok c => exact .inr ⟨c, rfl, by rw [extend, hc]⟩

/-- A persisted block without rows before is covered exactly if it is within the pool. -/
theorem poolCovers_persist_iff {c : ComputedBlockShielded H N G}
    (hc : m.stores.compute C m.tip b.coinbase b.txs = .ok c)
    (hsupply : m.stores.supply_store b.hash = none) (hburn : m.stores.burn_store b.hash = none) :
    (m.stores.persist C b.hash c).PoolCovers b.hash ↔ m.WithinPool b := by
  obtain ⟨tree, tree', supply', hspec⟩ := compute_spec hc
  obtain ⟨hcoinbase, hfees, hburns, hcheck⟩ := hspec.totals
  have htotals : (m.stores.persist C b.hash c).supplyTotalsAt b.hash = c.supply_totals :=
    supplyTotalsAt_persist hsupply
  have hreceipts : (m.stores.persist C b.hash c).burnsAt b.hash = c.burns := burnsAt_persist hburn
  unfold ShieldedStores.PoolCovers burnTotalAt WithinPool
  rw [htotals, hreceipts, hcoinbase, hburns]
  -- The block's own burns cancel: they are part of its fees and are added to the receipts.
  constructor
  · intro h _
    omega
  · intro h
    by_cases hzero : m.stores.burnTotalAt m.tip = 0
    · omega
    · have := h hzero
      omega

theorem poolCovers_persist_of_ne {c : ComputedBlockShielded H N G} {s : ShieldedStores H G}
    {block h : H} (hne : h ≠ block) : (s.persist C block c).PoolCovers h ↔ s.PoolCovers h := by
  obtain ⟨-, hsupply, hburns, -⟩ := persist_of_ne C s c hne
  unfold ShieldedStores.PoolCovers burnTotalAt
  rw [hsupply, hburns]

/-- Only offered blocks are persisted, and only persisted blocks have rows. -/
structure Tracks (m : ManagerChain H G) (hashes : List H) : Prop where
  offered : ∀ h ∈ m.persisted, h ∈ hashes
  supply : ∀ h, h ∉ m.persisted → m.stores.supply_store h = none
  burns : ∀ h, h ∉ m.persisted → m.stores.burn_store h = none

theorem Tracks.extend {hashes : List H} (hm : m.Tracks hashes) :
    (m.extend C b).Tracks (hashes ++ [b.hash]) := by
  obtain ⟨hskip, -⟩ | ⟨c, -, hext⟩ := extend_cases C m b
  · rw [hskip]
    exact ⟨fun h hh => mem_append_left _ (hm.offered h hh), hm.supply, hm.burns⟩
  · rw [hext]
    have hnew : ∀ h, h ∉ m.persisted ++ [b.hash] → h ∉ m.persisted ∧ h ≠ b.hash := fun h hh => by
      simpa [mem_append, not_or] using hh
    refine ⟨fun h hh => ?_, fun h hh => ?_, fun h hh => ?_⟩
    · rcases mem_append.mp hh with hold | hlast
      · exact mem_append_left _ (hm.offered h hold)
      · exact mem_append_right _ hlast
    · obtain ⟨hold, hne⟩ := hnew h hh
      exact (update_of_ne hne).trans (hm.supply h hold)
    · obtain ⟨hold, hne⟩ := hnew h hh
      exact (update_of_ne hne).trans (hm.burns h hold)

theorem run_tracks (C : Crypto H N G) (genesis : H) (blocks : List (ManagerBlock H N)) :
    ((start genesis : ManagerChain H G).run C blocks).Tracks (blocks.map (·.hash)) := by
  induction blocks using reverseRecOn with
  | nil => exact ⟨fun h hh => absurd hh not_mem_nil, fun _ _ => rfl, fun _ _ => rfl⟩
  | append_singleton blocks b ih =>
    rw [run, foldl_append, map_append]
    exact ih.extend

/-- Offering one more block, the pool covers its exits at every persisted block exactly if it did
before and the block, if it is persisted, is within the pool. -/
theorem extend_covers_iff {hashes : List H} (hm : m.Tracks hashes) (hfresh : b.hash ∉ hashes) :
    (∀ h ∈ (m.extend C b).persisted, (m.extend C b).stores.PoolCovers h) ↔
      (∀ h ∈ m.persisted, m.stores.PoolCovers h) ∧ (m.Accepts C b → m.WithinPool b) := by
  obtain ⟨hskip, hreject⟩ | ⟨c, hc, hext⟩ := extend_cases C m b
  · have hvacuous : m.Accepts C b → m.WithinPool b := fun ⟨c, hc⟩ => absurd hc (hreject c)
    rw [hskip]
    exact (and_iff_left hvacuous).symm
  · have hnew : b.hash ∉ m.persisted := fun hmem => hfresh (hm.offered _ hmem)
    have hlast := poolCovers_persist_iff hc (hm.supply _ hnew) (hm.burns _ hnew)
    have haccepts : (m.Accepts C b → m.WithinPool b) ↔ m.WithinPool b :=
      ⟨fun h => h ⟨c, hc⟩, fun h _ => h⟩
    have hold : ∀ h ∈ m.persisted,
        ((m.stores.persist C b.hash c).PoolCovers h ↔ m.stores.PoolCovers h) := fun h hh =>
      poolCovers_persist_of_ne fun heq => hnew (heq ▸ hh)
    rw [hext, haccepts, ← hlast]
    simp only [forall_mem_append, forall_mem_singleton]
    exact and_congr_left' (forall₂_congr hold)

/-- Along a run from empty stores over blocks with distinct hashes, the pool covers its exits at
every persisted block exactly if every persisted block that is built on burns takes no more out of
the pool than its parent's rows, burns counted, and its own mint leave in it. -/
theorem pool_covers_iff (C : Crypto H N G) (genesis : H) (blocks : List (ManagerBlock H N))
    (hdistinct : (blocks.map (·.hash)).Nodup) :
    (∀ h ∈ ((start genesis).run C blocks).persisted,
        ((start genesis).run C blocks).stores.PoolCovers h) ↔
      ∀ before b, before ++ [b] <+: blocks → ((start genesis).run C before).Accepts C b →
        ((start genesis).run C before).WithinPool b := by
  induction blocks using reverseRecOn with
  | nil =>
    constructor
    · intro _ before b hpre
      exact absurd (prefix_nil.mp hpre) (by simp)
    · intro _ h hh
      cases hh
  | append_singleton blocks b ih =>
    rw [map_append, nodup_append] at hdistinct
    obtain ⟨hnodup, -, hdisjoint⟩ := hdistinct
    have hfresh : b.hash ∉ blocks.map (·.hash) := fun hmem =>
      hdisjoint _ hmem _ (mem_singleton_self _) rfl
    have hrun : (start genesis).run C (blocks ++ [b]) = ((start genesis).run C blocks).extend C b :=
      foldl_concat ..
    rw [hrun, extend_covers_iff (run_tracks C genesis blocks) hfresh, ih hnodup]
    -- The prefixes of the longer run are those of the shorter one and the whole run.
    constructor
    · rintro ⟨hbefore, hlast⟩ before b' hpre
      rcases prefix_concat_iff.mp hpre with heq | hpre
      · obtain ⟨rfl, hb⟩ := append_inj' heq rfl
        obtain rfl := singleton_inj.mp hb
        exact hlast
      · exact hbefore before b' hpre
    · intro h
      exact ⟨fun before b' hpre => h before b' (hpre.trans (prefix_append _ _)),
        h blocks b prefix_rfl⟩

/-! ## A run that takes more out of the pool than was minted -/

section

open Symbolic

/-- A block that mints one note. -/
def mintBlock (hash note : ℕ) (value : U64) : ManagerBlock Term ℕ where
  hash := .atom hash
  coinbase := some { notes := [{ value, commitment := note }] }
  txs := []

/-- A block with one transaction that pays `fee`, of which the receipt's value is burned. -/
def exitBlock (hash nullifier : ℕ) (fee : U64) (burn : Option (ExitReceipt Term)) :
    ManagerBlock Term ℕ where
  hash := .atom hash
  coinbase := none
  txs := [{ nullifiers := [.atom nullifier], commitments := [], fee, anchor := .atom 0, burn,
            anchor_block := none }]

/-- A receipt of a given value. -/
def exitReceipt (v : U64) : ExitReceipt Term := { v, recipient := .atom 70, n := .atom 71 }

/-- Mint 100, burn 60 of it, take out 40 more. -/
def coveredRun : List (ManagerBlock Term ℕ) :=
  [mintBlock 1 5 100, exitBlock 2 10 60 (some (exitReceipt 60)), exitBlock 3 11 40 none]

/-- Mint 100, burn 60 of it, take out 60 more. -/
def overdrawnRun : List (ManagerBlock Term ℕ) :=
  [mintBlock 1 5 100, exitBlock 2 10 60 (some (exitReceipt 60)), exitBlock 3 11 60 none]

theorem pool_covers_iff_covered : (coveredRun.map (·.hash)).Nodup ∧
      ((∀ h ∈ ((start (.atom 0)).run Crypto.sample coveredRun).persisted,
          ((start (.atom 0)).run Crypto.sample coveredRun).stores.PoolCovers h) ↔
        ∀ before b, before ++ [b] <+: coveredRun →
          ((start (.atom 0)).run Crypto.sample before).Accepts Crypto.sample b →
            ((start (.atom 0)).run Crypto.sample before).WithinPool b) :=
  ⟨by decide, pool_covers_iff Crypto.sample (.atom 0) coveredRun (by decide)⟩

/-- The manager persists a block that takes out more than is left after an earlier burn. -/
theorem pool_overdrawn : ∃ blocks : List (ManagerBlock Term ℕ), (blocks.map (·.hash)).Nodup ∧
      (∀ b ∈ blocks, b.BurnsWithinFees) ∧
      ∃ h ∈ ((start (.atom 0)).run Crypto.sample blocks).persisted,
        ¬((start (.atom 0)).run Crypto.sample blocks).stores.PoolCovers h := by
  refine ⟨overdrawnRun, by decide, by decide, .atom 3, ?_, ?_⟩
  · decide +kernel
  · decide +kernel

end

end ManagerChain

end Zkas
