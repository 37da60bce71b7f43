import Zkas.Shielded.Burn
import Zkas.Shielded.Nullifier
import Zkas.Shielded.Tree

/-!
# The shielded state transition

Model of `shielded-core/src/state.rs`. `applyChainBlockTo` is the store-agnostic transition for one
accepted chain block: the coinbase notes and the transactions' effects are gathered while nullifier
conflicts are resolved, then committed to working copies of the ledger and the tree, which replace
the caller's only when every check passed. `applyChainBlockTo_spec` says once what a successful
block does. The 128-bit block sums of 64-bit amounts are natural numbers, since a block has fewer
than `2^64` notes and transactions. -/

namespace Zkas

open Word List Except SupplyLedger

variable {H N : Type}

/-- A transaction's shielded effects. -/
structure ShieldedTx (H N : Type) where
  /-- Nullifiers revealed by the transaction's actions. -/
  nullifiers : List H
  /-- Note commitments created by the transaction's actions. -/
  commitments : List N
  /-- Value leaving the pool, its burn part included. -/
  fee : U64
  /-- The anchor the bundle's spends prove against. -/
  anchor : H
  /-- An optional bridge peg-out. -/
  burn : Option (ExitReceipt H)
  /-- The block the spend names as the producer of the anchor. -/
  anchor_block : Option H
  deriving DecidableEq

/-- One note minted by a coinbase. -/
structure CoinbaseNote (N : Type) where
  /-- The public value of the note. -/
  value : U64
  /-- The note's commitment. -/
  commitment : N
  deriving DecidableEq

/-- A coinbase's mint: its notes in order. -/
structure CoinbaseMint (N : Type) where
  /-- The notes. -/
  notes : List (CoinbaseNote N)
  deriving DecidableEq

/-- Why a block's shielded effects were rejected. -/
inductive ShieldedStateError where
  /-- The turnstile was violated. -/
  | Turnstile (v : TurnstileViolation)
  /-- The note tree is full. -/
  | TreeFull
  /-- A burn exceeds the value its bundle proved is leaving the pool. -/
  | BurnExceedsValueBalance (burn value_balance : U64)
  deriving DecidableEq, Repr

/-- What a block did to the shielded state. -/
structure BlockShieldedOutcome (H N : Type) where
  /-- Indices of the accepted transactions. -/
  accepted : List ℕ
  /-- Nullifiers to insert, in acceptance order. -/
  new_nullifiers : List H
  /-- Leaves appended, in order. -/
  subtree : List N
  /-- The anchor after the block. -/
  anchor : N
  /-- Receipts recorded, in acceptance order. -/
  burn_receipts : List (ExitReceipt H)

/-- The part of a transaction's fee that is burned. -/
def ShieldedTx.burnValue (tx : ShieldedTx H N) : U64 := tx.burn.elim 0 (·.v)

/-- A burn may never exceed what the bundle proved is leaving the pool. -/
def ShieldedTx.checkBurn (tx : ShieldedTx H N) : Except ShieldedStateError Unit :=
  match tx.burn with
  | some receipt =>
    if tx.fee.toNat < receipt.v.toNat then .error (.BurnExceedsValueBalance receipt.v tx.fee)
    else .ok ()
  | none => .ok ()

/-- What the first phase collects from a block. -/
structure Gathered (H N : Type) where
  /-- The conflict resolver. -/
  resolver : NullifierConflictResolver H
  /-- Leaves to append. -/
  subtree : List N
  /-- Indices of the accepted transactions. -/
  accepted : List ℕ
  /-- Fees leaving the pool, burns apart. -/
  total_fees : ℕ
  /-- Value burned. -/
  total_burns : ℕ
  /-- Receipts of the accepted burns. -/
  burn_receipts : List (ExitReceipt H)

section

variable [DecidableEq H]

/-- The first phase's loop body for transaction `i`: a conflicting transaction is dropped and
records nothing. -/
def gatherTx (g : Gathered H N) (i : ℕ) (tx : ShieldedTx H N) :
    Except ShieldedStateError (Gathered H N) := do
  tx.checkBurn
  match g.resolver.tryAccept tx.nullifiers with
  | .ok resolver =>
    return {
      resolver
      subtree := g.subtree ++ tx.commitments
      accepted := g.accepted ++ [i]
      total_fees := g.total_fees + (tx.fee.toNat - tx.burnValue.toNat)
      total_burns := g.total_burns + tx.burnValue.toNat
      burn_receipts := g.burn_receipts ++ tx.burn.toList }
  | .error _ => return g

/-- The first phase's loop over the transactions from index `i`. -/
def gatherFrom (i : ℕ) (g : Gathered H N) :
    List (ShieldedTx H N) → Except ShieldedStateError (Gathered H N)
  | [] => .ok g
  | tx :: txs => do gatherFrom (i + 1) (← gatherTx g i tx) txs

end

variable (coinbase : Option (CoinbaseMint N))

/-- The notes of an optional coinbase mint. -/
def mintNotes : List (CoinbaseNote N) := coinbase.elim [] (·.notes)

/-- The total an optional coinbase mints. -/
def totalMint : ℕ := ((mintNotes coinbase).map (·.value.toNat)).sum

/-- `u64::try_from`, with an out-of-range total a violation. -/
def toU64 (n : ℕ) : Except TurnstileViolation U64 :=
  if n < 2 ^ 64 then .ok (BitVec.ofNat 64 n) else .error .Overflow

/-- Record an amount on the ledger by `op`, unless it is zero. -/
def recordAmount (op : SupplyLedger → U64 → Except TurnstileViolation SupplyLedger)
    (supply : SupplyLedger) (total : ℕ) : Except TurnstileViolation SupplyLedger :=
  if 0 < total then do op supply (← toU64 total) else .ok supply

/-- The ledger part of the second phase: mint, then fees, then burns. -/
def recordBlock (supply : SupplyLedger) (total_mint total_fees total_burns : ℕ) :
    Except TurnstileViolation SupplyLedger := do
  let supply ← recordAmount mintCoinbase supply total_mint
  let supply ← recordAmount collectFees supply total_fees
  recordAmount SupplyLedger.burn supply total_burns

variable [DecidableEq H] (hf : HashFns H) (T : NoteTree H N)

/-- Apply one accepted chain block against a finalized nullifier set. On success the outcome comes
with the caller's new tree, ledger and burn accumulator; on an error the caller's stay. -/
def applyChainBlockTo (finalized : H → Bool) (tree : GlobalTree T) (supply : SupplyLedger)
    (coinbase : Option (CoinbaseMint N)) (txs : List (ShieldedTx H N)) (burns : BurnAccumulator H) :
    Except ShieldedStateError
      (BlockShieldedOutcome H N × GlobalTree T × SupplyLedger × BurnAccumulator H) := do
  -- Phase 1: the coinbase's leaves first, then the accepted transactions' effects.
  let g ← gatherFrom 0
    { resolver := .new finalized
      subtree := (mintNotes coinbase).map (·.commitment)
      accepted := [], total_fees := 0, total_burns := 0, burn_receipts := [] } txs
  -- Phase 2: working copies.
  let new_supply ← (recordBlock supply (totalMint coinbase) g.total_fees g.total_burns).mapError
    .Turnstile
  let new_tree ← (tree.appendSubtree T g.subtree).mapError fun _ => .TreeFull
  new_supply.check.mapError .Turnstile
  return ({ accepted := g.accepted, new_nullifiers := g.resolver.accepted, subtree := g.subtree,
            anchor := new_tree.anchor T, burn_receipts := g.burn_receipts },
    new_tree, new_supply, burns.pushAll hf g.burn_receipts)

/-- The whole shielded state of one node, in memory. -/
structure ShieldedState where
  /-- Spent nullifiers. -/
  nullifiers : Finset H
  /-- The note-commitment tree. -/
  tree : GlobalTree T
  /-- The supply ledger. -/
  supply : SupplyLedger
  /-- The burn accumulator. -/
  burns : BurnAccumulator H

namespace ShieldedState

/-- The genesis state. -/
def new : ShieldedState T := { nullifiers := ∅, tree := .new T, supply := .new, burns := .new }

/-- Apply one accepted chain block: the state after the call and the call's result. -/
def applyChainBlock (s : ShieldedState T) (coinbase : Option (CoinbaseMint N))
    (txs : List (ShieldedTx H N)) :
    ShieldedState T × Except ShieldedStateError (BlockShieldedOutcome H N) :=
  match applyChainBlockTo hf T (· ∈ s.nullifiers) s.tree s.supply coinbase txs s.burns with
  | .ok (outcome, tree, supply, burns) =>
    ({ nullifiers := s.nullifiers ∪ outcome.new_nullifiers.toFinset, tree, supply, burns },
      .ok outcome)
  | .error e => (s, .error e)

end ShieldedState

/-! ## What a block does -/

section

variable {hf T}

/-- The transactions of `txs` an outcome lists as accepted, in order. -/
def acceptedTxs (txs : List (ShieldedTx H N)) (accepted : List ℕ) : List (ShieldedTx H N) :=
  accepted.filterMap (txs[·]?)

/-- The transactions a resolver accepts when they are offered in order. -/
def acceptInOrder (r : NullifierConflictResolver H) : List (ShieldedTx H N) → List (ShieldedTx H N)
  | [] => []
  | tx :: txs =>
    match r.tryAccept tx.nullifiers with
    | .ok r' => tx :: acceptInOrder r' txs
    | .error _ => acceptInOrder r txs

theorem acceptInOrder_sublist (r : NullifierConflictResolver H) (txs : List (ShieldedTx H N)) :
    (acceptInOrder r txs).Sublist txs := by
  induction txs generalizing r with
  | nil => exact List.Sublist.refl []
  | cons tx txs ih =>
    unfold acceptInOrder
    cases r.tryAccept tx.nullifiers with
    | ok r' => exact (ih r').cons_cons tx
    | error e => exact (ih r).cons tx

/-- What the gathering loop adds to its accumulators for the accepted transactions `acc`. -/
structure GatherSpec (g g' : Gathered H N) (acc : List (ShieldedTx H N)) : Prop where
  accepted : g'.resolver.accepted = g.resolver.accepted ++ acc.flatMap (·.nullifiers)
  subtree : g'.subtree = g.subtree ++ acc.flatMap (·.commitments)
  fees : g'.total_fees + g'.total_burns = g.total_fees + g.total_burns + (acc.map (·.fee.toNat)).sum
  burns : g'.total_burns = g.total_burns + (acc.map (·.burnValue.toNat)).sum
  receipts : g'.burn_receipts = g.burn_receipts ++ acc.flatMap (·.burn.toList)
  finalized : g'.resolver.finalized = g.resolver.finalized
  consistent : g.resolver.Consistent → g'.resolver.Consistent

omit [DecidableEq H] in
theorem ShieldedTx.burnValue_le {tx : ShieldedTx H N} (h : tx.checkBurn = .ok ()) :
    tx.burnValue.toNat ≤ tx.fee.toNat := by
  unfold checkBurn at h
  unfold burnValue
  cases hb : tx.burn with
  | none => simp
  | some r =>
    rw [hb] at h
    simp only at h
    split_ifs at h with hlt
    simpa using hlt

/-- One transaction is accepted with all its effects, or leaves the accumulators as they are. -/
theorem gatherTx_spec {g g' : Gathered H N} {i : ℕ} {tx : ShieldedTx H N}
    (h : gatherTx g i tx = .ok g') :
    (GatherSpec g g' [tx] ∧ g'.accepted = g.accepted ++ [i] ∧
        ∃ r, g.resolver.tryAccept tx.nullifiers = .ok r ∧ g'.resolver = r) ∨
      (g' = g ∧ ∃ e, g.resolver.tryAccept tx.nullifiers = .error e) := by
  unfold gatherTx at h
  rw [bind_eq_ok_iff] at h
  obtain ⟨⟨⟩, hburn, h⟩ := h
  have hle := ShieldedTx.burnValue_le hburn
  cases hacc : g.resolver.tryAccept tx.nullifiers with
  | error e =>
    rw [hacc] at h
    exact .inr ⟨(ok.inj h).symm, e, rfl⟩
  | ok r =>
    rw [hacc] at h
    obtain rfl := ok.inj h
    obtain ⟨-, hr⟩ := NullifierConflictResolver.tryAccept_spec.mp hacc
    refine .inl ⟨⟨?_, by simp, ?_, by simp, by simp, by rw [hr], fun hc => hc.tryAccept hacc⟩,
      rfl, r, rfl, rfl⟩
    · rw [hr]; simp
    · simp only [map_cons, map_nil, sum_cons, sum_nil]
      omega

theorem GatherSpec.trans {g₁ g₂ g₃ : Gathered H N} {a b : List (ShieldedTx H N)}
    (h₁ : GatherSpec g₁ g₂ a) (h₂ : GatherSpec g₂ g₃ b) : GatherSpec g₁ g₃ (a ++ b) where
  accepted := by rw [h₂.accepted, h₁.accepted, flatMap_append, append_assoc]
  subtree := by rw [h₂.subtree, h₁.subtree, flatMap_append, append_assoc]
  fees := by
    have e₁ := h₁.fees
    have e₂ := h₂.fees
    rw [map_append, sum_append]
    omega
  burns := by
    have e₁ := h₁.burns
    have e₂ := h₂.burns
    rw [map_append, sum_append]
    omega
  receipts := by rw [h₂.receipts, h₁.receipts, flatMap_append, append_assoc]
  finalized := by rw [h₂.finalized, h₁.finalized]
  consistent := fun hc => h₂.consistent (h₁.consistent hc)

theorem GatherSpec.refl (g : Gathered H N) : GatherSpec g g [] :=
  ⟨by simp, by simp, by simp, by simp, by simp, rfl, id⟩

/-- The gathering loop collects the effects of the transactions accepted in order, and records their
indices. -/
theorem gatherFrom_spec {txs : List (ShieldedTx H N)} {i : ℕ} {g g' : Gathered H N}
    (h : gatherFrom i g txs = .ok g') :
    GatherSpec g g' (acceptInOrder g.resolver txs) ∧
      ∃ idx : List ℕ, g'.accepted = g.accepted ++ idx.map (i + ·) ∧
        acceptedTxs txs idx = acceptInOrder g.resolver txs := by
  induction txs generalizing i g with
  | nil =>
    obtain rfl := ok.inj h
    exact ⟨GatherSpec.refl g, [], by simp, rfl⟩
  | cons tx txs ih =>
    rw [gatherFrom, bind_eq_ok_iff] at h
    obtain ⟨g₁, h₁, h₂⟩ := h
    obtain ⟨hspec, idx, hidx, hacc⟩ := ih h₂
    -- Indices into the tail are shifted by one in the whole list.
    have hshift : acceptedTxs (tx :: txs) (idx.map (· + 1)) = acceptedTxs txs idx := by
      simp [acceptedTxs, filterMap_map]
    have hmap : idx.map (i + 1 + ·) = (idx.map (· + 1)).map (i + ·) := by
      rw [map_map]
      exact map_congr_left fun j _ => by simp only [Function.comp_apply]; omega
    obtain ⟨hone, hi, r, hr, hres⟩ | ⟨rfl, e, he⟩ := gatherTx_spec h₁
    · have hcons : acceptInOrder g.resolver (tx :: txs) =
          [tx] ++ acceptInOrder g₁.resolver txs := by
        simp only [acceptInOrder, hr, hres, singleton_append]
      refine ⟨by rw [hcons]; exact hone.trans hspec, 0 :: idx.map (· + 1), ?_, ?_⟩
      · rw [hidx, hi, hmap, append_assoc]
        simp
      · rw [hcons, ← hacc, ← hshift]
        rfl
    · have hskip : acceptInOrder g₁.resolver (tx :: txs) = acceptInOrder g₁.resolver txs := by
        simp only [acceptInOrder, he]
      rw [hskip]
      exact ⟨hspec, idx.map (· + 1), by rw [hidx, hmap], by rw [hshift, hacc]⟩

theorem toU64_eq_ok {n : ℕ} {a : U64} (h : toU64 n = .ok a) : a.toNat = n := by
  unfold toU64 at h
  split_ifs at h with hn
  obtain rfl := ok.inj h
  rw [BitVec.toNat_ofNat, Nat.mod_eq_of_lt hn]

/-- Recording an amount moves one total, by that amount: `get` reads the total `op` moves and
`set` writes it. -/
theorem recordAmount_spec {op : SupplyLedger → U64 → Except TurnstileViolation SupplyLedger}
    (get : SupplyLedger → U128) (set : SupplyLedger → U128 → SupplyLedger)
    (hop : ∀ {s s' a}, op s a = .ok s' → (get s').toNat = (get s).toNat + a.toNat ∧
      s' = set s (get s')) (hset : ∀ s, set s (get s) = s)
    {s s' : SupplyLedger} {total : ℕ} (h : recordAmount op s total = .ok s') :
    (get s').toNat = (get s).toNat + total ∧ s' = set s (get s') := by
  unfold recordAmount at h
  split_ifs at h with hpos
  · obtain ⟨a, ha, hs⟩ := bind_eq_ok_iff.mp h
    obtain ⟨hsum, hset'⟩ := hop hs
    rw [toU64_eq_ok ha] at hsum
    exact ⟨hsum, hset'⟩
  · obtain rfl := ok.inj h
    exact ⟨by omega, (hset s).symm⟩

/-- Recording a block moves the three totals by the block's sums and leaves the peg-in total. -/
theorem recordBlock_spec {s s' : SupplyLedger} {mint fees burns : ℕ}
    (h : recordBlock s mint fees burns = .ok s') :
    s'.cumulative_coinbase.toNat = s.cumulative_coinbase.toNat + mint ∧
      s'.cumulative_fees.toNat = s.cumulative_fees.toNat + fees ∧
      s'.cumulative_burns.toNat = s.cumulative_burns.toNat + burns ∧
      s'.cumulative_pegged_in = s.cumulative_pegged_in := by
  obtain ⟨s₁, h₁, h⟩ := bind_eq_ok_iff.mp h
  obtain ⟨s₂, h₂, h₃⟩ := bind_eq_ok_iff.mp h
  obtain ⟨hm, e₁⟩ := recordAmount_spec (·.cumulative_coinbase)
    (fun s v => { s with cumulative_coinbase := v }) mintCoinbase_eq_ok
    (fun _ => rfl) h₁
  obtain ⟨hfee, e₂⟩ := recordAmount_spec (·.cumulative_fees)
    (fun s v => { s with cumulative_fees := v }) collectFees_eq_ok (fun _ => rfl) h₂
  obtain ⟨hb, e₃⟩ := recordAmount_spec (·.cumulative_burns)
    (fun s v => { s with cumulative_burns := v }) burn_eq_ok (fun _ => rfl) h₃
  rw [e₁] at hfee e₂
  rw [e₂] at hb e₃
  rw [e₃]
  exact ⟨hm, hfee, hb, rfl⟩

/-- What a successful block does, with `acc` its accepted transactions. -/
structure BlockSpec (finalized : H → Bool) (tree : GlobalTree T) (supply : SupplyLedger)
    (coinbase : Option (CoinbaseMint N)) (o : BlockShieldedOutcome H N)
    (acc : List (ShieldedTx H N)) (tree' : GlobalTree T) (supply' : SupplyLedger) : Prop where
  /-- The new nullifiers are those of the accepted transactions. -/
  new_nullifiers : o.new_nullifiers = acc.flatMap (·.nullifiers)
  /-- No nullifier is spent twice in the block. -/
  nodup : o.new_nullifiers.Nodup
  /-- No nullifier of the block was finalized before. -/
  fresh : ∀ nf ∈ o.new_nullifiers, finalized nf = false
  /-- The leaves are the mint's commitments, then those of the accepted transactions. -/
  subtree : o.subtree = (mintNotes coinbase).map (·.commitment) ++ acc.flatMap (·.commitments)
  /-- The leaves are appended to the tree. -/
  tree_eq : tree.appendSubtree T o.subtree = .ok tree'
  /-- The anchor is the one after the block. -/
  anchor : o.anchor = tree'.anchor T
  /-- The coinbase total grows by the mint. -/
  coinbase_eq : supply'.cumulative_coinbase.toNat =
    supply.cumulative_coinbase.toNat + totalMint coinbase
  /-- The exits grow by the accepted fees, their burn part included. -/
  exits_eq : supply'.cumulative_fees.toNat + supply'.cumulative_burns.toNat =
    supply.cumulative_fees.toNat + supply.cumulative_burns.toNat + (acc.map (·.fee.toNat)).sum
  /-- The burn total grows by the accepted burns. -/
  burns_eq : supply'.cumulative_burns.toNat =
    supply.cumulative_burns.toNat + (acc.map (·.burnValue.toNat)).sum
  /-- Nothing is pegged in. -/
  pegged_eq : supply'.cumulative_pegged_in = supply.cumulative_pegged_in
  /-- The turnstile holds after the block. -/
  check : supply'.check = .ok ()
  /-- The receipts are those of the accepted transactions. -/
  receipts : o.burn_receipts = acc.flatMap (·.burn.toList)

/-- A successful block does what `BlockSpec` says for the transactions accepted in order, lists
exactly these as accepted, and pushes their receipts. -/
theorem applyChainBlockTo_spec {finalized : H → Bool} {tree tree' : GlobalTree T}
    {supply supply' : SupplyLedger} {coinbase : Option (CoinbaseMint N)}
    {txs : List (ShieldedTx H N)} {burns burns' : BurnAccumulator H}
    {o : BlockShieldedOutcome H N}
    (h : applyChainBlockTo hf T finalized tree supply coinbase txs burns =
      .ok (o, tree', supply', burns')) :
    BlockSpec finalized tree supply coinbase o (acceptInOrder (.new finalized) txs) tree' supply' ∧
      acceptedTxs txs o.accepted = acceptInOrder (.new finalized) txs ∧
      burns' = burns.pushAll hf o.burn_receipts := by
  unfold applyChainBlockTo at h
  simp only [bind_eq_ok_iff, mapError_eq_ok] at h
  obtain ⟨g, hg, s, hs, t, ht, ⟨⟩, hcheck, heq⟩ := h
  obtain ⟨rfl, rfl, rfl, rfl⟩ := heq
  obtain ⟨hspec, idx, hidx, hacc⟩ := gatherFrom_spec hg
  have haccepted : g.accepted = idx := by rw [hidx]; simp
  obtain ⟨hc, hfee, hb, hpeg⟩ := recordBlock_spec hs
  have hcons := hspec.consistent (NullifierConflictResolver.new_consistent finalized)
  have hfees := hspec.fees
  have hburns := hspec.burns
  simp only [Nat.zero_add] at hfees hburns
  refine ⟨⟨?_, hcons.nodup, ?_, hspec.subtree, ht, rfl, hc, ?_, ?_, hpeg, hcheck, ?_⟩,
    by rw [haccepted]; exact hacc, rfl⟩
  · rw [hspec.accepted]; rfl
  · intro nf hnf
    have := hcons.fresh nf hnf
    rwa [hspec.finalized] at this
  · omega
  · omega
  · rw [hspec.receipts]; rfl

end

end Zkas
