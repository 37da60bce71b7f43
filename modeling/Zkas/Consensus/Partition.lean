import Zkas.Consensus.PoolDelta

/-!
# The partition and the transition

The coinbase of a chain block is built from the transactions that `partition_applied` keeps, the
ledger from those that the state transition accepts. `applicableTxs` says in its own terms which
transactions a scan in order applies: the partition keeps exactly these, and the transition accepts
every one of them. -/

namespace Zkas

open NullifierConflictResolver

open Function (update)
open Word List Except

variable {H N G : Type} [DecidableEq H]

/-! ## What is applied -/

/-- A transaction can be applied after the nullifiers `used`: it spends nothing or its anchor is
final, and its nullifiers are distinct, not in the store, and not used. -/
def ShieldedTx.Applicable (store : Finset H) (anchor_final : ShieldedTx H N → Bool) (used : List H)
    (tx : ShieldedTx H N) : Prop :=
  (tx.nullifiers = [] ∨ anchor_final tx = true) ∧ tx.nullifiers.Nodup ∧
    ∀ nf ∈ tx.nullifiers, nf ∉ store ∧ nf ∉ used

instance ShieldedTx.decidableApplicable (store : Finset H) (anchor_final : ShieldedTx H N → Bool)
    (used : List H) : DecidablePred (ShieldedTx.Applicable (N := N) store anchor_final used) :=
  fun tx => inferInstanceAs (Decidable ((tx.nullifiers = [] ∨ anchor_final tx = true) ∧
    tx.nullifiers.Nodup ∧ ∀ nf ∈ tx.nullifiers, nf ∉ store ∧ nf ∉ used))

/-- The transactions that a scan in order applies. -/
def applicableTxs (store : Finset H) (anchor_final : ShieldedTx H N → Bool) (used : List H) :
    List (ShieldedTx H N) → List (ShieldedTx H N)
  | [] => []
  | tx :: txs =>
    if tx.Applicable store anchor_final used then
      tx :: applicableTxs store anchor_final (used ++ tx.nullifiers) txs
    else applicableTxs store anchor_final used txs

/-- The resolver has seen exactly the used nullifiers on top of the store. -/
structure ResolverAt (store : Finset H) (used : List H) (r : NullifierConflictResolver H) :
    Prop where
  finalized : r.finalized = (decide <| · ∈ store)
  seen : r.seen = used.toFinset

variable {r : NullifierConflictResolver H} {store : Finset H}

/-- The resolver accepts a transaction exactly if its nullifiers are distinct and free, and then it
has seen them as well. -/
theorem ResolverAt.tryAccept_iff {used : List H} (h : ResolverAt store used r) {nfs : List H}
    {r' : NullifierConflictResolver H} (hr : r.tryAccept nfs = .ok r') :
    (nfs.Nodup ∧ ∀ nf ∈ nfs, nf ∉ store ∧ nf ∉ used) ∧ ResolverAt store (used ++ nfs) r' := by
  obtain ⟨⟨hnodup, hfree⟩, rfl⟩ := tryAccept_spec.mp hr
  refine ⟨⟨hnodup, fun nf hnf => ?_⟩, h.finalized, ?_⟩
  · have hclear := hfree nf hnf
    rw [conflicts, h.finalized, h.seen] at hclear
    simpa using hclear
  · rw [h.seen, toFinset_append]

/-- A rejected transaction repeats a nullifier, or one of its nullifiers is not free. -/
theorem ResolverAt.not_free {used : List H}
    (h : ResolverAt store used r) {nfs : List H} {e : NullifierConflict H}
    (hr : r.tryAccept nfs = .error e) :
    ¬(nfs.Nodup ∧ ∀ nf ∈ nfs, nf ∉ store ∧ nf ∉ used) := by
  rintro ⟨hnodup, hfree⟩
  have hclear : ∀ nf ∈ nfs, r.conflicts nf = false := fun nf hnf => by
    rw [conflicts, h.finalized, h.seen]
    simpa using hfree nf hnf
  have hok := tryAccept_spec.mpr ⟨⟨hnodup, hclear⟩, rfl⟩
  rw [hr] at hok
  cases hok

variable (anchor_final : ShieldedTx H N → Bool)

theorem keptTxs_partitionFrom {used : List H} (h : ResolverAt store used r)
    (txs : List (ShieldedTx H N)) :
    keptTxs txs (partitionFrom anchor_final r txs) = applicableTxs store anchor_final used txs := by
  induction txs generalizing used r with
  | nil => rfl
  | cons tx txs ih =>
    have hanchor : (tx.nullifiers.isEmpty || anchor_final tx) = true ↔
        (tx.nullifiers = [] ∨ anchor_final tx = true) := by
      rw [Bool.or_eq_true, List.isEmpty_iff]
    unfold partitionFrom applicableTxs
    by_cases hok : (tx.nullifiers.isEmpty || anchor_final tx) = true
    · simp only [hok, if_true]
      cases hr : r.tryAccept tx.nullifiers with
      | ok r' =>
        obtain ⟨hfree, hnext⟩ := h.tryAccept_iff hr
        have happ : tx.Applicable store anchor_final used := ⟨hanchor.mp hok, hfree⟩
        rw [if_pos happ, ← ih hnext]
        rfl
      | error e =>
        have happ : ¬tx.Applicable store anchor_final used := fun happ => h.not_free hr happ.2
        rw [if_neg happ, ← ih h]
        rfl
    · have happ : ¬tx.Applicable store anchor_final used := fun happ => hok (hanchor.mpr happ.1)
      rw [if_neg happ, if_neg hok, ← ih h]
      rfl

/-- The anchor check of the partition. -/
def ShieldedTx.anchorOk (tx : ShieldedTx H N) : Bool := tx.nullifiers.isEmpty || anchor_final tx

theorem applicableTxs_filter (store : Finset H) (anchor_final : ShieldedTx H N → Bool)
    (used : List H) (txs : List (ShieldedTx H N)) :
    applicableTxs store anchor_final used (txs.filter (·.anchorOk anchor_final)) =
      applicableTxs store anchor_final used txs := by
  induction txs generalizing used with
  | nil => rfl
  | cons tx txs ih =>
    by_cases hok : tx.anchorOk anchor_final = true
    · rw [filter_cons_of_pos hok, applicableTxs, applicableTxs, ih, ih]
    · have happ : ¬tx.Applicable store anchor_final used := fun happ => hok (by
        rw [ShieldedTx.anchorOk, Bool.or_eq_true, List.isEmpty_iff]
        exact happ.1)
      rw [List.filter_cons_of_neg hok, applicableTxs, if_neg happ, ih]

/-! ## The transition on the kept transactions -/

/-- If the resolver accepts every transaction, the gathering loop accepts them all in order. -/
theorem gatherFrom_all {txs : List (ShieldedTx H N)} (hburn : ∀ tx ∈ txs, tx.burn = none) {i : ℕ}
    {g : Gathered H N} (hall : acceptInOrder g.resolver txs = txs) :
    ∃ g', gatherFrom i g txs = .ok g' ∧
      g'.accepted = g.accepted ++ (range txs.length).map (i + ·) := by
  induction txs generalizing i g with
  | nil => exact ⟨g, rfl, by simp⟩
  | cons tx txs ih =>
    have hcheck : tx.checkBurn = .ok () := by
      unfold ShieldedTx.checkBurn
      rw [hburn tx mem_cons_self]
    rw [acceptInOrder] at hall
    cases hr : g.resolver.tryAccept tx.nullifiers with
    | error e =>
      -- A rejected transaction would be missing from the accepted ones.
      rw [hr] at hall
      have hskip : acceptInOrder g.resolver txs = tx :: txs := hall
      have hlen := (acceptInOrder_sublist g.resolver txs).length_le
      rw [hskip, length_cons] at hlen
      omega
    | ok r =>
      rw [hr] at hall
      obtain ⟨g₁, hg₁, hres, hacc⟩ : ∃ g₁, gatherTx g i tx = .ok g₁ ∧ g₁.resolver = r ∧
          g₁.accepted = g.accepted ++ [i] := by
        unfold gatherTx
        rw [hcheck, ok_bind, hr]
        exact ⟨_, rfl, rfl, rfl⟩
      have hrest : acceptInOrder g₁.resolver txs = txs := by
        rw [hres]
        exact (cons.inj hall).2
      have hfree : ∀ x ∈ txs, x.burn = none := fun x hx => hburn x (mem_cons_of_mem _ hx)
      obtain ⟨g', hg', hacc'⟩ := ih hfree (i := i + 1) hrest
      refine ⟨g', by rw [gatherFrom, hg₁, ok_bind, hg'], ?_⟩
      have hshift : (range txs.length).map (i + 1 + ·) =
          ((range txs.length).map Nat.succ).map (i + ·) := by
        rw [map_map]
        exact map_congr_left fun j _ => by simp only [Function.comp_apply]; omega
      rw [hacc', hacc, length_cons, range_succ_eq_map, map_cons, hshift,
        append_assoc, singleton_append, Nat.add_zero]

/-- The transition of transactions that the resolver accepts lists them all as accepted. -/
theorem applyChainBlockTo_all {hf : HashFns H} {T : NoteTree H N} {finalized : H → Bool}
    {tree tree' : GlobalTree T} {supply supply' : SupplyLedger} {coinbase : Option (CoinbaseMint N)}
    {txs : List (ShieldedTx H N)} {burns burns' : BurnAccumulator H} {o : BlockShieldedOutcome H N}
    (hburn : ∀ tx ∈ txs, tx.burn = none) (hall : acceptInOrder (.new finalized) txs = txs)
    (h : applyChainBlockTo hf T finalized tree supply coinbase txs burns =
      .ok (o, tree', supply', burns')) : o.accepted = range txs.length := by
  unfold applyChainBlockTo at h
  simp only [bind_eq_ok_iff, mapError_eq_ok] at h
  obtain ⟨g, hg, s, -, t, -, ⟨⟩, -, heq⟩ := h
  obtain ⟨rfl, -⟩ := heq
  obtain ⟨g', hg', hacc⟩ := gatherFrom_all hburn (i := 0) (g :=
    { resolver := .new finalized, subtree := (mintNotes coinbase).map (·.commitment)
      accepted := [], total_fees := 0, total_burns := 0, burn_receipts := [] }) hall
  obtain rfl : g' = g := ok.inj (hg'.symm.trans hg)
  simpa using hacc

namespace ShieldedStores

variable [CommGroupWithZero G] {C : Crypto H N G} {s : ShieldedStores H G}

/-- A computed block of transactions without burns that the resolver accepts: all are accepted, and
the fees grow by theirs. -/
theorem compute_all {txs : List (ShieldedTx H N)} (hburn : ∀ tx ∈ txs, tx.burn = none)
    (hall : s.resolved txs = txs) {selected_parent : H} {coinbase : Option (CoinbaseMint N)}
    {c : ComputedBlockShielded H N G} (h : s.compute C selected_parent coinbase txs = .ok c) :
    c.outcome.accepted = range txs.length ∧ c.supply_totals.cumulative_fees.toNat =
        (s.supplyTotalsAt selected_parent).cumulative_fees.toNat + (txs.map (·.fee.toNat)).sum := by
  constructor
  · unfold compute at h
    simp only [bind_eq_ok_iff, mapError_eq_ok] at h
    obtain ⟨tree, -, ⟨o, tree', supply', burns'⟩, hblock, heq⟩ := h
    obtain rfl := ok.inj heq
    exact applyChainBlockTo_all hburn hall hblock
  · obtain ⟨tree, tree', supply', hspec⟩ := compute_spec h
    have hfees := hspec.totals.2.1
    have hzero : (txs.map (·.burnValue.toNat)).sum = 0 := by
      refine sum_eq_zero fun n hn => ?_
      obtain ⟨tx, htx, rfl⟩ := mem_map.mp hn
      rw [ShieldedTx.burnValue, hburn tx htx]
      rfl
    rw [hall, hzero] at hfees
    omega

end ShieldedStores

/-! ## Agreement -/

section

variable [CommGroupWithZero G]

/-- The transactions the partition keeps are those that a scan in order applies, whether or not the
ones with an anchor that is not final are offered, and the transition accepts every one of them.
When the transactions offered by the blocks of a mergeset are partitioned, the fees left in the
rewards of its mergeset are the transparent ones and those that the transition collects. -/
theorem partition_agrees (C : Crypto H N G) (s : ShieldedStores H G)
    (anchor_final : ShieldedTx H N → Bool) :
    (∀ txs : List (ShieldedTx H N), (∀ tx ∈ txs, tx.burn = none) →
      ∀ kept, kept = keptTxs txs (s.partitionApplied txs anchor_final) →
        kept = applicableTxs s.nullifiers anchor_final [] txs ∧
        kept = applicableTxs s.nullifiers anchor_final [] (txs.filter (·.anchorOk anchor_final)) ∧
        (∀ subtree, ∃ g, gatherFrom 0
          { resolver := .new (· ∈ s.nullifiers), subtree, accepted := [], total_fees := 0
            total_burns := 0, burn_receipts := [] } kept = .ok g ∧
          g.accepted = List.range kept.length) ∧
        (∀ tree supply coinbase burns o tree' supply' burns',
          applyChainBlockTo C.hf C.T (· ∈ s.nullifiers) tree supply coinbase kept burns =
            .ok (o, tree', supply', burns') → o.accepted = List.range kept.length) ∧
        ∀ selected_parent coinbase c, s.compute C selected_parent coinbase kept = .ok c →
          c.outcome.accepted = List.range kept.length) ∧
    ∀ (b : ChainBlockInput H) (ctx : UtxoProcessingContext H N),
      calculateUtxoState C s anchor_final b = .ok ctx →
        (∀ tx ∈ offeredTxs C.T b.merged, tx.burn = none) ∧
        ctx.shielded_txs = keptTxs (offeredTxs C.T b.merged)
          (s.partitionApplied (offeredTxs C.T b.merged) anchor_final) ∧
        ∀ selected_parent coinbase c,
          s.compute C selected_parent coinbase ctx.shielded_txs = .ok c →
            ((b.merged.map (·.hash)).map (feesOf ctx.mergeset_rewards)).sum =
              (b.merged.map (·.transparentFees)).sum + (c.supply_totals.cumulative_fees.toNat -
                  (s.supplyTotalsAt selected_parent).cumulative_fees.toNat) := by
  have hstart : ResolverAt s.nullifiers [] (.new (· ∈ s.nullifiers)) := ⟨rfl, rfl⟩
  have hall : ∀ txs, s.resolved (keptTxs txs (s.partitionApplied txs anchor_final)) =
      keptTxs txs (s.partitionApplied txs anchor_final) := fun txs =>
    acceptInOrder_keptTxs anchor_final _ txs
  refine ⟨fun txs hburn kept hkept => ?_, fun b ctx hctx => ?_⟩
  · have hfree : ∀ tx ∈ kept, tx.burn = none := fun tx htx =>
      hburn tx (mem_of_mem_keptTxs (hkept ▸ htx))
    have hres : acceptInOrder (.new (· ∈ s.nullifiers)) kept = kept := by
      rw [hkept]
      exact hall txs
    have hscan : kept = applicableTxs s.nullifiers anchor_final [] txs :=
      hkept.trans (keptTxs_partitionFrom anchor_final hstart txs)
    refine ⟨hscan, ?_, fun subtree => ?_, ?_, ?_⟩
    · rw [applicableTxs_filter]
      exact hscan
    · obtain ⟨g, hg, hacc⟩ := gatherFrom_all (i := 0) (g :=
        { resolver := .new (· ∈ s.nullifiers), subtree, accepted := [], total_fees := 0
          total_burns := 0, burn_receipts := [] }) hfree hres
      exact ⟨g, hg, by simpa using hacc⟩
    · intro tree supply coinbase burns o tree' supply' burns' h
      exact applyChainBlockTo_all hfree hres h
    · intro selected_parent coinbase c h
      exact (ShieldedStores.compute_all hfree hres h).1
  · obtain ⟨-, hburn, hkept, hfees⟩ := calculateUtxoState_eq_ok hctx
    refine ⟨hburn, hkept, fun selected_parent coinbase c h => ?_⟩
    have hfree : ∀ tx ∈ ctx.shielded_txs, tx.burn = none := fun tx htx =>
      hburn tx (mem_of_mem_keptTxs (hkept ▸ htx))
    have hres : s.resolved ctx.shielded_txs = ctx.shielded_txs := by
      rw [hkept]
      exact hall _
    have hgrown := (ShieldedStores.compute_all hfree hres h).2
    rw [hfees, hgrown, Nat.add_sub_cancel_left]

end

namespace Sample

open Symbolic

/-- A transaction that spends nullifier `nf` against the anchor `anchor`. -/
def spend (nf anchor : ℕ) (fee : U64) : ShieldedTx Term ℕ where
  nullifiers := [.atom nf]
  commitments := [6]
  fee
  anchor := .atom anchor
  burn := none
  anchor_block := none

/-- Three spends of one nullifier, the first against an anchor that is not final: the second is
kept, and the transition accepts it. Of two merged blocks with conflicting spends the first one's is
kept, and its fee is the one that the transition collects. -/
theorem partition_agrees_three : (keptTxs [spend 30 0 5, spend 30 1 7, spend 30 1 9]
        ((ShieldedStores.empty : ShieldedStores Term ℚ).partitionApplied
          [spend 30 0 5, spend 30 1 7, spend 30 1 9] fun tx => tx.anchor = .atom 1) =
        [spend 30 1 7] ∧
      ∃ g, gatherFrom 0
        { resolver := .new (· ∈ (∅ : Finset Term)), subtree := [], accepted := [], total_fees := 0
          total_burns := 0, burn_receipts := [] } [spend 30 1 7] = .ok g ∧ g.accepted = [0]) ∧
    ∃ ctx c, calculateUtxoState Crypto.sample sampleStores (fun _ => true) sampleBlock = .ok ctx ∧
      sampleStores.compute Crypto.sample (.atom 1) none ctx.shielded_txs = .ok c ∧
      (offeredTxs Crypto.sample.T sampleBlock.merged).length = 2 ∧
      ctx.shielded_txs.map (·.fee) = [10] ∧
      ((sampleBlock.merged.map (·.hash)).map (feesOf ctx.mergeset_rewards)).sum =
        0 + (c.supply_totals.cumulative_fees.toNat - 0) := by
  constructor
  · have hkept : [spend 30 1 7] = keptTxs [spend 30 0 5, spend 30 1 7, spend 30 1 9]
        ((ShieldedStores.empty : ShieldedStores Term ℚ).partitionApplied
          [spend 30 0 5, spend 30 1 7, spend 30 1 9] fun tx => tx.anchor = .atom 1) := by decide
    have hburn : ∀ tx ∈ [spend 30 0 5, spend 30 1 7, spend 30 1 9], tx.burn = none := by
      intro tx htx
      simp only [mem_cons, not_mem_nil, or_false] at htx
      rcases htx with rfl | rfl | rfl <;> rfl
    have hagree := (partition_agrees Crypto.sample (.empty : ShieldedStores Term ℚ)
      fun tx => decide (tx.anchor = .atom 1)).1 _ hburn _ hkept
    exact ⟨hkept.symm, hagree.2.2.1 []⟩
  · have hok :
      (calculateUtxoState Crypto.sample sampleStores (fun _ => true) sampleBlock >>= fun ctx =>
        (sampleStores.compute Crypto.sample (.atom 1) none ctx.shielded_txs).mapError
          fun _ => .panic).isOk := by decide +kernel
    obtain ⟨c, hc⟩ := exists_of_isOk hok
    obtain ⟨ctx, hctx, hcompute⟩ := bind_eq_ok_iff.mp hc
    have hcompute := mapError_eq_ok.mp hcompute
    obtain ⟨-, hkept, hfees⟩ :=
      (partition_agrees Crypto.sample sampleStores fun _ => true).2 sampleBlock ctx hctx
    refine ⟨ctx, c, hctx, hcompute, by decide +kernel, ?_, hfees (.atom 1) none c hcompute⟩
    rw [hkept]
    decide +kernel

end Sample

end Zkas
