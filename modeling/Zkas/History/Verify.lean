import Zkas.Consensus.UtxoValidation
import Zkas.History.Backfill

/-!
# Verifying the archive against the chain

Model of `verify_shielded_history` of `consensus/src/consensus/mod.rs`. The scores of the records
are checked along the chain index and against the past pruning points; then the archive is replayed
from index zero to the base, the coinbase commitments derived from the outputs, and the frontier and
the nullifier accumulator are compared with the ones the node holds at the base. Only where both
agree are the captured frontiers and the verified base stored. Batches, parallel derivation and
progress reports are left out. -/

namespace Zkas.History

open List Option Node

variable {H N G : Type}

/-- The functions a verification calls: the note tree, the nullifier accumulator, the coinbase
commitments, reading 32 bytes, and whether the coinbase seed holds the block hash at a DAA score. -/
structure ReplayFns (H N G : Type) where
  T : NoteTree H N
  mf : MuHashFns H G
  coinbase : CoinbaseNoteFns H N
  ofBytes : List UInt8 → H
  seed_active : ℕ → Bool

/-- What a verification reads and writes of a node. -/
structure Archive (H G : Type) where
  node : Node H
  stores : ShieldedStores H G
  /-- The past pruning points and the current one, with their headers. -/
  pruning_points : List (H × CompactHeaderData)

/-- Why a verification fails. -/
inductive MismatchReason (H : Type) where
  /-- The scores of the records do not rise along the chain. -/
  | scoresDoNotRise (li index : ℕ)
  /-- A past pruning point is not on the backfilled chain. -/
  | pruningPointMissing (pp_hash : H)
  /-- A past pruning point is indexed out of order. -/
  | pruningPointOrder (pp_hash : H) (index : ℕ)
  /-- The record of a past pruning point disagrees with its header. -/
  | pruningPointScores (pp_hash : H)
  /-- The archived nullifiers do not hash to the accumulator committed at the base. -/
  | nullifiers (base : H)
  /-- The replayed frontier is not the one anchored at the base. -/
  | frontier (leaves blocks size : ℕ) (base : H) (expected_size : ℕ)
  /-- The leaves are not replayable. -/
  | leaves (e : TreeStateError)

/-- Why a block cannot be replayed. -/
inductive SourceError (H : Type) where
  /-- The chain index has a gap. -/
  | gap (index : ℕ)
  /-- The coinbase commitments cannot be derived. -/
  | derivation (hash : H) (e : String)
  /-- The stored coinbase commitments disagree with the outputs. -/
  | commitments (hash : H)

/-- Why nothing can be verified. -/
inductive UnverifiableReason (H : Type) where
  /-- The base holds an empty shielded tree. -/
  | emptyTree (base : H)
  /-- The base is not in the chain index. -/
  | baseNotIndexed (base : H)
  /-- No history was backfilled below the base. -/
  | nothingBackfilled
  /-- A block cannot be replayed. -/
  | source (e : SourceError H)

/-- The outcome of a verification. -/
inductive ShieldedHistoryVerdict (H : Type) where
  | Verified (blocks leaves : ℕ)
  | Mismatch (reason : MismatchReason H)
  | Unverifiable (reason : UnverifiableReason H)

/-- A verdict against the archive, returned before the replay. -/
inductive Rejection (H : Type) where
  | mismatch (reason : MismatchReason H)
  | unverifiable (reason : UnverifiableReason H)

/-- The verdict of a rejection. -/
def Rejection.verdict : Rejection H → ShieldedHistoryVerdict H
  | .mismatch reason => .Mismatch reason
  | .unverifiable reason => .Unverifiable reason

/-! ## The scores -/

/-- The scores of the records at the given indexes, after the last record read. -/
def Node.checkRecordScores (n : Node H) : List ℕ → Option (ℕ × ℕ × ℕ) → Except (Rejection H) Unit
  | [], _ => .ok ()
  | index :: rest, last =>
    match n.chain.entries.get index with
    | none => .error (.unverifiable (.source (.gap index)))
    | some hash =>
      match n.scan hash with
      | none => n.checkRecordScores rest last
      | some d =>
        match last with
        | none => n.checkRecordScores rest (some (index, d.blue_score, d.daa_score))
        | some (li, lb, ld) =>
          if d.blue_score ≤ lb ∨ d.daa_score < ld then
            .error (.mismatch (.scoresDoNotRise li index))
          else n.checkRecordScores rest (some (index, d.blue_score, d.daa_score))

/-- The pruning points, after the index of the last one. -/
def Node.checkPruningPoints (n : Node H) (base_index : ℕ) :
    List (H × CompactHeaderData) → Option ℕ → Except (Rejection H) Unit
  | [], _ => .ok ()
  | (pp_hash, h) :: rest, last_pp_index =>
    match n.chain.entries.find pp_hash with
    | none => .error (.mismatch (.pruningPointMissing pp_hash))
    | some index =>
      if last_pp_index.any (index ≤ ·) then .error (.mismatch (.pruningPointOrder pp_hash index))
      else if index ≤ base_index ∧ (n.scan pp_hash).any (fun d =>
          (d.blue_score, d.daa_score) ≠ (h.blue_score, h.daa_score)) then
        .error (.mismatch (.pruningPointScores pp_hash))
      else n.checkPruningPoints base_index rest (some index)

/-! ## The replay of the archive -/

/-- Blocks between two captured frontiers. -/
def SHIELDED_REPLAY_CHECKPOINT_INTERVAL : ℕ := 1000

/-- The notes of a coinbase, from the scripts and the values of its outputs. -/
def coinbaseNotesFromOutputs (F : CoinbaseNoteFns H N) (coinbase_txid : H)
    (outputs : List (List UInt8 × U64)) (block_hash : Option H) :
    Except String (List (CoinbaseNote N)) :=
  coinbaseNotesFrom F coinbase_txid block_hash 0 (outputs.map fun o =>
    { value := o.2, script_public_key := { version := 0, script := o.1 } })

variable [DecidableEq H] (R : ReplayFns H N G)

/-- The block of the replay for the record `d` of the block `hash` at an index. -/
def ReplayFns.replayRecord (index : ℕ) (hash : H) (d : ShieldedScanBlockData H) :
    Except (SourceError H) (ReplayBlock H H) := do
  let seed_block := if R.seed_active d.daa_score then some hash else none
  let notes ← (coinbaseNotesFromOutputs R.coinbase d.coinbase_txid d.coinbase_outputs
    seed_block).mapError (.derivation hash)
  let coinbase := notes.map fun n => R.T.toBytes n.commitment
  if d.coinbase_commitments ≠ [] ∧ d.coinbase_commitments ≠ coinbase then
    .error (.commitments hash)
  else
    return {
      label := if index % SHIELDED_REPLAY_CHECKPOINT_INTERVAL = 0 then some hash else none
      coinbase
      accepted := d.accepted.map (·.action_bytes) }

/-- The block of the replay at an index. A block without a record has no leaves. -/
def ReplayFns.replayIndex (n : Node H) (index : ℕ) :
    Except (SourceError H) (ReplayBlock H H) := do
  let hash ← (n.chain.entries.get index).okOr (.gap index)
  match n.scan hash with
  | some d => R.replayRecord index hash d
  | none => return { label := none, coinbase := [], accepted := [] }

/-- The stream of the blocks up to an index. -/
def ReplayFns.stream (n : Node H) (base_index : ℕ) :
    List (Except (SourceError H) (ReplayBlock H H)) :=
  (range (base_index + 1)).map (R.replayIndex n)

/-- The archived nullifiers of the blocks that can be read. -/
def ReplayFns.archivedNullifiers (blocks : List (Except (SourceError H) (ReplayBlock H H))) :
    List H :=
  blocks.flatMap fun b => (b.toOption.map (·.nullifiers R.ofBytes)).getD []

/-! ## The verification -/

variable (a : Archive H G) (base : H)

/-- Store what a verified replay proved. -/
def Archive.persistVerified (checkpoints : List (H × FrontierState H)) : Archive H G :=
  { a with
    stores := { a.stores with
      tree_store := checkpoints.foldl (fun t c => Function.update t c.1 (some c.2))
        a.stores.tree_store }
    node := { a.node with
      pruning_meta := { a.node.pruning_meta with shielded_history_verified_base := some base } } }

variable [CommGroupWithZero G]

/-- Compare the replay up to `base_index` with what the node holds at the base. -/
def Archive.compareReplay (base_index : ℕ) : ShieldedHistoryVerdict H × Archive H G :=
  let blocks := R.stream a.node base_index
  match replayFrontierStreamingCapturing R.T R.ofBytes blocks with
  | .ok r =>
    if r.tree.toState R.T = a.stores.frontierAt base then
      if (MuHash.new.addAll R.mf (R.archivedNullifiers blocks)).finalize R.mf ≠
          (a.stores.nullifierMuhashAt base).finalize R.mf then
        (.Mismatch (.nullifiers base), a)
      else (.Verified (base_index + 1) r.leaves, a.persistVerified base r.checkpoints)
    else
      (.Mismatch (.frontier r.leaves (base_index + 1) (r.tree.toState R.T).size base
        (a.stores.frontierAt base).size), a)
  | .error (.data e) => (.Mismatch (.leaves e), a)
  | .error (.source e) => (.Unverifiable (.source e), a)

/-- Verify the archive up to a base. -/
def Archive.verifyShieldedHistory : ShieldedHistoryVerdict H × Archive H G :=
  if (a.stores.frontierAt base).size = 0 then (.Unverifiable (.emptyTree base), a)
  else
    match a.node.chain.entries.find base with
    | none => (.Unverifiable (.baseNotIndexed base), a)
    | some base_index =>
      if base_index = 0 then (.Unverifiable .nothingBackfilled, a)
      else
        match a.node.checkRecordScores (range (base_index + 1)) none with
        | .error rejection => (rejection.verdict, a)
        | .ok () =>
          match a.node.checkPruningPoints base_index a.pruning_points none with
          | .error rejection => (rejection.verdict, a)
          | .ok () => a.compareReplay R base base_index

/-! ## What the checks of the scores mean -/

section

omit [DecidableEq H] [CommGroupWithZero G]

/-- The record of the block at an index. -/
def Node.recordAt (n : Node H) (index : ℕ) : Option (ShieldedScanBlockData H) :=
  (n.chain.entries.get index).bind n.scan

/-- From one record to a later one, the blue score rises and the DAA score does not fall. -/
def ScoresRise (d d' : ShieldedScanBlockData H) : Prop :=
  d.blue_score < d'.blue_score ∧ d.daa_score ≤ d'.daa_score

/-- The scores pass exactly when the index has no gap and the scores rise from record to record. -/
theorem Node.checkRecordScores_eq_ok {n : Node H} {is : List ℕ} {last : Option (ℕ × ℕ × ℕ)} :
    n.checkRecordScores is last = .ok () ↔ (∀ i ∈ is, n.chain.entries.get i ≠ none) ∧
        (is.filterMap n.recordAt).Pairwise ScoresRise ∧
        ∀ l ∈ last, ∀ d ∈ is.filterMap n.recordAt, l.2.1 < d.blue_score ∧ l.2.2 ≤ d.daa_score := by
  induction is generalizing last with
  | nil => simp [checkRecordScores]
  | cons i is ih =>
    cases hget : n.chain.entries.get i with
    | none => simp [checkRecordScores, hget]
    | some hash =>
      cases hscan : n.scan hash with
      | none =>
        have hrec : n.recordAt i = none := by simp [recordAt, hget, hscan]
        simp only [checkRecordScores, hget, hscan, ih, filterMap_cons_none hrec,
          forall_mem_cons, ne_eq, reduceCtorEq, not_false_eq_true, true_and]
      | some d =>
        have hrec : n.recordAt i = some d := by simp [recordAt, hget, hscan]
        rw [filterMap_cons_some hrec, pairwise_cons, forall_mem_cons]
        cases last with
        | none =>
          simp only [checkRecordScores, hget, hscan, ih, mem_def, some.injEq, forall_eq',
            reduceCtorEq, false_imp_iff, implies_true, and_true, ne_eq, not_false_eq_true, true_and]
          exact and_congr_right fun _ => and_comm
        | some l =>
          obtain ⟨li, lb, ld⟩ := l
          simp only [checkRecordScores, hget, hscan, mem_def, some.injEq,
            forall_eq', forall_mem_cons, ne_eq, reduceCtorEq, not_false_eq_true, true_and]
          split_ifs with hfall
          · simp only [false_iff, not_and]
            omega
          · rw [ih]
            simp only [mem_def, some.injEq, forall_eq']
            constructor
            · rintro ⟨hgaps, hrise, hlast⟩
              refine ⟨hgaps, ⟨fun d' hd' => hlast d' hd', hrise⟩, by omega, fun d' hd' => ?_⟩
              obtain ⟨hb, hd⟩ := hlast d' hd'
              omega
            · rintro ⟨hgaps, ⟨hhead, hrise⟩, -, -⟩
              exact ⟨hgaps, hrise, fun d' hd' => hhead d' hd'⟩

/-- A pruning point is indexed, and a record it has at or below the base has its header's scores. -/
def Node.PruningPointAt (n : Node H) (base_index : ℕ) (p : H × CompactHeaderData) (i : ℕ) : Prop :=
  n.chain.entries.find p.1 = some i ∧ (i ≤ base_index → ∀ d, n.scan p.1 = some d →
    (d.blue_score, d.daa_score) = (p.2.blue_score, p.2.daa_score))

/-- The pruning points pass exactly when each is indexed above the one before it and agrees with its
header. -/
theorem Node.checkPruningPoints_eq_ok {n : Node H} {base_index : ℕ}
    {pps : List (H × CompactHeaderData)} {last : Option ℕ} :
    n.checkPruningPoints base_index pps last = .ok () ↔
      ∃ is, List.Forall₂ (n.PruningPointAt base_index) pps is ∧
        (last.toList ++ is).Pairwise (· < ·) := by
  induction pps generalizing last with
  | nil => cases last <;> simp [checkPruningPoints]
  | cons p pps ih =>
    obtain ⟨pp_hash, h⟩ := p
    cases hfind : n.chain.entries.find pp_hash with
    | none =>
      simp only [checkPruningPoints, hfind, reduceCtorEq, false_iff, not_exists, not_and]
      intro is his
      obtain ⟨i, is', hi, -, -⟩ := forall₂_cons_left_iff.mp his
      rw [PruningPointAt, hfind] at hi
      exact absurd hi.1.symm (some_ne_none i)
    | some index =>
      simp only [checkPruningPoints, hfind]
      -- the pruning point itself passes: it is above the last one and agrees with its header
      have hhead : n.PruningPointAt base_index (pp_hash, h) index ↔
          ¬ (index ≤ base_index ∧ (n.scan pp_hash).any (fun d =>
            (d.blue_score, d.daa_score) ≠ (h.blue_score, h.daa_score)) = true) := by
        cases hscan : n.scan pp_hash <;> simp [PruningPointAt, hfind, hscan]
      have hunique : ∀ i, n.PruningPointAt base_index (pp_hash, h) i → i = index := fun i hi =>
        mem_unique hi.1 hfind
      have hlast : last.any (index ≤ ·) = true ↔ ∃ l, last = some l ∧ index ≤ l := by
        cases last <;> simp
      split_ifs with horder hscores
      · simp only [false_iff, not_exists, not_and]
        intro is his hsorted
        obtain ⟨i, is', hi, -, rfl⟩ := forall₂_cons_left_iff.mp his
        obtain rfl := hunique i hi
        obtain ⟨l, rfl, hle⟩ := hlast.mp horder
        have hlt := (pairwise_append.mp hsorted).2.2 l (by simp) i mem_cons_self
        omega
      · simp only [false_iff, not_exists, not_and]
        intro is his _
        obtain ⟨i, is', hi, -, rfl⟩ := forall₂_cons_left_iff.mp his
        obtain rfl := hunique i hi
        exact hhead.mp hi hscores
      · rw [ih]
        have habove : ∀ l ∈ last, l < index := fun l hl => by
          by_contra hle
          exact horder (hlast.mpr ⟨l, hl, by omega⟩)
        constructor
        · rintro ⟨is, his, hsorted⟩
          refine ⟨index :: is, .cons (hhead.mpr hscores) his, ?_⟩
          rw [toList_some, singleton_append, pairwise_cons] at hsorted
          refine pairwise_append.mpr ⟨by cases last <;> simp, ?_, fun l hl i hi => ?_⟩
          · exact pairwise_cons.mpr hsorted
          · have hl' := habove l (mem_toList.mp hl)
            rcases mem_cons.mp hi with rfl | hi
            · exact hl'
            · exact hl'.trans (hsorted.1 i hi)
        · rintro ⟨is, his, hsorted⟩
          obtain ⟨i, is', hi, his', rfl⟩ := forall₂_cons_left_iff.mp his
          obtain rfl := hunique i hi
          exact ⟨is', his', (pairwise_append.mp hsorted).2.1⟩

end

/-! ## What a verdict proves -/

theorem Archive.verify_eq_verified {a : Archive H G} {base : H} {blocks leaves : ℕ} :
    (a.verifyShieldedHistory R base).1 = .Verified blocks leaves ↔
      (a.stores.frontierAt base).size ≠ 0 ∧
      ∃ k, a.node.chain.entries.find base = some k ∧ k ≠ 0 ∧
        a.node.checkRecordScores (range (k + 1)) none = .ok () ∧
        a.node.checkPruningPoints k a.pruning_points none = .ok () ∧
        ∃ r, replayFrontierStreamingCapturing R.T R.ofBytes (R.stream a.node k) = .ok r ∧
          r.tree.toState R.T = a.stores.frontierAt base ∧
          (MuHash.new.addAll R.mf (R.archivedNullifiers (R.stream a.node k))).finalize R.mf =
            (a.stores.nullifierMuhashAt base).finalize R.mf ∧
          blocks = k + 1 ∧ leaves = r.leaves := by
  have hreject : ∀ r : Rejection H, r.verdict ≠ .Verified blocks leaves := fun r => by
    cases r <;> simp [Rejection.verdict]
  unfold Archive.verifyShieldedHistory
  constructor
  · intro h
    split_ifs at h with hempty
    refine ⟨hempty, ?_⟩
    split at h
    · cases h
    · rename_i k hk
      split_ifs at h with hzero
      refine ⟨k, hk, hzero, ?_⟩
      split at h
      · exact absurd h (hreject _)
      · rename_i hscores
        refine ⟨hscores, ?_⟩
        split at h
        · exact absurd h (hreject _)
        · rename_i hpps
          refine ⟨hpps, ?_⟩
          simp only [Archive.compareReplay] at h
          split at h
          · rename_i r hr
            split_ifs at h with hstate hnull
            cases h
            exact ⟨r, hr, hstate, not_not.mp hnull, rfl, rfl⟩
          · cases h
          · cases h
  · rintro ⟨hempty, k, hk, hzero, hscores, hpps, r, hr, hstate, hnull, rfl, rfl⟩
    simp only [if_neg hempty, hk, if_neg hzero, hscores, hpps, Archive.compareReplay, hr,
      if_pos hstate, hnull, ne_eq, not_true_eq_false, if_false]

omit [DecidableEq H] [CommGroupWithZero G] in
theorem ReplayFns.archivedNullifiers_map_ok (items : List (ReplayBlock H H)) :
    R.archivedNullifiers (items.map .ok) = items.flatMap (·.nullifiers R.ofBytes) := by
  rw [ReplayFns.archivedNullifiers, flatMap_map]
  rfl

/-- The node holds the chain's own state at a base: the frontier of its leaves and the accumulator
of its nullifiers. -/
structure Archive.HoldsChainState (leaves : List N)
    (nullifiers : List H) : Prop where
  frontier : ∃ tree, (GlobalTree.new R.T).appendSubtree R.T leaves = .ok tree ∧
    a.stores.frontierAt base = tree.toState R.T
  muhash : a.stores.nullifierMuhashAt base = MuHash.new.addAll R.mf nullifiers

/-- What is proven of the archive of a node up to its base at index `k`: the leaves of the records,
in the order of their indexes, are the chain's, their nullifiers are the chain's, their scores rise,
and the pruning points are in their places. -/
structure Archive.Proven (leaves : List N) (nullifiers : List H)
    (k : ℕ) : Prop where
  base_at : a.node.chain.entries.find base = some k
  replayed : ∃ blocks, (range (k + 1)).mapM (R.replayIndex a.node) = .ok blocks ∧
    blocks.flatMap (·.leaves R.ofBytes) = leaves.map R.T.toBytes ∧
    (blocks.flatMap (·.nullifiers R.ofBytes)).Perm nullifiers
  rising : ∀ i j, i < j → j ≤ k → ∀ d ∈ a.node.recordAt i, ∀ d' ∈ a.node.recordAt j, ScoresRise d d'
  pruning_points : ∃ is, List.Forall₂ (a.node.PruningPointAt k) a.pruning_points is ∧
    is.Pairwise (· < ·)

variable {R}

/-- Soundness: a verified archive is the chain's, whatever the index and the records were. -/
theorem Archive.proven_of_verified (hT : R.T.Spec)
    (hinj : ∀ lvl, Function.Injective2 (R.T.combine lvl)) (hmf : R.mf.Injective)
    {a : Archive H G} {base : H} {leaves : List N} {nullifiers : List H} {blocks count : ℕ}
    (hchain : a.HoldsChainState R base leaves nullifiers)
    (h : (a.verifyShieldedHistory R base).1 = .Verified blocks count) :
    ∃ k, a.Proven R base leaves nullifiers k := by
  obtain ⟨-, k, hk, -, hscores, hpps, r, hr, hstate, hnull, -, -⟩ :=
    (Archive.verify_eq_verified R).mp h
  obtain ⟨items, cs, hitems, hcs, happ, -⟩ := foldlM_block_eq_ok hr
  obtain ⟨tree, htree, hfrontier⟩ := hchain.frontier
  refine ⟨k, hk, ⟨items, ?_, ?_, ?_⟩, fun i j hij hj d hd d' hd' => ?_, ?_⟩
  · rw [Except.mapM_eq_ok_iff]
    have hforall : List.Forall₂ Eq ((range (k + 1)).map (R.replayIndex a.node))
        (items.map .ok) := by
      rw [← ReplayFns.stream, hitems]
      exact forall₂_refl _
    rwa [forall₂_map_left_iff, forall₂_map_right_iff] at hforall
  · -- the snapshot pins down the leaves
    have hleaves : cs = leaves :=
      GlobalTree.leaves_of_toState hT hinj happ htree (hstate.trans hfrontier)
    rw [← hleaves]
    exact (map_toBytes_of_mapM_fromBytes hT).mp hcs
  · rw [hitems, ReplayFns.archivedNullifiers_map_ok, hchain.muhash] at hnull
    exact MuHash.perm_of_addAll hmf (MuHash.eq_of_finalize hmf (by simp [MuHash.new])
      (by simp [MuHash.new]) hnull)
  · have hpairs := pairwise_filterMap.mp (checkRecordScores_eq_ok.mp hscores).2.1
    have hij' := pairwise_iff_getElem.mp hpairs i j (by simp; omega) (by simp; omega) hij
    simp only [getElem_range] at hij'
    exact hij' d hd d' hd'
  · obtain ⟨is, his, hsorted⟩ := checkPruningPoints_eq_ok.mp hpps
    exact ⟨is, his, hsorted⟩

end Zkas.History
