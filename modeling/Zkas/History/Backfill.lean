import Zkas.History.Replay
import Zkas.Lib.PositionIndex

/-!
# Ingesting shielded history from a peer

Model of `backfill_shielded_history` of `consensus/src/consensus/mod.rs` over the stores it reads
and writes: the selected-chain index (`model/stores/selected_chain.rs`), the archive of scan records
(`model/stores/shielded.rs`), the compact headers and the backfill markers of
`model/stores/pruning_meta.rs`. A chunk names the anchor's index on the peer; the node re-numbers
its own index to that numbering, highest entry first, and writes the records at or below the anchor.
Sums of indexes and scores panic where a `u64` overflows. A cached store reads back what the current
batch has staged. -/

namespace Zkas.History

open List

variable {H : Type}

/-! ## The stores -/

/-- An accepted shielded transaction of a scan record. -/
structure ShieldedScanTx (H : Type) where
  txid : H
  /-- The transaction's compact actions, one after the other. -/
  action_bytes : List UInt8
  deriving DecidableEq

/-- The scan record of a chain block. -/
structure ShieldedScanBlockData (H : Type) where
  blue_score : ℕ
  daa_score : ℕ
  timestamp : ℕ
  coinbase_txid : H
  /-- The script and the value of each coinbase output. -/
  coinbase_outputs : List (List UInt8 × BitVec 64)
  /-- The note commitments of the outputs, or nothing. -/
  coinbase_commitments : List H
  accepted : List (ShieldedScanTx H)
  deriving DecidableEq

/-- The record of a chain block as it is served. -/
structure ShieldedChainBlockData (H : Type) where
  hash : H
  blue_score : ℕ
  daa_score : ℕ
  coinbase_txid : H
  coinbase_outputs : List (List UInt8 × BitVec 64)
  coinbase_commitments : List H
  /-- The compact actions of each accepted transaction. -/
  accepted_actions : List (List UInt8)
  accepted_txids : List H
  timestamp : ℕ
  deriving DecidableEq

variable (r : ShieldedChainBlockData H)

/-- The record that is stored for a served one. -/
def ShieldedChainBlockData.toScan : ShieldedScanBlockData H where
  blue_score := r.blue_score
  daa_score := r.daa_score
  timestamp := r.timestamp
  coinbase_txid := r.coinbase_txid
  coinbase_outputs := r.coinbase_outputs
  coinbase_commitments := r.coinbase_commitments
  accepted := r.accepted_actions.zipWith (fun action_bytes txid => { txid, action_bytes })
    r.accepted_txids

/-- The scores and the time of a header. -/
structure CompactHeaderData where
  blue_score : ℕ
  daa_score : ℕ
  timestamp : ℕ
  deriving DecidableEq

/-- The selected-chain index. -/
structure SelectedChain (H : Type) where
  /-- The blocks by index and the indexes by block. -/
  entries : PositionIndex H
  highest_index : Option ℕ

/-- The highest index and the block there. -/
def SelectedChain.getTip (c : SelectedChain H) : Option (ℕ × H) := do
  let index ← c.highest_index
  let hash ← c.entries.get index
  return (index, hash)

/-- The markers of a backfill. -/
structure PruningMeta (H : Type) where
  shielded_history_backfilled : Bool
  shielded_history_verified_base : Option H
  /-- The stored lowest block of the node's own, read through `shieldedHistoryOwnBase`. -/
  own_base : Option H

/-- The lowest block the node indexed itself, when part of its index is a peer's. -/
def PruningMeta.shieldedHistoryOwnBase (m : PruningMeta H) : Option H :=
  if m.shielded_history_backfilled then m.own_base.or m.shielded_history_verified_base else none

/-- The markers without a backfill. -/
def PruningMeta.cleared : PruningMeta H where
  shielded_history_backfilled := false
  shielded_history_verified_base := none
  own_base := none

/-- The part of a node's state that the backfill reads and writes. -/
structure Node (H : Type) where
  chain : SelectedChain H
  /-- The headers the node holds. -/
  headers : H → Option CompactHeaderData
  /-- The archive of scan records. -/
  scan : H → Option (ShieldedScanBlockData H)
  pruning_meta : PruningMeta H

/-- A sum of two `u64` values, if it is one. -/
def addU64 (a b : ℕ) : Option ℕ := if a + b < 2 ^ 64 then some (a + b) else none

theorem eq_of_addU64 {a b c : ℕ} (h : addU64 a b = some c) : c = a + b := by
  simp only [addU64, Option.ite_none_right_eq_some, Option.some.injEq] at h
  exact h.2.symm

/-! ## The checks of a chunk -/

/-- Why a chunk is refused. -/
inductive BackfillError (H : Type) where
  /-- The anchor is not in this node's chain index. -/
  | anchorNotIndexed (anchor : H)
  /-- The anchor needs a re-base but its header is not available. -/
  | anchorHeaderMissing (anchor : H)
  /-- A chain index can never exceed the blue score. -/
  | indexAboveBlueScore (anchor_index : ℕ) (anchor : H) (anchor_blue : ℕ)
  /-- The anchor has neither a header nor a record. -/
  | anchorScoresUnknown (anchor : H)
  /-- An index appears twice. -/
  | indexTwice (i : ℕ)
  /-- The scores do not rise along the chain. -/
  | scoresDoNotRise (i j : ℕ)
  /-- A block claims a blue score below its chain index. -/
  | blueScoreBelowIndex (hash : H) (index : ℕ)
  /-- A block disagrees with the anchor. -/
  | disagreesWithAnchor (hash : H) (index : ℕ) (anchor : H) (ours_from : ℕ)
  /-- The anchor's record disagrees with its known scores. -/
  | anchorScoresDisagree (anchor_scores : ℕ × ℕ)
  /-- A block below the anchor claims scores at or above it. -/
  | scoresAboveAnchor (hash : H)
  /-- A block disagrees with its header. -/
  | disagreesWithHeader (hash : H)
  /-- The chunk repeats a block. -/
  | repeatedBlock (hash : H)
  /-- A block is already in this node's chain index elsewhere. -/
  | indexedElsewhere (hash : H) (existing shift index : ℕ)
  /-- The commitments are not one per output. -/
  | commitmentCount (hash : H) (commitments outputs : ℕ)
  /-- An action blob is not a whole number of compact actions. -/
  | actionBlob (hash : H) (length : ℕ)
  deriving DecidableEq

/-- A record of a chunk with its chain index on the peer. -/
abbrev Entry (H : Type) := ℕ × ShieldedChainBlockData H

variable (n : Node H)

/-- The bound on the peer's claim when the index is to be re-numbered. -/
def Node.checkAnchorIndex (anchor : H) (anchor_index shift : ℕ) : Except (BackfillError H) Unit :=
  if shift = 0 then .ok ()
  else
    match n.headers anchor with
    | none => .error (.anchorHeaderMissing anchor)
    | some h =>
      if h.blue_score < anchor_index then
        .error (.indexAboveBlueScore anchor_index anchor h.blue_score)
      else .ok ()

/-- The blue score and the DAA score of the anchor, from its header or its record. -/
def Node.anchorScores (anchor : H) : Except (BackfillError H) (ℕ × ℕ) :=
  match n.headers anchor with
  | some h => .ok (h.blue_score, h.daa_score)
  | none =>
    match n.scan anchor with
    | some d => .ok (d.blue_score, d.daa_score)
    | none => .error (.anchorScoresUnknown anchor)

/-- Sort by index, entries of one index in the order given. -/
def sortByIndex (records : List (Entry H)) : List (Entry H) :=
  records.insertionSort fun a b => a.1 ≤ b.1

/-- The entries at or below the anchor, in the order of their indexes. -/
def placed (ours_from : ℕ) (records : List (Entry H)) : List (Entry H) :=
  sortByIndex (records.filter (·.1 ≤ ours_from))

/-- Along the chain no index repeats, the blue score rises and the DAA score does not fall. -/
def checkRising : List (Entry H) → Except (BackfillError H) Unit
  | a :: b :: rest =>
    if a.1 = b.1 then .error (.indexTwice a.1)
    else if b.2.blue_score ≤ a.2.blue_score ∨ b.2.daa_score < a.2.daa_score then
      .error (.scoresDoNotRise a.1 b.1)
    else checkRising (b :: rest)
  | _ => .ok ()

/-- The shape of a record: its commitments and its action blobs. -/
def checkShape : Except (BackfillError H) Unit :=
  if r.coinbase_commitments ≠ [] ∧ r.coinbase_commitments.length ≠ r.coinbase_outputs.length then
    .error (.commitmentCount r.hash r.coinbase_commitments.length r.coinbase_outputs.length)
  else
    match r.accepted_actions.find? (fun a => a.length % SERIALIZED_LEN ≠ 0) with
    | some bad => .error (.actionBlob r.hash bad.length)
    | none => .ok ()

/-- A block of the chunk that is indexed already must be so at the place the chunk gives it. -/
def Node.checkIndexed (shift : ℕ) (e : Entry H) : Except (Fault (BackfillError H)) Unit :=
  match n.chain.entries.find e.2.hash with
  | none => .ok ()
  | some existing => do
    -- `existing` is in this node's numbering, the entry's index in the peer's
    let index ← (addU64 existing shift).okOr .panic
    if index ≠ e.1 then .error (.err (.indexedElsewhere e.2.hash existing shift e.1)) else .ok ()

/-- The lowest block the node indexed itself, before the first chunk lands. -/
def Node.recordOwnBase : Option H :=
  if n.pruning_meta.shielded_history_backfilled then none else n.chain.entries.get 0

/-- The markers of a backfill that wrote index entries. -/
def PruningMeta.mark (m : PruningMeta H) (own_base : Option H) : PruningMeta H :=
  { m with shielded_history_backfilled := true, own_base := own_base.or m.own_base }

section

variable [DecidableEq H]

/-- The scores of one entry against its index, the anchor and the block's header. -/
def Node.checkScores (n : Node H) (anchor : H) (ours_from : ℕ) (anchor_scores : ℕ × ℕ)
    (e : Entry H) : Except (BackfillError H) Unit :=
  if e.2.blue_score < e.1 then .error (.blueScoreBelowIndex e.2.hash e.1)
  else if decide (e.1 = ours_from) ≠ decide (e.2.hash = anchor) then
    .error (.disagreesWithAnchor e.2.hash e.1 anchor ours_from)
  else if e.1 = ours_from ∧ (e.2.blue_score, e.2.daa_score) ≠ anchor_scores then
    .error (.anchorScoresDisagree anchor_scores)
  else if e.1 ≠ ours_from ∧
      (anchor_scores.1 ≤ e.2.blue_score ∨ anchor_scores.2 < e.2.daa_score) then
    .error (.scoresAboveAnchor e.2.hash)
  else
    match n.headers e.2.hash with
    | some h =>
      if (h.blue_score, h.daa_score) ≠ (e.2.blue_score, e.2.daa_score) then
        .error (.disagreesWithHeader e.2.hash)
      else .ok ()
    | none => .ok ()

/-- The refusals of single records, before anything is written. -/
def Node.checkRecords (n : Node H) (ours_from shift : ℕ) :
    List H → List (Entry H) → Except (Fault (BackfillError H)) Unit
  | _, [] => .ok ()
  | seen, e :: es =>
    if ours_from < e.1 then n.checkRecords ours_from shift seen es
    else if e.2.hash ∈ seen then .error (.err (.repeatedBlock e.2.hash))
    else do
      n.checkIndexed shift e
      (checkShape e.2).mapError .err
      n.checkRecords ours_from shift (e.2.hash :: seen) es

/-! ## The writes of a chunk -/

/-- Move the entries below `bound` up, the highest first. -/
def rebaseUp (shift : ℕ) : ℕ → PositionIndex H → Except (Fault (BackfillError H)) (PositionIndex H)
  | 0, t => .ok t
  | i + 1, t =>
    match t.get i with
    | some h => do
      let index ← (addU64 i shift).okOr .panic
      rebaseUp shift i (t.move i h index)
    | none => rebaseUp shift i t

/-- Re-number the node's index, if there is a shift. -/
def SelectedChain.rebase (c : SelectedChain H) (shift local_tip : ℕ) :
    Except (Fault (BackfillError H)) (SelectedChain H) :=
  if shift = 0 then .ok c
  else do
    let entries ← rebaseUp shift (local_tip + 1) c.entries
    let highest ← (addU64 local_tip shift).okOr .panic
    return { entries, highest_index := some highest }

/-- Write the index entry of a record below the anchor. The anchor's own entry is there already. -/
def Node.writeEntry (n : Node H) (ours_from : ℕ) (e : Entry H) : Node H :=
  if e.1 < ours_from then
    { n with chain := { n.chain with entries := n.chain.entries.write e.1 e.2.hash } }
  else n

/-- Store a record, unless the node holds one of this block. -/
def Node.persistBackfilledScan (n : Node H) (r : ShieldedChainBlockData H) : Node H :=
  if (n.scan r.hash).isNone then
    { n with scan := Function.update n.scan r.hash (some r.toScan) }
  else n

/-- Write one entry of a chunk. The counts are those of the index entries and of the records
written. -/
def writeRecord (ours_from : ℕ) : Node H × ℕ × ℕ → Entry H → Node H × ℕ × ℕ
  | (n, idx_written, rec_written), e =>
    if ours_from < e.1 then (n, idx_written, rec_written)
    else
      ((n.writeEntry ours_from e).persistBackfilledScan e.2,
        if e.1 < ours_from then idx_written + 1 else idx_written,
        if (n.scan e.2.hash).isNone then rec_written + 1 else rec_written)

/-- Write the entries of a chunk. -/
def writeRecords (ours_from : ℕ) (n : Node H) (records : List (Entry H)) : Node H × ℕ × ℕ :=
  records.foldl (writeRecord ours_from) (n, 0, 0)

/-- Ingest a chunk: the node after it, and the number of index entries and of records written. -/
def Node.backfillShieldedHistory (n : Node H) (anchor : H) (anchor_index : ℕ)
    (records : List (Entry H)) : Except (Fault (BackfillError H)) (Node H × ℕ × ℕ) :=
  if records = [] then .ok (n, 0, 0)
  else do
    let (local_tip, _) ← n.chain.getTip.okOr .panic
    let local_anchor_index ← (n.chain.entries.find anchor).okOr (.err (.anchorNotIndexed anchor))
    let shift := anchor_index - local_anchor_index
    (n.checkAnchorIndex anchor anchor_index shift).mapError .err
    let anchor_scores ← (n.anchorScores anchor).mapError .err
    (checkRising (placed anchor_index records)).mapError .err
    ((placed anchor_index records).forM
      (n.checkScores anchor anchor_index anchor_scores)).mapError .err
    n.checkRecords anchor_index shift [] records
    let chain ← n.chain.rebase shift local_tip
    let (n', idx_written, rec_written) := writeRecords anchor_index { n with chain } records
    if idx_written = 0 then return (n', idx_written, rec_written)
    else
      return ({ n' with pruning_meta := n'.pruning_meta.mark n.recordOwnBase },
        idx_written, rec_written)

end

/-! ## What an accepted chunk has been checked for -/

/-- From one record of the chain to a later one, the blue score rises and the DAA score does not
fall. -/
def Rises (a b : ShieldedChainBlockData H) : Prop :=
  a.blue_score < b.blue_score ∧ a.daa_score ≤ b.daa_score

theorem checkRising_eq_ok {es : List (Entry H)} :
    checkRising es = .ok () ↔ es.IsChain fun a b => a.1 ≠ b.1 ∧ Rises a.2 b.2 := by
  fun_induction checkRising es with
  | case1 a b rest heq => simp [heq]
  | case2 a b rest hne hfall =>
    have hnot : ¬ Rises a.2 b.2 := fun h => by
      have := h.1
      have := h.2
      omega
    simp [hnot]
  | case3 a b rest hne hrise ih =>
    have hrises : Rises a.2 b.2 := ⟨by omega, by omega⟩
    simp [ih, hne, hrises]
  | case4 es hshort =>
    match es, hshort with
    | [], _ => simp
    | [_], _ => simp
    | a :: b :: rest, hshort => exact absurd rfl (hshort a b rest)

variable {ours_from : ℕ}

theorem mem_placed {records : List (Entry H)} {e : Entry H} :
    e ∈ placed ours_from records ↔ e ∈ records ∧ e.1 ≤ ours_from := by
  rw [placed, sortByIndex, mem_insertionSort, mem_filter, decide_eq_true_eq]

theorem sortByIndex_sorted (records : List (Entry H)) :
    (sortByIndex records).Pairwise fun a b => a.1 ≤ b.1 := by
  exact pairwise_insertionSort _ records

/-- Along accepted entries the indexes and the blue scores rise and the DAA scores do not fall. -/
theorem placed_rising {records : List (Entry H)}
    (h : checkRising (placed ours_from records) = .ok ()) :
    (placed ours_from records).Pairwise fun a b => a.1 < b.1 ∧ Rises a.2 b.2 := by
  have hsorted := isChain_iff_getElem.mp
    (sortByIndex_sorted (records.filter (·.1 ≤ ours_from))).isChain
  have hchain := isChain_iff_getElem.mp (checkRising_eq_ok.mp h)
  have hstrict : (placed ours_from records).IsChain fun a b => a.1 < b.1 ∧ Rises a.2 b.2 :=
    isChain_iff_getElem.mpr fun i hi =>
      ⟨lt_of_le_of_ne (hsorted i hi) (hchain i hi).1, (hchain i hi).2⟩
  have htrans : IsTrans (Entry H) fun a b => a.1 < b.1 ∧ Rises a.2 b.2 :=
    ⟨fun a b c hab hbc => ⟨hab.1.trans hbc.1, hab.2.1.trans hbc.2.1, hab.2.2.trans hbc.2.2⟩⟩
  exact hstrict.pairwise

theorem Node.checkIndexed_eq_ok {n : Node H} {shift : ℕ} {e : Entry H} :
    n.checkIndexed shift e = .ok () ↔ ∀ existing, n.chain.entries.find e.2.hash = some existing →
        addU64 existing shift = some e.1 := by
  unfold Node.checkIndexed
  cases hfind : n.chain.entries.find e.2.hash with
  | none => simp
  | some existing =>
    cases hsum : addU64 existing shift with
    | none => simp [Option.okOr, hsum]
    | some index => simp [Option.okOr, hsum]

/-- The shape of a record as the check wants it. -/
def Shaped : Prop :=
  (r.coinbase_commitments = [] ∨ r.coinbase_commitments.length = r.coinbase_outputs.length) ∧
    ∀ a ∈ r.accepted_actions, a.length % SERIALIZED_LEN = 0

theorem checkShape_eq_ok {r : ShieldedChainBlockData H} : checkShape r = .ok () ↔ Shaped r := by
  unfold checkShape Shaped
  split_ifs with hcount
  · simp only [false_iff, not_and]
    exact fun h => absurd h (by tauto)
  · cases hfind : r.accepted_actions.find? (fun a => a.length % SERIALIZED_LEN ≠ 0) with
    | none =>
      rw [find?_eq_none] at hfind
      simp only [true_iff]
      exact ⟨by tauto, fun a ha => by simpa using hfind a ha⟩
    | some bad =>
      have hbad := find?_some hfind
      have hmem := mem_of_find?_eq_some hfind
      simp only [reduceCtorEq, false_iff, not_and]
      intro _ hall
      simp [hall bad hmem] at hbad

variable [DecidableEq H]

/-- The scores of an entry as the check wants them. -/
structure Node.Scored (anchor : H) (ours_from : ℕ) (anchor_scores : ℕ × ℕ)
    (e : Entry H) : Prop where
  index_le : e.1 ≤ e.2.blue_score
  /-- Only the anchor stands at the anchor's index. -/
  at_anchor : e.1 = ours_from ↔ e.2.hash = anchor
  scores_at : e.1 = ours_from → (e.2.blue_score, e.2.daa_score) = anchor_scores
  below : e.1 ≠ ours_from → e.2.blue_score < anchor_scores.1 ∧ e.2.daa_score ≤ anchor_scores.2
  header : ∀ h, n.headers e.2.hash = some h →
    (h.blue_score, h.daa_score) = (e.2.blue_score, e.2.daa_score)

theorem Node.checkScores_eq_ok {n : Node H} {anchor : H} {scores : ℕ × ℕ} {e : Entry H} :
    n.checkScores anchor ours_from scores e = .ok () ↔ n.Scored anchor ours_from scores e := by
  constructor
  · intro h
    unfold Node.checkScores at h
    split_ifs at h with hblue hat hscores hbelow
    have hiff : e.1 = ours_from ↔ e.2.hash = anchor := by
      rw [ne_eq, not_not, decide_eq_decide] at hat
      exact hat
    refine ⟨by omega, hiff, fun heq => ?_, fun hne => ?_, fun hd hhd => ?_⟩
    · exact not_not.mp fun hne => hscores ⟨heq, hne⟩
    · have hnot := fun hb => hbelow ⟨hne, hb⟩
      exact ⟨by omega, by omega⟩
    · rw [hhd] at h
      simp only [ite_eq_right_iff, reduceCtorEq, imp_false, not_not] at h
      exact h
  · intro h
    unfold Node.checkScores
    have hat : decide (e.1 = ours_from) = decide (e.2.hash = anchor) :=
      decide_eq_decide.mpr h.at_anchor
    rw [if_neg (by have := h.index_le; omega), if_neg (not_not.mpr hat),
      if_neg (fun hc => hc.2 (h.scores_at hc.1)), if_neg (fun hc => by have := h.below hc.1; omega)]
    cases hhd : n.headers e.2.hash with
    | none => rfl
    | some hd => exact if_neg (not_not.mpr (h.header hd hhd))

/-- The single records pass exactly when no placed block repeats and each passes. -/
theorem Node.checkRecords_eq_ok {n : Node H} {ours_from shift : ℕ} {seen : List H}
    {es : List (Entry H)} :
    n.checkRecords ours_from shift seen es = .ok () ↔
      ((es.filter (·.1 ≤ ours_from)).map (·.2.hash)).Nodup ∧
        ∀ e ∈ es, e.1 ≤ ours_from → e.2.hash ∉ seen ∧
          n.checkIndexed shift e = .ok () ∧ Shaped e.2 := by
  induction es generalizing seen with
  | nil => simp [Node.checkRecords]
  | cons e es ih =>
    unfold Node.checkRecords
    split_ifs with habove hseen
    · rw [ih, filter_cons_of_neg (by simpa using habove), forall_mem_cons]
      simp only [Nat.not_le.mpr habove, false_imp_iff, true_and]
    · simp only [false_iff, not_and]
      intro _ hall
      exact (hall e mem_cons_self (by omega)).1 hseen
    · have hplaced : e.1 ≤ ours_from := by omega
      rw [filter_cons_of_pos (by simpa using hplaced), map_cons, nodup_cons, forall_mem_cons]
      simp only [Except.bind_eq_ok_iff, Except.mapError_eq_ok, ih, ← checkShape_eq_ok, hplaced,
        true_imp_iff, hseen, not_false_eq_true, true_and, mem_cons, not_or]
      constructor
      · rintro ⟨_, hindexed, _, hshape, hnodup, hall⟩
        refine ⟨⟨fun hmem => ?_, hnodup⟩, ⟨hindexed, hshape⟩, fun e' he' hle => ?_⟩
        · obtain ⟨e', he', hhash⟩ := mem_map.mp hmem
          rw [mem_filter, decide_eq_true_eq] at he'
          exact (hall e' he'.1 he'.2).1.1 hhash
        · obtain ⟨⟨-, hseen'⟩, hrest⟩ := hall e' he' hle
          exact ⟨hseen', hrest⟩
      · rintro ⟨⟨hnotMem, hnodup⟩, ⟨hindexed, hshape⟩, hall⟩
        refine ⟨(), hindexed, (), hshape, hnodup, fun e' he' hle => ?_⟩
        obtain ⟨hseen', hrest⟩ := hall e' he' hle
        refine ⟨⟨fun hhash => hnotMem ?_, hseen'⟩, hrest⟩
        exact mem_map.mpr ⟨e', mem_filter.mpr ⟨he', by simpa using hle⟩, hhash⟩

end Zkas.History
