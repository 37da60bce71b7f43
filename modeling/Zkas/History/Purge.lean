import Zkas.History.Backfill

/-!
# Discarding a backfilled range

Model of `purge_backfilled_shielded_history` of `consensus/src/consensus/mod.rs`: the index entries
and the scan records below the base are deleted in lockstep, the remaining entries are moved down in
ascending order, and the backfill is forgotten. The base is the node's own lowest block where the
markers know it, and otherwise the block the caller names. -/

namespace Zkas.History

open Node

variable {H : Type} [DecidableEq H]

/-- Why a purge fails. -/
inductive PurgeError where
  /-- The tip of the chain index cannot be read. -/
  | chainTip
  deriving DecidableEq

variable (n : Node H)

/-- Delete the scan record of a block, if there is one, and count it. -/
def Node.deleteBackfilledScan (hash : H) (discarded : ℕ) : Node H × ℕ :=
  if (n.scan hash).isSome then
    ({ n with scan := Function.update n.scan hash none }, discarded + 1)
  else (n, discarded)

/-- Delete an index entry. -/
def Node.deleteEntry (index : ℕ) (hash : H) : Node H :=
  { n with chain := { n.chain with entries := n.chain.entries.delete index hash } }

/-- Drop the records and the index entries of the `m` indexes from `index` on, in lockstep. -/
def Node.dropRange : ℕ → ℕ → Node H → ℕ → Node H × ℕ
  | 0, _, n, discarded => (n, discarded)
  | m + 1, index, n, discarded =>
    match n.chain.entries.get index with
    | some hash =>
      let dropped := n.deleteBackfilledScan hash discarded
      dropRange m (index + 1) (dropped.1.deleteEntry index hash) dropped.2
    | none => dropRange m (index + 1) n discarded

/-- Discard the backfilled range: the node after it, and the number of records discarded. -/
def Node.purgeShieldedHistoryBelow (base : H) : Except (Fault PurgeError) (Node H × ℕ) :=
  let own_base := n.pruning_meta.shieldedHistoryOwnBase
  match n.chain.entries.find (own_base.getD base) with
  | none => .ok (n, 0)
  | some 0 =>
    -- nothing below the base: only an unverified backfill is forgotten
    if (own_base.isSome ∨ n.pruning_meta.shielded_history_backfilled) ∧
        n.pruning_meta.shielded_history_verified_base.isNone then
      .ok ({ n with pruning_meta := .cleared }, 0)
    else .ok (n, 0)
  | some base_index => do
    let (tip, _) ← n.chain.getTip.okOr (.err .chainTip)
    let (n', discarded) := dropRange base_index 0 n 0
    let entries := n'.chain.entries.lower base_index (tip + 1 - base_index) base_index
    let highest ← (if base_index ≤ tip then some (tip - base_index) else none).okOr .panic
    return ({ n' with chain := { entries, highest_index := some highest },
                      pruning_meta := .cleared }, discarded)

/-! ## What a purge leaves -/

/-- What dropping the indexes from `lo` to below `hi` leaves of a node. -/
structure Dropped (lo hi : ℕ) (n n' : Node H) : Prop where
  consistent : n'.chain.entries.Consistent
  get_in : ∀ {i}, lo ≤ i → i < hi → n'.chain.entries.get i = none
  get_out : ∀ {i}, i < lo ∨ hi ≤ i → n'.chain.entries.get i = n.chain.entries.get i
  scan_in : ∀ {i h}, lo ≤ i → i < hi → n.chain.entries.get i = some h → n'.scan h = none
  scan_out : ∀ {h}, (∀ i, lo ≤ i → i < hi → n.chain.entries.get i ≠ some h) → n'.scan h = n.scan h
  highest : n'.chain.highest_index = n.chain.highest_index
  headers : n'.headers = n.headers

theorem Node.deleteBackfilledScan_eq (hash : H) (discarded : ℕ) :
    (n.deleteBackfilledScan hash discarded).1 =
      { n with scan := Function.update n.scan hash none } := by
  unfold deleteBackfilledScan
  split_ifs with hsome
  · rfl
  · have hnone : n.scan hash = none := Option.not_isSome_iff_eq_none.mp hsome
    rw [← hnone, Function.update_eq_self]

theorem dropped_step {n : Node H} {index : ℕ} {hash : H} (hcons : n.chain.entries.Consistent)
    (hget : n.chain.entries.get index = some hash) (discarded : ℕ) :
    Dropped index (index + 1) n
      ((n.deleteBackfilledScan hash discarded).1.deleteEntry index hash) := by
  rw [deleteBackfilledScan_eq]
  refine ⟨hcons.delete hget, fun {i} hlo hhi => ?_, fun {i} hout => ?_,
    fun {i h} hlo hhi hih => ?_, fun {h} hout => ?_, rfl, rfl⟩
  · have heq : i = index := by omega
    exact (PositionIndex.get_delete ..).trans (if_pos heq)
  · exact (PositionIndex.get_delete ..).trans (if_neg (by omega))
  · have heq : i = index := by omega
    rw [heq, hget] at hih
    rw [← Option.some.inj hih]
    exact Function.update_self ..
  · have hne : h ≠ hash := fun heq => hout index le_rfl (Nat.lt_succ_self _) (heq ▸ hget)
    exact Function.update_of_ne hne ..

omit [DecidableEq H] in
theorem Dropped.trans {lo mid hi : ℕ} {n n₁ n₂ : Node H} (hlo : lo ≤ mid) (hhi : mid ≤ hi)
    (h₁ : Dropped lo mid n n₁) (h₂ : Dropped mid hi n₁ n₂) : Dropped lo hi n n₂ := by
  refine ⟨h₂.consistent, fun {i} hli hih => ?_, fun {i} hout => ?_, fun {i h} hli hih hget => ?_,
    fun {h} hout => ?_, h₂.highest.trans h₁.highest, h₂.headers.trans h₁.headers⟩
  · by_cases hmid : i < mid
    · rw [h₂.get_out (.inl hmid)]
      exact h₁.get_in hli hmid
    · exact h₂.get_in (by omega) hih
  · rw [h₂.get_out (by omega), h₁.get_out (by omega)]
  · by_cases hmid : i < mid
    · -- the second part does not touch the record dropped by the first
      have hnone : n₁.scan h = none := h₁.scan_in hli hmid hget
      by_cases hfound : ∃ j, mid ≤ j ∧ j < hi ∧ n₁.chain.entries.get j = some h
      · obtain ⟨j, hmj, hjh, hj⟩ := hfound
        exact h₂.scan_in hmj hjh hj
      · rw [h₂.scan_out fun j hmj hjh hj => hfound ⟨j, hmj, hjh, hj⟩]
        exact hnone
    · exact h₂.scan_in (i := i) (by omega) hih (by rw [h₁.get_out (by omega)]; exact hget)
  · rw [h₂.scan_out fun i hmi hih => ?_, h₁.scan_out fun i hli him => hout i hli (by omega)]
    rw [h₁.get_out (by omega)]
    exact hout i (by omega) hih

theorem dropRange_dropped {m index : ℕ} {n : Node H} (hcons : n.chain.entries.Consistent)
    (discarded : ℕ) : Dropped index (index + m) n (dropRange m index n discarded).1 := by
  induction m generalizing index n discarded with
  | zero =>
    exact ⟨hcons, fun hlo hhi => by omega, fun _ => rfl, fun hlo hhi => by omega, fun _ => rfl, rfl,
      rfl⟩
  | succ m ih =>
    unfold dropRange
    rw [show index + (m + 1) = index + 1 + m by omega]
    cases hget : n.chain.entries.get index with
    | none =>
      have hself : Dropped index (index + 1) n n := by
        refine ⟨hcons, fun {i} hlo hhi => ?_, fun _ => rfl, fun {i h} hlo hhi hih => ?_,
          fun _ => rfl, rfl, rfl⟩
        · rw [show i = index by omega, hget]
        · rw [show i = index by omega, hget] at hih
          exact absurd hih (Option.some_ne_none _).symm
      exact hself.trans (by omega) (by omega) (ih hcons discarded)
    | some hash =>
      have hstep := dropped_step hcons hget discarded
      exact hstep.trans (by omega) (by omega) (ih hstep.consistent _)

/-- A purge with `k` indexes below its base: what stood at the indexes from `k` on is moved down by
`k`, the records of the blocks below the base are gone, and the markers are clear. -/
structure Purged (k tip : ℕ) (n n' : Node H) : Prop where
  consistent : n'.chain.entries.Consistent
  get : ∀ i, n'.chain.entries.get i = n.chain.entries.get (i + k)
  highest : n'.chain.highest_index = some (tip - k)
  headers : n'.headers = n.headers
  pruning_meta : n'.pruning_meta = .cleared
  scan_below : ∀ {i h}, i < k → n.chain.entries.get i = some h → n'.scan h = none
  scan_other : ∀ {h}, (∀ i < k, n.chain.entries.get i ≠ some h) → n'.scan h = n.scan h

/-- A purge of a node whose base is indexed above zero. -/
theorem Node.purge_spec {n : Node H} {base tip_hash : H} {k tip : ℕ} (hk : k ≠ 0)
    (hcons : n.chain.entries.Consistent) (htip : n.chain.getTip = some (tip, tip_hash))
    (hkt : k ≤ tip) (htop : ∀ i, tip < i → n.chain.entries.get i = none)
    (hbase : n.chain.entries.find (n.pruning_meta.shieldedHistoryOwnBase.getD base) = some k) :
    ∃ n' discarded, n.purgeShieldedHistoryBelow base = .ok (n', discarded) ∧
      Purged k tip n n' := by
  obtain ⟨k, rfl⟩ := Nat.exists_eq_succ_of_ne_zero hk
  set d := dropRange (k + 1) 0 n 0 with hd
  have hdrop : Dropped 0 (k + 1) n d.1 := by
    have hloop : Dropped 0 (0 + (k + 1)) n d.1 := dropRange_dropped hcons 0
    rwa [zero_add] at hloop
  have heq : n.purgeShieldedHistoryBelow base = .ok ({ d.1 with
      chain := { entries := d.1.chain.entries.lower (k + 1) (tip + 1 - (k + 1)) (k + 1),
                 highest_index := some (tip - (k + 1)) }, pruning_meta := .cleared }, d.2) := by
    unfold purgeShieldedHistoryBelow
    simp only [hbase, htip, Option.okOr, Except.ok_bind, if_pos hkt]
    rfl
  refine ⟨_, _, heq, ?_⟩
  obtain ⟨hlower, hget⟩ := hdrop.consistent.lower (k + 1) (m := tip + 1 - (k + 1)) (i := k + 1)
    le_rfl fun j _ hj => hdrop.get_in (Nat.zero_le j) hj
  refine ⟨hlower, fun i => ?_, rfl, hdrop.headers, rfl, fun hi hih => ?_, fun hout => ?_⟩
  · show (d.1.chain.entries.lower (k + 1) (tip + 1 - (k + 1)) (k + 1)).get i = _
    rw [hget]
    split_ifs with hout hin
    · -- above the old tip there is nothing
      rw [hdrop.get_out (by omega), htop i (by omega), htop (i + (k + 1)) (by omega)]
    · exact hdrop.get_out (.inr (by omega))
    · exact (htop (i + (k + 1)) (by omega)).symm
  · exact hdrop.scan_in (Nat.zero_le _) hi hih
  · exact hdrop.scan_out fun i _ hi => hout i hi

end Zkas.History
