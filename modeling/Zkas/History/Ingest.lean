import Zkas.History.Backfill

/-!
# What an accepted chunk leaves behind

The writes of a chunk (`Written`), the re-numbering as the `raise` of the position index, and what
is known of a chunk that is accepted: `Node.Accepts` collects the outcome of every check, and
`backfillShieldedHistory_ok` gives the node after it. -/

namespace Zkas.History

open List Except Node PositionIndex

variable {H : Type} [DecidableEq H]

/-! ## The writes -/

theorem Node.persistBackfilledScan_scan (n : Node H) (r : ShieldedChainBlockData H) (h : H) :
    (n.persistBackfilledScan r).scan h =
      if r.hash = h then (n.scan h).or (some r.toScan) else n.scan h := by
  unfold persistBackfilledScan
  by_cases hh : r.hash = h
  · subst hh
    cases hscan : n.scan r.hash with
    | none => simp
    | some d => simp [hscan]
  · rw [if_neg hh]
    split_ifs
    · exact Function.update_of_ne (Ne.symm hh) ..
    · rfl

/-- The index entries a chunk writes. -/
def written (ours_from : ℕ) (es : List (Entry H)) : List (ℕ × H) :=
  (es.filter (·.1 < ours_from)).map fun e => (e.1, e.2.hash)

/-- The record a chunk carries for a block. -/
def carried (ours_from : ℕ) (es : List (Entry H)) (h : H) : Option (ShieldedScanBlockData H) :=
  (es.find? fun e => e.1 ≤ ours_from ∧ e.2.hash = h).map (·.2.toScan)

/-- What the writes of a chunk leave of a node. -/
structure Written (ours_from : ℕ) (n : Node H) (es : List (Entry H)) (n' : Node H) : Prop where
  entries : n'.chain.entries = n.chain.entries.writeAll (written ours_from es)
  highest : n'.chain.highest_index = n.chain.highest_index
  headers : n'.headers = n.headers
  pruning_meta : n'.pruning_meta = n.pruning_meta
  scan : ∀ h, n'.scan h = (n.scan h).or (carried ours_from es h)

theorem Node.persistBackfilledScan_rest (n : Node H) (r : ShieldedChainBlockData H) :
    (n.persistBackfilledScan r).chain = n.chain ∧ (n.persistBackfilledScan r).headers = n.headers ∧
      (n.persistBackfilledScan r).pruning_meta = n.pruning_meta := by
  unfold persistBackfilledScan
  split_ifs <;> exact ⟨rfl, rfl, rfl⟩

/-- One entry writes its index below the anchor, and its record if the node has none. -/
theorem writeRecord_written (ours_from : ℕ) (acc : Node H × ℕ × ℕ) (e : Entry H) :
    Written ours_from acc.1 [e] (writeRecord ours_from acc e).1 := by
  obtain ⟨n, idx, recs⟩ := acc
  by_cases habove : ours_from < e.1
  · -- above the anchor nothing is written
    rw [writeRecord, if_pos habove]
    have hnot : ¬ e.1 < ours_from := by omega
    have hnot' : ¬ e.1 ≤ ours_from := by omega
    exact ⟨by simp [written, hnot, writeAll], rfl, rfl, rfl, fun h => by simp [carried, hnot']⟩
  · rw [writeRecord, if_neg habove]
    obtain ⟨hchain, hheaders, hmeta⟩ := (n.writeEntry ours_from e).persistBackfilledScan_rest e.2
    have hscan : (n.writeEntry ours_from e).scan = n.scan := by
      unfold writeEntry
      split_ifs <;> rfl
    have hle : e.1 ≤ ours_from := by omega
    refine ⟨?_, ?_, ?_, ?_, fun h => ?_⟩
    · rw [hchain]
      unfold writeEntry
      split_ifs with hlt <;> simp [written, hlt, writeAll]
    · rw [hchain]
      unfold writeEntry
      split_ifs <;> rfl
    · rw [hheaders]
      unfold writeEntry
      split_ifs <;> rfl
    · rw [hmeta]
      unfold writeEntry
      split_ifs <;> rfl
    · rw [persistBackfilledScan_scan, hscan]
      by_cases hh : e.2.hash = h <;> simp [carried, hle, hh]

variable {n : Node H} {es records : List (Entry H)} {shift ours_from tip anchor_index : ℕ}
  {anchor : H}

theorem Written.trans {n₁ n₂ : Node H} {fs : List (Entry H)}
    (h₁ : Written ours_from n es n₁) (h₂ : Written ours_from n₁ fs n₂) :
    Written ours_from n (es ++ fs) n₂ := by
  refine ⟨?_, h₂.highest.trans h₁.highest, h₂.headers.trans h₁.headers,
    h₂.pruning_meta.trans h₁.pruning_meta, fun h => ?_⟩
  · rw [h₂.entries, h₁.entries]
    simp [written, writeAll]
  · rw [h₂.scan, h₁.scan, Option.or_assoc, carried, carried, carried, find?_append]
    cases es.find? fun e => e.1 ≤ ours_from ∧ e.2.hash = h <;> rfl

theorem foldl_writeRecord_written (ours_from : ℕ) (es : List (Entry H)) (acc : Node H × ℕ × ℕ) :
    Written ours_from acc.1 es (es.foldl (writeRecord ours_from) acc).1 := by
  induction es generalizing acc with
  | nil => exact ⟨rfl, rfl, rfl, rfl, fun h => by simp [carried]⟩
  | cons e es ih => exact (writeRecord_written ours_from acc e).trans (ih _)

theorem foldl_writeRecord_idx (ours_from : ℕ) (es : List (Entry H)) (acc : Node H × ℕ × ℕ) :
    (es.foldl (writeRecord ours_from) acc).2.1 = acc.2.1 + (written ours_from es).length := by
  induction es generalizing acc with
  | nil => rfl
  | cons e es ih =>
    obtain ⟨n, idx, recs⟩ := acc
    rw [foldl_cons, ih]
    by_cases habove : ours_from < e.1
    · have hnot : ¬ e.1 < ours_from := by omega
      simp [writeRecord, habove, written, hnot]
    · by_cases hlt : e.1 < ours_from
      · simp only [writeRecord, habove, written, hlt, if_true, if_false, decide_true,
          filter_cons_of_pos, map_cons, length_cons]
        omega
      · simp [writeRecord, habove, written, hlt]

theorem foldl_writeRecord_none (ours_from : ℕ)
    (h : ∀ e ∈ es, ours_from < e.1) (acc : Node H × ℕ × ℕ) :
    es.foldl (writeRecord ours_from) acc = acc := by
  induction es generalizing acc with
  | nil => rfl
  | cons e es ih =>
    obtain ⟨he, hes⟩ := forall_mem_cons.mp h
    rw [foldl_cons, ih hes, writeRecord, if_pos he]

/-! ## The re-numbering -/

theorem rebaseUp_ok {bound : ℕ} {t t' : PositionIndex H}
    (h : rebaseUp shift bound t = .ok t') : t' = t.raise shift bound := by
  induction bound generalizing t with
  | zero => exact (ok.inj h).symm
  | succ i ih =>
    unfold rebaseUp at h
    unfold raise
    cases hget : t.get i with
    | none =>
      rw [hget] at h
      exact ih h
    | some a =>
      simp only [hget, bind_eq_ok_iff] at h
      obtain ⟨index, hindex, hrest⟩ := h
      rw [Option.okOr_eq_ok] at hindex
      rw [eq_of_addU64 hindex] at hrest
      exact ih hrest

theorem SelectedChain.rebase_ok {c c' : SelectedChain H}
    (hcons : c.entries.Consistent) (hhighest : c.highest_index = some tip)
    (htop : ∀ i, tip < i → c.entries.get i = none) (h : c.rebase shift tip = .ok c') :
    c'.entries.Consistent ∧ c'.highest_index = some (tip + shift) ∧
      ∀ i, c'.entries.get i = if shift ≤ i then c.entries.get (i - shift) else none := by
  unfold SelectedChain.rebase at h
  split_ifs at h with hshift
  · obtain rfl := ok.inj h
    refine ⟨hcons, by rw [hhighest, hshift, add_zero], fun i => ?_⟩
    rw [if_pos (by omega), hshift, Nat.sub_zero]
  · simp only [bind_eq_ok_iff, Option.okOr_eq_ok] at h
    obtain ⟨t, ht, highest, hsum, heq⟩ := h
    obtain rfl := ok.inj heq
    obtain ⟨hraised, hget⟩ := hcons.raise shift (n := tip + 1) fun i hi _ => htop i (by omega)
    rw [← rebaseUp_ok ht] at hraised hget
    refine ⟨hraised, by rw [eq_of_addU64 hsum], fun i => ?_⟩
    rw [hget]
    split_ifs with habove hle hle
    · rw [htop i (by omega), htop (i - shift) (by omega)]
    · omega
    · rfl
    · rfl

theorem exists_rebaseUp {bound : ℕ} (h : bound + shift ≤ 2 ^ 64) (t : PositionIndex H) :
    ∃ t', rebaseUp shift bound t = .ok t' := by
  induction bound generalizing t with
  | zero => exact ⟨t, rfl⟩
  | succ i ih =>
    unfold rebaseUp
    cases t.get i with
    | none => exact ih (by omega) t
    | some a =>
      rw [addU64, if_pos (by omega)]
      exact ih (by omega) _

theorem SelectedChain.exists_rebase (h : tip + shift < 2 ^ 64)
    (c : SelectedChain H) : ∃ c', c.rebase shift tip = .ok c' := by
  unfold SelectedChain.rebase
  split_ifs
  · exact ⟨c, rfl⟩
  · have hbound : tip + 1 + shift ≤ 2 ^ 64 := by omega
    obtain ⟨t, ht⟩ := exists_rebaseUp hbound c.entries
    rw [ht, addU64, if_pos h]
    exact ⟨_, rfl⟩

/-! ## An accepted chunk -/

/-- What a chunk has been checked for when it is accepted; `l` is the anchor's index on this node.
-/
structure Node.Accepts (n : Node H) (anchor : H) (anchor_index : ℕ) (records : List (Entry H))
    (l : ℕ) (scores : ℕ × ℕ) : Prop where
  anchored : n.chain.entries.find anchor = some l
  bounded : n.checkAnchorIndex anchor anchor_index (anchor_index - l) = .ok ()
  scores_eq : n.anchorScores anchor = .ok scores
  rising : checkRising (placed anchor_index records) = .ok ()
  scored : ∀ e ∈ records, e.1 ≤ anchor_index → n.Scored anchor anchor_index scores e
  nodup : ((records.filter (·.1 ≤ anchor_index)).map (·.2.hash)).Nodup
  indexed : ∀ e ∈ records, e.1 ≤ anchor_index → n.checkIndexed (anchor_index - l) e = .ok ()
  shaped : ∀ e ∈ records, e.1 ≤ anchor_index → Shaped e.2

/-- The node with the writes of a chunk and their markers. -/
def Node.ingested (n : Node H) (chain : SelectedChain H) (anchor_index : ℕ)
    (records : List (Entry H)) : Node H :=
  let w := writeRecords anchor_index { n with chain } records
  if w.2.1 = 0 then w.1
  else { w.1 with pruning_meta := w.1.pruning_meta.mark n.recordOwnBase }

/-- A chunk with records is accepted exactly when it passes every check and the re-numbering does
not overflow. -/
theorem Node.backfillShieldedHistory_ok {n' : Node H} {idx recs : ℕ} (hne : records ≠ []) :
    n.backfillShieldedHistory anchor anchor_index records = .ok (n', idx, recs) ↔
      ∃ tip l scores chain, (∃ h, n.chain.getTip = some (tip, h)) ∧
        n.Accepts anchor anchor_index records l scores ∧
        n.chain.rebase (anchor_index - l) tip = .ok chain ∧
        n' = n.ingested chain anchor_index records ∧
        (idx, recs) = (writeRecords anchor_index { n with chain } records).2 := by
  unfold backfillShieldedHistory
  rw [if_neg hne]
  simp only [bind_eq_ok_iff, Option.okOr_eq_ok, mapError_eq_ok]
  constructor
  · rintro ⟨⟨tip, h⟩, htip, l, hl, ⟨⟩, hbound, scores, hscores, ⟨⟩, hrising, ⟨⟩, hplaced, ⟨⟩,
      hrecords, chain, hchain, hres⟩
    have hscored := forM_eq_ok_iff.mp hplaced
    obtain ⟨hnodup, hrecords⟩ := checkRecords_eq_ok.mp hrecords
    refine ⟨tip, l, scores, chain, ⟨h, htip⟩, ⟨hl, hbound, hscores, hrising, fun e he hle =>
      checkScores_eq_ok.mp (hscored e (mem_placed.mpr ⟨he, hle⟩)), hnodup,
      fun e he hle => (hrecords e he hle).2.1, fun e he hle => (hrecords e he hle).2.2⟩, hchain, ?_⟩
    split_ifs at hres with hzero
    · cases ok.inj hres
      exact ⟨(if_pos hzero).symm, rfl⟩
    · cases ok.inj hres
      exact ⟨(if_neg hzero).symm, rfl⟩
  · rintro ⟨tip, l, scores, chain, ⟨h, htip⟩, hacc, hchain, rfl, hcounts⟩
    refine ⟨(tip, h), htip, l, hacc.anchored, (), hacc.bounded, scores, hacc.scores_eq, (),
      hacc.rising, (), forM_eq_ok_iff.mpr fun e he => ?_, (), ?_, chain, hchain, ?_⟩
    · obtain ⟨he, hle⟩ := mem_placed.mp he
      exact checkScores_eq_ok.mpr (hacc.scored e he hle)
    · exact checkRecords_eq_ok.mpr ⟨hacc.nodup, fun e he hle =>
        ⟨not_mem_nil, hacc.indexed e he hle, hacc.shaped e he hle⟩⟩
    · rw [show idx = _ from congrArg Prod.fst hcounts, show recs = _ from congrArg Prod.snd hcounts]
      simp only [Node.ingested]
      split_ifs <;> rfl

omit [DecidableEq H] in
theorem mem_written {i : ℕ} {h : H} :
    (i, h) ∈ written ours_from es ↔ ∃ e ∈ es, e.1 < ours_from ∧ e.1 = i ∧ e.2.hash = h := by
  simp only [written, mem_map, mem_filter, decide_eq_true_eq, Prod.mk.injEq, and_assoc]

/-- A record is carried for a block exactly when an entry at or below the anchor is of this block.
-/
theorem carried_isSome {h : H} :
    (carried ours_from es h).isSome ↔ ∃ e ∈ es, e.1 ≤ ours_from ∧ e.2.hash = h := by
  rw [carried, Option.isSome_map, find?_isSome]
  simp only [decide_eq_true_eq]

omit [DecidableEq H] in
theorem Node.Accepts.written_distinct {l : ℕ} {scores : ℕ × ℕ}
    (h : n.Accepts anchor anchor_index records l scores) :
    (written anchor_index records).Pairwise fun e e' => e.1 ≠ e'.1 ∧ e.2 ≠ e'.2 := by
  have hindex : (records.filter (·.1 ≤ anchor_index)).Pairwise fun a b => a.1 ≠ b.1 := by
    have hplaced := (placed_rising h.rising).imp fun hab => hab.1.ne
    exact ((perm_insertionSort _ _).pairwise_iff fun hab => hab.symm).mp hplaced
  have hhash : (records.filter (·.1 ≤ anchor_index)).Pairwise fun a b => a.2.hash ≠ b.2.hash :=
    pairwise_map.mp h.nodup
  have hsub : (records.filter (·.1 < anchor_index)).Sublist
      (records.filter (·.1 ≤ anchor_index)) := by
    refine monotone_filter_right _ fun e he => ?_
    rw [decide_eq_true_eq] at he ⊢
    exact he.le
  exact pairwise_map.mpr ((hindex.and hhash).sublist hsub)

/-- What an accepted chunk leaves of a node whose lowest block is the anchor. -/
structure Ingested (n : Node H) (shift tip anchor_index : ℕ) (records : List (Entry H))
    (n' : Node H) : Prop where
  consistent : n'.chain.entries.Consistent
  get : ∀ i h, n'.chain.entries.get i = some h ↔
    (shift ≤ i ∧ n.chain.entries.get (i - shift) = some h) ∨ (i, h) ∈ written anchor_index records
  highest : n'.chain.highest_index = some (tip + shift)
  headers : n'.headers = n.headers
  scan : ∀ h, n'.scan h = (n.scan h).or (carried anchor_index records h)
  pruning_meta : n'.pruning_meta = if written anchor_index records = [] then n.pruning_meta
    else n.pruning_meta.mark n.recordOwnBase

theorem Node.Accepts.ingested {l : ℕ} {scores : ℕ × ℕ} {chain : SelectedChain H}
    (hacc : n.Accepts anchor anchor_index records l scores)
    (hcons : n.chain.entries.Consistent) (hhighest : n.chain.highest_index = some tip)
    (htop : ∀ i, tip < i → n.chain.entries.get i = none)
    (hlow : ∀ i < l, n.chain.entries.get i = none)
    (hchain : n.chain.rebase (anchor_index - l) tip = .ok chain) :
    Ingested n (anchor_index - l) tip anchor_index records
      (n.ingested chain anchor_index records) := by
  obtain ⟨hcons', hhighest', hget⟩ := SelectedChain.rebase_ok hcons hhighest htop hchain
  have hraised : ∀ i h, chain.entries.get i = some h ↔
      anchor_index - l ≤ i ∧ n.chain.entries.get (i - (anchor_index - l)) = some h := by
    intro i h
    rw [hget]
    split_ifs with hle <;> simp [hle]
  have hw : Written anchor_index { n with chain } records
      (writeRecords anchor_index { n with chain } records).1 :=
    foldl_writeRecord_written anchor_index records ({ n with chain }, 0, 0)
  have hidx : (writeRecords anchor_index { n with chain } records).2.1 =
      (written anchor_index records).length :=
    (foldl_writeRecord_idx anchor_index records ({ n with chain }, 0, 0)).trans (zero_add _)
  -- the re-numbered index is free below the anchor, and no block of the chunk below it is indexed
  have hfresh : ∀ e ∈ written anchor_index records,
      chain.entries.get e.1 = none ∧ chain.entries.find e.2 = none := by
    intro (i, h) hmem
    obtain ⟨e, he, hlt, rfl, rfl⟩ := mem_written.mp hmem
    constructor
    · show chain.entries.get e.1 = none
      rw [hget]
      split_ifs with hle
      · exact hlow _ (by omega)
      · rfl
    · refine hcons'.find_eq_none.mpr fun j hj => ?_
      obtain ⟨hle, hj⟩ := (hraised j e.2.hash).mp hj
      have hsum := checkIndexed_eq_ok.mp (hacc.indexed e he hlt.le) _ ((hcons _ _).mp hj)
      have heq : e.1 = j - (anchor_index - l) + (anchor_index - l) := eq_of_addU64 hsum
      have hbelow : j - (anchor_index - l) < l := by omega
      rw [hlow _ hbelow] at hj
      exact Option.some_ne_none _ hj.symm
  obtain ⟨hwritten, hgetw⟩ := hcons'.writeAll hfresh hacc.written_distinct
  have hfields : (n.ingested chain anchor_index records).chain =
        (writeRecords anchor_index { n with chain } records).1.chain ∧
      (n.ingested chain anchor_index records).headers =
        (writeRecords anchor_index { n with chain } records).1.headers ∧
      (n.ingested chain anchor_index records).scan =
        (writeRecords anchor_index { n with chain } records).1.scan := by
    simp only [Node.ingested]
    split_ifs <;> exact ⟨rfl, rfl, rfl⟩
  obtain ⟨hchain', hheaders, hscan⟩ := hfields
  refine ⟨?_, fun i h => ?_, ?_, ?_, fun h => ?_, ?_⟩
  · rw [hchain', hw.entries]
    exact hwritten
  · rw [hchain', hw.entries]
    exact (hgetw i h).trans (or_congr (hraised i h) Iff.rfl)
  · rw [hchain', hw.highest]
    exact hhighest'
  · rw [hheaders, hw.headers]
  · rw [hscan, hw.scan]
  · simp only [Node.ingested, hidx, length_eq_zero_iff]
    split_ifs
    · exact hw.pruning_meta
    · rw [hw.pruning_meta]

end Zkas.History
