import Zkas.Consensus.Instance
import Zkas.History.Serve

/-!
# The client of an honest server

`Fetched` says what a client holds after some chunks of an honest server: the server's blocks from
the current anchor up to the base, below its own, and the server's records of them. A further chunk
passes every check (`Fetched.accepts`) and extends it (`Fetched.step`), so the client ends with the
server's history down to genesis, which verifies. -/

namespace Zkas.History

open List Option Except Chunk Node Archive ReplayFns

variable {H N G : Type}

/-- An honest server of the history up to a base at index `k`: it has a record of every chain block
from genesis on, as validation wrote them, and their leaves and nullifiers are the chain's. -/
structure ReplayFns.HonestHistory [DecidableEq H] (R : ReplayFns H N G) (server : Node H) (base : H)
    (k : ℕ) (leaves : List N) (nullifiers : List H) : Prop extends server.HasRecords k where
  base_at : server.chain.entries.get k = some base
  rising : ∀ i j, i < j → j ≤ k → ∀ d ∈ server.recordAt i, ∀ d' ∈ server.recordAt j, ScoresRise d d'
  blobs : ∀ i ≤ k, ∀ d ∈ server.recordAt i, ∀ t ∈ d.accepted,
    t.action_bytes.length % SERIALIZED_LEN = 0
  replayed : ∃ blocks, (range (k + 1)).mapM (R.replayIndex server) = .ok blocks ∧
    blocks.flatMap (·.leaves R.ofBytes) = leaves.map R.T.toBytes ∧
    (blocks.flatMap (·.nullifiers R.ofBytes)).Perm nullifiers

/-- A pruning point of the client stands at an index counted from genesis: on the server's chain up
to the base at index `k`, with the scores of its record, or on the client's own chain above it. -/
def Archive.PruningPointOn (a : Archive H G) (server : Node H) (k : ℕ) (p : H × CompactHeaderData)
    (i : ℕ) : Prop :=
  (i ≤ k ∧ server.chain.entries.get i = some p.1 ∧ ∀ d, server.scan p.1 = some d →
    (d.blue_score, d.daa_score) = (p.2.blue_score, p.2.daa_score)) ∨
  (k < i ∧ a.node.chain.entries.get (i - k) = some p.1)

/-- A client that was synced to the base at index `k` of the server's chain: its index starts there,
its headers, its records and its pruning points are the chain's, and it indexes no block below the
base. -/
structure Archive.FastSynced (a : Archive H G) (server : Node H) (base : H) (k tip : ℕ) : Prop where
  own : a.node.OwnChain tip base
  above_genesis : 0 < k
  /-- The indexes counted from genesis are `u64` values. -/
  fits : tip + k < 2 ^ 64
  base_header : a.node.headers base ≠ none
  headers : ∀ i ≤ k, ∀ h d hd, server.chain.entries.get i = some h → server.scan h = some d →
    a.node.headers h = some hd → (hd.blue_score, hd.daa_score) = (d.blue_score, d.daa_score)
  records : ∀ i ≤ k, ∀ h, server.chain.entries.get i = some h →
    a.node.scan h = none ∨ a.node.scan h = server.scan h
  apart : ∀ i < k, ∀ h, server.chain.entries.get i = some h → a.node.chain.entries.find h = none
  pruning_points : ∃ is, List.Forall₂ (a.PruningPointOn server k) a.pruning_points is ∧
    is.Pairwise (· < ·)

/-! ## The records of an honest server -/

section

variable {server : Node H} {base h : H} {k i : ℕ} {d : ShieldedScanBlockData H}

theorem recordAt_of (hget : server.chain.entries.get i = some h) (hscan : server.scan h = some d) :
    d ∈ server.recordAt i := by
  simp [recordAt, hget, hscan]

theorem Node.HasRecords.scan (hs : server.HasRecords k) (hi : i ≤ k)
    (hget : server.chain.entries.get i = some h) : ∃ d, server.scan h = some d := by
  obtain ⟨h', d, hget', hscan⟩ := hs.records i hi
  exact ⟨d, mem_unique hget' hget ▸ hscan⟩

theorem coinbaseNotesFrom_length {F : CoinbaseNoteFns H N} {txid : H} {block_hash : Option H}
    {i : ℕ} {outs : List TransactionOutput} {notes : List (CoinbaseNote N)}
    (h : coinbaseNotesFrom F txid block_hash i outs = .ok notes) : notes.length = outs.length := by
  induction outs generalizing i notes with
  | nil => rw [← ok.inj h]; rfl
  | cons out outs ih =>
    unfold coinbaseNotesFrom at h
    split_ifs at h
    simp only [bind_eq_ok_iff] at h
    obtain ⟨c, -, rest, hrest, heq⟩ := h
    rw [← ok.inj heq, length_cons, length_cons, ih hrest]

variable [DecidableEq H] {R : ReplayFns H N G} {leaves : List N} {nullifiers : List H}
  (hs : R.HonestHistory server base k leaves nullifiers)
include hs

theorem ReplayFns.HonestHistory.index_le (hi : i ≤ k) (hd : d ∈ server.recordAt i) :
    i ≤ d.blue_score := by
  induction i generalizing d with
  | zero => exact Nat.zero_le _
  | succ i ih =>
    obtain ⟨h, d', hget, hscan⟩ := hs.records i (by omega)
    have hd' := recordAt_of hget hscan
    have hprev := ih (by omega) hd'
    have hrise := (hs.rising i (i + 1) (by omega) hi d' hd' d hd).1
    omega

theorem ReplayFns.HonestHistory.shaped (hi : i ≤ k)
    (hget : server.chain.entries.get i = some h) (hscan : server.scan h = some d) :
    Shaped (d.serve h) := by
  refine ⟨?_, fun a ha => ?_⟩
  · -- the commitments are empty or the derived ones, one per output
    obtain ⟨blocks, hblocks, -⟩ := hs.replayed
    obtain ⟨b, hb, -⟩ := exists_forall₂_iff.mp
      ⟨blocks, mapM_eq_ok_iff.mp hblocks, fun _ _ => trivial⟩ i
      (mem_range.mpr (Nat.lt_succ_of_le hi))
    simp only [replayIndex, hget, okOr, ok_bind, hscan,
      replayRecord, bind_eq_ok_iff, mapError_eq_ok] at hb
    obtain ⟨notes, hnotes, hcommit⟩ := hb
    have hgood : d.coinbase_commitments = [] ∨
        d.coinbase_commitments = notes.map fun n => R.T.toBytes n.commitment := by
      by_contra hbad
      rw [if_pos (not_or.mp hbad)] at hcommit
      cases hcommit
    refine hgood.imp id fun heq => ?_
    show d.coinbase_commitments.length = d.coinbase_outputs.length
    rw [heq, length_map, coinbaseNotesFrom_length hnotes, length_map]
  · obtain ⟨t, ht, rfl⟩ := mem_map.mp ha
    exact hs.blobs i hi d (recordAt_of hget hscan) t ht

end

/-! ## What the client holds -/

/-- What a client has fetched, as it was before in `s`: the server's blocks from index `l` on below
the base at index `k`. Its own numbering is `o` below the server's: all of `k` before the first
chunk and nothing after it. -/
structure Fetched (s server : Node H) (k tip l o : ℕ) (anchor : H) (n : Node H) : Prop where
  anchor_at : server.chain.entries.get l = some anchor
  anchor_le : l ≤ k
  start : o = 0 ∨ o = k ∧ l = k
  consistent : n.chain.entries.Consistent
  get : ∀ i h, o ≤ i ∧ n.chain.entries.get (i - o) = some h ↔
    (k ≤ i ∧ s.chain.entries.get (i - k) = some h) ∨
      (l ≤ i ∧ i < k ∧ server.chain.entries.get i = some h)
  highest : n.chain.highest_index = some (tip + k - o)
  headers : n.headers = s.headers
  scan_sound : ∀ i ≤ k, ∀ h, server.chain.entries.get i = some h →
    n.scan h = none ∨ n.scan h = server.scan h
  scan_fetched : o = 0 → ∀ i, l ≤ i → i ≤ k → ∀ h, server.chain.entries.get i = some h →
    n.scan h = server.scan h

section

variable {a : Archive H G} {n server : Node H} {base anchor : H} {k tip l o m : ℕ} {c : Chunk H}

theorem ChunkOf.mem_written (hc : ChunkOf server l m c) {i : ℕ} {h : H} :
    (i, h) ∈ written l c.records ↔
      m ≤ i ∧ i < l ∧ server.chain.entries.get i = some h := by
  rw [History.mem_written]
  constructor
  · rintro ⟨e, he, hlt, rfl, rfl⟩
    have he := mem_records.mp he
    exact ⟨(hc.mem_index.mp ⟨e, he, rfl⟩).1, hlt, hc.get_hash he⟩
  · rintro ⟨hmi, hil, hget⟩
    obtain ⟨e, he, rfl⟩ := hc.mem_index.mpr ⟨hmi, hil.le⟩
    have hhash := mem_unique (hc.get_hash he) hget
    exact ⟨e, mem_records.mpr he, hil, rfl, hhash⟩

theorem Archive.FastSynced.fetched (ha : a.FastSynced server base k tip)
    (hbase : server.chain.entries.get k = some base) :
    Fetched a.node server k tip k k base a.node where
  anchor_at := hbase
  anchor_le := le_rfl
  start := .inr ⟨rfl, rfl⟩
  consistent := ha.own.consistent
  get i h := by
    constructor
    · exact .inl
    · rintro (hget | ⟨hle, hlt, -⟩)
      · exact hget
      · omega
  highest := by rw [ha.own.highest, Nat.add_sub_cancel]
  headers := rfl
  scan_sound := ha.records
  scan_fetched hzero := absurd hzero ha.above_genesis.ne'

variable (hf : Fetched a.node server k tip l o anchor n)

include hf in
theorem Fetched.offset_le : o ≤ l := by
  have hle := hf.anchor_le
  have hstart := hf.start
  omega

include hf in
theorem Fetched.anchor_eq (hbase : server.chain.entries.get k = some base) (h : l = k) :
    anchor = base :=
  mem_unique hf.anchor_at (h ▸ hbase)

include hf in
theorem Fetched.below_anchor {i : ℕ} (hi : i < l - o) : n.chain.entries.get i = none := by
  rw [eq_none_iff_forall_ne_some]
  intro h hih
  have hle := hf.anchor_le
  rcases (hf.get (i + o) h).mp ⟨by omega, by rwa [Nat.add_sub_cancel]⟩ with ⟨hk, -⟩ | ⟨hl, -⟩
  · omega
  · omega

variable (ha : a.FastSynced server base k tip)
include hf ha

theorem Fetched.find_anchor (hbase : server.chain.entries.get k = some base) :
    n.chain.entries.find anchor = some (l - o) := by
  refine (hf.consistent _ _).mp ((hf.get l anchor).mpr ?_).2
  by_cases hl : l < k
  · exact .inr ⟨le_rfl, hl, hf.anchor_at⟩
  · have heq : l = k := le_antisymm hf.anchor_le (by omega)
    refine .inl ⟨by omega, ?_⟩
    rw [heq, Nat.sub_self, hf.anchor_eq hbase heq]
    exact ha.own.base

theorem Fetched.above_tip {i : ℕ} (hi : tip + k - o < i) : n.chain.entries.get i = none := by
  rw [eq_none_iff_forall_ne_some]
  intro h hih
  rcases (hf.get (i + o) h).mp ⟨by omega, by rwa [Nat.add_sub_cancel]⟩ with ⟨hk, hget⟩ | ⟨-, hl, -⟩
  · rw [ha.own.above _ (by omega)] at hget
    exact some_ne_none _ hget.symm
  · omega

/-! ## A chunk is accepted -/

variable [DecidableEq H]

omit hf ha in
theorem ChunkOf.carried_sound (hc : ChunkOf server l m c) {h : H}
    {d : ShieldedScanBlockData H} (hd : carried l c.records h = some d) :
    server.scan h = some d := by
  obtain ⟨e, hfind, rfl⟩ := map_eq_some_iff.mp hd
  have hmem := mem_records.mp (mem_of_find?_eq_some hfind)
  have hhash : e.1 ≤ l ∧ e.2.hash = h := by simpa using find?_some hfind
  obtain ⟨h', d, -, hscan, heq⟩ := hc.served e hmem
  have hh : h' = h := by rw [← hhash.2, heq]; rfl
  rw [← hh, hscan, heq, ShieldedScanBlockData.toScan_serve]

omit hf ha in
theorem ChunkOf.carried_eq (hc : ChunkOf server l m c) {i : ℕ} (hmi : m ≤ i) (hil : i ≤ l) {h : H}
    (hget : server.chain.entries.get i = some h) : carried l c.records h = server.scan h := by
  obtain ⟨e, he, rfl⟩ := hc.mem_index.mpr ⟨hmi, hil⟩
  have hhash : e.2.hash = h := mem_unique (hc.get_hash he) hget
  obtain ⟨d, hd⟩ := isSome_iff_exists.mp (carried_isSome.mpr ⟨e, mem_records.mpr he, hil, hhash⟩)
  rw [hd, hc.carried_sound hd]

variable {R : ReplayFns H N G} {leaves : List N} {nullifiers : List H}
  (hs : R.HonestHistory server base k leaves nullifiers)
include hs

omit hf ha in
theorem ChunkOf.rising (hc : ChunkOf server l m c) (hlk : l ≤ k) :
    checkRising (placed l c.records) = .ok () := by
  refine checkRising_eq_ok.mpr (List.Pairwise.isChain ?_)
  have hnodup : (c.entries.map (·.1)).Nodup := by
    rw [hc.indexes, nodup_reverse]
    exact nodup_range'
  have hdistinct : (placed l c.records).Pairwise fun a b => a.1 ≠ b.1 := by
    have hrecords : (c.records).Pairwise fun a b => a.1 ≠ b.1 :=
      ((perm_insertionSort _ _).pairwise_iff fun hab => hab.symm).mpr (pairwise_map.mp hnodup)
    exact ((perm_insertionSort _ _).pairwise_iff fun hab => hab.symm).mpr (hrecords.filter _)
  refine ((sortByIndex_sorted _).and hdistinct).imp_of_mem ?_
  intro e e' he he' ⟨hle, hne⟩
  refine ⟨hne, ?_⟩
  obtain ⟨he, hel⟩ := mem_placed.mp he
  obtain ⟨he', hel'⟩ := mem_placed.mp he'
  obtain ⟨h, d, hget, hscan, heq⟩ := hc.served e (mem_records.mp he)
  obtain ⟨h', d', hget', hscan', heq'⟩ := hc.served e' (mem_records.mp he')
  have hrise := hs.rising e.1 e'.1 (lt_of_le_of_ne hle hne) (by omega) d
    (recordAt_of hget hscan) d' (recordAt_of hget' hscan')
  rw [heq, heq']
  exact hrise

theorem Fetched.anchorScores {d : ShieldedScanBlockData H} (hd : server.scan anchor = some d) :
    n.anchorScores anchor = .ok (d.blue_score, d.daa_score) := by
  unfold Node.anchorScores
  rw [hf.headers]
  cases hheader : a.node.headers anchor with
  | some hd' =>
    have hagree := ha.headers l hf.anchor_le anchor d hd' hf.anchor_at hd hheader
    simp only [hagree]
  | none =>
    -- only the base is an anchor before the first chunk, and the client has its header
    have hzero : o = 0 := hf.start.resolve_right fun ⟨_, hlk⟩ =>
      ha.base_header (hf.anchor_eq hs.base_at hlk ▸ hheader)
    simp only [hf.scan_fetched hzero l le_rfl hf.anchor_le anchor hf.anchor_at, hd]

theorem Fetched.bounded : n.checkAnchorIndex anchor l (l - (l - o)) = .ok () := by
  have hle := hf.offset_le
  unfold checkAnchorIndex
  rw [show l - (l - o) = o by omega]
  split_ifs with hzero
  · rfl
  · obtain ⟨-, hlk⟩ := hf.start.resolve_left hzero
    obtain ⟨d, hscan⟩ := hs.scan hf.anchor_le hf.anchor_at
    obtain ⟨hd, hhd⟩ := ne_none_iff_exists'.mp (hf.anchor_eq hs.base_at hlk ▸ ha.base_header)
    have hagree := (Prod.mk.inj (ha.headers l hf.anchor_le _ d hd hf.anchor_at hscan hhd)).1
    have hblue := hs.index_le hf.anchor_le (recordAt_of hf.anchor_at hscan)
    rw [hf.headers, hhd]
    simp only
    rw [if_neg (by omega)]

/-- A block of the chunk that the client indexes already stands where the chunk has it. -/
theorem Fetched.checkIndexed {e : Entry H} (hle : e.1 ≤ l)
    (hget : server.chain.entries.get e.1 = some e.2.hash) :
    n.checkIndexed (l - (l - o)) e = .ok () := by
  have hol := hf.offset_le
  have hlk := hf.anchor_le
  have hfits := ha.fits
  rw [show l - (l - o) = o by omega, checkIndexed_eq_ok]
  intro existing hfind
  have hexisting := (hf.consistent existing e.2.hash).mpr hfind
  have hindex : existing + o = e.1 := by
    rcases (hf.get (existing + o) e.2.hash).mp ⟨by omega, by rwa [Nat.add_sub_cancel]⟩ with
      ⟨hk, hown⟩ | ⟨-, -, hserver⟩
    · -- the only block of the client's own that the server has at or below the base is the base
      by_cases hlt : e.1 < k
      · have hnone := ha.apart e.1 hlt e.2.hash hget
        rw [(ha.own.consistent _ _).mp hown] at hnone
        exact absurd hnone (some_ne_none _)
      · have heq : e.1 = k := by omega
        have hbase : e.2.hash = base := mem_unique hget (heq ▸ hs.base_at)
        rw [hbase] at hown
        have hzero := ha.own.consistent.get_inj hown ha.own.base
        omega
    · exact hs.consistent.get_inj hserver hget
  rw [addU64, if_pos (by omega), hindex]

theorem Fetched.scored {d₀ : ShieldedScanBlockData H} (hd₀ : server.scan anchor = some d₀)
    (hc : ChunkOf server l m c) {e : Entry H} (he : e ∈ c.entries) (hle : e.1 ≤ l) :
    n.Scored anchor l (d₀.blue_score, d₀.daa_score) e := by
  have hlk := hf.anchor_le
  obtain ⟨h, d, hget, hscan, heq⟩ := hc.served e he
  have hd := recordAt_of hget hscan
  have hhash : e.2.hash = h := by rw [heq]; rfl
  have hscores : e.2.blue_score = d.blue_score ∧ e.2.daa_score = d.daa_score := by
    rw [heq]
    exact ⟨rfl, rfl⟩
  have hiff : e.1 = l ↔ e.2.hash = anchor := by
    rw [hhash]
    constructor
    · intro hel
      exact mem_unique hget (hel ▸ hf.anchor_at)
    · intro hanchor
      exact hs.consistent.get_inj hget (hanchor ▸ hf.anchor_at)
  refine ⟨hscores.1 ▸ hs.index_le (by omega) hd, hiff, fun hel => ?_, fun hel => ?_,
    fun hd' hhd => ?_⟩
  · have hd₀' : d = d₀ := by
      rw [← hhash, hiff.mp hel, hd₀] at hscan
      exact (some.inj hscan).symm
    rw [hscores.1, hscores.2, hd₀']
  · have hrise := hs.rising e.1 l (by omega) hlk d hd d₀ (recordAt_of hf.anchor_at hd₀)
    rw [hscores.1, hscores.2]
    exact hrise
  · rw [hhash, hf.headers] at hhd
    rw [hscores.1, hscores.2]
    exact ha.headers e.1 (by omega) h d hd' hget hscan hhd

section

variable (hc : ChunkOf server l m c)
include hc

/-- An honest chunk passes every check. -/
theorem Fetched.accepts : ∃ scores, n.Accepts anchor c.anchor_index c.records (l - o) scores := by
  have hlk := hf.anchor_le
  obtain ⟨d, hscan⟩ := hs.scan hlk hf.anchor_at
  rw [hc.anchor_index]
  refine ⟨(d.blue_score, d.daa_score), hf.find_anchor ha hs.base_at, hf.bounded ha hs,
    hf.anchorScores ha hs hscan, hc.rising hs hlk,
    fun e he hle => hf.scored ha hs hscan hc (mem_records.mp he) hle, ?_,
    fun e he hle => hf.checkIndexed ha hs hle (hc.get_hash (mem_records.mp he)),
    fun e he hle => ?_⟩
  · -- distinct indexes of the server's chain are distinct blocks
    have hnodup : (c.entries.map (·.1)).Nodup := by
      rw [hc.indexes, nodup_reverse]
      exact nodup_range'
    have hhashes : c.entries.Pairwise fun e e' => e.2.hash ≠ e'.2.hash := by
      refine (pairwise_map.mp hnodup).imp_of_mem fun he he' hne hhash => hne ?_
      exact hs.consistent.get_inj (hc.get_hash he) (hhash ▸ hc.get_hash he')
    have hrecords : (c.records).Pairwise fun e e' => e.2.hash ≠ e'.2.hash :=
      ((perm_insertionSort _ _).pairwise_iff fun hab => hab.symm).mpr hhashes
    exact pairwise_map.mpr (hrecords.filter _)
  · obtain ⟨h', d', hget', hscan', heq⟩ := hc.served e (mem_records.mp he)
    rw [heq]
    exact hs.shaped (by omega) hget' hscan'

/-! ## The client after the chunks -/

omit ha in
theorem Fetched.ingested {n' : Node H} (hing : Ingested n o (tip + k - o) l c.records n') :
    Fetched a.node server k tip m 0 (c.lowest anchor) n' := by
  have hlk := hf.anchor_le
  have hml := hc.le
  have hstart := hf.start
  have hsound : ∀ i ≤ k, ∀ h, server.chain.entries.get i = some h →
      n'.scan h = none ∨ n'.scan h = server.scan h := by
    intro i hi h hget
    rw [hing.scan]
    rcases hf.scan_sound i hi h hget with hnone | hscan
    · rw [hnone, none_or]
      cases hcarried : carried l c.records h with
      | none => exact .inl rfl
      | some d => exact .inr (hc.carried_sound hcarried).symm
    · obtain ⟨d, hd⟩ := hs.scan hi hget
      rw [hscan, hd]
      exact .inr rfl
  refine ⟨hc.lowest anchor, by omega, .inl rfl, hing.consistent, fun i h => ?_, ?_,
    hing.headers.trans hf.headers, hsound, fun _ i hmi hik h hget => ?_⟩
  · rw [Nat.sub_zero, hing.get, hf.get, hc.mem_written]
    constructor
    · rintro ⟨-, (hown | ⟨hli, hik, hget⟩) | ⟨hmi, hil, hget⟩⟩
      · exact .inl hown
      · exact .inr ⟨by omega, hik, hget⟩
      · exact .inr ⟨hmi, by omega, hget⟩
    · rintro (hown | ⟨hmi, hik, hget⟩)
      · exact ⟨Nat.zero_le i, .inl (.inl hown)⟩
      · by_cases hil : i < l
        · exact ⟨Nat.zero_le i, .inr ⟨hmi, hil, hget⟩⟩
        · exact ⟨Nat.zero_le i, .inl (.inr ⟨by omega, hik, hget⟩)⟩
  · rw [hing.highest]
    congr 1
    omega
  · rw [hing.scan]
    by_cases hil : i ≤ l
    · rw [hc.carried_eq hmi hil hget]
      rcases hf.scan_sound i hik h hget with hnone | hscan
      · rw [hnone, none_or]
      · rw [hscan, Option.or_self]
    · -- above the anchor the record was fetched before
      rw [hf.scan_fetched (by omega) i (by omega) hik h hget]
      obtain ⟨d, hd⟩ := hs.scan hik hget
      rw [hd, some_or]

/-- An honest chunk is ingested. -/
theorem Fetched.step :
    ∃ n' idx recs, n.backfillShieldedHistory anchor c.anchor_index c.records = .ok (n', idx, recs) ∧
      Fetched a.node server k tip m 0 (c.lowest anchor) n' ∧ (m < l → idx ≠ 0) := by
  have hstart := hf.start
  have hfits := ha.fits
  obtain ⟨e, he, -⟩ := hc.mem_index.mpr ⟨hc.le, le_rfl⟩
  have hne : c.records ≠ [] := ne_nil_of_mem (mem_records.mpr he)
  obtain ⟨scores, hacc⟩ := hf.accepts ha hs hc
  have hshift : c.anchor_index - (l - o) = o := by rw [hc.anchor_index]; omega
  have hsum : tip + k - o + o < 2 ^ 64 := by omega
  obtain ⟨chain, hchain⟩ := SelectedChain.exists_rebase hsum n.chain
  obtain ⟨tip_hash, htip⟩ : ∃ h, n.chain.getTip = some (tip + k - o, h) := by
    obtain ⟨h, hh⟩ := ha.own.full tip le_rfl
    have hget := ((hf.get (tip + k) h).mpr (.inl ⟨by omega, by rwa [Nat.add_sub_cancel]⟩)).2
    exact ⟨h, by simp [SelectedChain.getTip, hf.highest, hget]⟩
  have hing : Ingested n (c.anchor_index - (l - o)) (tip + k - o) c.anchor_index c.records
      (n.ingested chain c.anchor_index c.records) :=
    hacc.ingested hf.consistent hf.highest (fun i hi => hf.above_tip ha hi)
      (fun i hi => hf.below_anchor hi) (by rw [hshift]; exact hchain)
  rw [hshift, hc.anchor_index] at hing
  refine ⟨_, _, _, (backfillShieldedHistory_ok hne).mpr ⟨_, l - o, scores, chain,
    ⟨tip_hash, htip⟩, hacc, by rw [hshift]; exact hchain, rfl, rfl⟩, ?_, fun hml => ?_⟩
  · rw [hc.anchor_index]
    exact hf.ingested hs hc hing
  · rw [hc.anchor_index, writeRecords, foldl_writeRecord_idx, Nat.zero_add]
    obtain ⟨h, d, hget, -⟩ := hs.records m (by have := hf.anchor_le; omega)
    exact (length_pos_of_mem (hc.mem_written.mpr ⟨le_rfl, hml, hget⟩)).ne'

end

theorem Fetched.run {chunks : List (Chunk H)} (hd : Descends server l chunks) :
    ∃ n' genesis, n.backfillCalls anchor chunks = .ok (n', chunks) ∧
      Fetched a.node server k tip 0 0 genesis n' := by
  induction hd generalizing o anchor n with
  | @last l c hc =>
    obtain ⟨n', idx, recs, hcall, hf', -⟩ := hf.step ha hs hc
    obtain ⟨e, he, -⟩ := hc.mem_index.mpr ⟨hc.le, le_rfl⟩
    refine ⟨n', _, ?_, hf'⟩
    simp [backfillCalls, ne_nil_of_mem he, hcall, hc.done]
  | @cons l m c cs hc hm hml hd ih =>
    obtain ⟨n₁, idx, recs, hcall, hf', hidx⟩ := hf.step ha hs hc
    obtain ⟨n', genesis, hrest, hfinal⟩ := ih hf'
    obtain ⟨e, he, -⟩ := hc.mem_index.mpr ⟨hc.le, le_rfl⟩
    have hdone : c.done = false := by simp [hc.done, hm.ne']
    have hdescends : c.lowest anchor ≠ anchor := fun heq => by
      have hlow := hc.lowest anchor
      rw [heq] at hlow
      have := hs.consistent.get_inj hlow hf.anchor_at
      omega
    refine ⟨n', genesis, ?_, hfinal⟩
    simp [backfillCalls, ne_nil_of_mem he, hcall, hdone, hidx hml, hdescends, hrest]

end

/-! ## The verification of what was fetched -/

section

variable {a : Archive H G} {n server : Node H} {base anchor : H} {k tip : ℕ}
  (hf : Fetched a.node server k tip 0 0 anchor n)

include hf in
theorem Fetched.scan_eq {i : ℕ} (hi : i ≤ k) {h : H} (hget : server.chain.entries.get i = some h) :
    n.scan h = server.scan h :=
  hf.scan_fetched rfl i (Nat.zero_le i) hi h hget

variable (ha : a.FastSynced server base k tip)
include hf ha

section

variable (hbase : server.chain.entries.get k = some base)
include hbase

/-- The client that has fetched everything has the server's blocks up to the base. -/
theorem Fetched.get_eq {i : ℕ} (hi : i ≤ k) :
    n.chain.entries.get i = server.chain.entries.get i := by
  apply ext
  intro h
  have hget := hf.get i h
  rw [Nat.sub_zero, and_iff_right (Nat.zero_le i)] at hget
  rw [hget]
  constructor
  · rintro (⟨hki, hown⟩ | ⟨-, -, hserver⟩)
    · obtain rfl : i = k := by omega
      rw [Nat.sub_self, ha.own.base] at hown
      rw [hbase, some.inj hown]
    · exact hserver
  · intro hserver
    by_cases hik : i < k
    · exact .inr ⟨Nat.zero_le i, hik, hserver⟩
    · obtain rfl : i = k := by omega
      refine .inl ⟨le_rfl, ?_⟩
      rw [Nat.sub_self, ha.own.base, ← mem_unique hbase hserver]

theorem Fetched.recordAt_eq {i : ℕ} (hi : i ≤ k) : n.recordAt i = server.recordAt i := by
  unfold recordAt
  rw [hf.get_eq ha hbase hi]
  cases hget : server.chain.entries.get i with
  | none => rfl
  | some h => exact hf.scan_eq hi hget

theorem Fetched.pruningPointAt
    {p : H × CompactHeaderData} {i : ℕ} (hp : a.PruningPointOn server k p i) :
    n.PruningPointAt k p i := by
  obtain ⟨hik, hget, hscores⟩ | ⟨hki, hown⟩ := hp
  · have hget' : n.chain.entries.get i = some p.1 := (hf.get_eq ha hbase hik).trans hget
    refine ⟨(hf.consistent i p.1).mp hget', fun _ d hd => hscores d ?_⟩
    rw [← hf.scan_eq hik hget]
    exact hd
  · -- above the base the client reads its own index, and no record is compared
    obtain ⟨-, hget⟩ := (hf.get i p.1).mpr (.inl ⟨hki.le, hown⟩)
    exact ⟨(hf.consistent i p.1).mp hget, fun hle => absurd hle (by omega)⟩

end

variable [DecidableEq H] {R : ReplayFns H N G} {leaves : List N} {nullifiers : List H}
  (hs : R.HonestHistory server base k leaves nullifiers)
include hs

theorem Fetched.stream_eq {blocks : List (ReplayBlock H H)}
    (hblocks : (range (k + 1)).mapM (R.replayIndex server) = .ok blocks) :
    R.stream n k = blocks.map .ok := by
  have hindex : ∀ i ∈ range (k + 1), R.replayIndex n i = R.replayIndex server i := by
    intro i hi
    have hi : i ≤ k := Nat.lt_succ_iff.mp (mem_range.mp hi)
    obtain ⟨h, d, hget, hscan⟩ := hs.records i hi
    simp only [replayIndex, hf.get_eq ha hs.base_at hi, hget, okOr,
      ok_bind, hf.scan_eq hi hget]
  rw [stream, map_congr_left hindex]
  have hforall := mapM_eq_ok_iff.mp hblocks
  rw [← forall₂_eq_eq_eq, forall₂_map_left_iff, forall₂_map_right_iff]
  exact hforall

theorem Fetched.verified [CommGroupWithZero G] (hT : R.T.Spec)
    (hchain : a.HoldsChainState R base leaves nullifiers)
    (hsize : (a.stores.frontierAt base).size ≠ 0) :
    (verifyShieldedHistory R { a with node := n } base).1 = .Verified (k + 1) leaves.length := by
  obtain ⟨blocks, hblocks, hleaves, hnull⟩ := hs.replayed
  obtain ⟨tree, htree, hfrontier⟩ := hchain.frontier
  have hstream := hf.stream_eq ha hs hblocks
  have hbase : n.chain.entries.get k = some base :=
    (hf.get_eq ha hs.base_at le_rfl).trans hs.base_at
  obtain ⟨r, hr, hrtree, hrcount⟩ : ∃ r : Replay R.T H,
      replayFrontierStreamingCapturing R.T R.ofBytes (blocks.map .ok) =
        (.ok r : Except (ReplayError (SourceError H)) _) ∧ r.tree = tree ∧
      r.leaves = 0 + (blocks.flatMap (·.leaves R.ofBytes)).length :=
    exists_foldlM_block ((map_toBytes_of_mapM_fromBytes hT).mpr hleaves) htree
  refine (verify_eq_verified R).mpr ⟨hsize, k, (hf.consistent k base).mp hbase,
    ha.above_genesis.ne', ?_, ?_, r, ?_, ?_, ?_, rfl, ?_⟩
  · refine checkRecordScores_eq_ok.mpr ⟨fun i hi => ?_, ?_, fun l hl => by cases hl⟩
    · have hi : i ≤ k := Nat.lt_succ_iff.mp (mem_range.mp hi)
      obtain ⟨h, d, hget, -⟩ := hs.records i hi
      rw [hf.get_eq ha hs.base_at hi, hget]
      exact some_ne_none h
    · rw [pairwise_filterMap]
      refine pairwise_lt_range.imp_of_mem fun {i j} hi hj hij d hd d' hd' => ?_
      have hi : i ≤ k := Nat.lt_succ_iff.mp (mem_range.mp hi)
      have hj : j ≤ k := Nat.lt_succ_iff.mp (mem_range.mp hj)
      rw [hf.recordAt_eq ha hs.base_at hi] at hd
      rw [hf.recordAt_eq ha hs.base_at hj] at hd'
      exact hs.rising i j hij hj d hd d' hd'
  · obtain ⟨is, his, hsorted⟩ := ha.pruning_points
    exact checkPruningPoints_eq_ok.mpr
      ⟨is, his.imp fun p i hp => hf.pruningPointAt ha hs.base_at hp, hsorted⟩
  · show replayFrontierStreamingCapturing R.T R.ofBytes (R.stream n k) = .ok r
    rw [hstream]
    exact hr
  · show r.tree.toState R.T = a.stores.frontierAt base
    rw [hrtree, hfrontier]
  · show (MuHash.new.addAll R.mf (R.archivedNullifiers (R.stream n k))).finalize R.mf =
      (a.stores.nullifierMuhashAt base).finalize R.mf
    rw [hstream, archivedNullifiers_map_ok, hchain.muhash,
      MuHash.addAll_perm R.mf _ hnull]
  · rw [hrcount, hleaves, length_map]
    exact (Nat.zero_add _).symm

end

variable [DecidableEq H] [Inhabited H] [CommGroupWithZero G]

/-- The verification of the archive is sound and complete. A verdict `Verified` proves that the
archive below the base is the chain's, whatever the index and the records were; and a node synced to
the base that fetches the history from an honest server has every chunk accepted and the result
verified. -/
theorem verify_sound_and_complete (R : ReplayFns H N G) (hT : R.T.Spec)
    (hinj : ∀ lvl, Function.Injective2 (R.T.combine lvl)) (hmf : R.mf.Injective) :
    (∀ (a : Archive H G) (base : H) (leaves : List N) (nullifiers : List H) (blocks count : ℕ),
      a.HoldsChainState R base leaves nullifiers →
      (a.verifyShieldedHistory R base).1 = .Verified blocks count →
      ∃ k, a.Proven R base leaves nullifiers k) ∧
    ∀ (a : Archive H G) (server : Node H) (base : H) (k tip : ℕ) (leaves : List N)
      (nullifiers : List H) (max_blocks fuel : ℕ),
      R.HonestHistory server base k leaves nullifiers → a.FastSynced server base k tip →
      a.HoldsChainState R base leaves nullifiers → (a.stores.frontierAt base).size ≠ 0 →
      0 < max_blocks → k ≤ fuel →
      ∃ n, a.node.backfillCalls base (server.serveHistory max_blocks fuel base) =
          .ok (n, server.serveHistory max_blocks fuel base) ∧
        (verifyShieldedHistory R { a with node := n } base).1 =
          .Verified (k + 1) leaves.length := by
  constructor
  · intro a base leaves nullifiers blocks count hchain hverified
    exact proven_of_verified hT hinj hmf hchain hverified
  · intro a server base k tip leaves nullifiers max_blocks fuel hs ha hchain hsize hmax hfuel
    have hpos : 0 < fuel := lt_of_lt_of_le ha.above_genesis hfuel
    have hdescends := hs.toHasRecords.serveHistory_descends hmax le_rfl hs.base_at hfuel hpos
    obtain ⟨n, genesis, hcalls, hf⟩ := (ha.fetched hs.base_at).run ha hs hdescends
    exact ⟨n, hcalls, hf.verified ha hs hT hchain hsize⟩

namespace Sample

open Symbolic

local instance : Inhabited Term := ⟨.nil⟩

/-- Functions of a replay that meet every assumption; 32 bytes are read as their first one. -/
noncomputable def replayFns : ReplayFns Term ℕ ℚ where
  T := .natural
  mf := .rational
  coinbase := { txid := fun _ => .nil, commitment := fun _ _ _ => some 7 }
  ofBytes bytes := .atom (bytes.headD 0).toNat
  seed_active _ := false

/-- The record of a block with the given compact actions and no coinbase outputs. -/
def scanRecord (score : ℕ) (accepted : List (List UInt8)) : ShieldedScanBlockData Term where
  blue_score := score
  daa_score := score
  timestamp := 0
  coinbase_txid := .nil
  coinbase_outputs := []
  coinbase_commitments := []
  accepted := accepted.map fun action_bytes => { txid := .nil, action_bytes }

/-- A server of two blocks, the second with one action. -/
def honestServer : Node Term where
  chain :=
    { entries :=
        { get := fun i => if i = 0 then some (.atom 20) else if i = 1 then some (.atom 10) else none
          find := fun h => if h = .atom 20 then some 0 else if h = .atom 10 then some 1 else none }
      highest_index := some 1 }
  headers _ := none
  scan h :=
    if h = .atom 20 then some (scanRecord 0 [])
    else if h = .atom 10 then some (scanRecord 1 [replicate 148 5]) else none
  pruning_meta := .cleared

/-- A client that was synced to the second block and holds the state of the chain there. -/
noncomputable def syncedClient : Archive Term ℚ where
  node :=
    { chain :=
        { entries :=
            { get := fun i => if i = 0 then some (.atom 10) else none
              find := fun h => if h = .atom 10 then some 0 else none }
          highest_index := some 0 }
      headers := fun h =>
        if h = .atom 10 then some { blue_score := 1, daa_score := 1, timestamp := 0 } else none
      scan := fun _ => none
      pruning_meta := .cleared }
  stores :=
    { (ShieldedStores.empty : ShieldedStores Term ℚ) with
      tree_store := fun _ => some { size := 1, leaf := some (.atom 5), ommers := [] }
      nullifier_muhash := fun _ => some (MuHash.new.addAll replayFns.mf [.atom 5]) }
  pruning_points :=
    [(.atom 20, { blue_score := 0, daa_score := 0, timestamp := 0 }),
      (.atom 10, { blue_score := 1, daa_score := 1, timestamp := 0 })]

theorem honestServer_honest : replayFns.HonestHistory honestServer (.atom 10) 1 [5] [.atom 5] where
  consistent i h := by
    simp only [honestServer]
    split_ifs <;> simp_all <;> grind
  records i hi := by
    obtain rfl | rfl : i = 0 ∨ i = 1 := by omega
    · exact ⟨_, _, rfl, rfl⟩
    · exact ⟨_, _, rfl, rfl⟩
  base_at := rfl
  rising i j hij hj d hd d' hd' := by
    obtain ⟨rfl, rfl⟩ : i = 0 ∧ j = 1 := by omega
    obtain rfl := some.inj hd
    obtain rfl := some.inj hd'
    exact ⟨Nat.zero_lt_one, Nat.zero_le 1⟩
  blobs i hi d hd := by
    obtain rfl | rfl : i = 0 ∨ i = 1 := by omega
    · obtain rfl := some.inj hd
      exact fun t ht => absurd ht not_mem_nil
    · obtain rfl := some.inj hd
      intro t ht
      obtain ⟨bytes, hbytes, rfl⟩ := mem_map.mp ht
      rw [mem_singleton.mp hbytes, length_replicate]
      rfl
  replayed := by
    have haction : compactActions (replicate 148 5) = [replicate 148 5] := by
      simp [compactActions, chunksExact, SERIALIZED_LEN, range_succ]
    refine ⟨[{ label := some (.atom 20), coinbase := [], accepted := [] },
      { label := none, coinbase := [], accepted := [replicate 148 5] }], rfl, ?_, ?_⟩
    · simp only [flatMap_cons, flatMap_nil, ReplayBlock.leaves, haction]
      rfl
    · simp only [flatMap_cons, flatMap_nil, ReplayBlock.nullifiers, haction]
      exact .refl _

theorem syncedClient_fastSynced : syncedClient.FastSynced honestServer (.atom 10) 1 0 where
  own :=
    { consistent := fun i h => by
        simp only [syncedClient]
        split_ifs <;> simp_all <;> grind
      highest := rfl
      full := fun i hi => ⟨.atom 10, by obtain rfl := Nat.le_zero.mp hi; rfl⟩
      above := fun i hi => if_neg (by omega)
      base := rfl
      no_backfill := rfl }
  above_genesis := Nat.zero_lt_one
  fits := by decide
  base_header := some_ne_none _
  headers i hi h d hd hget hscan hheader := by
    obtain rfl | rfl : i = 0 ∨ i = 1 := by omega
    · obtain rfl := some.inj hget
      cases hheader
    · obtain rfl := some.inj hget
      obtain rfl := some.inj hscan
      obtain rfl := some.inj hheader
      rfl
  records i hi h hget := .inl rfl
  apart i hi h hget := by
    obtain rfl : i = 0 := by omega
    obtain rfl := some.inj hget
    rfl
  pruning_points := by
    refine ⟨[0, 1], .cons (.inl ⟨Nat.zero_le 1, rfl, fun d hd => ?_⟩)
      (.cons (.inl ⟨le_rfl, rfl, fun d hd => ?_⟩) .nil), by decide⟩
    · obtain rfl := some.inj hd
      rfl
    · obtain rfl := some.inj hd
      rfl

theorem syncedClient_holds : syncedClient.HoldsChainState replayFns (.atom 10) [5] [.atom 5] where
  frontier := ⟨_, rfl, rfl⟩
  muhash := rfl

/-- The client fetches the history of the server, verifies it and has it proven. -/
theorem syncedClient_verifies :
    ∃ n, syncedClient.node.backfillCalls (.atom 10) (honestServer.serveHistory 1 1 (.atom 10)) =
        .ok (n, honestServer.serveHistory 1 1 (.atom 10)) ∧
      (verifyShieldedHistory replayFns { syncedClient with node := n } (.atom 10)).1 =
        .Verified 2 1 ∧
      ∃ k, Proven replayFns { syncedClient with node := n } (.atom 10) [5] [.atom 5] k := by
  obtain ⟨sound, complete⟩ := verify_sound_and_complete replayFns NoteTree.natural_spec
    NoteTree.natural_combine_injective2 MuHashFns.rational_injective
  obtain ⟨n, hcalls, hverified⟩ := complete syncedClient honestServer (.atom 10) 1 0 [5] [.atom 5]
    1 1 honestServer_honest syncedClient_fastSynced syncedClient_holds (by decide) (by decide)
    le_rfl
  refine ⟨n, hcalls, hverified, sound { syncedClient with node := n } (.atom 10) [5] [.atom 5] 2 1
    ?_ hverified⟩
  exact ⟨syncedClient_holds.frontier, syncedClient_holds.muhash⟩

end Sample

end Zkas.History
