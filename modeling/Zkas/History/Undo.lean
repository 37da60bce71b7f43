import Zkas.History.Ingest
import Zkas.History.Purge

/-!
# Undoing a backfill

The backfill flow of `protocol/flows/src/ibd/flow.rs` feeds the chunks of a peer to
`backfillShieldedHistory`, each anchored at the lowest block of the chunk accepted before it, and
purges what they wrote when the history does not verify. `Node.backfillCalls` is the flow's loop
over the chunks, refused chunks included; `Backfilled` says what any such sequence leaves. -/

namespace Zkas.History

open List Option Except Node

variable {H : Type}

/-! ## The flow -/

/-- A chunk as the peer sends it. -/
structure Chunk (H : Type) where
  /-- The peer's index of the anchor. -/
  anchor_index : ℕ
  entries : List (Entry H)
  /-- The peer has reached genesis. -/
  done : Bool
  deriving DecidableEq

/-- The entries of a chunk in the order of their indexes. -/
def Chunk.records (c : Chunk H) : List (Entry H) := sortByIndex c.entries

/-- The block of the lowest entry, or the anchor. -/
def Chunk.lowest (c : Chunk H) (anchor : H) : H := (c.records.head?.map (·.2.hash)).getD anchor

variable {s n : Node H} {log : List (Chunk H)} {tip b : ℕ} {base : H} {c : Chunk H}

theorem Chunk.mem_records {e : Entry H} : e ∈ c.records ↔ e ∈ c.entries := mem_insertionSort _

theorem Chunk.exists_lowest (c : Chunk H) (hne : c.entries ≠ []) (anchor : H) :
    ∃ e₀ ∈ c.entries, c.lowest anchor = e₀.2.hash ∧ ∀ e ∈ c.entries, e₀.1 ≤ e.1 := by
  obtain ⟨e, he⟩ := exists_mem_of_ne_nil _ hne
  obtain ⟨e₀, es, hrecords⟩ := exists_cons_of_ne_nil (ne_nil_of_mem (Chunk.mem_records.mpr he))
  refine ⟨e₀, Chunk.mem_records.mp (hrecords ▸ mem_cons_self),
    by simp [Chunk.lowest, hrecords], fun e he => ?_⟩
  -- the records are sorted, so the first one is the lowest
  have hsorted := sortByIndex_sorted c.entries
  rw [← Chunk.records, hrecords] at hsorted
  have he := Chunk.mem_records.mpr he
  rw [hrecords] at he
  rcases mem_cons.mp he with rfl | he
  · exact le_rfl
  · exact (pairwise_cons.mp hsorted).1 e he

/-- The calls the flow makes for the chunks of a peer: the node after them and the chunks that were
accepted. A refused chunk leaves the node and the anchor; the flow ends at an empty chunk, at the
last one, where nothing was stored and where the walk no longer descends. -/
def Node.backfillCalls [DecidableEq H] (n : Node H) (anchor : H) :
    List (Chunk H) → Except (Fault (BackfillError H)) (Node H × List (Chunk H))
  | [] => .ok (n, [])
  | c :: cs =>
    if c.entries = [] then .ok (n, [])
    else
      match n.backfillShieldedHistory anchor c.anchor_index c.records with
      | .error .panic => .error .panic
      | .error (.err _) => n.backfillCalls anchor cs
      | .ok (n', idx, recs) =>
        if c.done ∨ (idx = 0 ∧ recs = 0) ∨ c.lowest anchor = anchor then .ok (n', [c])
        else do
          let (n'', log) ← n'.backfillCalls (c.lowest anchor) cs
          return (n'', c :: log)

/-! ## What the calls leave -/

/-- A node that indexed its chain itself: the indexes up to the tip are its own blocks. -/
structure Node.OwnChain (n : Node H) (tip : ℕ) (base : H) : Prop where
  consistent : n.chain.entries.Consistent
  highest : n.chain.highest_index = some tip
  full : ∀ i ≤ tip, ∃ h, n.chain.entries.get i = some h
  above : ∀ i, tip < i → n.chain.entries.get i = none
  base : n.chain.entries.get 0 = some base
  no_backfill : n.pruning_meta.shielded_history_backfilled = false

/-- An accepted chunk carries a record of this block at or below its anchor. -/
def Carries (log : List (Chunk H)) (h : H) : Prop :=
  ∃ c ∈ log, ∃ e ∈ c.entries, e.1 ≤ c.anchor_index ∧ e.2.hash = h

/-- An accepted chunk has an entry below its anchor. -/
def Indexes (log : List (Chunk H)) : Prop := ∃ c ∈ log, ∃ e ∈ c.entries, e.1 < c.anchor_index

/-- What the accepted chunks of a log leave of the node `s` with the lowest block `base`, whose own
entries they have raised by `b`. -/
structure Backfilled (s : Node H) (tip : ℕ) (base : H) (log : List (Chunk H)) (b : ℕ)
    (n : Node H) : Prop where
  consistent : n.chain.entries.Consistent
  own : ∀ i, n.chain.entries.get (i + b) = s.chain.entries.get i
  highest : n.chain.highest_index = some (tip + b)
  headers : n.headers = s.headers
  /-- The blocks below the node's own are the ones carried. -/
  below : ∀ h, (∃ i < b, n.chain.entries.get i = some h) ↔ h ≠ base ∧ Carries log h
  /-- Without index entries there are none. -/
  bare : ¬ Indexes log → ∀ i < b, n.chain.entries.get i = none
  scan_kept : ∀ h, ¬ Carries log h ∨ s.scan h ≠ none → n.scan h = s.scan h
  scan_carried : ∀ h, Carries log h → n.scan h ≠ none
  marked : Indexes log → n.pruning_meta = s.pruning_meta.mark (some base)
  unmarked : ¬ Indexes log → n.pruning_meta = s.pruning_meta
  shift_eq_zero : b = 0 ↔ ∀ c ∈ log, c.anchor_index = 0

theorem Node.OwnChain.backfilled (hs : s.OwnChain tip base) : Backfilled s tip base [] 0 s where
  consistent := hs.consistent
  own _ := rfl
  highest := hs.highest
  headers := rfl
  below h := by simp [Carries]
  bare _ i hi := absurd hi (Nat.not_lt_zero i)
  scan_kept _ _ := rfl
  scan_carried h hc := by simp [Carries] at hc
  marked h := by simp [Indexes] at h
  unmarked _ := rfl
  shift_eq_zero := by simp

/-- Where the next chunk is anchored: at the node's lowest entry. -/
structure Anchored (n : Node H) (b : ℕ) (anchor : H) (l : ℕ) : Prop where
  found : n.chain.entries.find anchor = some l
  le : l ≤ b
  lowest : ∀ i < l, n.chain.entries.get i = none

theorem carries_append {h : H} : Carries (log ++ [c]) h ↔
      Carries log h ∨ ∃ e ∈ c.entries, e.1 ≤ c.anchor_index ∧ e.2.hash = h := by
  simp [Carries, or_and_right, exists_or]

theorem indexes_append :
    Indexes (log ++ [c]) ↔ Indexes log ∨ ∃ e ∈ c.entries, e.1 < c.anchor_index := by
  simp [Indexes, or_and_right, exists_or]

theorem written_records_ne_nil :
    written c.anchor_index c.records ≠ [] ↔ ∃ e ∈ c.entries, e.1 < c.anchor_index := by
  constructor
  · intro hne
    obtain ⟨⟨i, h⟩, hmem⟩ := exists_mem_of_ne_nil _ hne
    obtain ⟨e, he, hlt, -⟩ := mem_written.mp hmem
    exact ⟨e, Chunk.mem_records.mp he, hlt⟩
  · rintro ⟨e, he, hlt⟩
    exact ne_nil_of_mem (mem_written.mpr ⟨e, Chunk.mem_records.mpr he, hlt, rfl, rfl⟩)

section

variable (hinv : Backfilled s tip base log b n) (hs : s.OwnChain tip base)
include hinv

include hs in
theorem Backfilled.above {i : ℕ} (hi : tip + b < i) : n.chain.entries.get i = none := by
  have hown := hinv.own (i - b)
  rw [Nat.sub_add_cancel (by omega)] at hown
  rw [hown]
  exact hs.above _ (by omega)

include hs in
theorem Backfilled.get_base : n.chain.entries.get b = some base := by
  have hown := hinv.own 0
  rwa [zero_add, hs.base] at hown

section

variable [DecidableEq H] {n' : Node H} {l : ℕ} {anchor : H} {scores : ℕ × ℕ}
  (hanc : Anchored n b anchor l)

include hs

include hanc in
theorem Backfilled.below_step (hacc : n.Accepts anchor c.anchor_index c.records l scores)
    (hing : Ingested n (c.anchor_index - l) (tip + b) c.anchor_index c.records n') (h : H) :
    (∃ i < b + (c.anchor_index - l), n'.chain.entries.get i = some h) ↔
      h ≠ base ∧ Carries (log ++ [c]) h := by
  have hle := hanc.le
  -- a block of the chunk below the anchor is new to the node
  have hnew : ∀ e ∈ c.records, e.1 < c.anchor_index → n'.chain.entries.get e.1 = some e.2.hash :=
    fun e he hlt => (hing.get _ _).mpr (.inr (mem_written.mpr ⟨e, he, hlt, rfl, rfl⟩))
  have hraised : ∀ {i h}, n.chain.entries.get i = some h →
      n'.chain.entries.get (i + (c.anchor_index - l)) = some h := fun {i h} hi =>
    (hing.get _ _).mpr (.inl ⟨by omega, by rwa [Nat.add_sub_cancel]⟩)
  rw [carries_append]
  constructor
  · rintro ⟨i, hi, hget⟩
    rcases (hing.get i h).mp hget with ⟨hshift, hold⟩ | hmem
    · obtain ⟨hne, hcarried⟩ := (hinv.below h).mp ⟨_, by omega, hold⟩
      exact ⟨hne, .inl hcarried⟩
    · obtain ⟨e, he, hlt, rfl, rfl⟩ := mem_written.mp hmem
      refine ⟨fun hbase => ?_, .inr ⟨e, Chunk.mem_records.mp he, hlt.le, rfl⟩⟩
      -- the node's own lowest block stands at its raised place only
      have hplace := hing.consistent.get_inj hget (hbase ▸ hraised (hinv.get_base hs))
      omega
  · rintro ⟨hne, hcarried | ⟨e, he, hplaced, rfl⟩⟩
    · obtain ⟨i, hi, hget⟩ := (hinv.below h).mpr ⟨hne, hcarried⟩
      exact ⟨i + (c.anchor_index - l), by omega, hraised hget⟩
    · by_cases hlt : e.1 < c.anchor_index
      · exact ⟨e.1, by omega, hnew e (Chunk.mem_records.mpr he) hlt⟩
      · -- the anchor itself, a block below the node's own
        have heq : e.1 = c.anchor_index := by omega
        have hanchor : e.2.hash = anchor :=
          ((hacc.scored e (Chunk.mem_records.mpr he) hplaced).at_anchor).mp heq
        have hget : n.chain.entries.get l = some e.2.hash := by
          rw [hanchor]
          exact (hinv.consistent l anchor).mpr hanc.found
        have hlb : l ≠ b := fun hlb => by
          rw [hlb, hinv.get_base hs] at hget
          exact hne (some.inj hget).symm
        exact ⟨l + (c.anchor_index - l), by omega, hraised hget⟩

theorem Backfilled.marked_step {shift : ℕ} (hlog : log = [] ∨ Indexes log)
    (hing : Ingested n shift (tip + b) c.anchor_index c.records n') (hidx : Indexes (log ++ [c])) :
    n'.pruning_meta = s.pruning_meta.mark (some base) := by
  rw [hing.pruning_meta]
  rcases hlog with rfl | hold
  · have hnot : ¬ Indexes ([] : List (Chunk H)) := by simp [Indexes]
    have hnew := (indexes_append.mp hidx).resolve_left hnot
    have hzero : b = 0 := hinv.shift_eq_zero.mpr (by simp)
    have hbase : n.chain.entries.get 0 = some base := hzero ▸ hinv.get_base hs
    rw [if_neg (written_records_ne_nil.mpr hnew), recordOwnBase, hinv.unmarked hnot,
      hs.no_backfill, hbase]
    rfl
  · have hmarked := hinv.marked hold
    have hown : n.recordOwnBase = none := by
      rw [recordOwnBase, hmarked]
      rfl
    rw [hown, hmarked]
    split_ifs <;> rfl

include hanc in
theorem Backfilled.step (hlog : log = [] ∨ Indexes log)
    (hacc : n.Accepts anchor c.anchor_index c.records l scores)
    (hing : Ingested n (c.anchor_index - l) (tip + b) c.anchor_index c.records n') :
    Backfilled s tip base (log ++ [c]) (b + (c.anchor_index - l)) n' := by
  have hle := hanc.le
  have hcarried : ∀ h, (carried c.anchor_index c.records h).isSome ↔
      ∃ e ∈ c.entries, e.1 ≤ c.anchor_index ∧ e.2.hash = h := fun h => by
    rw [carried_isSome]
    simp only [Chunk.mem_records]
  refine ⟨hing.consistent, fun i => ?_, ?_, hing.headers.trans hinv.headers,
    hinv.below_step hs hanc hacc hing, fun hidx i hi => ?_, fun h hkept => ?_, fun h hc => ?_,
    fun hidx => ?_, fun hidx => ?_, ?_⟩
  · -- what the chunk writes lies below the node's own entries
    apply ext
    intro h
    rw [hing.get, ← hinv.own i]
    have hsub : i + (b + (c.anchor_index - l)) - (c.anchor_index - l) = i + b := by omega
    rw [hsub]
    refine ⟨fun hget => ?_, fun hget => .inl ⟨by omega, hget⟩⟩
    rcases hget with ⟨-, hget⟩ | hmem
    · exact hget
    · obtain ⟨e, he, hlt, heq, -⟩ := mem_written.mp hmem
      omega
  · rw [hing.highest]
    congr 1
    omega
  · -- only the first chunk can leave the index without entries of its own
    rw [indexes_append, not_or] at hidx
    have hzero : b = 0 := by
      rw [hinv.shift_eq_zero, hlog.resolve_right hidx.1]
      simp
    rw [eq_none_iff_forall_ne_some]
    intro h hih
    rcases (hing.get i h).mp hih with ⟨hshift, -⟩ | hwritten
    · omega
    · exact hidx.2 (written_records_ne_nil.mp (ne_nil_of_mem hwritten))
  · rw [hing.scan]
    rcases hkept with hnot | hsome
    · rw [carries_append, not_or] at hnot
      have hnone : carried c.anchor_index c.records h = none :=
        not_isSome_iff_eq_none.mp fun h' => hnot.2 ((hcarried h).mp h')
      rw [hnone, or_none]
      exact hinv.scan_kept h (.inl hnot.1)
    · have hkept := hinv.scan_kept h (.inr hsome)
      obtain ⟨d, hd⟩ := ne_none_iff_exists'.mp hsome
      rw [hkept, hd, some_or]
  · rw [hing.scan]
    rcases carries_append.mp hc with hold | hnew
    · obtain ⟨d, hd⟩ := ne_none_iff_exists'.mp (hinv.scan_carried h hold)
      rw [hd, some_or]
      exact some_ne_none d
    · obtain ⟨d, hd⟩ := isSome_iff_exists.mp ((hcarried h).mpr hnew)
      cases n.scan h with
      | none => rw [hd, none_or]; exact some_ne_none d
      | some d' => exact some_ne_none d'
  · exact hinv.marked_step hs hlog hing hidx
  · rw [indexes_append, not_or] at hidx
    rw [hing.pruning_meta, if_pos (not_not.mp (mt written_records_ne_nil.mp hidx.2))]
    exact hinv.unmarked hidx.1
  · rw [forall_mem_append, ← hinv.shift_eq_zero, forall_mem_singleton]
    omega

omit hinv hs in
include hanc in
/-- The chunk that follows is anchored at the node's lowest entry again, if something was stored and
the walk descends. -/
theorem Ingested.anchored {idx recs : ℕ} {chain : SelectedChain H}
    (hacc : n.Accepts anchor c.anchor_index c.records l scores)
    (hing : Ingested n (c.anchor_index - l) tip c.anchor_index c.records n')
    (hcounts : (idx, recs) = (writeRecords c.anchor_index { n with chain } c.records).2)
    (hstored : ¬ (idx = 0 ∧ recs = 0)) (hdescends : c.lowest anchor ≠ anchor) :
    (∃ e ∈ c.entries, e.1 < c.anchor_index) ∧
      ∃ l', Anchored n' (b + (c.anchor_index - l)) (c.lowest anchor) l' := by
  have hle := hanc.le
  obtain ⟨e, he, hplaced⟩ : ∃ e ∈ c.records, e.1 ≤ c.anchor_index := by
    by_contra hnone
    push Not at hnone
    rw [writeRecords, foldl_writeRecord_none _ hnone] at hcounts
    exact hstored (Prod.mk.inj hcounts)
  obtain ⟨e₀, he₀, hlowest, hmin⟩ :=
    c.exists_lowest (ne_nil_of_mem (Chunk.mem_records.mp he)) anchor
  have hmem : e₀ ∈ c.records := Chunk.mem_records.mpr he₀
  have hplaced₀ : e₀.1 ≤ c.anchor_index := (hmin e (Chunk.mem_records.mp he)).trans hplaced
  have hlt : e₀.1 < c.anchor_index := by
    refine lt_of_le_of_ne hplaced₀ fun heq => hdescends ?_
    rw [hlowest]
    exact (hacc.scored e₀ hmem hplaced₀).at_anchor.mp heq
  have hget : n'.chain.entries.get e₀.1 = some (c.lowest anchor) := by
    rw [hlowest]
    exact (hing.get _ _).mpr (.inr (mem_written.mpr ⟨e₀, hmem, hlt, rfl, rfl⟩))
  refine ⟨⟨e₀, he₀, hlt⟩, e₀.1, (hing.consistent _ _).mp hget, by omega, fun i hi => ?_⟩
  rw [eq_none_iff_forall_ne_some]
  intro h hih
  rcases (hing.get i h).mp hih with ⟨hshift, hold⟩ | hwritten
  · rw [hanc.lowest _ (by omega)] at hold
    exact some_ne_none _ hold.symm
  · obtain ⟨e', he', -, heq, -⟩ := mem_written.mp hwritten
    have := hmin e' (Chunk.mem_records.mp he')
    omega

include hanc in
theorem Backfilled.run {log' : List (Chunk H)} {chunks : List (Chunk H)}
    (hlog : log = [] ∨ Indexes log) (hrun : n.backfillCalls anchor chunks = .ok (n', log')) :
    ∃ b', Backfilled s tip base (log ++ log') b' n' := by
  induction chunks generalizing n b l anchor log log' with
  | nil =>
    cases ok.inj hrun
    exact ⟨b, by rwa [append_nil]⟩
  | cons c cs ih =>
    unfold backfillCalls at hrun
    split_ifs at hrun with hempty
    · cases ok.inj hrun
      exact ⟨b, by rwa [append_nil]⟩
    · split at hrun
      · exact absurd hrun (by simp)
      · exact ih hinv hanc hlog hrun
      · rename_i n₁ idx recs hcall
        have hrecords : c.records ≠ [] := by
          obtain ⟨e, he⟩ := exists_mem_of_ne_nil _ hempty
          exact ne_nil_of_mem (Chunk.mem_records.mpr he)
        obtain ⟨tip', l', scores, chain, ⟨tip_hash, htip⟩, hacc, hchain, rfl, hcounts⟩ :=
          (backfillShieldedHistory_ok hrecords).mp hcall
        obtain rfl : l' = l := mem_unique hacc.anchored hanc.found
        obtain rfl : tip' = tip + b := by
          simp only [SelectedChain.getTip, hinv.highest, bind_eq_bind, bind_some,
            bind_eq_some_iff] at htip
          obtain ⟨h, -, heq⟩ := htip
          exact (Prod.mk.inj (some.inj heq)).1.symm
        have hing := hacc.ingested hinv.consistent hinv.highest (fun i hi => hinv.above hs hi)
          hanc.lowest hchain
        have hstep := hinv.step hs hanc hlog hacc hing
        split_ifs at hrun with hstop
        · cases ok.inj hrun
          exact ⟨_, hstep⟩
        · push Not at hstop
          obtain ⟨-, hstored, hdescends⟩ := hstop
          obtain ⟨⟨n'', log''⟩, hrest, heq⟩ := bind_eq_ok_iff.mp hrun
          cases ok.inj heq
          obtain ⟨hindexes, l₁, hanc'⟩ := hing.anchored hanc hacc hcounts
            (fun hzero => hstored hzero.1 hzero.2) hdescends
          obtain ⟨b', hb'⟩ := ih hstep hanc' (.inr (indexes_append.mpr (.inr hindexes))) hrest
          exact ⟨b', by rwa [append_assoc] at hb'⟩

end

/-! ## The purge after the calls -/

omit hinv in
/-- Nodes with consistent indexes are equal when their fields are, the index by its blocks. -/
theorem Node.eq_iff (hn : n.chain.entries.Consistent) (hs : s.chain.entries.Consistent) :
    n = s ↔ n.chain.entries.get = s.chain.entries.get ∧
      n.chain.highest_index = s.chain.highest_index ∧ n.headers = s.headers ∧
      (∀ h, n.scan h = s.scan h) ∧ n.pruning_meta = s.pruning_meta := by
  constructor
  · rintro rfl
    exact ⟨rfl, rfl, rfl, fun _ => rfl, rfl⟩
  · rintro ⟨hget, hhighest, hheaders, hscan, hmeta⟩
    obtain ⟨⟨entries, highest⟩, headers, scan, pruning_meta⟩ := n
    obtain ⟨⟨entries', highest'⟩, headers', scan', pruning_meta'⟩ := s
    obtain rfl : entries = entries' := hn.eq_of_get hs hget
    obtain rfl : scan = scan' := funext hscan
    simp only at hhighest hheaders hmeta
    rw [hhighest, hheaders, hmeta]

/-- The condition under which a purge below `target` undoes the accepted chunks of a log, on the
node `s` before the first call with the lowest block `base`. -/
structure Undoable (s : Node H) (base target : H) (log : List (Chunk H)) : Prop where
  /-- No chunk carries a record of the lowest block, unless the node holds one, and no chunk indexes
  a block below it of which the node holds a record. -/
  records : ∀ h, Carries log h → (h = base ↔ s.scan h ≠ none)
  /-- The purge goes down to the lowest block: a chunk wrote index entries, so that the markers name
  it, or the caller names it, or there is nothing to move back. -/
  target : Indexes log ∨ s.chain.entries.find target = some 0 ∨
    s.chain.entries.find target = none ∧ ∀ c ∈ log, c.anchor_index = 0
  /-- The markers are clear, or nothing is moved back. -/
  markers : s.pruning_meta = .cleared ∨ ∀ c ∈ log, c.anchor_index = 0

/-- The scan records are the old ones exactly under the condition on the records. -/
theorem Backfilled.scan_iff {n' : Node H}
    (hbelow : ∀ h, h ≠ base → Carries log h → n'.scan h = none)
    (hother : ∀ h, h = base ∨ ¬ Carries log h → n'.scan h = n.scan h) :
    (∀ h, n'.scan h = s.scan h) ↔ ∀ h, Carries log h → (h = base ↔ s.scan h ≠ none) := by
  constructor
  · intro heq h hc
    rw [← heq h]
    constructor
    · intro hbase
      rw [hother h (.inl hbase)]
      exact hinv.scan_carried h hc
    · intro hsome
      by_contra hne
      exact hsome (hbelow h hne hc)
  · intro hrec h
    by_cases hc : Carries log h
    · by_cases hbase : h = base
      · rw [hother h (.inl hbase)]
        exact hinv.scan_kept h (.inr ((hrec h hc).mp hbase))
      · rw [hbelow h hbase hc]
        exact (not_not.mp (mt (hrec h hc).mpr hbase)).symm
    · rw [hother h (.inr hc)]
      exact hinv.scan_kept h (.inl hc)

include hs in
theorem Backfilled.find_of_bare (hbare : ¬ Indexes log) (h : H) :
    n.chain.entries.find h = (s.chain.entries.find h).map (· + b) := by
  cases hfind : s.chain.entries.find h with
  | some a =>
    have hget := (hs.consistent a h).mpr hfind
    rw [← hinv.own] at hget
    exact (hinv.consistent _ h).mp hget
  | none =>
    refine hinv.consistent.find_eq_none.mpr fun i hi => ?_
    have hle : b ≤ i := by
      by_contra hlt
      rw [hinv.bare hbare i (by omega)] at hi
      exact some_ne_none _ hi.symm
    rw [← Nat.sub_add_cancel hle, hinv.own] at hi
    exact hs.consistent.find_eq_none.mp hfind _ hi

theorem Backfilled.carries_of_bare {h : H} (hbare : ¬ Indexes log) (hc : Carries log h) :
    h = base := by
  by_contra hne
  obtain ⟨i, hi, hget⟩ := (hinv.below h).mpr ⟨hne, hc⟩
  rw [hinv.bare hbare i hi] at hget
  exact some_ne_none _ hget.symm

include hs in
theorem Backfilled.getTip : ∃ h, n.chain.getTip = some (tip + b, h) := by
  obtain ⟨h, hh⟩ := hs.full tip le_rfl
  rw [← hinv.own] at hh
  exact ⟨h, by simp [SelectedChain.getTip, hinv.highest, hh]⟩

include hs in
theorem Backfilled.purged_eq_iff {n' : Node H} (hpurged : Purged b (tip + b) n n') :
    n' = s ↔ (∀ h, Carries log h → (h = base ↔ s.scan h ≠ none)) ∧ s.pruning_meta = .cleared := by
  have hget : n'.chain.entries.get = s.chain.entries.get := by
    funext i
    rw [hpurged.get, hinv.own]
  have hhighest : n'.chain.highest_index = s.chain.highest_index := by
    rw [hpurged.highest, hs.highest, Nat.add_sub_cancel]
  have hscan : (∀ h, n'.scan h = s.scan h) ↔ _ := hinv.scan_iff (fun h hne hc => by
      obtain ⟨i, hi, hih⟩ := (hinv.below h).mpr ⟨hne, hc⟩
      exact hpurged.scan_below hi hih)
    (fun h hother => hpurged.scan_other fun i hi hih => by
      obtain ⟨hne, hc⟩ := (hinv.below h).mp ⟨i, hi, hih⟩
      exact hother.elim hne (fun hnot => hnot hc))
  rw [eq_iff hpurged.consistent hs.consistent, hscan, hpurged.pruning_meta]
  refine ⟨fun ⟨_, _, _, hrec, hmeta⟩ => ⟨hrec, hmeta.symm⟩, fun ⟨hrec, hmeta⟩ =>
    ⟨hget, hhighest, hpurged.headers.trans hinv.headers, hrec, hmeta.symm⟩⟩

omit hinv in
include hs in
theorem Backfilled.unshifted_eq_iff (hinv : Backfilled s tip base log 0 n) (hbare : ¬ Indexes log) :
    n = s ↔ ∀ h, Carries log h → (h = base ↔ s.scan h ≠ none) := by
  have hscan : (∀ h, n.scan h = s.scan h) ↔ _ := hinv.scan_iff
    (fun h hne hc => absurd (hinv.carries_of_bare hbare hc) hne) (fun _ _ => rfl)
  rw [eq_iff hinv.consistent hs.consistent, hscan]
  refine ⟨fun h => h.2.2.2.1, fun h => ⟨funext hinv.own, ?_, hinv.headers, h, hinv.unmarked hbare⟩⟩
  rw [hinv.highest, hs.highest, add_zero]

section

variable [DecidableEq H]
include hs

theorem Backfilled.purge_of_indexes (hidx : Indexes log) (target : H) :
    ∃ n' discarded, n.purgeShieldedHistoryBelow target = .ok (n', discarded) ∧
      (n' = s ↔ Undoable s base target log) := by
  have hshifted : ¬ ∀ c ∈ log, c.anchor_index = 0 := by
    obtain ⟨c, hc, e, -, hlt⟩ := hidx
    exact fun hall => by have := hall c hc; omega
  have hb : b ≠ 0 := mt hinv.shift_eq_zero.mp hshifted
  have hown : n.pruning_meta.shieldedHistoryOwnBase.getD target = base := by
    rw [hinv.marked hidx]
    rfl
  have hfind : n.chain.entries.find (n.pruning_meta.shieldedHistoryOwnBase.getD target) =
      some b := by
    rw [hown]
    exact (hinv.consistent b base).mp (hinv.get_base hs)
  obtain ⟨tip_hash, htip⟩ := hinv.getTip hs
  obtain ⟨n', discarded, hpurge, hpurged⟩ := purge_spec hb hinv.consistent htip
    (Nat.le_add_left b tip) (fun i hi => hinv.above hs hi) hfind
  refine ⟨n', discarded, hpurge, (hinv.purged_eq_iff hs hpurged).trans ⟨fun h => ?_, fun h => ?_⟩⟩
  · exact ⟨h.1, .inl hidx, .inl h.2⟩
  · exact ⟨h.records, h.markers.resolve_right hshifted⟩

/-- The purge after chunks that wrote no index entries goes by the block the caller names. -/
theorem Backfilled.purge_of_bare (hbare : ¬ Indexes log) (target : H) :
    ∃ n' discarded, n.purgeShieldedHistoryBelow target = .ok (n', discarded) ∧
      (n' = s ↔ Undoable s base target log) := by
  have hmeta := hinv.unmarked hbare
  have hown : n.pruning_meta.shieldedHistoryOwnBase = none := by
    simp [hmeta, PruningMeta.shieldedHistoryOwnBase, hs.no_backfill]
  have hfind := hinv.find_of_bare hs hbare target
  cases htarget : s.chain.entries.find target with
  | none =>
    -- the named block is not indexed: the purge does nothing
    rw [htarget, map_none] at hfind
    refine ⟨n, 0, ?_, ?_⟩
    · simp only [purgeShieldedHistoryBelow, hown, getD_none, hfind]
    · by_cases hb : b = 0
      · subst hb
        have hzero := hinv.shift_eq_zero.mp rfl
        rw [hinv.unshifted_eq_iff hs hbare]
        exact ⟨fun h => ⟨h, .inr (.inr ⟨htarget, hzero⟩), .inr hzero⟩, fun h => h.records⟩
      · refine ⟨fun heq => ?_, fun h => ?_⟩
        · have hhighest := hinv.highest
          rw [heq, hs.highest] at hhighest
          have := some.inj hhighest
          omega
        · rcases h.target with hidx | hzero | ⟨-, hzero⟩
          · exact absurd hidx hbare
          · rw [htarget] at hzero
            exact absurd hzero (some_ne_none _).symm
          · exact absurd (hinv.shift_eq_zero.mpr hzero) hb
  | some a =>
    rw [htarget, map_some] at hfind
    have hatip : a ≤ tip := by
      by_contra habove
      have hget := (hs.consistent a target).mpr htarget
      rw [hs.above a (by omega)] at hget
      exact some_ne_none _ hget.symm
    by_cases hzero : a + b = 0
    · -- the lowest block is where it was: the purge does nothing
      obtain ⟨rfl, rfl⟩ : a = 0 ∧ b = 0 := by omega
      have hno : n.pruning_meta.shielded_history_backfilled = false := hmeta ▸ hs.no_backfill
      refine ⟨n, 0, ?_, ?_⟩
      · simp [purgeShieldedHistoryBelow, hown, hfind, hno]
      · rw [hinv.unshifted_eq_iff hs hbare]
        exact ⟨fun h => ⟨h, .inr (.inl htarget), .inr (hinv.shift_eq_zero.mp rfl)⟩,
          fun h => h.records⟩
    · obtain ⟨tip_hash, htip⟩ := hinv.getTip hs
      obtain ⟨n', discarded, hpurge, hpurged⟩ := purge_spec hzero hinv.consistent htip
        (by omega) (fun i hi => hinv.above hs hi) (by rw [hown]; exact hfind)
      refine ⟨n', discarded, hpurge, ?_⟩
      by_cases ha : a = 0
      · subst ha
        rw [zero_add] at hpurged hzero
        rw [hinv.purged_eq_iff hs hpurged]
        have hshifted := mt hinv.shift_eq_zero.mpr hzero
        exact ⟨fun h => ⟨h.1, .inr (.inl htarget), .inl h.2⟩,
          fun h => ⟨h.records, h.markers.resolve_right hshifted⟩⟩
      · -- the purge takes the node's own blocks below the named one
        refine ⟨fun heq => ?_, fun h => ?_⟩
        · have hhighest := hpurged.highest
          rw [heq, hs.highest] at hhighest
          have := some.inj hhighest
          omega
        · rcases h.target with hidx | hfirst | ⟨hnone, -⟩
          · exact absurd hidx hbare
          · rw [htarget] at hfirst
            exact absurd (some.inj hfirst) ha
          · rw [htarget] at hnone
            exact absurd hnone (some_ne_none _)

end

end

/-- A purge after any calls of the flow on a node without a backfill returns exactly the node before
them — the chain index in both directions, its highest index, every scan record and the markers —
if and only if the accepted chunks are undoable. -/
theorem purge_restores_iff [DecidableEq H] {s n : Node H} {tip : ℕ} {base : H}
    {log : List (Chunk H)}
    (hs : s.OwnChain tip base) (chunks : List (Chunk H))
    (hcalls : s.backfillCalls base chunks = .ok (n, log)) (target : H) :
    ∃ n' discarded, n.purgeShieldedHistoryBelow target = .ok (n', discarded) ∧
      (n' = s ↔ Undoable s base target log) := by
  have hanchored : Anchored s 0 base 0 :=
    ⟨(hs.consistent 0 base).mp hs.base, le_rfl, fun i hi => absurd hi (Nat.not_lt_zero i)⟩
  obtain ⟨b, hinv⟩ := hs.backfilled.run hs hanchored (.inl rfl) hcalls
  by_cases hidx : Indexes log
  · exact hinv.purge_of_indexes hs hidx target
  · exact hinv.purge_of_bare hs hidx target

namespace Sample

/-- A node that was synced from block `10` on and holds block `11` above it, without a record of
either. -/
def synced : Node ℕ where
  chain :=
    { entries :=
        { get := fun i => if i = 0 then some 10 else if i = 1 then some 11 else none
          find := fun h => if h = 10 then some 0 else if h = 11 then some 1 else none }
      highest_index := some 1 }
  headers h := if h = 10 then some { blue_score := 5, daa_score := 7, timestamp := 0 } else none
  scan _ := none
  pruning_meta := .cleared

theorem synced_ownChain : synced.OwnChain 1 10 where
  consistent i h := by
    simp only [synced]
    split_ifs <;> simp <;> omega
  highest := rfl
  full i hi := by
    obtain rfl | rfl : i = 0 ∨ i = 1 := by omega
    · exact ⟨10, rfl⟩
    · exact ⟨11, rfl⟩
  above i hi := by
    simp only [synced]
    rw [if_neg (by omega), if_neg (by omega)]
  base := rfl
  no_backfill := rfl

/-- A record without coinbase outputs. -/
def record (hash blue_score daa_score : ℕ) (accepted_actions : List (List UInt8)) :
    ShieldedChainBlockData ℕ where
  hash := hash
  blue_score := blue_score
  daa_score := daa_score
  coinbase_txid := 0
  coinbase_outputs := []
  coinbase_commitments := []
  accepted_actions := accepted_actions
  accepted_txids := accepted_actions.map fun _ => 0
  timestamp := 0

/-- The last chunk of a peer: the record of the block below the anchor, and one of the anchor. -/
def lastChunk (anchor_actions : List (List UInt8)) : Chunk ℕ where
  anchor_index := 1
  entries := [(0, record 20 0 0 []), (1, record 10 5 7 anchor_actions)]
  done := true

/-- The chunk without the anchor's record. -/
def belowChunk : Chunk ℕ := { lastChunk [] with entries := [(0, record 20 0 0 [])] }

/-- The node after some calls and the purge below its lowest block. -/
def undone (chunks : List (Chunk ℕ)) : Option (Node ℕ) := do
  let (n, _) ← (synced.backfillCalls 10 chunks).toOption
  let (n', _) ← (n.purgeShieldedHistoryBelow 10).toOption
  return n'

/-- A forged compact action. -/
def forgedAction : List UInt8 := replicate 148 1

/-- A peer's forged record of the lowest block outlives the purge, and a later chunk with the true
record, which is accepted, does not replace it. -/
theorem purge_keeps_forged_record : synced.OwnChain 1 10 ∧ synced.scan 10 = none ∧
      (undone [lastChunk [forgedAction]]).map (·.scan 10) =
        some (some (record 10 5 7 [forgedAction]).toScan) ∧
      ((undone [lastChunk [forgedAction]]).bind fun n =>
        (n.backfillShieldedHistory 10 1 (lastChunk []).records).toOption).map (·.1.scan 10) =
        some (some (record 10 5 7 [forgedAction]).toScan) :=
  ⟨synced_ownChain, rfl, by decide +kernel, by decide +kernel⟩

/-- The calls with the chunk that leaves out the anchor's record. -/
def belowCalls : Node ℕ × List (Chunk ℕ) :=
  (synced.backfillCalls 10 [belowChunk]).toOption.getD (synced, [])

theorem belowCalls_eq : synced.backfillCalls 10 [belowChunk] = .ok belowCalls := by
  have hok : (synced.backfillCalls 10 [belowChunk]).toOption.isSome = true := by decide +kernel
  obtain ⟨r, hr⟩ := isSome_iff_exists.mp hok
  rw [belowCalls, hr]
  exact toOption_eq_some.mp hr

theorem belowCalls_undoable : Undoable synced 10 10 belowCalls.2 := by
  have hlog : belowCalls.2 = [belowChunk] := by decide +kernel
  refine ⟨fun h hc => ?_, .inr (.inl rfl), .inl rfl⟩
  obtain ⟨c, hc, e, he, -, rfl⟩ := hc
  obtain rfl := mem_singleton.mp hc
  obtain rfl := mem_singleton.mp he
  decide

/-- The purge of such a chunk returns the node before it. -/
theorem purge_restores_below : ∃ n' discarded,
    belowCalls.1.purgeShieldedHistoryBelow 10 = .ok (n', discarded) ∧ n' = synced := by
  obtain ⟨n', discarded, hpurge, hiff⟩ :=
    purge_restores_iff synced_ownChain [belowChunk] belowCalls_eq 10
  exact ⟨n', discarded, hpurge, hiff.mpr belowCalls_undoable⟩

end Sample

end Zkas.History
