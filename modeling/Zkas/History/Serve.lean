import Zkas.History.Undo
import Zkas.History.Verify

/-!
# The server of a history

Model of the serving side, `get_shielded_history_indexed_below` of `consensus/src/consensus/mod.rs`
and `shielded_chain_block_data` of `pipeline/virtual_processor/processor.rs`. Server and client meet
at `Descends`, a description of the chunks an honest server sends: each starts at the block where
the one before it ended, and the last ends at genesis. -/

namespace Zkas.History

open List

variable {H N G : Type}

/-! ## The serving side -/

/-- The record of a block as it is served. -/
def ShieldedScanBlockData.serve (hash : H) (d : ShieldedScanBlockData H) :
    ShieldedChainBlockData H where
  hash := hash
  blue_score := d.blue_score
  daa_score := d.daa_score
  coinbase_txid := d.coinbase_txid
  coinbase_outputs := d.coinbase_outputs
  coinbase_commitments := d.coinbase_commitments
  accepted_actions := d.accepted.map (·.action_bytes)
  accepted_txids := d.accepted.map (·.txid)
  timestamp := d.timestamp

/-- The record of a block without one, from its header. -/
def CompactHeaderData.serve [Inhabited H] (hash : H) (h : CompactHeaderData) :
    ShieldedChainBlockData H where
  hash := hash
  blue_score := h.blue_score
  daa_score := h.daa_score
  coinbase_txid := default
  coinbase_outputs := []
  coinbase_commitments := []
  accepted_actions := []
  accepted_txids := []
  timestamp := h.timestamp

variable [Inhabited H]

/-- The data of a chain block, from its scan record or else from its header. -/
def Node.shieldedChainBlockData (n : Node H) (block : H) : Option (ShieldedChainBlockData H) :=
  match n.scan block with
  | some d => some (d.serve block)
  | none => (n.headers block).map (·.serve block)

/-- Walk down from an index, as long as there are at most `max_blocks` records: the records, and the
index where the walk ends. -/
def Node.walkDown (n : Node H) (max_blocks : ℕ) : ℕ → List (Entry H) → List (Entry H) × ℕ
  | 0, out => (out, 0)
  | index + 1, out =>
    if out.length ≤ max_blocks then
      match n.chain.entries.get index with
      | none => (out, index)
      | some hash =>
        n.walkDown max_blocks index
          (out ++ ((n.shieldedChainBlockData hash).map fun data => (index, data)).toList)
    else (out, index + 1)

/-- The records below an anchor, whether the walk reached genesis, and the anchor's index. -/
def Node.getShieldedHistoryIndexedBelow (n : Node H) (anchor : H) (max_blocks : ℕ) :
    List (Entry H) × Bool × ℕ :=
  match n.chain.entries.find anchor with
  | none => ([], false, 0)
  | some anchor_index =>
    let first := ((n.shieldedChainBlockData anchor).map fun data => (anchor_index, data)).toList
    let walked := n.walkDown max_blocks anchor_index first
    (walked.1, walked.2 == 0, anchor_index)

/-- The chunk that answers a request. -/
def Node.serveChunk (n : Node H) (anchor : H) (max_blocks : ℕ) : Chunk H :=
  let (entries, done, anchor_index) := n.getShieldedHistoryIndexedBelow anchor max_blocks
  { anchor_index, entries, done }

/-- The chunks of the requests of a client, each anchored at the lowest block of the chunk before.
-/
def Node.serveHistory (n : Node H) (max_blocks : ℕ) : ℕ → H → List (Chunk H)
  | 0, _ => []
  | fuel + 1, anchor =>
    let c := n.serveChunk anchor max_blocks
    if c.done then [c] else c :: n.serveHistory max_blocks fuel (c.lowest anchor)

/-! ## The chunks of an honest server -/

omit [Inhabited H] in
theorem ShieldedScanBlockData.toScan_serve (hash : H) (d : ShieldedScanBlockData H) :
    (d.serve hash).toScan = d := by
  have haccepted : ∀ l : List (ShieldedScanTx H),
      (l.map (·.action_bytes)).zipWith (fun action_bytes txid => ({ txid, action_bytes } :
        ShieldedScanTx H)) (l.map (·.txid)) = l := fun l => by
    induction l with
    | nil => rfl
    | cons t l ih => simp [ih]
  unfold ShieldedChainBlockData.toScan ShieldedScanBlockData.serve
  rw [haccepted]

/-- The chunk of the blocks from index `l` down to index `m`. -/
structure ChunkOf (server : Node H) (l m : ℕ) (c : Chunk H) : Prop where
  le : m ≤ l
  anchor_index : c.anchor_index = l
  indexes : c.entries.map (·.1) = (range' m (l + 1 - m)).reverse
  served : ∀ e ∈ c.entries, ∃ h d, server.chain.entries.get e.1 = some h ∧ server.scan h = some d ∧
    e.2 = d.serve h
  done : c.done = decide (m = 0)

/-- The chunks from an index down to genesis. -/
inductive Descends (server : Node H) : ℕ → List (Chunk H) → Prop where
  | last {l : ℕ} {c : Chunk H} : ChunkOf server l 0 c → Descends server l [c]
  | cons {l m : ℕ} {c : Chunk H} {cs : List (Chunk H)} : ChunkOf server l m c → 0 < m → m < l →
      Descends server m cs → Descends server l (c :: cs)

/-- A node with a record of every block up to an index. -/
structure Node.HasRecords (n : Node H) (k : ℕ) : Prop where
  consistent : n.chain.entries.Consistent
  records : ∀ i ≤ k, ∃ h d, n.chain.entries.get i = some h ∧ n.scan h = some d

variable {l k m : ℕ} {n server : Node H} {c : Chunk H}

theorem Node.HasRecords.walkDown (hn : n.HasRecords k) (max_blocks : ℕ)
    {index : ℕ} (hl : l ≤ k) (hindex : index ≤ l) {out : List (Entry H)}
    (hout : out.map (·.1) = (range' index (l + 1 - index)).reverse)
    (hserved : ∀ e ∈ out, ∃ h d, n.chain.entries.get e.1 = some h ∧ n.scan h = some d ∧
      e.2 = d.serve h) :
    let walked := n.walkDown max_blocks index out
    walked.2 ≤ index ∧ walked.1.map (·.1) = (range' walked.2 (l + 1 - walked.2)).reverse ∧
      (∀ e ∈ walked.1, ∃ h d, n.chain.entries.get e.1 = some h ∧ n.scan h = some d ∧
        e.2 = d.serve h) ∧
      (0 < index → out.length ≤ max_blocks → walked.2 < index) := by
  induction index generalizing out with
  | zero => exact ⟨le_rfl, hout, hserved, fun h => absurd h (lt_irrefl 0)⟩
  | succ index ih =>
    unfold Node.walkDown
    split_ifs with hroom
    · obtain ⟨h, d, hget, hscan⟩ := hn.records index (by omega)
      have hdata : n.shieldedChainBlockData h = some (d.serve h) := by
        simp [Node.shieldedChainBlockData, hscan]
      simp only [hget, hdata, Option.map_some, Option.toList_some]
      have hout' : (out ++ [(index, d.serve h)]).map (·.1) =
          (range' index (l + 1 - index)).reverse := by
        rw [map_append, hout, show l + 1 - index = l + 1 - (index + 1) + 1 by omega,
          range'_succ, reverse_cons]
        rfl
      obtain ⟨hle, hmap, hall, -⟩ := ih (by omega) hout' fun e he => by
        rcases mem_append.mp he with he | he
        · exact hserved e he
        · obtain rfl := mem_singleton.mp he
          exact ⟨h, d, hget, hscan, rfl⟩
      exact ⟨by omega, hmap, hall, fun _ _ => by omega⟩
    · exact ⟨le_rfl, hout, hserved, fun _ hlen => absurd hlen hroom⟩

/-- Every chunk of a node with every record is of a range of blocks, and it descends. -/
theorem Node.HasRecords.serveChunk (hn : n.HasRecords k) {max_blocks : ℕ}
    (hmax : 0 < max_blocks) {anchor : H} (hl : l ≤ k)
    (hanchor : n.chain.entries.get l = some anchor) :
    ∃ m, ChunkOf n l m (n.serveChunk anchor max_blocks) ∧ (0 < l → m < l) := by
  obtain ⟨h, d, hget, hscan⟩ := hn.records l hl
  obtain rfl : h = anchor := Option.mem_unique hget hanchor
  have hfind := (hn.consistent l h).mp hget
  have hdata : n.shieldedChainBlockData h = some (d.serve h) := by
    simp [Node.shieldedChainBlockData, hscan]
  have hfirst : [(l, d.serve h)].map (·.1) = (range' l (l + 1 - l)).reverse := by simp
  obtain ⟨hle, hmap, hall, hless⟩ := hn.walkDown max_blocks hl le_rfl hfirst fun e he => by
    obtain rfl := mem_singleton.mp he
    exact ⟨h, d, hget, hscan, rfl⟩
  refine ⟨(n.walkDown max_blocks l [(l, d.serve h)]).2, ⟨hle, ?_, ?_, ?_, ?_⟩, fun hpos =>
    hless hpos (Nat.succ_le_of_lt hmax)⟩
  all_goals simp only [Node.serveChunk, Node.getShieldedHistoryIndexedBelow, hfind, hdata,
    Option.map_some, Option.toList_some]
  · exact hmap
  · exact hall
  · rfl

omit [Inhabited H] in
theorem ChunkOf.mem_index (h : ChunkOf server l m c)
    {i : ℕ} : (∃ e ∈ c.entries, e.1 = i) ↔ m ≤ i ∧ i ≤ l := by
  have hle := h.le
  calc (∃ e ∈ c.entries, e.1 = i) ↔ i ∈ c.entries.map (·.1) := mem_map.symm
    _ ↔ i ∈ range' m (l + 1 - m) := by rw [h.indexes, mem_reverse]
    _ ↔ m ≤ i ∧ i ≤ l := by rw [mem_range'_1]; omega

omit [Inhabited H] in
theorem ChunkOf.get_hash (h : ChunkOf server l m c)
    {e : Entry H} (he : e ∈ c.entries) : server.chain.entries.get e.1 = some e.2.hash := by
  obtain ⟨hash, d, hget, -, heq⟩ := h.served e he
  rw [heq]
  exact hget

omit [Inhabited H] in
theorem ChunkOf.lowest (h : ChunkOf server l m c)
    (anchor : H) : server.chain.entries.get m = some (c.lowest anchor) := by
  obtain ⟨e, he, hem⟩ := h.mem_index.mpr ⟨le_rfl, h.le⟩
  obtain ⟨e₀, he₀, hlowest, hmin⟩ := c.exists_lowest (ne_nil_of_mem he) anchor
  have hle : e₀.1 ≤ m := hem ▸ hmin e he
  have hge : m ≤ e₀.1 := (h.mem_index.mp ⟨e₀, he₀, rfl⟩).1
  rw [hlowest, ← h.get_hash he₀, show e₀.1 = m by omega]

/-- The chunks of a node with every record descend to genesis. -/
theorem Node.HasRecords.serveHistory_descends (hn : n.HasRecords k)
    {max_blocks : ℕ} (hmax : 0 < max_blocks) {fuel : ℕ} {anchor : H} (hl : l ≤ k)
    (hanchor : n.chain.entries.get l = some anchor) (hfuel : l ≤ fuel) (hpos : 0 < fuel) :
    Descends n l (n.serveHistory max_blocks fuel anchor) := by
  induction fuel generalizing l anchor with
  | zero => exact absurd hpos (lt_irrefl 0)
  | succ fuel ih =>
    obtain ⟨m, hchunk, hless⟩ := hn.serveChunk hmax hl hanchor
    unfold Node.serveHistory
    by_cases hm : m = 0
    · have hdone : (n.serveChunk anchor max_blocks).done = true := by simp [hchunk.done, hm]
      simp only [hdone, if_true]
      exact .last (hm ▸ hchunk)
    · have hdone : (n.serveChunk anchor max_blocks).done = false := by simp [hchunk.done, hm]
      have hle := hchunk.le
      have hlt : m < l := hless (by omega)
      simp only [hdone, Bool.false_eq_true, if_false]
      exact .cons hchunk (by omega) hlt (ih (by omega) (hchunk.lowest anchor) (by omega) (by omega))

end Zkas.History
