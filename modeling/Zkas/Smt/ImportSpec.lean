import Zkas.Smt.Import
import Zkas.Smt.StreamingRun

/-!
# What an import writes

The branch store of an import has the nodes of the tree, each with the highest score below it
(`DbSink.mergeSink_lawful`); the lane store has the lanes; and the score index lists every lane with
its score, however the lanes were cut into chunks (`streamingImport_eq`). No entry stays pending,
since at the end every lane is sealed. -/

namespace Zkas.Smt

open BitPath SparseTree List Option AList PendingScoreIndex ImportLane StreamingSmtBuilder

variable {B D : Type} [DecidableEq B]

/-! ## The sink -/

/-- What a sink has written, and the lanes that it knows as sealed. -/
structure DbSink.Has (block : B) (s : DbSink B D) (W : Set (NodeWrite D)) (K : Set Key) : Prop where
  block_hash : s.block_hash = block
  written : ∀ key v, s.branch_version.lookup key = some v → key.block = block ∧
    ∃ node, v = some node ∧ (key.entity, node, key.score) ∈ W
  present : ∀ w ∈ W, (⟨w.1, w.2.2, block⟩ : VersionKey BranchKey B) ∈ s.branch_version
  known : ∀ k, k ∈ K ↔ k ∈ s.lane_seal_depth

namespace DbSink

variable {block : B} {s : DbSink B D} {W : Set (NodeWrite D)} {K : Set Key}

theorem Has.writeNode (h : s.Has block W K) (bk : BranchKey) (node : Node D) (score : ℕ) :
    (s.writeNode bk node score).Has block (insert (bk, node, score) W) K := by
  refine ⟨h.block_hash, fun key v hv => ?_, fun w hw => ?_, h.known⟩
  · by_cases hkey : key = ⟨bk, score, s.block_hash⟩
    · rw [DbSink.writeNode, hkey, lookup_insert] at hv
      rw [hkey]
      exact ⟨h.block_hash, node, (some.inj hv).symm, .inl rfl⟩
    · rw [DbSink.writeNode, lookup_insert_ne hkey] at hv
      obtain ⟨hblock, node', hnode, hmem⟩ := h.written key v hv
      exact ⟨hblock, node', hnode, .inr hmem⟩
  · rw [DbSink.writeNode, mem_insert]
    rcases hw with rfl | hw
    · exact .inl (by rw [h.block_hash])
    · exact .inr (h.present w hw)

theorem Has.writeCollapsedChild (h : s.Has block W K) (info : ChildInfo D) :
    (s.writeCollapsedChild info).Has block (W ∪ info.writes) K := by
  cases info with
  | empty => exact (Set.union_empty W).symm ▸ h
  | collapsed bk leaf score =>
    rw [ChildInfo.writes, Set.union_singleton]
    exact h.writeNode bk (.collapsed leaf) score
  | internal => exact (Set.union_empty W).symm ▸ h

/-- The sink that writes to the branch store. -/
theorem mergeSink_lawful (H : SmtHasher D) (block : B) :
    (mergeSink H).Lawful H fun s W K => s.Has block W K where
  merge _ _ bk li ri score h :=
    ⟨_, rfl, ((h.writeCollapsedChild li).writeCollapsedChild ri).writeNode bk _ score⟩
  chain hash n to_depth rep score h := by
    obtain ⟨s', hok, h'⟩ :=
      chainLoop_eq (R := fun (s : DbSink B D) W K => s.Has block W K) rep score
      (fun d hash s => (.ok (chainNode H rep d hash, s.writeNode (.new d rep)
        (.internal (chainNode H rep d hash)) score) : Except Empty (D × DbSink B D)))
      (fun d hash s W K h => ⟨_, rfl, h.writeNode _ _ _⟩) n to_depth hash h
    refine ⟨s', ?_, h'⟩
    rw [← hok]
    unfold mergeSink
    dsimp only
    rw [Nat.add_sub_cancel_left]
  collapsed bk leaf score h := ⟨_, rfl, h.writeNode bk (.collapsed leaf) score⟩
  record k d h := by
    refine ⟨h.block_hash, h.written, h.present, fun k' => ?_⟩
    rw [Set.mem_insert_iff, h.known]
    exact (mem_insert _).symm

theorem Has.forgetLanes (h : s.Has block W K) (keys : List Key) :
    (s.forgetLanes keys).Has block W {k | k ∈ K ∧ k ∉ keys} := by
  refine ⟨h.block_hash, h.written, h.present, fun k => ?_⟩
  have herase (m : AList fun _ : Key => ℕ) :
      k ∈ keys.foldl (fun m k => m.erase k) m ↔ k ∈ m ∧ k ∉ keys := by
    induction keys generalizing m with
    | nil => simp
    | cons k' keys ih =>
      rw [foldl_cons, ih, mem_erase, mem_cons, not_or]
      tauto
  change k ∈ K ∧ k ∉ keys ↔ _
  rw [h.known]
  exact (herase _).symm

end DbSink

/-! ## Pending entries -/

theorem perm_swapRemove {α : Type} {xs : List α} {i : ℕ} (hi : i < xs.length) :
    (xs[i] :: swapRemove xs i).Perm xs := by
  have hne : xs ≠ [] := ne_nil_of_length_pos (by omega)
  obtain ⟨ys, last, rfl⟩ : ∃ ys last, xs = ys ++ [last] :=
    ⟨xs.dropLast, xs.getLast hne, (dropLast_append_getLast hne).symm⟩
  unfold swapRemove
  rw [getLast?_concat]
  dsimp only
  rw [length_append, length_singleton] at hi
  rcases Nat.lt_succ_iff_lt_or_eq.mp hi with hi | rfl
  · -- The last item takes the place of another one.
    rw [set_append_left _ _ hi, dropLast_concat, getElem_append_left hi]
    calc (ys[i] :: ys.set i last).Perm (ys[i] :: last :: ys.eraseIdx i) :=
          (set_perm_cons_eraseIdx hi last).cons _
      _ |>.Perm (last :: ys[i] :: ys.eraseIdx i) := .swap _ _ _
      _ |>.Perm (last :: ys) := (getElem_cons_eraseIdx_perm hi).cons _
      _ |>.Perm (ys ++ [last]) := (perm_append_singleton last ys).symm
  · rw [set_append_right _ _ le_rfl, Nat.sub_self, set_cons_zero, dropLast_concat,
      getElem_concat_length rfl]
    exact (perm_append_singleton last ys).symm

namespace PendingScoreIndex

variable {p : PendingScoreIndex} {sink : DbSink B D} {index : ScoreIndex B} {block : B}

theorem mem_laneKeys {k : Key} : k ∈ p.laneKeys ↔ ∃ g ∈ p.groups, k ∈ g.2 := mem_flatMap

omit [DecidableEq B] in
theorem isResolvable_iff :
    p.isResolvable sink = true ↔ ∀ k ∈ p.laneKeys, k ∈ sink.lane_seal_depth := by
  unfold isResolvable
  simp only [List.all_eq_true, mem_laneKeys, forall_exists_index, and_imp]
  constructor
  · intro h k g hg hk
    exact AList.lookup_isSome.mp (h g hg k hk)
  · intro h g hg k hk
    exact AList.lookup_isSome.mpr (h k g hg hk)

theorem lookup_writeToBatch (p : PendingScoreIndex) (sink : DbSink B D) (block : B)
    (index : ScoreIndex B) (key : ScoreIndexKey B) :
    (∃ g ∈ p.groups, key = ⟨g.1, .leafUpdate, block, some p.batch_id⟩ ∧
      ∃ max_depth, (p.writeToBatch sink block index).lookup key = some ⟨max_depth, g.2⟩) ∨
    ((∀ g ∈ p.groups, key ≠ ⟨g.1, .leafUpdate, block, some p.batch_id⟩) ∧
      (p.writeToBatch sink block index).lookup key = index.lookup key) := by
  obtain ⟨batch_id, groups⟩ := p
  unfold writeToBatch
  induction groups generalizing index with
  | nil => exact .inr ⟨fun g hg => absurd hg not_mem_nil, rfl⟩
  | cons g groups ih =>
    rcases ih (index.insert ⟨g.1, .leafUpdate, block, some batch_id⟩
      ⟨(g.2.filterMap sink.sealDepthFor).foldl max 0, g.2⟩) with ⟨g', hg', hkey, hlookup⟩ |
        ⟨hne, hlookup⟩
    · exact .inl ⟨g', .tail g hg', hkey, hlookup⟩
    · by_cases hkey : key = ⟨g.1, .leafUpdate, block, some batch_id⟩
      · refine .inl ⟨g, mem_cons_self, hkey, (g.2.filterMap sink.sealDepthFor).foldl max 0,
          hlookup.trans ?_⟩
        rw [hkey]
        exact lookup_insert _
      · refine .inr ⟨fun g' hg' => ?_, hlookup.trans (lookup_insert_ne hkey)⟩
        rcases mem_cons.mp hg' with rfl | hg'
        · exact hkey
        · exact hne g' hg'

end PendingScoreIndex

/-- The pending entries and the score index together list the lanes, each with its score. -/
structure PendingOk (block : B) (lanes : Set (Key × ℕ)) (next : ℕ)
    (pending : List PendingScoreIndex)
    (index : ScoreIndex B) : Prop where
  ids_nodup : (pending.map batch_id).Nodup
  ids_lt : ∀ p ∈ pending, p.batch_id < next
  scores_nodup : ∀ p ∈ pending, (p.groups.map Prod.fst).Nodup
  lanes_nodup : (pending.flatMap laneKeys).Nodup
  pending_sound : ∀ p ∈ pending, ∀ g ∈ p.groups, ∀ k ∈ g.2, (k, g.1) ∈ lanes
  index_ids : ∀ key ∈ index, ∃ i < next, key.batch_id = some i ∧ ∀ p ∈ pending, p.batch_id ≠ i
  index_sound : ∀ key value, index.lookup key = some value →
    key.block_hash = block ∧ ∀ k ∈ value.lane_keys, (k, key.blue_score) ∈ lanes
  listed : ∀ k s, (k, s) ∈ lanes → (∃ p ∈ pending, ∃ g ∈ p.groups, g.1 = s ∧ k ∈ g.2) ∨
    ∃ i max_depth lane_keys, index.lookup ⟨s, .leafUpdate, block, some i⟩ =
      some ⟨max_depth, lane_keys⟩ ∧ k ∈ lane_keys

section

variable {block : B} {lanes : Set (Key × ℕ)} {next : ℕ} {pending pending' : List PendingScoreIndex}
  {index : ScoreIndex B}

theorem PendingOk.perm (h : PendingOk block lanes next pending index)
    (hperm : pending.Perm pending') :
    PendingOk block lanes next pending' index where
  ids_nodup := (hperm.map _).nodup_iff.mp h.ids_nodup
  ids_lt p hp := h.ids_lt p (hperm.mem_iff.mpr hp)
  scores_nodup p hp := h.scores_nodup p (hperm.mem_iff.mpr hp)
  lanes_nodup := (hperm.flatMap_right _).nodup_iff.mp h.lanes_nodup
  pending_sound p hp := h.pending_sound p (hperm.mem_iff.mpr hp)
  index_ids key hkey := by
    obtain ⟨i, hi, hid, hfresh⟩ := h.index_ids key hkey
    exact ⟨i, hi, hid, fun p hp => hfresh p (hperm.mem_iff.mpr hp)⟩
  index_sound := h.index_sound
  listed k s hks := (h.listed k s hks).imp_left fun ⟨p, hp, hg⟩ => ⟨p, hperm.mem_iff.mp hp, hg⟩

theorem PendingOk.write {p : PendingScoreIndex}
    (h : PendingOk block lanes next (p :: pending) index)
    (sink : DbSink B D) :
    PendingOk block lanes next pending (p.writeToBatch sink block index) := by
  have hids := nodup_cons.mp h.ids_nodup
  have hlookup := p.lookup_writeToBatch sink block index
  refine ⟨hids.2, fun q hq => h.ids_lt q (.tail p hq),
    fun q hq => h.scores_nodup q (.tail p hq), ?_,
    fun q hq => h.pending_sound q (.tail p hq), fun key hkey => ?_, fun key value hvalue => ?_,
    fun k s hks => ?_⟩
  · have hlanes := h.lanes_nodup
    rw [flatMap_cons, nodup_append'] at hlanes
    exact hlanes.2.1
  · obtain ⟨value, hvalue⟩ := mem_iff_lookup.mp hkey
    rcases hlookup key with ⟨g, hg, rfl, -⟩ | ⟨-, hold⟩
    · refine ⟨p.batch_id, h.ids_lt p mem_cons_self, rfl, fun q hq heq => hids.1 ?_⟩
      exact heq ▸ mem_map_of_mem hq
    · rw [hold] at hvalue
      obtain ⟨i, hi, hid, hfresh⟩ := h.index_ids key (mem_of_lookup hvalue)
      exact ⟨i, hi, hid, fun q hq => hfresh q (.tail p hq)⟩
  · rcases hlookup key with ⟨g, hg, rfl, max_depth, hnew⟩ | ⟨-, hold⟩
    · rw [hnew] at hvalue
      obtain rfl := some.inj hvalue
      exact ⟨rfl, h.pending_sound p mem_cons_self g hg⟩
    · exact h.index_sound key value (hold ▸ hvalue)
  · rcases h.listed k s hks with ⟨q, hq, g, hg, rfl, hk⟩ | ⟨i, max_depth, keys, hold, hk⟩
    · rcases mem_cons.mp hq with rfl | hq
      · right
        rcases hlookup ⟨g.1, .leafUpdate, block, some q.batch_id⟩ with
          ⟨g', hg', heq, max_depth, hnew⟩ | ⟨hne, -⟩
        · obtain rfl : g = g' := inj_on_of_nodup_map (h.scores_nodup q mem_cons_self) hg hg'
            (ScoreIndexKey.mk.inj heq).1
          exact ⟨q.batch_id, max_depth, g.2, hnew, hk⟩
        · exact absurd rfl (hne g hg)
      · exact .inl ⟨q, hq, g, hg, rfl, hk⟩
    · right
      rcases hlookup ⟨s, .leafUpdate, block, some i⟩ with ⟨g, hg, heq, -⟩ | ⟨-, hsame⟩
      · -- The entry is new, so it does not hide another one.
        obtain ⟨j, -, hid, hfresh⟩ := h.index_ids _ (mem_of_lookup hold)
        obtain rfl : i = j := some.inj hid
        exact absurd (some.inj (ScoreIndexKey.mk.inj heq).2.2.2).symm (hfresh p mem_cons_self)
      · exact ⟨i, max_depth, keys, hsame.trans hold, hk⟩

/-- Entries that can be written are written. Those that stay are not harmed, and if all can be
written none stays. -/
theorem flushResolvedPending_eq {sink : DbSink B D} {W : Set (NodeWrite D)} {K : Set Key} {i : ℕ}
    (h : PendingOk block lanes next pending index) (hsink : sink.Has block W K) :
    ∃ pending' sink' index' K',
      flushResolvedPending block i pending sink index = (pending', sink', index') ∧
      PendingOk block lanes next pending' index' ∧ sink'.Has block W K' ∧
      (∀ p ∈ pending', p ∈ pending) ∧ (∀ p ∈ pending', ∀ k ∈ p.laneKeys, k ∈ K → k ∈ K') ∧
      (i = 0 → (∀ p ∈ pending, ∀ k ∈ p.laneKeys, k ∈ K) → pending' = []) := by
  fun_induction flushResolvedPending block i pending sink index generalizing K with
  | case1 i pending sink index hi entry hresolvable =>
    rename_i ih
    have hperm := perm_swapRemove hi
    have hok := h.perm hperm.symm
    -- The lanes of the other entries are others.
    have hother : ∀ p ∈ swapRemove pending i, ∀ k ∈ p.laneKeys, k ∉ entry.laneKeys := by
      intro p hp k hk hk'
      have hlanes := hok.lanes_nodup
      rw [flatMap_cons, nodup_append'] at hlanes
      exact hlanes.2.2 hk' (mem_flatMap.mpr ⟨p, hp, hk⟩)
    obtain ⟨pending', sink', index', K', heq, hok', hsink', hsub, hkept, hall⟩ :=
      ih (hok.write sink) (hsink.forgetLanes entry.laneKeys)
    refine ⟨pending', sink', index', K', heq, hok', hsink', fun p hp => ?_, fun p hp k hk hK => ?_,
      fun hi0 hK => hall hi0 fun p hp k hk => ?_⟩
    · exact hperm.mem_iff.mp (.tail _ (hsub p hp))
    · exact hkept p hp k hk ⟨hK, hother p (hsub p hp) k hk⟩
    · exact ⟨hK p (hperm.mem_iff.mp (.tail _ hp)) k hk, hother p hp k hk⟩
  | case2 i pending sink index hi entry hresolvable =>
    rename_i ih
    obtain ⟨pending', sink', index', K', heq, hok', hsink', hsub, hkept, -⟩ := ih h hsink
    refine ⟨pending', sink', index', K', heq, hok', hsink', hsub, hkept, fun _ hK => ?_⟩
    refine absurd (isResolvable_iff.mpr fun k hk => ?_) hresolvable
    exact (hsink.known k).mp (hK entry (getElem_mem hi) k hk)
  | case3 i pending sink index hi =>
    refine ⟨pending, sink, index, K, rfl, h, hsink, fun p hp => hp, fun p _ k _ hK => hK,
      fun hi0 _ => length_eq_zero_iff.mp (by omega)⟩

variable {chunk : List (ImportLane D)}

theorem PendingScoreIndex.mem_fromChunk {batch_id : ℕ}
    {g : ℕ × List Key} : g ∈ (fromChunk batch_id chunk).groups ↔
      (∃ lane ∈ chunk, lane.blue_score = g.1) ∧
        g.2 = (chunk.filter fun lane => lane.blue_score = g.1).map lane_key := by
  unfold fromChunk
  rw [List.mem_map]
  constructor
  · rintro ⟨bs, hbs, rfl⟩
    rw [List.mem_insertionSort, List.mem_dedup, List.mem_map] at hbs
    exact ⟨hbs, rfl⟩
  · rintro ⟨hscore, hkeys⟩
    refine ⟨g.1, ?_, Prod.ext rfl hkeys.symm⟩
    rw [List.mem_insertionSort, List.mem_dedup, List.mem_map]
    exact hscore

theorem PendingScoreIndex.mem_laneKeys_fromChunk {batch_id : ℕ}
    {k : Key} : k ∈ (fromChunk batch_id chunk).laneKeys ↔
      k ∈ chunk.map lane_key := by
  rw [mem_laneKeys, List.mem_map]
  constructor
  · rintro ⟨g, hg, hk⟩
    rw [(mem_fromChunk.mp hg).2] at hk
    obtain ⟨lane, hlane, rfl⟩ := mem_map.mp hk
    exact ⟨lane, mem_of_mem_filter hlane, rfl⟩
  · rintro ⟨lane, hlane, rfl⟩
    refine ⟨(lane.blue_score, (chunk.filter fun l => l.blue_score = lane.blue_score).map
      lane_key), mem_fromChunk.mpr ⟨⟨lane, hlane, rfl⟩, rfl⟩, ?_⟩
    exact mem_map_of_mem (mem_filter.mpr ⟨hlane, by simp⟩)

theorem PendingScoreIndex.scores_fromChunk (batch_id : ℕ) (chunk : List (ImportLane D)) :
    ((PendingScoreIndex.fromChunk batch_id chunk).groups.map Prod.fst).Nodup := by
  unfold fromChunk
  rw [List.map_map]
  have hnodup := (perm_insertionSort (· ≤ ·) (chunk.map blue_score).dedup).nodup_iff.mpr
    (nodup_dedup _)
  exact hnodup.map fun _ _ h => h

theorem PendingScoreIndex.laneKeys_fromChunk {batch_id : ℕ} (hnodup : (chunk.map lane_key).Nodup) :
    (fromChunk batch_id chunk).laneKeys.Nodup := by
  have hscores := scores_fromChunk batch_id chunk
  rw [List.Nodup, pairwise_map] at hscores
  rw [laneKeys, nodup_flatMap]
  refine ⟨fun g hg => ?_, hscores.imp_of_mem fun {g g'} hg hg' hne k hk hk' => hne ?_⟩
  · rw [(mem_fromChunk.mp hg).2]
    exact hnodup.sublist (filter_sublist.map _)
  · rw [(mem_fromChunk.mp hg).2] at hk
    rw [(mem_fromChunk.mp hg').2] at hk'
    obtain ⟨lane, hlane, rfl⟩ := mem_map.mp hk
    obtain ⟨lane', hlane', hkey⟩ := mem_map.mp hk'
    obtain ⟨hmem, hscore⟩ := mem_filter.mp hlane
    obtain ⟨hmem', hscore'⟩ := mem_filter.mp hlane'
    obtain rfl : lane' = lane := inj_on_of_nodup_map hnodup hmem' hmem hkey
    exact (of_decide_eq_true hscore).symm.trans (of_decide_eq_true hscore')

/-- The lanes that are listed, with their scores. -/
def lanesOf (front : List (ImportLane D)) : Set (Key × ℕ) :=
  {x | ∃ lane ∈ front, lane.lane_key = x.1 ∧ lane.blue_score = x.2}

theorem PendingOk.push {front chunk : List (ImportLane D)}
    (h : PendingOk block (lanesOf front) next pending index)
    (hnodup : ((front ++ chunk).map lane_key).Nodup) :
    PendingOk block (lanesOf (front ++ chunk)) (next + 1)
      (pending ++ [.fromChunk next chunk]) index := by
  rw [map_append, nodup_append'] at hnodup
  have hmono {x : Key × ℕ} (hx : x ∈ lanesOf front) : x ∈ lanesOf (front ++ chunk) := by
    obtain ⟨lane, hlane, hx⟩ := hx
    exact ⟨lane, mem_append_left _ hlane, hx⟩
  have hcases {p : PendingScoreIndex} (hp : p ∈ pending ++ [.fromChunk next chunk]) :
      p ∈ pending ∨ p = .fromChunk next chunk := by
    simpa using hp
  refine ⟨?_, fun p hp => ?_, fun p hp => ?_, ?_, fun p hp g hg k hk => ?_, fun key hkey => ?_,
    fun key value hvalue => ?_, fun k s hks => ?_⟩
  · rw [map_append, nodup_append']
    refine ⟨h.ids_nodup, nodup_singleton _, fun i hi hi' => ?_⟩
    obtain ⟨p, hp, rfl⟩ := mem_map.mp hi
    have heq : p.batch_id = next := by simpa [fromChunk] using hi'
    exact absurd (h.ids_lt p hp) (heq ▸ lt_irrefl _)
  · rcases hcases hp with hp | rfl
    · exact (h.ids_lt p hp).trans (Nat.lt_succ_self next)
    · exact Nat.lt_succ_self next
  · rcases hcases hp with hp | rfl
    · exact h.scores_nodup p hp
    · exact scores_fromChunk next chunk
  · rw [flatMap_append, nodup_append']
    refine ⟨h.lanes_nodup, ?_, fun k hk hk' => ?_⟩
    · rw [flatMap_singleton]
      exact laneKeys_fromChunk hnodup.2.1
    · rw [flatMap_singleton, mem_laneKeys_fromChunk] at hk'
      obtain ⟨p, hp, hk⟩ := mem_flatMap.mp hk
      obtain ⟨g, hg, hk⟩ := mem_laneKeys.mp hk
      obtain ⟨lane, hlane, hkey, -⟩ := h.pending_sound p hp g hg k hk
      exact hnodup.2.2 (mem_map.mpr ⟨lane, hlane, hkey⟩) hk'
  · rcases hcases hp with hp | rfl
    · exact hmono (h.pending_sound p hp g hg k hk)
    · rw [(mem_fromChunk.mp hg).2] at hk
      obtain ⟨lane, hlane, rfl⟩ := mem_map.mp hk
      obtain ⟨hmem, hscore⟩ := mem_filter.mp hlane
      exact ⟨lane, mem_append_right _ hmem, rfl, of_decide_eq_true hscore⟩
  · obtain ⟨i, hi, hid, hfresh⟩ := h.index_ids key hkey
    refine ⟨i, hi.trans (Nat.lt_succ_self next), hid, fun p hp => ?_⟩
    rcases hcases hp with hp | rfl
    · exact hfresh p hp
    · exact hi.ne'
  · obtain ⟨hblock, hlanes⟩ := h.index_sound key value hvalue
    exact ⟨hblock, fun k hk => hmono (hlanes k hk)⟩
  · obtain ⟨lane, hlane, rfl, rfl⟩ := hks
    rcases mem_append.mp hlane with hlane | hlane
    · exact (h.listed _ _ ⟨lane, hlane, rfl, rfl⟩).imp_left fun ⟨p, hp, hg⟩ =>
        ⟨p, mem_append_left _ hp, hg⟩
    · refine .inl ⟨.fromChunk next chunk, mem_append_right _ (mem_singleton_self _),
        (lane.blue_score, (chunk.filter fun l => l.blue_score = lane.blue_score).map
          lane_key),
        mem_fromChunk.mpr ⟨⟨lane, hlane, rfl⟩, rfl⟩, rfl, ?_⟩
      exact mem_map_of_mem (mem_filter.mpr ⟨hlane, decide_eq_true rfl⟩)

end

/-! ## Chunks -/

/-- The leaf of a lane. -/
def ImportLane.leaf (smt_leaf_hash : D → ℕ → D) (lane : ImportLane D) : Key × D × ℕ :=
  (lane.lane_key, smt_leaf_hash lane.lane_tip lane.blue_score, lane.blue_score)

/-- The lane store has the lanes. -/
def LaneRows (block : B) (front : List (ImportLane D)) (db : VersionStore Key B D) : Prop :=
  ∀ key tip, db.lookup key = some tip ↔ key.block = block ∧
    ∃ lane ∈ front, lane.lane_key = key.entity ∧ lane.blue_score = key.score ∧ lane.lane_tip = tip

theorem LaneRows.append {block : B} {front chunk : List (ImportLane D)} {db : VersionStore Key B D}
    (h : LaneRows block front db)
    (hnodup : ((front ++ chunk).map lane_key).Nodup) :
    LaneRows block (front ++ chunk) (chunk.foldl (fun db lane =>
      db.insert ⟨lane.lane_key, lane.blue_score, block⟩ lane.lane_tip) db) := by
  induction chunk generalizing front db with
  | nil => rwa [append_nil]
  | cons lane chunk ih =>
    rw [foldl_cons, append_cons]
    rw [append_cons] at hnodup
    refine ih ?_ hnodup
    have hfresh : ∀ l ∈ front, l.lane_key ≠ lane.lane_key := by
      intro l hl heq
      rw [map_append, map_append, append_assoc, nodup_append'] at hnodup
      exact hnodup.2.2 (mem_map_of_mem hl) (by rw [heq]; simp)
    intro key tip
    by_cases hkey : key = ⟨lane.lane_key, lane.blue_score, block⟩
    · rw [hkey, lookup_insert]
      constructor
      · intro htip
        exact ⟨rfl, lane, mem_append_right _ (mem_singleton_self lane), rfl, rfl, some.inj htip⟩
      · rintro ⟨-, l, hl, hlk, -, rfl⟩
        rcases mem_append.mp hl with hl | hl
        · exact absurd hlk (hfresh l hl)
        · rw [mem_singleton.mp hl]
    · rw [lookup_insert_ne hkey, h key tip]
      refine and_congr_right fun hblock => ?_
      constructor
      · rintro ⟨l, hl, hrest⟩
        exact ⟨l, mem_append_left _ hl, hrest⟩
      · rintro ⟨l, hl, hlk, hls, htip⟩
        rcases mem_append.mp hl with hl | hl
        · exact ⟨l, hl, hlk, hls, htip⟩
        · obtain rfl := mem_singleton.mp hl
          obtain ⟨e, sc, bl⟩ := key
          exact absurd (by rw [← show l.lane_key = e from hlk, ← show l.blue_score = sc from hls,
            show bl = block from hblock]) hkey

section

variable {H : SmtHasher D} {smt_leaf_hash : D → ℕ → D} {block : B}
  {front chunk : List (ImportLane D)}
  {n : ℕ} {st : ImportState B D}

/-- The lanes come in the order of their keys. -/
def Ascending (lanes : List (ImportLane D)) : Prop :=
  lanes.Pairwise fun x y => x.lane_key < y.lane_key

omit [DecidableEq B] in
theorem Ascending.nodup (h : Ascending front) : (front.map lane_key).Nodup := by
  rw [List.Nodup, pairwise_map]
  exact h.imp fun hlt => hlt.ne

omit [DecidableEq B] in
theorem Ascending.leaves (h : Ascending front) (smt_leaf_hash : D → ℕ → D) :
    (front.map (ImportLane.leaf smt_leaf_hash)).Pairwise fun x y => x.1 < y.1 :=
  pairwise_map.mpr h

/-- The state after the lanes of `front`, with `n` lanes to come. -/
structure ImportInv (H : SmtHasher D) (smt_leaf_hash : D → ℕ → D) (block : B)
    (front : List (ImportLane D)) (n : ℕ) (st : ImportState B D) : Prop where
  fed : ∃ K, StreamingSmtBuilder.Fed H (fun s W K => DbSink.Has block s W K)
      (front.map (ImportLane.leaf smt_leaf_hash)) n st.builder K ∧
    SealedUpTo (front.map (ImportLane.leaf smt_leaf_hash)) n K
      {k | ∃ p ∈ st.pending, k ∈ p.laneKeys}
  pending : PendingOk block (lanesOf front) st.batch_id st.pending st.score_index
  lanes : LaneRows block front st.lane_version
  imported : st.lanes_imported = front.length

theorem ImportInv.feedChunk (h : ImportInv H smt_leaf_hash block front (chunk.length + n) st)
    (hsorted : Ascending (front ++ chunk)) :
    ∃ builder K, (chunk.foldlM (fun b lane => StreamingSmtBuilder.feed H (DbSink.mergeSink H) b
        lane.lane_key (smt_leaf_hash lane.lane_tip lane.blue_score) lane.blue_score) st.builder) =
        .ok builder ∧
      StreamingSmtBuilder.Fed H (fun s W K => DbSink.Has block s W K)
        ((front ++ chunk).map (ImportLane.leaf smt_leaf_hash)) n builder K ∧
      SealedUpTo ((front ++ chunk).map (ImportLane.leaf smt_leaf_hash)) n K
        {k | ∃ p ∈ st.pending ++ [.fromChunk st.batch_id chunk], k ∈ p.laneKeys} := by
  obtain ⟨K, hfed, hsealed⟩ := h.fed
  have hleaves := hsorted.leaves smt_leaf_hash
  rw [map_append] at hleaves ⊢
  have hlength : (chunk.map (ImportLane.leaf smt_leaf_hash)).length = chunk.length := length_map _
  rw [← hlength] at hfed hsealed
  obtain ⟨builder, K', hok, hfed', hsealed'⟩ :=
    hfed.feedMany (DbSink.mergeSink_lawful H block) hleaves hsealed
  rw [foldlM_map] at hok
  refine ⟨builder, K', hok, hfed', fun k hk => hsealed' k ?_⟩
  obtain ⟨p, hp, hk⟩ := hk
  rcases mem_append.mp hp with hp | hp
  · exact .inl ⟨p, hp, hk⟩
  · rw [mem_singleton.mp hp, mem_laneKeys_fromChunk] at hk
    refine .inr ?_
    rw [List.map_map]
    exact hk

variable [DecidableEq D] {lanes_root : D}

theorem forM_checkProof {lanes : List (ImportLane D)}
    (hproofs : ∀ lane ∈ lanes, checkProof H smt_leaf_hash lanes_root lane = .ok ()) :
    lanes.forM (checkProof H smt_leaf_hash lanes_root) = .ok () := by
  induction lanes with
  | nil => rfl
  | cons lane lanes ih =>
    rw [List.forM_eq_forM, List.forM_cons, hproofs lane List.mem_cons_self, Except.ok_bind]
    exact ih fun l hl => hproofs l (.tail lane hl)

theorem ImportInv.importChunk_eq (h : ImportInv H smt_leaf_hash block front (chunk.length + n) st)
    (hsorted : Ascending (front ++ chunk))
    (hproofs : ∀ lane ∈ chunk, checkProof H smt_leaf_hash lanes_root lane = .ok ()) :
    ∃ st', importChunk H smt_leaf_hash block lanes_root st chunk = .ok st' ∧
      ImportInv H smt_leaf_hash block (front ++ chunk) n st' := by
  unfold importChunk
  split
  · next hnil =>
    subst hnil
    rw [length_nil, zero_add] at h
    rw [append_nil]
    exact ⟨st, rfl, h⟩
  · obtain ⟨builder, K, hfeed, hfed, hsealed⟩ := h.feedChunk hsorted
    obtain ⟨W, hW, hchange⟩ := hfed.exists_writes
    obtain ⟨pending, sink, index, K', hflush, hpending, hsink, hsub, hkept, -⟩ :=
      flushResolvedPending_eq (i := 0) (h.pending.push hsorted.nodup) hW
    rw [forM_checkProof hproofs, Except.ok_bind, hfeed, Except.ok_bind]
    dsimp only
    rw [hflush]
    refine ⟨_, rfl, ⟨K', hchange sink K' hsink, fun k hk => ?_⟩, hpending,
      h.lanes.append hsorted.nodup, ?_⟩
    · -- A lane that still waits is not forgotten.
      obtain ⟨p, hp, hk⟩ := hk
      exact (hsealed k ⟨p, hsub p hp, hk⟩).imp_left (hkept p hp k hk)
    · rw [h.imported, length_append]

variable {chunks : List (List (ImportLane D))}

theorem ImportInv.importChunks_eq
    (h : ImportInv H smt_leaf_hash block front (chunks.flatten.length + n) st)
    (hsorted : Ascending (front ++ chunks.flatten))
    (hproofs : ∀ lane ∈ chunks.flatten, checkProof H smt_leaf_hash lanes_root lane = .ok ()) :
    ∃ st', chunks.foldlM (importChunk H smt_leaf_hash block lanes_root) st = .ok st' ∧
      ImportInv H smt_leaf_hash block (front ++ chunks.flatten) n st' := by
  induction chunks generalizing front st with
  | nil =>
    rw [flatten_nil, length_nil, zero_add] at h
    rw [flatten_nil, append_nil]
    exact ⟨st, rfl, h⟩
  | cons chunk chunks ih =>
    rw [flatten_cons, length_append, add_assoc] at h
    rw [flatten_cons, ← append_assoc] at hsorted ⊢
    obtain ⟨st₁, hok, h₁⟩ := h.importChunk_eq (pairwise_append.mp hsorted).1 fun lane hlane =>
      hproofs lane (mem_append_left _ hlane)
    obtain ⟨st', hrest, h'⟩ := ih h₁ hsorted fun lane hlane =>
      hproofs lane (mem_append_right _ hlane)
    refine ⟨st', ?_, h'⟩
    rw [foldlM_cons, hok]
    exact hrest

/-- What the stores have after an import. -/
structure Imported (H : SmtHasher D) (smt_leaf_hash : D → ℕ → D) (block : B)
    (lanes : List (ImportLane D)) (stores : SmtStores B D) : Prop where
  written : ∀ key v, stores.branch_version.lookup key = some v → key.block = block ∧
    ∃ node, v = some node ∧ (key.entity, node, key.score) ∈
      subtreeWrites H (laneMap (lanes.map (ImportLane.leaf smt_leaf_hash))) 0 0
  present : ∀ w ∈ subtreeWrites H (laneMap (lanes.map (ImportLane.leaf smt_leaf_hash))) 0 0,
    (⟨w.1, w.2.2, block⟩ : VersionKey BranchKey B) ∈ stores.branch_version
  rows : LaneRows block lanes stores.lane_version
  entries : ∀ key value, stores.score_index.lookup key = some value →
    key.block_hash = block ∧ ∀ k ∈ value.lane_keys, (k, key.blue_score) ∈ lanesOf lanes
  listed : ∀ lane ∈ lanes, ∃ i max_depth lane_keys,
    stores.score_index.lookup ⟨lane.blue_score, .leafUpdate, block, some i⟩ =
      some ⟨max_depth, lane_keys⟩ ∧ lane.lane_key ∈ lane_keys

omit [DecidableEq D] in
theorem importInv_new (H : SmtHasher D) (smt_leaf_hash : D → ℕ → D) (block : B) (n : ℕ) :
    ImportInv H smt_leaf_hash block [] n
      { builder := .new H n ⟨∅, block, 0, ∅⟩, lane_version := ∅, score_index := ∅, pending := []
        batch_id := 0, lanes_imported := 0 } := by
  have hrow {α : Type} {β : α → Type} [DecidableEq α] (a : α) : a ∉ (∅ : AList β) := notMem_empty a
  have hsink : (⟨∅, block, 0, ∅⟩ : DbSink B D).Has block ∅ ∅ := by
    refine ⟨rfl, fun key v hv => ?_, fun w hw => absurd hw (Set.notMem_empty w), fun k => ?_⟩
    · exact absurd (mem_of_lookup hv) (hrow key)
    · exact iff_of_false (Set.notMem_empty k) (hrow k)
  refine ⟨⟨∅, fed_new hsink, fun k hk => ?_⟩, ?_, fun key tip => ?_, rfl⟩
  · obtain ⟨p, hp, -⟩ := hk
    exact absurd hp not_mem_nil
  · refine ⟨nodup_nil, ?_, ?_, nodup_nil, ?_, fun key hkey => absurd hkey (hrow key),
      fun key value hvalue => absurd (mem_of_lookup hvalue) (hrow key), ?_⟩
    · exact fun p hp => absurd hp not_mem_nil
    · exact fun p hp => absurd hp not_mem_nil
    · exact fun p hp => absurd hp not_mem_nil
    · rintro k s ⟨lane, hlane, -⟩
      exact absurd hlane not_mem_nil
  · constructor
    · exact fun htip => absurd (mem_of_lookup htip) (hrow key)
    · rintro ⟨-, lane, hlane, -⟩
      exact absurd hlane not_mem_nil

omit [DecidableEq D] in
theorem ImportInv.imported_of_finish (h : ImportInv H smt_leaf_hash block front 0 st) :
    ∃ sink score_index, st.builder.finish (ε := Empty) = .ok (root H (leafMap
        (laneMap (front.map (ImportLane.leaf smt_leaf_hash)))),
          st.builder.sink) ∧
      flushResolvedPending block 0 st.pending st.builder.sink st.score_index =
        ([], sink, score_index) ∧
      ∀ branch_cache lane_cache, Imported H smt_leaf_hash block front
        ⟨sink.branch_version, st.lane_version, score_index, branch_cache, lane_cache⟩ := by
  obtain ⟨K, hfed, hsealed⟩ := h.fed
  obtain ⟨hfinish, hsink⟩ := StreamingSmtBuilder.Fed.finish (ε := Empty) hfed
  obtain ⟨pending, sink, index, K', hflush, hpending, hsink', -, -, hall⟩ :=
    flushResolvedPending_eq (i := 0) h.pending hsink
  have hnil : pending = [] := hall rfl fun p hp k hk =>
    (hsealed k ⟨p, hp, hk⟩).resolve_right fun hlast => hlast.1 rfl
  subst hnil
  refine ⟨sink, index, hfinish, hflush,
    fun branch_cache lane_cache => ⟨hsink'.written, hsink'.present,
    h.lanes, hpending.index_sound, fun lane hlane => ?_⟩⟩
  refine (hpending.listed _ _ ⟨lane, hlane, rfl, rfl⟩).resolve_left ?_
  rintro ⟨p, hp, -⟩
  exact absurd hp not_mem_nil

/-- An import into empty stores. -/
theorem streamingImport_eq (hsorted : Ascending chunks.flatten)
    (hproofs : ∀ lane ∈ chunks.flatten, checkProof H smt_leaf_hash lanes_root lane = .ok ())
    (block : B) (branch_capacity lane_capacity : ℕ) :
    ∃ result stores,
      streamingImport H smt_leaf_hash block lanes_root (.new branch_capacity lane_capacity)
        chunks.flatten.length chunks = .ok (result, stores) ∧
      result.root = root H (leafMap (laneMap
        (chunks.flatten.map (ImportLane.leaf smt_leaf_hash)))) ∧
      result.lanes_imported = chunks.flatten.length ∧
      Imported H smt_leaf_hash block chunks.flatten stores ∧
      stores.branch_cache = ⟨∅, branch_capacity⟩ ∧ stores.lane_cache = ⟨∅, lane_capacity⟩ := by
  have hstart := importInv_new H smt_leaf_hash block (chunks.flatten.length + 0)
  obtain ⟨st, hok, h⟩ := hstart.importChunks_eq hsorted hproofs
  obtain ⟨sink, index, hfinish, hflush, himported⟩ := h.imported_of_finish
  rw [add_zero] at hok
  unfold streamingImport
  split
  · next hzero =>
    -- No lane: the builder is not even started, and what it would write is nothing.
    rw [length_eq_zero_iff.mp hzero]
    obtain ⟨sink, index, hfinish, hflush, himported⟩ :=
      (importInv_new H smt_leaf_hash block 0).imported_of_finish
    obtain ⟨hroot, -⟩ := Prod.mk.inj (Except.ok.inj hfinish)
    unfold flushResolvedPending at hflush
    obtain ⟨-, rfl, rfl⟩ := hflush
    refine ⟨_, _, rfl, hroot, rfl, himported _ _, ?_, ?_⟩
    · exact rfl
    · exact rfl
  · rw [nil_append] at hfinish
    generalize root H (leafMap (laneMap
      (chunks.flatten.map (ImportLane.leaf smt_leaf_hash)))) = computed at hfinish ⊢
    refine ⟨⟨computed, st.lanes_imported, sink.nodes_written⟩, _, ?_, rfl, h.imported,
      himported ⟨∅, branch_capacity⟩ ⟨∅, lane_capacity⟩, rfl, rfl⟩
    unfold SmtStores.new
    dsimp only
    rw [hok, Except.ok_bind, hfinish, Except.ok_bind]
    rw [hflush]
    rfl

end

end Zkas.Smt
