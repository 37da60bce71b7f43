import Zkas.Smt.LaneChanges

/-!
# The next block of a chain

The tree that is built for the next block is that of its active lanes, and the stores then hold what
they should for it (`Inv.holds_next`). The window of the block may hide nodes of the parent, but
these have no lanes in the window (`Inv.readable`). -/

namespace Zkas.Smt

open BitPath SparseTree Option AList BlockLaneChanges

variable {B D : Type}

theorem SmtBuild.mem_nodes {build : SmtBuild B D} {bk : BranchKey} {node : Option (Node D)} :
    (bk, node) ∈ build.nodes ↔ build.node_changes bk = some node := by
  unfold SmtBuild.nodes
  rw [List.mem_map]
  constructor
  · rintro ⟨⟨bk', node'⟩, hmem, heq⟩
    obtain ⟨rfl, rfl⟩ := Prod.mk.inj heq
    exact mem_lookup_iff.mpr hmem
  · intro h
    exact ⟨⟨bk, node⟩, mem_lookup_iff.mp h, rfl⟩

theorem SmtBuild.nodes_nodup (build : SmtBuild B D) : (build.nodes.map Prod.fst).Nodup := by
  unfold SmtBuild.nodes
  rw [List.map_map]
  exact build.node_changes.keys_nodup

theorem SmtBuild.not_mem_nodes {build : SmtBuild B D} {bk : BranchKey}
    (h : build.node_changes bk = none) : bk ∉ build.nodes.map Prod.fst := by
  rintro hmem
  obtain ⟨⟨bk', node⟩, hnode, rfl⟩ := List.mem_map.mp hmem
  rw [SmtBuild.mem_nodes.mp hnode] at h
  cases h

theorem BlockLaneChanges.lookup_flushScoreIndex [DecidableEq B] {c : BlockLaneChanges D}
    {index : ScoreIndex B} {b block : B} {max_depth s : ℕ} {extra : List Key} {batch_id : Option ℕ}
    (hne : c.updated.map Prod.fst ≠ []) :
    (c.flushScoreIndex index b max_depth extra).lookup ⟨s, .leafUpdate, block, batch_id⟩ =
      if s = c.blue_score ∧ block = b ∧ batch_id = none then
        some ⟨max_depth, c.updated.map Prod.fst⟩
      else index.lookup ⟨s, .leafUpdate, block, batch_id⟩ := by
  -- The other entry has another kind.
  have hstructural (index : ScoreIndex B) (value : ScoreIndexValue) :
      (index.insert ⟨c.blue_score, .structural, b, none⟩ value).lookup
        ⟨s, .leafUpdate, block, batch_id⟩ = index.lookup ⟨s, .leafUpdate, block, batch_id⟩ :=
    lookup_insert_ne fun h => by cases h
  have hlookup :
    (c.flushScoreIndex index b max_depth extra).lookup ⟨s, .leafUpdate, block, batch_id⟩ =
      (index.insert ⟨c.blue_score, .leafUpdate, b, none⟩ ⟨max_depth, c.updated.map Prod.fst⟩).lookup
        ⟨s, .leafUpdate, block, batch_id⟩ := by
    unfold flushScoreIndex
    dsimp only
    split_ifs
    · exact hstructural _ _
    · rfl
  rw [hlookup]
  split_ifs with h
  · obtain ⟨rfl, rfl, rfl⟩ := h
    exact lookup_insert _
  · refine lookup_insert_ne fun heq => h ?_
    obtain ⟨hs, -, hblock, hbatch⟩ := ScoreIndexKey.mk.inj heq
    exact ⟨hs, hblock, hbatch⟩

theorem BlockLaneChanges.of_mem_flushScoreIndex [DecidableEq B] {c : BlockLaneChanges D}
    {index : ScoreIndex B} {b : B} {max_depth : ℕ} {extra : List Key} {key : ScoreIndexKey B}
    (h : key ∈ c.flushScoreIndex index b max_depth extra) : key.block_hash = b ∨ key ∈ index := by
  have hinsert {index : ScoreIndex B} {key' : ScoreIndexKey B} {value : ScoreIndexValue}
      (hkey : key'.block_hash = b) (h : key ∈ index.insert key' value) :
      key.block_hash = b ∨ key ∈ index := by
    rcases (mem_insert index).mp h with rfl | h
    · exact .inl hkey
    · exact .inr h
  unfold flushScoreIndex at h
  dsimp only at h
  split_ifs at h
  · exact (hinsert rfl h).elim .inl (hinsert rfl)
  · exact hinsert rfl h
  · exact hinsert rfl h
  · exact .inr h

namespace Network

variable {L B D : Type} [LinearOrder B] {net : Network L B D} {base : B} {floor : ℕ}
  {done : List B} {state : SmtState B D}

section

variable (hnet : net.Lawful) (hinv : Inv net base floor done state)

include hnet hinv

theorem Inv.getNode_eq (p : B) (bk : BranchKey) (min : ℕ) :
    state.stores.getNode bk ⟨net.score p, min⟩ (net.isSmtCanonical p) =
      (latest net state.stores.branch_version p bk).filter fun v => min ≤ v.score :=
  hinv.branches.read_latest hnet.toOrdered hinv.region p bk min

theorem Inv.getLanesRoot_eq {p : B} (hp : p = base ∨ p ∈ done) :
    state.stores.getLanesRoot net.hashing.activeNode (.forPov (net.score p) net.finality_depth)
      (net.isSmtCanonical p) = root net.hashing.activeNode (net.leavesAt p) := by
  have hread : state.stores.getNode (.new 0 0) (.forPov (net.score p) net.finality_depth)
      (net.isSmtCanonical p) = (latest net state.stores.branch_version p (.new 0 0)).filter
        fun v => net.activeMin p ≤ v.score := hinv.getNode_eq hnet p (.new 0 0) (net.activeMin p)
  have hnode := (hinv.holds p hp).nodes 0 0 (by omega)
  unfold SmtStores.getLanesRoot
  rw [hread]
  have hresult : nodeAt net.hashing.activeNode (net.leavesAt p) 0 0 = NodeResult.ofNode
      (((latest net state.stores.branch_version p (.new 0 0)).filter
        fun v => net.activeMin p ≤ v.score).bind Version.value) := by
    rw [hnode, stored, NodeResult.ofNode_node]
  rw [root, hresult]
  cases (latest net state.stores.branch_version p (.new 0 0)).filter
      fun v => net.activeMin p ≤ v.score <;> rfl

variable {b : B} (hb : Next net base done b)

include hb

/-- The nodes that the next block sees of the tree of its parent. -/
theorem Inv.readable : Readable net.hashing.activeNode (net.leavesAt (net.tree.parent b))
      (fun k => net.leavesAt b k ≠ net.leavesAt (net.tree.parent b) k)
      (fun bk => (state.stores.getNode bk ⟨net.score (net.tree.parent b), net.activeMin b⟩
        (net.isSmtCanonical (net.tree.parent b))).bind Version.value) 0 0 := by
  have hholds := hinv.holds _ hb.parent
  have hle := hnet.activeMin_le hb.ne_root
  -- A version in the window of the block is in that of the parent.
  have hseen {d : ℕ} {x : Key} {v : Version B (Option (Node D))} (hd : d < 256)
      (hlatest : latest net state.stores.branch_version (net.tree.parent b) (.new d x) = some v)
      (hmin : net.activeMin (net.tree.parent b) ≤ v.score) :
      stored net.hashing.activeNode (net.leavesAt (net.tree.parent b)) x 0 d = v.value := by
    have := hholds.nodes d x hd
    rw [hlatest, filter_some, if_pos (by simpa using hmin)] at this
    exact this.symm
  have hstored {d : ℕ} {x : Key} (hd : d < 256)
      (hne : stored net.hashing.activeNode (net.leavesAt (net.tree.parent b)) x 0 d ≠ none) :
      ∃ v, latest net state.stores.branch_version (net.tree.parent b) (.new d x) = some v ∧
        net.activeMin (net.tree.parent b) ≤ v.score := by
    rw [← hholds.nodes d x hd] at hne
    obtain ⟨node, hnode⟩ := ne_none_iff_exists'.mp hne
    obtain ⟨v, hv, -⟩ := bind_eq_some_iff.mp hnode
    obtain ⟨hlatest, hmin⟩ := filter_eq_some_iff.mp hv
    exact ⟨v, hlatest, of_decide_eq_true hmin⟩
  refine ⟨fun d x node hd _ hview => ?_, fun d x hd _ hview hne k hk hleaf => ?_,
    fun d x hd _ hview => ?_⟩
  · rw [zero_add] at hd hview
    rw [hinv.getNode_eq hnet] at hview
    obtain ⟨v, hv, hvalue⟩ := bind_eq_some_iff.mp hview
    obtain ⟨hlatest, hmin⟩ := filter_eq_some_iff.mp hv
    rw [hseen hd hlatest (hle.trans (of_decide_eq_true hmin)), hvalue]
  · rw [zero_add] at hd hview hk
    obtain ⟨v, hlatest, hmin⟩ := hstored hd hne
    -- The node is too old for the block, and its lanes are not newer.
    have hold : v.score < net.activeMin b := by
      by_contra hnot
      rw [hinv.getNode_eq hnet, hlatest, filter_some,
        if_pos (by simpa using not_lt.mp hnot), bind_some, ← hseen hd hlatest hmin] at hview
      exact hne hview
    rw [Ne, leavesAt_eq_none] at hleaf
    obtain ⟨w, hw⟩ := ne_none_iff_exists'.mp hleaf
    have hw' := hholds.newest d x v hd hlatest hne k w hk hw
    exact (hnet.leavesAt_ne_iff hb.ne_root).mpr (.inr ⟨w, hw, hw'.trans_lt hold⟩)
  · rw [zero_add] at hd hview ⊢
    by_contra hsome
    obtain ⟨node, hnode⟩ := ne_none_iff_exists'.mp hsome
    rw [hinv.getNode_eq hnet] at hnode
    obtain ⟨v, hv, hvalue⟩ := bind_eq_some_iff.mp hnode
    obtain ⟨hlatest, hmin⟩ := filter_eq_some_iff.mp hv
    have hmin := of_decide_eq_true hmin
    have hne :
      stored net.hashing.activeNode (net.leavesAt (net.tree.parent b)) x 0 (d + 1) ≠ none := by
      rw [hseen hd hlatest (hle.trans hmin), hvalue]
      exact some_ne_none _
    -- The node above is not older, so it would be seen.
    obtain ⟨hash, hparent⟩ := stored_parent hne
    obtain ⟨v', hlatest', hmin'⟩ := hstored (d := d) (x := x) (by omega)
      (by rw [hparent]; exact some_ne_none _)
    have hscore := hholds.parents d x v v' hd hlatest hne hlatest'
    rw [hinv.getNode_eq hnet, hlatest', filter_some, if_pos (by simpa using hmin.trans hscore),
      bind_some, ← hseen (by omega) hlatest' hmin', hparent] at hview
    cases hview

theorem Inv.build_eq [DecidableEq D] {proc : SmtProcessor D}
    (hbounds : proc.bounds = ⟨net.score (net.tree.parent b), net.activeMin b⟩)
    (hroot : proc.current_lanes_root =
      root net.hashing.activeNode (net.leavesAt (net.tree.parent b)))
    (hactive : net.toccataActive b = true) (hchanges : Changes net b proc.lane_changes) :
    ∃ changes, proc.build net.hashing.activeNode net.hashing.smtLeafHash net.zero_hash state.stores
        (net.isSmtCanonical (net.tree.parent b)) =
        .ok { root := root net.hashing.activeNode (net.leavesAt b), node_changes := changes
              lane_changes := proc.lane_changes
              payload_and_ctx_digest := net.hashing.activeNode.ZERO_HASH
              active_lanes_count := 0, inactivity_shortcut_block := net.zero_hash } ∧
      Built net.hashing.activeNode (net.leavesAt (net.tree.parent b)) (net.leavesAt b)
        (fun k => net.leavesAt b k ≠ net.leavesAt (net.tree.parent b) k)
        (fun bk => (state.stores.getNode bk ⟨net.score (net.tree.parent b), net.activeMin b⟩
          (net.isSmtCanonical (net.tree.parent b))).bind Version.value) 0 0 ∅ changes := by
  have hleaf : ∀ y v, net.leavesAt (net.tree.parent b) y = some v →
      v ≠ net.hashing.activeNode.ZERO_HASH := by
    intro y v hv
    obtain ⟨w, -, rfl⟩ := leavesAt_eq_some.mp hv
    exact hnet.leaf_ne_zero _ _
  have hstore (bk : BranchKey) : (state.stores.reader proc.bounds
      (net.isSmtCanonical (net.tree.parent b))).getNode bk =
      .ok ((state.stores.getNode bk ⟨net.score (net.tree.parent b), net.activeMin b⟩
        (net.isSmtCanonical (net.tree.parent b))).bind Version.value) := by
    rw [hbounds]
    rfl
  obtain ⟨changes, hok, hbuilt⟩ := computeRootUpdate_spec hstore hnet.injective hnet.emptyFollows
    (hchanges.batch hnet hb.ne_root) (fun u hu => hchanges.ne hnet hb.ne_root hu) hleaf
    (hinv.readable hnet hb)
  refine ⟨changes, ?_, hbuilt⟩
  -- The coinbase lane is among the changes.
  have hsome : proc.lane_changes.changes.entries ≠ [] := by
    obtain ⟨tip, -, hlookup⟩ := hchanges.touched _ (hnet.coinbase_mem hactive)
    exact List.ne_nil_of_mem (mem_lookup_iff.mp hlookup)
  rw [SmtProcessor.build, if_neg hsome, hroot, hok]
  rfl

omit hnet in
theorem Inv.index_ne {key : ScoreIndexKey B} {value : ScoreIndexValue}
    (h : state.stores.score_index.lookup key = some value) : key.block_hash ≠ b := fun heq => by
  have hmem : key ∈ state.stores.score_index := mem_of_lookup h
  rcases hinv.index key hmem with hdone | hzero
  · exact hb.not_done (heq ▸ hdone)
  · exact hb.ne_zero (heq.symm.trans hzero)

/-- The changes of the next block, written. -/
structure Written (net : Network L B D) (state : SmtState B D) (b : B) (build : SmtBuild B D) :
    Prop where
  active : net.toccataActive b = true
  changes : Changes net b build.lane_changes
  built : Built net.hashing.activeNode (net.leavesAt (net.tree.parent b)) (net.leavesAt b)
    (fun k => net.leavesAt b k ≠ net.leavesAt (net.tree.parent b) k)
    (fun bk => (state.stores.getNode bk ⟨net.score (net.tree.parent b), net.activeMin b⟩
      (net.isSmtCanonical (net.tree.parent b))).bind Version.value) 0 0 ∅ build.node_changes

variable {build : SmtBuild B D}

theorem Inv.latest_branch (bk : BranchKey) :
    latest net (build.flush state.stores (net.score b) b).branch_version b bk =
      match build.node_changes bk with
      | some node => some ⟨net.score b, b, node⟩
      | none => latest net state.stores.branch_version (net.tree.parent b) bk := by
  cases hnode : build.node_changes bk with
  | some node =>
    exact hinv.branches.latest_of_mem hnet.toOrdered hinv.region hb build.nodes_nodup
      (SmtBuild.mem_nodes.mpr hnode)
  | none =>
    exact hinv.branches.latest_of_not_mem hnet.toOrdered hinv.region hb build.nodes_nodup
      (SmtBuild.not_mem_nodes hnode)

omit hnet hinv hb in
theorem score_le_of_latest {E V : Type} [LinearOrder E] {db : VersionStore E B V} {e : E}
    {v : Version B V} (hv : latest net db b e = some v) : v.score ≤ net.score b :=
  (VersionStore.of_getAtCanonical hv).2.2.1

variable (hwritten : Written net state b build)

include hwritten

theorem Inv.nodes_next {d : ℕ} {x : Key} (hd : d < 256) :
    ((latest net (build.flush state.stores (net.score b) b).branch_version b (.new d x)).filter
      fun v => net.activeMin b ≤ v.score).bind Version.value =
        stored net.hashing.activeNode (net.leavesAt b) x 0 d := by
  have hreads := hwritten.built.reads d x (by omega) (agree_zero 0 x)
  rw [zero_add] at hreads
  rw [hinv.latest_branch hnet hb, ← hreads]
  cases hnode : build.node_changes (.new d x) with
  | some node =>
    have hmin : net.activeMin b ≤ net.score b := Nat.sub_le _ _
    simp [filter_some, hmin]
  | none =>
    rw [hinv.getNode_eq hnet]
    rfl

theorem Inv.newest_next {d : ℕ} {x : Key} {v : Version B (Option (Node D))} (hd : d < 256)
    (hv : latest net (build.flush state.stores (net.score b) b).branch_version b
      (.new d x) = some v)
    (hne : stored net.hashing.activeNode (net.leavesAt b) x 0 d ≠ none) {k : Key} {w : D × ℕ}
    (hk : Agree d x k) (hw : net.activeAt b k = some w) : w.2 ≤ v.score := by
  rw [hinv.latest_branch hnet hb] at hv
  cases hnode : build.node_changes (.new d x) with
  | some node =>
    rw [hnode] at hv
    obtain rfl := some.inj hv
    exact hnet.score_le_of_lanesAt (activeAt_eq_some.mp hw).1
  | none =>
    rw [hnode] at hv
    obtain ⟨hne', hkept⟩ := hwritten.built.kept d x (by omega) (agree_zero 0 x)
      (by rw [zero_add, hnode]) hne
    rw [zero_add] at hkept
    -- Its lanes are those of the parent.
    have hsame := hkept k hk
    rw [hnet.leavesAt_ne_iff hb.ne_root, not_or] at hsame
    rw [hnet.activeAt_of_not_mem hb.ne_root hsame.1] at hw
    exact (hinv.holds _ hb.parent).newest d x v hd hv hne' k w hk (filter_eq_some_iff.mp hw).1

theorem Inv.parents_next {d : ℕ} {x : Key} {v v' : Version B (Option (Node D))} (hd : d + 1 < 256)
    (hv : latest net (build.flush state.stores (net.score b) b).branch_version b (.new (d + 1) x) =
      some v)
    (hne : stored net.hashing.activeNode (net.leavesAt b) x 0 (d + 1) ≠ none)
    (hv' : latest net (build.flush state.stores (net.score b) b).branch_version b (.new d x) =
      some v') : v.score ≤ v'.score := by
  have hle := score_le_of_latest hv
  rw [hinv.latest_branch hnet hb] at hv hv'
  have hclosed := hwritten.built.closed d x (by omega) (agree_zero 0 x)
  rw [zero_add, zero_add] at hclosed
  cases hnode' : build.node_changes (.new d x) with
  | some node =>
    rw [hnode'] at hv'
    obtain rfl := some.inj hv'
    exact hle
  | none =>
    have hnode : build.node_changes (.new (d + 1) x) = none := by
      by_contra hsome
      exact hclosed hsome hnode'
    rw [hnode] at hv
    rw [hnode'] at hv'
    obtain ⟨hne', -⟩ := hwritten.built.kept (d + 1) x (by omega) (agree_zero 0 x)
      (by rw [zero_add, hnode]) hne
    exact (hinv.holds _ hb.parent).parents d x v v' hd hv hne' hv'

theorem Inv.lanes_next (k : Key) :
    (latest net (build.flush state.stores (net.score b) b).lane_version b k).map
      (fun v => (v.value, v.score)) = (net.lanesAt b).from floor k := by
  have hscore := hwritten.changes.blue_score
  have hnodup := build.lane_changes.updated_nodup
  unfold SmtBuild.flush
  rw [hscore]
  by_cases hk : k ∈ (net.touched b).map Prod.fst
  · obtain ⟨tip, htip, hlookup⟩ := hwritten.changes.touched k hk
    have hfloor : floor ≤ net.score b := (hinv.floor_le hnet hb).trans (Nat.sub_le _ _)
    rw [hinv.lanes.latest_of_mem hnet.toOrdered hinv.region hb hnodup
      (mem_updated.mpr hlookup), LaneVersions.from, htip]
    simp [filter_some, hfloor]
  · rw [hinv.lanes.latest_of_not_mem hnet.toOrdered hinv.region hb hnodup
      (hwritten.changes.not_updated hk),
      LaneVersions.from, lanesAt_of_not_mem hb.ne_root hk]
    exact (hinv.holds _ hb.parent).lanes k

omit hinv hb in
theorem Written.lookup_index (s : ℕ) (block : B) (batch_id : Option ℕ) :
    (build.flush state.stores (net.score b) b).score_index.lookup
      ⟨s, .leafUpdate, block, batch_id⟩ =
      if s = net.score b ∧ block = b ∧ batch_id = none then
        some ⟨(build.nodes.map fun r => r.1.depth).foldl max 0,
          build.lane_changes.updated.map Prod.fst⟩
      else state.stores.score_index.lookup ⟨s, .leafUpdate, block, batch_id⟩ := by
  rw [← hwritten.changes.blue_score]
  exact lookup_flushScoreIndex (hwritten.changes.updated_ne_nil hnet hwritten.active)

theorem Inv.listed_next {k : Key} {w : D × ℕ} (hw : net.lanesAt b k = some w)
    (hfloor : floor ≤ w.2) :
    ∃ block batch_id max_depth lane_keys,
      (build.flush state.stores (net.score b) b).score_index.lookup
        ⟨w.2, .leafUpdate, block, batch_id⟩ = some ⟨max_depth, lane_keys⟩ ∧
      net.isSmtCanonical b block = true ∧ k ∈ lane_keys := by
  by_cases hk : k ∈ (net.touched b).map Prod.fst
  · obtain ⟨tip, htip, hlookup⟩ := hwritten.changes.touched k hk
    obtain rfl : (tip, net.score b) = w := mem_unique htip hw
    refine ⟨b, none, _, _,
      (Written.lookup_index hnet hwritten _ _ _).trans (if_pos ⟨rfl, rfl, rfl⟩),
      isSmtCanonical_iff.mpr (.inr (ParentTree.self_mem_path b)), ?_⟩
    exact List.mem_map_of_mem (mem_updated.mpr hlookup)
  · rw [lanesAt_of_not_mem hb.ne_root hk] at hw
    obtain ⟨block, batch_id, max_depth, keys, hlookup, hcanonical, hmem⟩ :=
      (hinv.holds _ hb.parent).listed k w hw hfloor
    have hne := hinv.index_ne hb hlookup
    refine ⟨block, batch_id, max_depth, keys, ?_,
      (isSmtCanonical_of_ne hb.ne_root block).mpr (.inr hcanonical), hmem⟩
    rw [Written.lookup_index hnet hwritten, if_neg fun h => hne h.2.1, hlookup]

theorem Inv.entries_next {s : ℕ} {block : B} {batch_id : Option ℕ} {max_depth : ℕ}
    {lane_keys : List Key}
    (hlookup : (build.flush state.stores (net.score b) b).score_index.lookup
      ⟨s, .leafUpdate, block, batch_id⟩ = some ⟨max_depth, lane_keys⟩)
    (hcanonical : net.isSmtCanonical b block = true) {k : Key} (hk : k ∈ lane_keys) :
    ∃ w, net.lanesAt b k = some w ∧ s ≤ w.2 := by
  rw [Written.lookup_index hnet hwritten] at hlookup
  by_cases hkey : s = net.score b ∧ block = b ∧ batch_id = none
  · rw [if_pos hkey] at hlookup
    obtain ⟨-, rfl⟩ := ScoreIndexValue.mk.inj (some.inj hlookup)
    have htouched : k ∈ (net.touched b).map Prod.fst := by
      by_contra hnot
      exact hwritten.changes.not_updated hnot hk
    obtain ⟨tip, htip⟩ := lanesAt_of_mem hb.ne_root htouched
    exact ⟨_, htip, hkey.1.le⟩
  · rw [if_neg hkey] at hlookup
    have hne := hinv.index_ne hb hlookup
    obtain ⟨w, hw, hs⟩ := (hinv.holds _ hb.parent).entries s block batch_id max_depth lane_keys
      hlookup (((isSmtCanonical_of_ne hb.ne_root block).mp hcanonical).resolve_left hne) k hk
    by_cases htouched : k ∈ (net.touched b).map Prod.fst
    · obtain ⟨tip, htip⟩ := lanesAt_of_mem hb.ne_root htouched
      have hle := hnet.score_le_of_lanesAt hw
      have hlt : net.score (net.tree.parent b) < net.score b := hnet.score_parent b hb.ne_root
      exact ⟨_, htip, by dsimp only; omega⟩
    · rw [lanesAt_of_not_mem hb.ne_root htouched]
      exact ⟨w, hw, hs⟩

theorem Inv.holds_next : Holds net (build.flush state.stores (net.score b) b) floor b where
  floor_le := hinv.floor_le hnet hb
  lanes := hinv.lanes_next hnet hb hwritten
  nodes _ _ hd := hinv.nodes_next hnet hb hwritten hd
  newest _ _ _ hd hv hne _ _ hk hw := hinv.newest_next hnet hb hwritten hd hv hne hk hw
  parents _ _ _ _ hd hv hne hv' := hinv.parents_next hnet hb hwritten hd hv hne hv'
  listed _ _ hw hfloor := hinv.listed_next hnet hb hwritten hw hfloor
  entries _ _ _ _ _ hlookup hcanonical _ hk :=
    hinv.entries_next hnet hb hwritten hlookup hcanonical hk

theorem Inv.holds_of_ne {c : B} (hc : c = base ∨ c ∈ done) :
    Holds net (build.flush state.stores (net.score b) b) floor c := by
  have hholds := hinv.holds c hc
  have hbranch (bk : BranchKey) :
      latest net (build.flush state.stores (net.score b) b).branch_version c bk =
        latest net state.stores.branch_version c bk :=
    hinv.branches.latest_of_ne hnet.toOrdered hinv.region hb build.nodes_nodup hc bk
  have hlane (k : Key) : latest net (build.flush state.stores (net.score b) b).lane_version c k =
        latest net state.stores.lane_version c k := by
    unfold SmtBuild.flush
    rw [hwritten.changes.blue_score]
    exact hinv.lanes.latest_of_ne hnet.toOrdered hinv.region hb
      build.lane_changes.updated_nodup hc k
  -- The new entries are of a block that is not on the chain.
  have hoff : net.isSmtCanonical c b = false := by
    rw [← Bool.not_eq_true, isSmtCanonical_iff, not_or]
    exact ⟨hb.ne_zero, Next.not_mem_path hinv.region hb hc⟩
  refine ⟨hholds.floor_le, fun k => ?_, fun d x hd => ?_, fun d x v hd hv => ?_,
    fun d x v v' hd hv hne hv' => ?_, fun k w hw hfloor => ?_,
    fun s block batch_id max_depth keys hlookup hcanonical => ?_⟩
  · rw [hlane]
    exact hholds.lanes k
  · rw [hbranch]
    exact hholds.nodes d x hd
  · rw [hbranch] at hv
    exact hholds.newest d x v hd hv
  · rw [hbranch] at hv hv'
    exact hholds.parents d x v v' hd hv hne hv'
  · obtain ⟨block, batch_id, max_depth, keys, hlookup, hcanonical, hmem⟩ :=
      hholds.listed k w hw hfloor
    refine ⟨block, batch_id, max_depth, keys, ?_, hcanonical, hmem⟩
    rw [Written.lookup_index hnet hwritten, if_neg fun h => hinv.index_ne hb hlookup h.2.1, hlookup]
  · have hne : block ≠ b := fun h => by
      rw [h, hoff] at hcanonical
      cases hcanonical
    rw [Written.lookup_index hnet hwritten, if_neg fun h => hne h.2.1] at hlookup
    exact hholds.entries s block batch_id max_depth keys hlookup hcanonical

end

end Network

end Zkas.Smt
