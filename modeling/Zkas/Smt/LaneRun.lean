import Zkas.Smt.LaneStep
import Zkas.Smt.Shortcut

/-!
# Runs of blocks

The next block of a chain gets the root of its active lanes, their number and its inactivity
shortcut, and the invariant holds after it (`Inv.processBlock_eq`). So this is so of every block of
a run (`Inv.processBlocks_eq`), whatever the forks are. -/

namespace Zkas.Smt

open BitPath SparseTree List Option AList ParentTree ResolvedLaneUpdate

namespace Network

variable {L B D : Type} {net : Network L B D}
variable [LinearOrder B] {base : B} {floor : ℕ} {done : List B} {state : SmtState B D}

/-! ## The inactivity shortcut -/

/-- Only a block that commits to lanes has lane versions, and it records its shortcut block. -/
theorem Inv.tracks (hnet : net.Ordered) (hinv : Inv net base floor done state) :
    Tracks net base done state := by
  refine ⟨hinv.region, hinv.zero_not_mem, hinv.lanes, fun k hk hdone => ?_, hinv.coinbase,
    hinv.shortcut, fun b hb => .inl (hinv.recorded b hb)⟩
  by_contra hinactive
  obtain ⟨tip, htip⟩ := mem_iff_lookup.mp hk
  have hlanes := (hinv.holds k.block (.inr hdone)).lanes k.entity
  rw [LaneVersions.from, hnet.lanesAt_of_inactive (eq_false_of_ne_true hinactive)] at hlanes
  have hnone := VersionStore.getAtCanonical_eq_none_iff.mp (map_eq_none_iff.mp hlanes)
  have hlt := hnone ⟨k.score, k.block, tip⟩
    ⟨htip, isSmtCanonical_iff.mpr (.inr (self_mem_path k.block))⟩ (Nat.zero_le _)
  obtain ⟨-, hscore⟩ := (hinv.lanes.placed k hk).resolve_right fun himported =>
    (hinv.region.next hdone).2.1 himported.1
  exact hlt.ne hscore.symm

/-! ## The number of lanes -/

omit [LinearOrder B] in
theorem Lawful.from_eq_none_iff (hnet : net.Lawful) {b : B} (hb : b ≠ net.tree.root) {k : Key} :
    (net.lanesAt (net.tree.parent b)).from (net.activeMin b) k = none ↔
      ∀ w, net.activeAt (net.tree.parent b) k = some w → w.2 < net.activeMin b := by
  have hle := hnet.activeMin_le hb
  rw [LaneVersions.from, filter_eq_none_iff]
  simp only [decide_eq_true_eq, not_le]
  constructor
  · exact fun h w hw => h w (activeAt_eq_some.mp hw).1
  · intro h w hw
    by_contra hnot
    exact hnot (h w (activeAt_eq_some.mpr ⟨hw, by omega⟩))

omit [LinearOrder B] in
/-- The lanes of a block are those of its parent without those that leave the window, and the new
ones. -/
theorem Lawful.length_activeKeys (hnet : net.Lawful) {b : B} (hb : b ≠ net.tree.root)
    {expired : List Key} (hnodup : expired.Nodup)
    (hexpired : ∀ k, k ∈ expired ↔
      ∃ w, net.activeAt (net.tree.parent b) k = some w ∧ w.2 < net.activeMin b) :
    (net.activeKeys b).length + expired.length = (net.activeKeys (net.tree.parent b)).length +
      (((net.touched b).map (net.laneUpdate b)).filter is_new).length := by
  set kept := (net.activeKeys (net.tree.parent b)).toFinset \ expired.toFinset with hkept
  set fresh := ((net.touched b).map (net.laneUpdate b)).filter is_new with hfresh
  have hmem_kept (k : Key) : k ∈ kept ↔
      (net.lanesAt (net.tree.parent b)).from (net.activeMin b) k ≠ none := by
    rw [hkept, Finset.mem_sdiff, List.mem_toFinset, List.mem_toFinset, mem_activeKeys, hexpired,
      Ne, Ne, hnet.from_eq_none_iff hb]
    cases net.activeAt (net.tree.parent b) k <;> simp
  have hsub : expired.toFinset ⊆ (net.activeKeys (net.tree.parent b)).toFinset := by
    intro k hk
    obtain ⟨w, hw, -⟩ := (hexpired k).mp (mem_toFinset.mp hk)
    exact mem_toFinset.mpr (mem_activeKeys.mpr (by rw [hw]; exact some_ne_none _))
  -- The new lanes, by key.
  have hfresh_keys : (fresh.map lane_key).toFinset =
      ((net.touched b).map Prod.fst).toFinset \ kept := by
    ext k
    rw [List.mem_toFinset, Finset.mem_sdiff, List.mem_toFinset, hmem_kept, not_not, List.mem_map,
      List.mem_map]
    constructor
    · rintro ⟨u, hu, rfl⟩
      obtain ⟨hu, hnew⟩ := mem_filter.mp hu
      obtain ⟨t, ht, rfl⟩ := mem_map.mp hu
      exact ⟨⟨t, ht, rfl⟩, isNone_iff_eq_none.mp hnew⟩
    · rintro ⟨⟨t, ht, rfl⟩, hnone⟩
      exact ⟨net.laneUpdate b t, mem_filter.mpr ⟨mem_map_of_mem ht,
        isNone_iff_eq_none.mpr hnone⟩, rfl⟩
  have hfresh_nodup : (fresh.map lane_key).Nodup := by
    have hall : (((net.touched b).map (net.laneUpdate b)).map lane_key).Nodup := by
      rw [List.map_map]
      exact hnet.touched_nodup b
    exact hall.sublist (filter_sublist.map _)
  have hunion : (net.activeKeys b).toFinset =
      kept ∪ (((net.touched b).map Prod.fst).toFinset \ kept) := by
    rw [Finset.union_sdiff_self_eq_union]
    ext k
    rw [List.mem_toFinset, mem_activeKeys, Finset.mem_union, hmem_kept, List.mem_toFinset]
    by_cases hk : k ∈ (net.touched b).map Prod.fst
    · obtain ⟨tip, htip⟩ := lanesAt_of_mem hb hk
      have hactive : net.activeAt b k = some (tip, net.score b) :=
        activeAt_eq_some.mpr ⟨htip, Nat.sub_le _ _⟩
      simp [hk, hactive]
    · rw [activeAt, LaneVersions.from, lanesAt_of_not_mem hb hk]
      simp only [hk, or_false]
      rfl
  calc (net.activeKeys b).length + expired.length
      = (net.activeKeys b).toFinset.card + expired.toFinset.card := by
        rw [toFinset_card_of_nodup (activeKeys_nodup b), toFinset_card_of_nodup hnodup]
    _ = kept.card + fresh.length + expired.toFinset.card := by
        rw [hunion, Finset.card_union_of_disjoint Finset.disjoint_sdiff, ← hfresh_keys,
          toFinset_card_of_nodup hfresh_nodup, length_map]
    _ = (net.activeKeys (net.tree.parent b)).toFinset.card + fresh.length := by
        have hcard := Finset.card_sdiff_add_card_eq_card hsub
        rw [← hkept] at hcard
        omega
    _ = (net.activeKeys (net.tree.parent b)).length + fresh.length := by
        rw [toFinset_card_of_nodup (activeKeys_nodup _)]

/-! ## Blocks -/

/-- What is built for a block: the root of its lanes, their number, and what stands for its shortcut
block. -/
structure Commits (net : Network L B D) (b : B) (build : SmtBuild B D) : Prop where
  root : build.root = root net.hashing.activeNode (net.leavesAt b)
  count : build.active_lanes_count = (net.activeKeys b).length
  shortcut : IsShortcut net b build.inactivity_shortcut_block

section

variable (hnet : net.Lawful) (hinv : Inv net base floor done state) {b : B}
  (hb : Next net base done b)

include hnet hinv hb

theorem Inv.next {build : SmtBuild B D} (hwritten : Written net state b build)
    (hcommits : Commits net b build) :
    Inv net base floor (b :: done) (commitSmtBuild net state b build) := by
  obtain ⟨tip, -, hlookup⟩ := hwritten.changes.touched _ (hnet.coinbase_mem hwritten.active)
  have htracks := (hinv.tracks hnet.toOrdered).commit hnet.toOrdered hb hwritten.active
    hwritten.changes.blue_score (mem_map_of_mem (BlockLaneChanges.mem_updated.mpr hlookup))
    hcommits.shortcut
  -- The block is new, so the others keep their metadata.
  have hcases {c : B} (hc : c = base ∨ c ∈ b :: done) : c = b ∨
    ((c = base ∨ c ∈ done) ∧ c ≠ b) := by
    by_cases heq : c = b
    · exact .inl heq
    · exact .inr ⟨hc.imp_right fun h => (mem_cons.mp h).resolve_left heq, heq⟩
  refine ⟨htracks.region, htracks.zero_not_mem, ?_, htracks.lanes, fun key hkey => ?_,
    fun c hc => ?_,
    htracks.coinbase, fun c hc => ?_, htracks.shortcut, fun c hc => ?_⟩
  · exact hinv.branches.flush hnet.toOrdered hinv.region hb build.nodes_nodup
  · rcases BlockLaneChanges.of_mem_flushScoreIndex hkey with hblock | hkey
    · exact .inl (hblock ▸ mem_cons_self)
    · exact (hinv.index key hkey).imp_left (mem_cons_of_mem _)
  · rcases hcases hc with rfl | ⟨hc, -⟩
    · exact hinv.holds_next hnet hb hwritten
    · exact hinv.holds_of_ne hnet hb hwritten hc
  · unfold commitSmtBuild
    rcases hcases hc with rfl | ⟨hc, hne⟩
    · rw [lookup_insert]
      exact hcommits.count
    · rw [lookup_insert_ne hne]
      exact hinv.count c hc
  · rcases (mem_insert _).mp hc with rfl | hc
    · exact hwritten.active
    · exact hinv.recorded c hc

theorem Inv.holds_of_inactive (hinactive : net.toccataActive b = false) :
    Holds net state.stores floor b := by
  have hparent : net.toccataActive (net.tree.parent b) = false := by
    rw [← Bool.not_eq_true] at hinactive ⊢
    exact fun hactive => hinactive (hnet.toccataActive_of_mem (parent_mem_path hb.ne_root) hactive)
  have hlanes := hnet.lanesAt_of_inactive hinactive
  have hlanes' := hnet.lanesAt_of_inactive hparent
  have hholds := hinv.holds _ hb.parent
  -- No lane, so no node.
  have hstored {c : B} (hc : net.lanesAt c = fun _ => none) (x : Key) {d : ℕ} (hd : d < 256) :
      stored net.hashing.activeNode (net.leavesAt c) x 0 d = none := by
    by_contra hne
    obtain ⟨k, -, hk⟩ := exists_leaf_of_stored (by omega) hne
    rw [leavesAt, activeAt, LaneVersions.from, hc] at hk
    exact hk rfl
  have hbranch (bk : BranchKey) : latest net state.stores.branch_version b bk =
      latest net state.stores.branch_version (net.tree.parent b) bk :=
    hinv.branches.latest_of_untouched hnet.toOrdered hinv.region hb bk
  have hlane (k : Key) : latest net state.stores.lane_version b k =
      latest net state.stores.lane_version (net.tree.parent b) k :=
    hinv.lanes.latest_of_untouched hnet.toOrdered hinv.region hb k
  refine ⟨hinv.floor_le hnet hb, fun k => ?_, fun d x hd => ?_, fun d x v hd _ hne => ?_,
    fun d x v v' hd _ hne => ?_, fun k w hw => ?_,
    fun s block batch_id max_depth keys hlookup hcanonical k hk => ?_⟩
  · rw [hlane, hholds.lanes, LaneVersions.from, LaneVersions.from, hlanes, hlanes']
  · -- What the window of the block shows is in that of the parent.
    have hnode := hholds.nodes d x hd
    rw [hstored hlanes' x hd] at hnode
    rw [hbranch, hstored hlanes x hd]
    cases hlatest : latest net state.stores.branch_version (net.tree.parent b) (.new d x) with
    | none => rfl
    | some v =>
      rw [hlatest] at hnode
      have hle := hnet.activeMin_le hb.ne_root
      by_cases hmin : net.activeMin b ≤ v.score
      · simpa [filter, hmin, hle.trans hmin] using hnode
      · simp [Option.filter, hmin]
  · exact absurd (hstored hlanes x hd) hne
  · exact absurd (hstored hlanes x hd) hne
  · rw [hlanes] at hw
    cases hw
  · rcases (isSmtCanonical_of_ne hb.ne_root block).mp hcanonical with hblock | hcanonical
    · exact absurd hblock (hinv.index_ne hb hlookup)
    · obtain ⟨w, hw, -⟩ := hholds.entries s block batch_id max_depth keys hlookup hcanonical k hk
      rw [hlanes'] at hw
      cases hw

theorem Inv.skip (hinactive : net.toccataActive b = false) :
    Inv net base floor (b :: done) state := by
  have htracks := (hinv.tracks hnet.toOrdered).skip hb hinactive
  have hcases {c : B} (hc : c = base ∨ c ∈ b :: done) : c = b ∨ (c = base ∨ c ∈ done) := by
    rcases hc with hc | hc
    · exact .inr (.inl hc)
    · exact (mem_cons.mp hc).imp_right .inr
  refine ⟨htracks.region, htracks.zero_not_mem, hinv.branches.mono b, htracks.lanes,
    fun key hkey => (hinv.index key hkey).imp_left (mem_cons_of_mem _), fun c hc => ?_,
    htracks.coinbase, fun c hc => ?_, htracks.shortcut, hinv.recorded⟩
  · rcases hcases hc with rfl | hc
    · exact hinv.holds_of_inactive hnet hb hinactive
    · exact hinv.holds c hc
  · rcases hcases hc with rfl | hc
    · have hnone : state.metadata.lookup c = none := lookup_eq_none.mpr fun hmem => by
        rw [hinv.recorded c hmem] at hinactive
        cases hinactive
      have hnil : net.activeKeys c = [] := eq_nil_iff_forall_not_mem.mpr fun k hk => by
        rw [mem_activeKeys, activeAt, LaneVersions.from, hnet.lanesAt_of_inactive hinactive] at hk
        exact hk rfl
      rw [hnone, hnil]
      rfl
    · exact hinv.count c hc

theorem Inv.recomputeSeqCommit_eq [DecidableEq D] (hactive : net.toccataActive b = true) :
    ∃ commit build, recomputeSeqCommit net state b = .ok (commit, build) ∧
      Written net state b build ∧ Commits net b build ∧ build.inactivity_shortcut_block =
        computeInactivityShortcutBlock net state (net.tree.parent b) (net.score b) := by
  -- The shortcut.
  obtain ⟨block, hcompute⟩ : ∃ block,
      computeInactivityShortcutBlock net state (net.tree.parent b) (net.score b) = block := ⟨_, rfl⟩
  have hblock := (hinv.tracks hnet.toOrdered).isShortcut_compute hnet.toOrdered hb.ne_root hb.parent
  rw [hcompute] at hblock
  have hzero : block ≠ net.zero_hash := fun heq =>
    (hinv.region.cons hb).zero_not_mem hinv.zero_not_mem (.inr mem_cons_self)
      (heq ▸ hblock.mem_path)
  obtain ⟨shortcut, hshortcut⟩ := exists_inactivityShortcut hzero
  -- The state of the parent.
  have hparent : getParentLanesRootAndCount net state (net.tree.parent b)
      (net.score (net.tree.parent b)) = (root net.hashing.activeNode
        (net.leavesAt (net.tree.parent b)), (net.activeKeys (net.tree.parent b)).length) := by
    unfold getParentLanesRootAndCount
    rw [hinv.getLanesRoot_eq hnet hb.parent, ← hinv.count _ hb.parent]
    cases state.metadata.lookup (net.tree.parent b) <;> rfl
  -- The changes and the tree.
  obtain ⟨proc, expired, hcollect, hbounds, hroot, hchanges, hnodup, hexpired⟩ :=
    hinv.laneChanges_eq hnet hb
      { seq_commit := (net.header (net.tree.parent b)).accepted_id_merkle_root
        blue_score := net.score (net.tree.parent b)
        lanes_root := root net.hashing.activeNode (net.leavesAt (net.tree.parent b))
        active_lanes_count := (net.activeKeys (net.tree.parent b)).length } rfl
  dsimp only at hroot
  obtain ⟨changes, hbuild, hbuilt⟩ := hinv.build_eq hnet hb hbounds hroot hactive hchanges
  have hlength := hnet.length_activeKeys hb.ne_root hnodup hexpired
  have hseq : recomputeSeqCommit net state b = buildSeqCommit net state.stores (net.tree.parent b)
      { seq_commit := (net.header (net.tree.parent b)).accepted_id_merkle_root
        blue_score := net.score (net.tree.parent b)
        lanes_root := root net.hashing.activeNode (net.leavesAt (net.tree.parent b))
        active_lanes_count := (net.activeKeys (net.tree.parent b)).length }
      (contextHash net b) (net.score b) ((net.touched b).map (net.laneUpdate b))
      (net.miner_payload_leaves b) block shortcut := by
    unfold recomputeSeqCommit
    have hresolve := hinv.resolveLaneUpdates_eq hnet hb hactive
    unfold score at hcompute hresolve hparent
    dsimp only
    rw [hcompute, hshortcut, hresolve, hparent, Except.ok_bind]
    simp only [score]
  rw [hseq]
  unfold buildSeqCommit
  rw [hcollect]
  dsimp only
  rw [hbuild]
  simp only [Except.ok_bind]
  rw [if_neg (by omega)]
  refine ⟨_, _, rfl, ⟨hactive, hchanges, hbuilt⟩, ⟨?_, ?_, hblock⟩, hcompute.symm⟩
  · dsimp only
  · dsimp only
    omega

/-- The next block of a run. -/
theorem Inv.processBlock_eq [DecidableEq D] :
    ∃ build state', processBlock net state b = .ok (build, state') ∧
      build.isSome = net.toccataActive b ∧ (∀ x ∈ build, Commits net b x) ∧
      Inv net base floor (b :: done) state' ∧
      ∀ init, Records net base init done state → Records net base init (b :: done) state' := by
  unfold processBlock
  cases hactive : net.toccataActive b with
  | true =>
    obtain ⟨commit, build, hok, hwritten, hcommits, hshortcut⟩ :=
      hinv.recomputeSeqCommit_eq hnet hb hactive
    refine ⟨some build, commitSmtBuild net state b build, ?_, rfl, fun x hx => ?_,
      hinv.next hnet hb hwritten hcommits, fun init h => ?_⟩
    · rw [if_pos rfl, hok]
      rfl
    · exact some.inj hx ▸ hcommits
    · obtain ⟨tip, -, hlookup⟩ := hwritten.changes.touched _ (hnet.coinbase_mem hactive)
      exact h.commit hb hactive hwritten.changes.blue_score
        (mem_map_of_mem (BlockLaneChanges.mem_updated.mpr hlookup)) hshortcut
  | false =>
    exact ⟨none, state, rfl, rfl, fun x hx => (by cases hx), hinv.skip hnet hb hactive,
      fun init h => h.skip hb hactive⟩

end

/-! ## Runs -/

/-- Blocks that may be processed one after the other: each above a block that was processed, or the
base. -/
def Follows (net : Network L B D) (base : B) : List B → List B → Prop
  | _, [] => True
  | done, b :: bs => Next net base done b ∧ Follows net base (b :: done) bs

/-- What is built along a run. -/
structure Builds (net : Network L B D) (blocks : List B)
    (builds : List (B × Option (SmtBuild B D))) :
    Prop where
  blocks : builds.map Prod.fst = blocks
  active : ∀ r ∈ builds, r.2.isSome = net.toccataActive r.1
  commits : ∀ r ∈ builds, ∀ build ∈ r.2, Commits net r.1 build

/-- A run of blocks. -/
theorem Inv.processBlocks_eq [DecidableEq D] (hnet : net.Lawful) {blocks : List B}
    (hinv : Inv net base floor done state) (hblocks : Follows net base done blocks) :
    ∃ builds state', processBlocks net state blocks = .ok (builds, state') ∧
      Builds net blocks builds ∧ Inv net base floor (blocks.reverse ++ done) state' ∧
      ∀ init, Records net base init done state →
        Records net base init (blocks.reverse ++ done) state' := by
  induction blocks generalizing done state with
  | nil =>
    exact ⟨[], state, rfl, ⟨rfl, fun r hr => absurd hr not_mem_nil,
      fun r hr => absurd hr not_mem_nil⟩, hinv, fun init h => h⟩
  | cons b blocks ih =>
    obtain ⟨build, state₁, hok, hactive, hcommits, hinv₁, hrun₁⟩ :=
      hinv.processBlock_eq hnet hblocks.1
    obtain ⟨builds, state₂, hrest, hbuilds, hinv₂, hrun₂⟩ := ih hinv₁ hblocks.2
    rw [reverse_cons, append_assoc]
    refine ⟨(b, build) :: builds, state₂, ?_, ⟨?_, fun r hr => ?_, fun r hr => ?_⟩, hinv₂,
      fun init h => hrun₂ init (hrun₁ init h)⟩
    · rw [processBlocks, hok, Except.ok_bind]
      dsimp only
      rw [hrest]
      rfl
    · rw [map_cons, hbuilds.blocks]
    · rcases mem_cons.mp hr with rfl | hr
      · exact hactive
      · exact hbuilds.active r hr
    · rcases mem_cons.mp hr with rfl | hr
      · exact hcommits
      · exact hbuilds.commits r hr

theorem inv_new (hroot : net.tree.root ≠ net.zero_hash) (branch_cache lane_cache : ℕ) :
    Inv net net.tree.root 0 [] ⟨.new branch_cache lane_cache, ∅⟩ := by
  have hlatest {E V : Type} [LinearOrder E] (tip : B) (e : E) :
      latest net (∅ : VersionStore E B V) tip e = none := rfl
  have hleaves : net.leavesAt net.tree.root = fun _ => none := by
    funext k
    rw [leavesAt, activeAt, LaneVersions.from, lanesAt_root]
    rfl
  have hholds : Holds net (SmtStores.new branch_cache lane_cache) 0 net.tree.root := by
    refine ⟨Nat.zero_le _, fun k => ?_, fun d x hd => ?_, fun d x v _ hv => ?_,
      fun d x v v' _ hv => ?_, fun k w hw => ?_, fun s block batch_id max_depth keys hlookup => ?_⟩
    · rw [LaneVersions.from, lanesAt_root]
      rfl
    · by_contra hne
      obtain ⟨k, -, hk⟩ := exists_leaf_of_stored (by omega) (Ne.symm hne)
      rw [hleaves] at hk
      exact hk rfl
    · rw [SmtStores.new, hlatest] at hv
      cases hv
    · rw [SmtStores.new, hlatest] at hv
      cases hv
    · rw [lanesAt_root] at hw
      cases hw
    · rw [SmtStores.new, lookup_empty] at hlookup
      cases hlookup
  have honly {b : B} (hb : b = net.tree.root ∨ b ∈ []) : b = net.tree.root :=
    hb.resolve_right not_mem_nil
  refine ⟨.nil, ?_, .of_not_cached (fun k hk => absurd hk (notMem_empty k)) _,
    .of_not_cached (fun k hk => absurd hk (notMem_empty k)) _,
    fun k hk => absurd hk (notMem_empty k), fun b hb => honly hb ▸ hholds,
    fun b hb => absurd hb not_mem_nil, fun b hb => ?_, fun b hb => ?_, ?_⟩
  · rw [path_root, mem_singleton]
    exact hroot.symm
  · rw [honly hb, lookup_empty, activeKeys, path_root]
    rfl
  · have hmem : shortcutBlock net net.tree.root ∈ net.tree.path net.tree.root := shortcutBlock_mem _
    rw [path_root, mem_singleton] at hmem
    rw [honly hb, lookup_empty]
    exact .inl hmem.symm
  · exact fun b hb => absurd hb (notMem_empty b)

end Network

end Zkas.Smt
