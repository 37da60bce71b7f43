import Zkas.Smt.LaneChanges

/-!
# The inactivity shortcut

The shortcut block of a block is the highest one of its chain that is low enough (`shortcutBlock`).
`inactivity_shortcut_block_for_pov` walks down the chain to it; `compute_inactivity_shortcut_block`
looks up the coinbase lane, or walks up from the shortcut block recorded for the selected parent.
Before the activation each may end at a higher block, which has no commitment either. -/

namespace Zkas.Smt

open List ParentTree

namespace Network

variable {L B D : Type} {net : Network L B D}

/-! ## The shortcut block -/

/-- Where the test is once false it stays false, so the first part is all that passes. -/
theorem takeWhile_eq_filter {α : Type} {p : α → Bool} {xs : List α}
    (h : xs.Pairwise fun a b => p b = true → p a = true) : xs.takeWhile p = xs.filter p := by
  induction xs with
  | nil => rfl
  | cons a xs ih =>
    rw [pairwise_cons] at h
    cases ha : p a with
    | true => rw [takeWhile_cons_of_pos ha, filter_cons_of_pos ha, ih h.2]
    | false =>
      have hnone : xs.filter p = [] := by
        refine filter_eq_nil_iff.mpr fun b hb hpb => ?_
        rw [h.1 b hb hpb] at ha
        cases ha
      rw [takeWhile_cons_of_neg (by simp [ha]), filter_cons_of_neg (by simp [ha]), hnone]

theorem Ordered.path_sorted (hnet : net.Ordered) (b : B) :
    (net.tree.path b).Pairwise fun c c' => net.score c < net.score c' := by
  induction b using induction (T := net.tree) with
  | hroot =>
    rw [path_root]
    exact pairwise_singleton _ _
  | hstep b hb ih =>
    rw [path_of_ne hb, pairwise_append]
    refine ⟨ih, pairwise_singleton _ _, fun c hc c' hc' => ?_⟩
    rw [mem_singleton.mp hc']
    exact (hnet.score_le hc).trans_lt (hnet.score_parent b hb)

/-- A search for the highest block that is low enough may start at any block that is. -/
theorem Ordered.getLastD_filter_path (hnet : net.Ordered) {s p : B} (hs : s ∈ net.tree.path p)
    {target : ℕ} (hle : net.score s ≤ target) (r : B) :
    ((net.tree.path p).filter fun c => net.score c ≤ target).getLastD r =
      ((net.tree.above s p).filter fun c => net.score c ≤ target).getLastD s := by
  have hbelow : (net.tree.path s).filter (fun c => net.score c ≤ target) = net.tree.path s :=
    filter_eq_self.mpr fun c hc => decide_eq_true ((hnet.score_le hc).trans hle)
  rw [← path_append_above hs, filter_append, hbelow, getLastD_eq_getLast?,
    getLast?_append, getLast?_path, getLastD_eq_getLast?]
  cases ((net.tree.above s p).filter fun c => net.score c ≤ target).getLast? <;> rfl

theorem shortcutBlock_mem (b : B) : shortcutBlock net b ∈ net.tree.path b := by
  unfold shortcutBlock
  split_ifs
  · exact root_mem_path b
  · rw [getLastD_eq_getLast?]
    cases hlast : ((net.tree.path b).filter fun c =>
        net.score c ≤ net.score b - net.finality_depth - 1).getLast? with
    | none => exact root_mem_path b
    | some c => exact mem_of_mem_filter (mem_of_getLast? hlast)

theorem shortcutBlock_low (net : Network L B D) (b : B) : shortcutBlock net b = net.tree.root ∨
    net.score (shortcutBlock net b) ≤ net.score b - net.finality_depth - 1 := by
  unfold shortcutBlock
  split_ifs
  · exact .inl rfl
  · rw [getLastD_eq_getLast?]
    cases hlast : ((net.tree.path b).filter fun c =>
        net.score c ≤ net.score b - net.finality_depth - 1).getLast? with
    | none => exact .inl rfl
    | some c =>
      have hlow := (mem_filter.mp (mem_of_getLast? hlast)).2
      exact .inr (of_decide_eq_true hlow)

theorem shortcutBlock_of_ne {b : B} (hb : b ≠ net.tree.root)
    (hscore : ¬net.score b < net.finality_depth + 1) :
    shortcutBlock net b = ((net.tree.path (net.tree.parent b)).filter fun c =>
      net.score c ≤ net.score b - net.finality_depth - 1).getLastD net.tree.root := by
  have hself : [b].filter (fun c => net.score c ≤ net.score b - net.finality_depth - 1) = [] := by
    rw [filter_cons_of_neg (by simp; omega), filter_nil]
  rw [shortcutBlock, if_neg hscore, path_of_ne hb, filter_append, hself, append_nil]

theorem Ordered.shortcutBlock_mem_path_of_lt (hnet : net.Ordered) {b s : B}
    (hs : s ∈ net.tree.path b) (hlt : net.score b - net.finality_depth - 1 < net.score s) :
    shortcutBlock net b ∈ net.tree.path s := by
  rcases shortcutBlock_low net b with hroot | hlow
  · rw [hroot]
    exact root_mem_path s
  · -- Of two blocks of a path the lower one is below the other.
    rcases prefix_or_prefix_of_prefix (path_isPrefix (shortcutBlock_mem b))
      (path_isPrefix hs) with hle | hle
    · exact hle.subset (self_mem_path _)
    · have := hnet.score_le (hle.subset (self_mem_path s))
      omega

theorem IsShortcut.mem_path {b c : B} (h : IsShortcut net b c) : c ∈ net.tree.path b := by
  rcases h with rfl | ⟨hmem, -⟩
  · exact shortcutBlock_mem b
  · exact hmem

/-- What stands for the shortcut block has the same commitment. -/
theorem IsShortcut.inactivityShortcut_eq [LinearOrder B] (hnet : net.Ordered) {b c : B}
    (hzero : net.zero_hash ∉ net.tree.path b) (h : IsShortcut net b c) :
    inactivityShortcut net c = inactivityShortcut net (shortcutBlock net b) := by
  rcases h with rfl | ⟨hmem, hinactive, hbelow⟩
  · rfl
  · have hinactive' : net.toccataActive (shortcutBlock net b) = false := by
      rw [← Bool.not_eq_true] at hinactive ⊢
      exact fun hactive => hinactive (hnet.toccataActive_of_mem hbelow hactive)
    have hne : c ≠ net.zero_hash := fun heq => hzero (heq ▸ hmem)
    have hne' : shortcutBlock net b ≠ net.zero_hash := fun heq => hzero (heq ▸ shortcutBlock_mem b)
    unfold inactivityShortcut
    rw [if_neg hne, if_neg hne', hinactive, hinactive']
    rfl

theorem exists_inactivityShortcut [LinearOrder B] {c : B} (hc : c ≠ net.zero_hash) :
    ∃ value, inactivityShortcut net c = .ok value := by
  unfold inactivityShortcut
  rw [if_neg hc]
  split_ifs <;> exact ⟨_, rfl⟩

theorem Ordered.find?_reverse_path (hnet : net.Ordered) {b c : B} {p : B → Bool}
    (h : (net.tree.path b).reverse.find? p = some c) :
    p c = true ∧ c ∈ net.tree.path b ∧
      ∀ x ∈ net.tree.path b, p x = true → net.score x ≤ net.score c := by
  obtain ⟨hc, front, back, hpath, hfront⟩ := find?_eq_some_iff_append.mp h
  refine ⟨hc, mem_reverse.mp (mem_of_find?_eq_some h), fun x hx hp => ?_⟩
  have hsorted := pairwise_reverse.mpr (hnet.path_sorted b)
  rw [hpath, pairwise_append, pairwise_cons] at hsorted
  rw [← mem_reverse, hpath, mem_append, mem_cons] at hx
  rcases hx with hx | rfl | hx
  · have hnot := hfront x hx
    rw [hp] at hnot
    cases hnot
  · exact le_rfl
  · exact (hsorted.2.1.1 x hx).le

/-- A block of the chain that is low enough is the shortcut block, if no higher one is. -/
theorem Ordered.eq_shortcutBlock (hnet : net.Ordered) {b c : B} (hc : c ∈ net.tree.path b)
    (hscore : ¬net.score b < net.finality_depth + 1)
    (hle : net.score c ≤ net.score b - net.finality_depth - 1)
    (hhighest : ∀ x ∈ net.tree.path b, net.score x ≤ net.score b - net.finality_depth - 1 →
      net.score x ≤ net.score c) : c = shortcutBlock net b := by
  have hnone : (net.tree.above c b).filter
      (fun x => net.score x ≤ net.score b - net.finality_depth - 1) = [] := by
    refine filter_eq_nil_iff.mpr fun x hx hlow => ?_
    obtain ⟨hxb, hxc⟩ := (mem_above_iff hc).mp hx
    have hcx := mem_path_of_mem_above hc hx
    have hlt := hnet.score_lt hcx fun h => hxc (h ▸ self_mem_path _)
    have := hhighest x hxb (of_decide_eq_true hlow)
    omega
  have hlast := hnet.getLastD_filter_path hc hle net.tree.root
  rw [hnone, getLastD_nil] at hlast
  rw [shortcutBlock, if_neg hscore]
  exact hlast.symm

theorem Ordered.isShortcut_forPov [LinearOrder B] (hnet : net.Ordered) (b : B) :
    IsShortcut net b (inactivityShortcutBlockForPov net b) := by
  unfold inactivityShortcutBlockForPov
  split_ifs with hscore
  · left
    exact (if_pos hscore).symm
  · dsimp only
    cases hfind : (net.tree.path b).reverse.find? fun h => h = net.tree.root ∨
        (net.header h).blue_score ≤ (net.header b).blue_score - net.finality_depth - 1 ∨
          ¬net.toccataActive h with
    | none =>
      have hroot := find?_eq_none.mp hfind _ (mem_reverse.mpr (root_mem_path (T := net.tree) b))
      exact absurd (decide_eq_true (.inl rfl)) hroot
    | some c =>
      obtain ⟨hc, hmem, hhighest⟩ := hnet.find?_reverse_path hfind
      by_cases hle : net.score c ≤ net.score b - net.finality_depth - 1
      · exact .inl (hnet.eq_shortcutBlock hmem hscore hle fun x hx hlow =>
          hhighest x hx (decide_eq_true (.inr (.inl hlow))))
      · have hbelow := hnet.shortcutBlock_mem_path_of_lt hmem (not_le.mp hle)
        rcases of_decide_eq_true hc with rfl | hlow | hinactive
        · left
          rw [path_root] at hbelow
          exact (mem_singleton.mp hbelow).symm
        · exact absurd hlow hle
        · exact .inr ⟨hmem, eq_false_of_ne_true hinactive, hbelow⟩

/-! ## What is recorded -/

variable [LinearOrder B] {base : B} {done : List B} {state : SmtState B D}

/-- A node that has processed some blocks above a base, as far as the shortcut depends on it: each
block from the activation on has a version of the coinbase lane, and its metadata has what stands
for its shortcut block. -/
structure Tracks (net : Network L B D) (base : B) (done : List B) (state : SmtState B D) :
    Prop where
  region : Region net base done
  zero_not_mem : net.zero_hash ∉ net.tree.path base
  lanes : CachedRows net base done state.stores.lane_version state.stores.lane_cache
  active : ∀ k ∈ state.stores.lane_version, k.block ∈ done → net.toccataActive k.block = true
  coinbase : ∀ b ∈ done, net.toccataActive b = true →
    ⟨net.hashing.laneKey net.coinbase_lane, net.score b, b⟩ ∈ state.stores.lane_version
  shortcut : ∀ b, b = base ∨ b ∈ done → IsShortcut net b
    (((state.metadata.lookup b).map SmtBlockMetadata.inactivity_shortcut_block).getD b)
  recorded : ∀ b ∈ state.metadata, net.toccataActive b = true ∨ b = base

section

variable (hnet : net.Ordered) (h : Tracks net base done state) {b : B} (hroot : b ≠ net.tree.root)
  (hparent : net.tree.parent b = base ∨ net.tree.parent b ∈ done)

include hnet h hroot hparent

/-- The walk along the chain finds the shortcut block, or stays at a block from before the
activation. -/
theorem Tracks.walkShortcut_isShortcut (hscore : ¬net.score b < net.finality_depth + 1) :
    IsShortcut net b
      (walkShortcut net state (net.tree.parent b) (net.score b - net.finality_depth - 1)) := by
  set target := net.score b - net.finality_depth - 1 with htarget
  obtain ⟨s, hs⟩ : ∃ s, ((state.metadata.lookup (net.tree.parent b)).map
      SmtBlockMetadata.inactivity_shortcut_block).getD (net.tree.parent b) = s := ⟨_, rfl⟩
  have hshortcut := h.shortcut _ hparent
  rw [hs] at hshortcut
  have hmem : s ∈ net.tree.path (net.tree.parent b) := hshortcut.mem_path
  have hsorted := hnet.path_sorted (net.tree.parent b)
  have habove : (net.tree.above s (net.tree.parent b)).Pairwise fun c c' =>
      net.score c < net.score c' := hsorted.sublist (drop_sublist _ _)
  have hfilter : (net.tree.above s (net.tree.parent b)).takeWhile (fun c => net.score c ≤ target) =
      (net.tree.above s (net.tree.parent b)).filter fun c => net.score c ≤ target :=
    takeWhile_eq_filter (habove.imp fun hlt => by simp only [decide_eq_true_eq]; omega)
  have hwalk : walkShortcut net state (net.tree.parent b) target =
      ((net.tree.above s (net.tree.parent b)).filter fun c => net.score c ≤ target).getLastD s := by
    rw [← hfilter, ← hs]
    unfold walkShortcut
    cases state.metadata.lookup (net.tree.parent b) <;> rfl
  rw [hwalk]
  by_cases hle : net.score s ≤ target
  · left
    rw [shortcutBlock_of_ne hroot hscore]
    exact (hnet.getLastD_filter_path hmem hle _).symm
  · -- The walk starts too high, and stays there.
    have hstay :
      (net.tree.above s (net.tree.parent b)).filter (fun c => net.score c ≤ target) = [] := by
      refine filter_eq_nil_iff.mpr fun c hc hlow => hle ?_
      have hsc := hnet.score_le (mem_path_of_mem_above hmem hc)
      exact hsc.trans (of_decide_eq_true hlow)
    rw [hstay, getLastD_nil]
    have hmem' : s ∈ net.tree.path b := (mem_path_of_ne hroot).mpr (.inl hmem)
    have hlow := hnet.shortcutBlock_mem_path_of_lt hmem' (not_le.mp hle)
    rcases hshortcut with rfl | ⟨-, hinactive, -⟩
    · -- Only the root can be too high.
      left
      have hlt : net.score (net.tree.parent b) < net.score b := hnet.score_parent b hroot
      have heq : shortcutBlock net (net.tree.parent b) = net.tree.root :=
        (shortcutBlock_low net _).resolve_right fun hlow => hle (by omega)
      rw [heq, path_root] at hlow
      rw [heq, mem_singleton.mp hlow]
    · exact .inr ⟨hmem', hinactive, hlow⟩

theorem Tracks.coinbase_eq (hscore : ¬net.score b < net.finality_depth + 1) {v : Version B D}
    (hv : state.stores.lane_version.getAtCanonical (net.hashing.laneKey net.coinbase_lane)
      (net.score b - net.finality_depth - 1) 0 (net.isSmtCanonical (net.tree.parent b)) = some v)
    (hblock : v.block ≠ net.zero_hash) : v.block = shortcutBlock net b := by
  obtain ⟨hon, -, hlow, hnewest⟩ := VersionStore.of_getAtCanonical hv
  have hmem : (⟨net.hashing.laneKey net.coinbase_lane, v.score, v.block⟩ : VersionKey Key B) ∈
      state.stores.lane_version := AList.mem_of_lookup hon.1
  obtain ⟨hdone, hvscore⟩ :=
    (h.lanes.placed _ hmem).resolve_right fun himported => hblock himported.1
  have hpath : v.block ∈ net.tree.path (net.tree.parent b) :=
    (isSmtCanonical_iff.mp hon.2).resolve_left hblock
  have hvscore : v.score = net.score v.block := hvscore
  rw [shortcutBlock_of_ne hroot hscore,
    hnet.getLastD_filter_path hpath (hvscore ▸ hlow) net.tree.root]
  -- No block above it is low enough, since it would have a newer version.
  have hnone : (net.tree.above v.block (net.tree.parent b)).filter
      (fun c => net.score c ≤ net.score b - net.finality_depth - 1) = [] := by
    refine filter_eq_nil_iff.mpr fun c hc hlow' => ?_
    have hlow' := of_decide_eq_true hlow'
    obtain ⟨hcpath, hcnot⟩ := (mem_above_iff hpath).mp hc
    have hvc : v.block ∈ net.tree.path c := mem_path_of_mem_above hpath hc
    have hlt : net.score v.block < net.score c :=
      hnet.score_lt hvc fun heq => hcnot (heq ▸ self_mem_path _)
    have hcdone : c ∈ done := by
      refine (h.region.mem_path hparent hcpath).resolve_left fun hbase => ?_
      have hle := hnet.score_le hbase
      have hgt : net.score base < net.score v.block := h.region.score_lt hnet hdone
      omega
    have hvactive := h.active _ hmem hdone
    have hrow := h.coinbase c hcdone (hnet.toccataActive_of_mem hvc hvactive)
    obtain ⟨tip, htip⟩ := AList.mem_iff_lookup.mp hrow
    have hle := hnewest ⟨net.score c, c, tip⟩ ⟨htip, isSmtCanonical_iff.mpr (.inr hcpath)⟩ hlow'
    dsimp only at hle
    omega
  rw [hnone, getLastD_nil]

theorem Tracks.isShortcut_compute :
    IsShortcut net b
    (computeInactivityShortcutBlock net state (net.tree.parent b) (net.score b)) := by
  unfold computeInactivityShortcutBlock
  by_cases hscore : net.score b < net.finality_depth + 1
  · left
    rw [if_pos hscore, shortcutBlock, if_pos hscore]
  · rw [if_neg hscore]
    unfold SmtStores.getLane
    dsimp only
    rw [h.lanes.read_eq hnet h.region]
    cases hv : state.stores.lane_version.getAtCanonical (net.hashing.laneKey net.coinbase_lane)
        (net.score b - net.finality_depth - 1) 0 (net.isSmtCanonical (net.tree.parent b)) with
    | none => exact h.walkShortcut_isShortcut hnet hroot hparent hscore
    | some v =>
      dsimp only
      split_ifs with hblock
      · exact .inl (h.coinbase_eq hnet hroot hparent hscore hv hblock)
      · exact h.walkShortcut_isShortcut hnet hroot hparent hscore

end

section

variable (hnet : net.Ordered) (h : Tracks net base done state) {b : B} (hb : Next net base done b)

include h hb

include hnet in
theorem Tracks.commit {build : SmtBuild B D} (hactive : net.toccataActive b = true)
    (hscore : build.lane_changes.blue_score = net.score b)
    (hcoinbase : net.hashing.laneKey net.coinbase_lane ∈ build.lane_changes.updated.map Prod.fst)
    (hshortcut : IsShortcut net b build.inactivity_shortcut_block) :
    Tracks net base (b :: done) (commitSmtBuild net state b build) := by
  have hlanes : (commitSmtBuild net state b build).stores.lane_version =
      state.stores.lane_version.putAll (net.score b) b build.lane_changes.updated := by
    rw [← hscore]
    rfl
  refine ⟨h.region.cons hb, h.zero_not_mem, ?_, fun k hk hdone => ?_, fun c hc hc' => ?_,
    fun c hc => ?_,
    fun c hc => ?_⟩
  · have hrows := h.lanes.flush hnet h.region hb build.lane_changes.updated_nodup
    rw [← hscore] at hrows
    exact hrows
  · rw [hlanes, VersionStore.mem_putAll] at hk
    rcases hk with ⟨-, hblock, -⟩ | hk
    · rw [hblock]
      exact hactive
    · refine h.active k hk ((mem_cons.mp hdone).resolve_left (h.lanes.fresh hb k hk))
  · rw [hlanes, VersionStore.mem_putAll]
    rcases mem_cons.mp hc with rfl | hc
    · exact .inl ⟨rfl, rfl, hcoinbase⟩
    · exact .inr (h.coinbase c hc hc')
  · by_cases heq : c = b
    · subst heq
      unfold commitSmtBuild
      rw [AList.lookup_insert]
      exact hshortcut
    · unfold commitSmtBuild
      rw [AList.lookup_insert_ne heq]
      exact h.shortcut c (hc.imp_right fun hmem => (mem_cons.mp hmem).resolve_left heq)
  · rcases (AList.mem_insert _).mp hc with rfl | hc
    · exact .inl hactive
    · exact h.recorded c hc

theorem Tracks.skip (hinactive : net.toccataActive b = false) :
    Tracks net base (b :: done) state := by
  have hnone : state.metadata.lookup b = none := AList.lookup_eq_none.mpr fun hmem => by
    rcases h.recorded b hmem with hactive | heq
    · rw [hactive] at hinactive
      cases hinactive
    · exact hb.ne_base heq
  refine ⟨h.region.cons hb, h.zero_not_mem, h.lanes.mono b, fun k hk hdone => ?_,
    fun c hc hactive => ?_,
    fun c hc => ?_, h.recorded⟩
  · exact h.active k hk ((mem_cons.mp hdone).resolve_left (h.lanes.fresh hb k hk))
  · rcases mem_cons.mp hc with rfl | hc
    · rw [hinactive] at hactive
      cases hactive
    · exact h.coinbase c hc hactive
  · by_cases heq : c = b
    · rw [heq, hnone]
      exact .inr ⟨self_mem_path b, hinactive, shortcutBlock_mem b⟩
    · exact h.shortcut c (hc.imp_right fun hmem => (mem_cons.mp hmem).resolve_left heq)

end

/-- The two ways to find the shortcut of a block, processed or next, lead to the same value. -/
theorem Tracks.exists_shortcut (hnet : net.Ordered) (h : Tracks net base done state) {b : B}
    (hb : b ∈ done ∨ Next net base done b) : ∃ value, inactivityShortcut net
        (computeInactivityShortcutBlock net state (net.tree.parent b) (net.score b)) = .ok value ∧
      inactivityShortcut net (inactivityShortcutBlockForPov net b) = .ok value := by
  obtain ⟨hroot, hparent, hzero⟩ : b ≠ net.tree.root ∧
      (net.tree.parent b = base ∨ net.tree.parent b ∈ done) ∧ net.zero_hash ∉ net.tree.path b := by
    rcases hb with hb | hb
    · obtain ⟨hroot, -, -, hparent⟩ := h.region.next hb
      exact ⟨hroot, hparent, h.region.zero_not_mem h.zero_not_mem (.inr hb)⟩
    · exact ⟨hb.ne_root, hb.parent,
        (h.region.cons hb).zero_not_mem h.zero_not_mem (.inr mem_cons_self)⟩
  have hne : shortcutBlock net b ≠ net.zero_hash := fun heq => hzero (heq ▸ shortcutBlock_mem b)
  obtain ⟨value, hvalue⟩ := exists_inactivityShortcut hne
  refine ⟨value, ?_, ?_⟩
  · rw [(h.isShortcut_compute hnet hroot hparent).inactivityShortcut_eq hnet hzero, hvalue]
  · rw [(hnet.isShortcut_forPov b).inactivityShortcut_eq hnet hzero, hvalue]

/-! ## Runs -/

/-- The runs of a node: a block from before the activation writes nothing, and each other one
touches the coinbase lane at its own score and records the shortcut block that is computed for it.
-/
inductive Records (net : Network L B D) (base : B) (init : SmtState B D) :
    List B → SmtState B D → Prop
  | init : Records net base init [] init
  | skip {done : List B} {state : SmtState B D} {b : B} : Records net base init done state →
      Next net base done b → net.toccataActive b = false → Records net base init (b :: done) state
  | commit {done : List B} {state : SmtState B D} {b : B} {build : SmtBuild B D} :
      Records net base init done state → Next net base done b → net.toccataActive b = true →
      build.lane_changes.blue_score = net.score b →
      net.hashing.laneKey net.coinbase_lane ∈ build.lane_changes.updated.map Prod.fst →
      build.inactivity_shortcut_block =
        computeInactivityShortcutBlock net state (net.tree.parent b) (net.score b) →
      Records net base init (b :: done) (commitSmtBuild net state b build)

theorem Records.tracks (hnet : net.Ordered) {init : SmtState B D} (hinit : Tracks net base [] init)
    (h : Records net base init done state) : Tracks net base done state := by
  induction h with
  | init => exact hinit
  | skip _ hb hinactive ih => exact ih.skip hb hinactive
  | commit _ hb hactive hscore hcoinbase hshortcut ih =>
    refine ih.commit hnet hb hactive hscore hcoinbase ?_
    rw [hshortcut]
    exact ih.isShortcut_compute hnet hb.ne_root hb.parent

/-- A node without rows, or with imported ones only, and with the metadata of its base. -/
theorem tracks_init {init : SmtState B D} {cached : ℕ} (hzero : net.zero_hash ∉ net.tree.path base)
    (hrows : ∀ k ∈ init.stores.lane_version, k.block = net.zero_hash ∧ k.score ≤ net.score base)
    (hcache : init.stores.lane_cache = ⟨∅, cached⟩)
    (hshortcut : IsShortcut net base
      (((init.metadata.lookup base).map SmtBlockMetadata.inactivity_shortcut_block).getD base))
    (hrecorded : ∀ b ∈ init.metadata, b = base) : Tracks net base [] init := by
  refine ⟨.nil, hzero, ?_, fun k _ hk => absurd hk not_mem_nil,
    fun b hb => absurd hb not_mem_nil, fun b hb => ?_, fun b hb => .inr (hrecorded b hb)⟩
  · rw [hcache]
    exact .of_not_cached (fun k hk => .inr (hrows k hk)) cached
  · rw [hb.resolve_right not_mem_nil]
    exact hshortcut

end Network

end Zkas.Smt
