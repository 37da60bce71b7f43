import Zkas.Smt.Commitment
import Zkas.Smt.Export

/-!
# A node that imports

A node that imports the lanes of a block has a state as if it had started there (`Imported.inv`):
the imported rows are older than all that comes. So the blocks above get the same commitments on it
as on the node that it imports from, which has different rows. -/

namespace Zkas.Smt

open BitPath SparseTree List Option Except AList VersionStore

namespace Network

variable {L B D : Type} {net : Network L B D} {pp : B}

/-! ## The exported lanes -/

section

variable [DecidableEq D] {lanes : List (ImportLane D)} (h : Exported net pp lanes)
include h

theorem Exported.leaves_eq :
    lanes.map (ImportLane.leaf net.hashing.smtLeafHash) = net.activeLanes pp := by
  have hsorted := h.ascending.leaves net.hashing.smtLeafHash
  have hsorted' := activeLanes_sorted net pp
  have hnodup {l : List (Key × D × ℕ)} (hl : l.Pairwise fun x y => x.1 < y.1) : l.Nodup :=
    hl.imp fun hlt heq => hlt.ne (congrArg Prod.fst heq)
  have hperm : (lanes.map (ImportLane.leaf net.hashing.smtLeafHash)).Perm (net.activeLanes pp) := by
    rw [perm_ext_iff_of_nodup (hnodup hsorted) (hnodup hsorted')]
    rintro ⟨k, leaf, s⟩
    rw [mem_activeLanes, List.mem_map]
    constructor
    · rintro ⟨lane, hlane, heq⟩
      obtain ⟨rfl, hrest⟩ := Prod.mk.inj heq
      obtain ⟨rfl, rfl⟩ := Prod.mk.inj hrest
      exact ⟨lane.lane_tip, (h.mem_iff _ _ _).mp ⟨lane, hlane, rfl⟩, rfl⟩
    · rintro ⟨tip, htip, rfl⟩
      obtain ⟨lane, hlane, heq⟩ := (h.mem_iff _ _ _).mpr htip
      obtain ⟨rfl, hrest⟩ := Prod.mk.inj heq
      obtain ⟨rfl, rfl⟩ := Prod.mk.inj hrest
      exact ⟨lane, hlane, rfl⟩
  exact hperm.eq_of_pairwise (fun x y _ _ hlt hgt => absurd hlt (lt_asymm hgt)) hsorted hsorted'

theorem Exported.length_eq : lanes.length = (net.activeKeys pp).length := by
  rw [← activeLanes_map_fst, length_map, ← h.leaves_eq, length_map]

theorem Exported.activeAt {lane : ImportLane D} (hlane : lane ∈ lanes) :
    net.activeAt pp lane.lane_key = some (lane.lane_tip, lane.blue_score) :=
  (h.mem_iff _ _ _).mp ⟨lane, hlane, rfl⟩

end

/-! ## The imported rows -/

/-- The leaves in the window of a block, with their scores. -/
def scoredLeaves (net : Network L B D) (pp : B) : Key → Option (D × ℕ) :=
  fun k => (net.activeAt pp k).map fun v => (net.leafOf v, v.2)

theorem leafMap_scoredLeaves : leafMap (net.scoredLeaves pp) = net.leavesAt pp := by
  rw [← leafMap_activeLanes, laneMap_activeLanes]
  rfl

theorem activeMin_le_of_isMaxScore {d s : ℕ} {x : Key}
    (h : IsMaxScore (net.scoredLeaves pp) d x s) :
    net.activeMin pp ≤ s := by
  obtain ⟨y, v, -, hv, rfl⟩ := h.attained
  obtain ⟨w, hw, rfl⟩ := map_eq_some_iff.mp hv
  exact (activeAt_eq_some.mp hw).2

theorem Lawful.score_le_of_isMaxScore (hnet : net.Lawful) {d s : ℕ} {x : Key}
    (h : IsMaxScore (net.scoredLeaves pp) d x s) : s ≤ net.score pp := by
  obtain ⟨y, v, -, hv, rfl⟩ := h.attained
  obtain ⟨w, hw, rfl⟩ := map_eq_some_iff.mp hv
  exact hnet.score_le_of_lanesAt (v := w) (activeAt_eq_some.mp hw).1

theorem Lawful.exists_isMaxScore (hnet : net.Lawful) {d : ℕ} {x y : Key} (hy : Agree d x y)
    (hleaf : net.leavesAt pp y ≠ none) : ∃ s, IsMaxScore (net.scoredLeaves pp) d x s := by
  set scores : Set ℕ :=
    {s | ∃ y v, Agree d x y ∧ net.scoredLeaves pp y = some v ∧ v.2 = s} with hscores
  have hne : scores.Nonempty := by
    obtain ⟨leaf, hleaf⟩ := ne_none_iff_exists'.mp hleaf
    obtain ⟨w, hw, -⟩ := leavesAt_eq_some.mp hleaf
    exact ⟨w.2, y, (net.leafOf w, w.2), hy, by rw [scoredLeaves, hw]; rfl, rfl⟩
  have hbound : BddAbove scores := by
    refine ⟨net.score pp, ?_⟩
    rintro s ⟨y, v, -, hv, rfl⟩
    obtain ⟨w, hw, rfl⟩ := map_eq_some_iff.mp hv
    exact hnet.score_le_of_lanesAt (v := w) (activeAt_eq_some.mp hw).1
  exact ⟨sSup scores, Nat.sSup_mem hne hbound, fun y v hy hv => le_csSup hbound ⟨y, v, hy, hv, rfl⟩⟩

theorem mem_subtreeWrites_root {H : SmtHasher D} {fed : Key → Option (D × ℕ)} {d s : ℕ} {x : Key}
    {node : Node D} (hd : d < 256) : (BranchKey.new d x, node, s) ∈ subtreeWrites H fed 0 0 ↔
      stored H (leafMap fed) x 0 d = some node ∧ IsMaxScore fed d x s := by
  constructor
  · rintro ⟨d', x', -, hd', -, hbk, hstored, hscore⟩
    obtain rfl : d = d' := congrArg BranchKey.depth hbk
    have hagree := (BranchKey.new_eq_iff hd.le).mp hbk
    refine ⟨?_, hscore.congr hagree.symm fun _ _ => rfl⟩
    rw [← hstored]
    rw [← zero_add d] at hagree
    exact stored_agree (by omega) hagree
  · rintro ⟨hstored, hscore⟩
    exact ⟨d, x, Nat.zero_le d, hd, agree_zero 0 x, rfl, hstored, hscore⟩

section

variable [LinearOrder B] [DecidableEq D] {lanes : List (ImportLane D)} {stores : SmtStores B D}

/-- The imported nodes are those of the tree of the block, each with the highest score below it. -/
theorem Exported.mem_branch (hexported : Exported net pp lanes)
    (h : Imported net.hashing.activeNode net.hashing.smtLeafHash net.zero_hash lanes stores)
    {d : ℕ} (hd : d < 256) {x : Key} {s : ℕ} {block : B} {value : Option (Node D)} :
    stores.branch_version.lookup ⟨.new d x, s, block⟩ = some value ↔ block = net.zero_hash ∧
      ∃ node, value = some node ∧
        stored net.hashing.activeNode (net.leavesAt pp) x 0 d = some node ∧
        IsMaxScore (net.scoredLeaves pp) d x s := by
  have hfed : StreamingSmtBuilder.laneMap (lanes.map (ImportLane.leaf net.hashing.smtLeafHash)) =
      net.scoredLeaves pp := by
    rw [hexported.leaves_eq, laneMap_activeLanes]
    rfl
  have hwritten := h.written
  have hpresent := h.present
  rw [hfed] at hwritten hpresent
  have hof {value : Option (Node D)}
      (hrow : stores.branch_version.lookup ⟨.new d x, s, block⟩ = some value) :
      block = net.zero_hash ∧ ∃ node, value = some node ∧
        stored net.hashing.activeNode (net.leavesAt pp) x 0 d = some node ∧
        IsMaxScore (net.scoredLeaves pp) d x s := by
    obtain ⟨hblock, node, hvalue, hmem⟩ := hwritten _ _ hrow
    rw [mem_subtreeWrites_root hd, leafMap_scoredLeaves] at hmem
    exact ⟨hblock, node, hvalue, hmem⟩
  constructor
  · exact hof
  · rintro ⟨rfl, node, rfl, hnode⟩
    have hmem :
      (⟨.new d x, s, net.zero_hash⟩ : VersionKey BranchKey B) ∈ stores.branch_version := by
      refine hpresent (.new d x, node, s) ((mem_subtreeWrites_root hd).mpr ?_)
      rwa [leafMap_scoredLeaves]
    obtain ⟨value, hvalue⟩ := mem_iff_lookup.mp hmem
    obtain ⟨-, node', rfl, hnode', -⟩ := hof hvalue
    rw [hvalue, ← hnode.1, hnode']

variable (hnet : net.Lawful) (hexported : Exported net pp lanes)
  (h : Imported net.hashing.activeNode net.hashing.smtLeafHash net.zero_hash lanes stores)

include hnet hexported h

theorem Exported.placed_branch {key : VersionKey BranchKey B} (hkey : key ∈ stores.branch_version) :
    Placed net pp [] key := by
  obtain ⟨value, hvalue⟩ := mem_iff_lookup.mp hkey
  obtain ⟨hblock, node, -, hmem⟩ := h.written _ _ hvalue
  obtain ⟨d, x, -, -, -, -, -, hscore⟩ := hmem
  have hfed : StreamingSmtBuilder.laneMap (lanes.map (ImportLane.leaf net.hashing.smtLeafHash)) =
      net.scoredLeaves pp := by
    rw [hexported.leaves_eq, laneMap_activeLanes]
    rfl
  rw [hfed] at hscore
  exact .inr ⟨hblock, hnet.score_le_of_isMaxScore hscore⟩

theorem Exported.placed_lane {key : VersionKey Key B} (hkey : key ∈ stores.lane_version) :
    Placed net pp [] key := by
  obtain ⟨tip, htip⟩ := mem_iff_lookup.mp hkey
  obtain ⟨hblock, lane, hlane, -, hscore, -⟩ := (h.rows key tip).mp htip
  refine .inr ⟨hblock, ?_⟩
  rw [← hscore]
  exact hnet.score_le_of_lanesAt (activeAt_eq_some.mp (hexported.activeAt hlane)).1

theorem Exported.latest_branch {d : ℕ} (hd : d < 256) {x : Key} {v : Version B (Option (Node D))} :
    latest net stores.branch_version pp (.new d x) = some v ↔ v.block = net.zero_hash ∧
      ∃ node, v.value = some node ∧
        stored net.hashing.activeNode (net.leavesAt pp) x 0 d = some node ∧
        IsMaxScore (net.scoredLeaves pp) d x v.score := by
  have hplaced : ∀ key ∈ stores.branch_version, Placed net pp [] key :=
    fun key hkey => hexported.placed_branch hnet h hkey
  have hsingle := singleScores hnet.toOrdered .nil hplaced pp
  unfold latest
  rw [getAtCanonical_eq_some_iff hsingle]
  unfold OnChain
  simp only [hexported.mem_branch h hd]
  constructor
  · rintro ⟨⟨hrow, -⟩, -⟩
    exact hrow
  · intro hrow
    obtain ⟨hblock, node, hvalue, hnode, hscore⟩ := hrow
    refine ⟨⟨⟨hblock, node, hvalue, hnode, hscore⟩, isSmtCanonical_iff.mpr (.inl hblock)⟩,
      Nat.zero_le _, hnet.score_le_of_isMaxScore hscore, fun v' hv' _ => ?_⟩
    obtain ⟨⟨-, node', -, -, hscore'⟩, -⟩ := hv'
    exact (hscore'.unique hscore).le

theorem Exported.latest_lane (k : Key) :
    (latest net stores.lane_version pp k).map (fun v => (v.value, v.score)) =
      net.activeAt pp k := by
  have hplaced : ∀ key ∈ stores.lane_version, Placed net pp [] key :=
    fun key hkey => hexported.placed_lane hnet h hkey
  have hsingle := singleScores hnet.toOrdered .nil hplaced pp
  have hrow (v : Version B D) : OnChain stores.lane_version (net.isSmtCanonical pp) k v ↔
      v.block = net.zero_hash ∧ net.activeAt pp k = some (v.value, v.score) := by
    unfold OnChain
    rw [h.rows, ← hexported.mem_iff]
    constructor
    · rintro ⟨⟨hblock, lane, hlane, hkey, hscore, htip⟩, -⟩
      exact ⟨hblock, lane, hlane, Prod.ext hkey (Prod.ext htip hscore)⟩
    · rintro ⟨hblock, lane, hlane, heq⟩
      obtain ⟨hkey, hrest⟩ := Prod.mk.inj heq
      obtain ⟨htip, hscore⟩ := Prod.mk.inj hrest
      exact ⟨⟨hblock, lane, hlane, hkey, hscore, htip⟩, isSmtCanonical_iff.mpr (.inl hblock)⟩
  apply Option.ext
  rintro ⟨tip, s⟩
  rw [map_eq_some_iff]
  constructor
  · rintro ⟨v, hv, heq⟩
    obtain ⟨rfl, rfl⟩ := Prod.mk.inj heq
    exact ((hrow v).mp (of_getAtCanonical hv).1).2
  · intro hactive
    refine ⟨⟨s, net.zero_hash, tip⟩, ?_, rfl⟩
    unfold latest
    rw [getAtCanonical_eq_some_iff hsingle]
    refine ⟨(hrow _).mpr ⟨rfl, hactive⟩, Nat.zero_le _,
      hnet.score_le_of_lanesAt (activeAt_eq_some.mp hactive).1, fun v' hv' _ => ?_⟩
    have hsame := ((hrow v').mp hv').2
    rw [hactive] at hsame
    exact (Prod.mk.inj (some.inj hsame)).2.ge

theorem Exported.holds : Holds net stores (net.activeMin pp) pp := by
  have hlatest {d : ℕ} (hd : d < 256) {x : Key} {v : Version B (Option (Node D))} :=
    hexported.latest_branch hnet h hd (x := x) (v := v)
  refine ⟨le_rfl, hexported.latest_lane hnet h, fun d x hd => ?_, fun d x v hd hv _ k w hk hw => ?_,
    fun d x v v' hd hv _ hv' => ?_, fun k w hw hfloor => ?_,
    fun s block batch_id max_depth keys hlookup _ k hk => ?_⟩
  · cases hstored : stored net.hashing.activeNode (net.leavesAt pp) x 0 d with
    | none =>
      cases hv : latest net stores.branch_version pp (.new d x) with
      | none => rfl
      | some v =>
        obtain ⟨-, node, -, hnode, -⟩ := (hlatest hd).mp hv
        rw [hstored] at hnode
        cases hnode
    | some node =>
      obtain ⟨y, hy, hleaf⟩ :=
        exists_leaf_of_stored (d := 0) (n := d) (by omega) (by rw [hstored]; simp)
      rw [zero_add] at hy
      obtain ⟨s, hs⟩ := hnet.exists_isMaxScore hy hleaf
      have hv := (hlatest hd (v := ⟨s, net.zero_hash, some node⟩)).mpr ⟨rfl, node, rfl, hstored, hs⟩
      rw [hv]
      simp [Option.filter, activeMin_le_of_isMaxScore hs]
  · obtain ⟨-, node, -, -, hscore⟩ := (hlatest hd).mp hv
    exact hscore.le k (net.leafOf w, w.2) hk (by rw [scoredLeaves, hw]; rfl)
  · obtain ⟨-, node, -, -, hscore⟩ := (hlatest hd).mp hv
    obtain ⟨-, node', -, -, hscore'⟩ := (hlatest (by omega)).mp hv'
    obtain ⟨y, u, hy, hu, hs⟩ := hscore.attained
    rw [← hs]
    exact hscore'.le y u (hy.mono (Nat.le_succ d)) hu
  · obtain ⟨lane, hlane, heq⟩ :=
      (hexported.mem_iff k w.1 w.2).mpr (activeAt_eq_some.mpr ⟨hw, hfloor⟩)
    obtain ⟨rfl, hrest⟩ := Prod.mk.inj heq
    obtain ⟨-, hscore⟩ := Prod.mk.inj hrest
    obtain ⟨i, max_depth, keys, hlookup, hmem⟩ := h.listed lane hlane
    rw [hscore] at hlookup
    exact ⟨net.zero_hash, some i, max_depth, keys, hlookup, isSmtCanonical_iff.mpr (.inl rfl), hmem⟩
  · obtain ⟨-, hkeys⟩ := h.entries _ _ hlookup
    obtain ⟨lane, hlane, rfl, rfl⟩ := hkeys k hk
    exact ⟨_, (activeAt_eq_some.mp (hexported.activeAt hlane)).1, le_rfl⟩

/-- The state after an import is as if the node had started at the block. -/
theorem Exported.inv {branch_capacity lane_capacity : ℕ}
    (hbranch : stores.branch_cache = ⟨∅, branch_capacity⟩)
    (hlane : stores.lane_cache = ⟨∅, lane_capacity⟩) (hzero : net.zero_hash ∉ net.tree.path pp)
    (hactive : net.toccataActive pp = true) {row : SmtBlockMetadata B D}
    (hcount : row.active_lanes_count = lanes.length)
    (hshortcut : IsShortcut net pp row.inactivity_shortcut_block) :
    Inv net pp (net.activeMin pp) [] ⟨stores, insert pp row ∅⟩ := by
  have honly {b : B} (hb : b = pp ∨ b ∈ []) : b = pp := hb.resolve_right not_mem_nil
  have hrow : (insert pp row (∅ : AList fun _ : B => SmtBlockMetadata B D)).lookup pp = some row :=
    lookup_insert _
  refine ⟨.nil, hzero, ?_, ?_, fun key hkey => ?_, fun b hb => ?_,
    fun b hb => absurd hb not_mem_nil, fun b hb => ?_, fun b hb => ?_, fun b hb => ?_⟩
  · dsimp only
    rw [hbranch]
    exact .of_not_cached (fun key hkey => hexported.placed_branch hnet h hkey) _
  · dsimp only
    rw [hlane]
    exact .of_not_cached (fun key hkey => hexported.placed_lane hnet h hkey) _
  · obtain ⟨value, hvalue⟩ := mem_iff_lookup.mp hkey
    exact .inr (h.entries key value hvalue).1
  · rw [honly hb]
    exact hexported.holds hnet h
  · rw [honly hb, hrow, ← hexported.length_eq, ← hcount]
    rfl
  · rw [honly hb, hrow]
    exact hshortcut
  · rcases (mem_insert _).mp hb with rfl | hb
    · exact hactive
    · exact absurd hb (notMem_empty b)

end

section

variable [LinearOrder B] [DecidableEq D]

theorem Exported.importPruningPointSmt_eq (hnet : net.Lawful) {chunks : List (List (ImportLane D))}
    (hexported : Exported net pp chunks.flatten) (hzero : net.zero_hash ∉ net.tree.path pp)
    (hactive : net.toccataActive pp = true) {metadata : SmtExportMetadata D}
    (hroot : metadata.lanes_root = root net.hashing.activeNode (net.leavesAt pp))
    (hcount : metadata.active_lanes_count = (net.activeKeys pp).length)
      (branch_cache lane_cache : ℕ) :
    ∃ result state, importPruningPointSmt net ⟨.new branch_cache lane_cache, ∅⟩ pp metadata
        (inactivityShortcutBlockForPov net pp) chunks = .ok (result, state) ∧
      result.root = root net.hashing.activeNode (net.leavesAt pp) ∧
      Inv net pp (net.activeMin pp) [] state := by
  obtain ⟨result, stores, hok, hresult, himported, hstores, hbranch, hlane⟩ :=
    streamingImport_eq hexported.ascending hexported.proofs net.zero_hash branch_cache lane_cache
  rw [hexported.leaves_eq, leafMap_activeLanes] at hresult
  have hlength : chunks.flatten.length = metadata.active_lanes_count := by
    rw [hcount, hexported.length_eq]
  rw [← hroot, hlength] at hok
  refine ⟨result, ⟨stores, insert pp ⟨metadata.payload_and_ctx_digest,
    inactivityShortcutBlockForPov net pp, metadata.active_lanes_count⟩ ∅⟩, ?_, hresult,
    hexported.inv hnet hstores hbranch hlane hzero hactive hlength.symm (hnet.isShortcut_forPov pp)⟩
  unfold importPruningPointSmt
  rw [hok]
  change (if result.root ≠ metadata.lanes_root then _ else _) = _
  rw [if_neg (not_not_intro (hresult.trans hroot.symm)),
    if_neg (not_not_intro (himported.trans hlength))]
  rfl

theorem Inv.exportMetadata_eq {base : B} {floor : ℕ} {done : List B} {state : SmtState B D}
    (hnet : net.Lawful) (hinv : Inv net base floor done state) (hpp : pp ∈ done)
    (hactive : net.toccataActive pp = true) :
    ∃ metadata, exportMetadata net state pp = some metadata ∧
      metadata.lanes_root = root net.hashing.activeNode (net.leavesAt pp) ∧
      metadata.active_lanes_count = (net.activeKeys pp).length := by
  have hne := (hinv.region.next hpp).1
  -- The block touches the coinbase lane, so its lanes were counted.
  obtain ⟨tip, htip⟩ := lanesAt_of_mem hne (hnet.coinbase_mem hactive)
  have hkey : net.hashing.laneKey net.coinbase_lane ∈ net.activeKeys pp := by
    rw [mem_activeKeys, activeAt_eq_some.mpr ⟨htip, Nat.sub_le _ _⟩]
    exact some_ne_none _
  have hcount := hinv.count pp (.inr hpp)
  cases hmd : state.metadata.lookup pp with
  | none =>
    rw [hmd] at hcount
    have := length_pos_of_mem hkey
    simp at hcount
    omega
  | some md =>
    rw [hmd] at hcount
    refine ⟨⟨_, md.payload_and_ctx_digest, md.active_lanes_count⟩, ?_,
      hinv.getLanesRoot_eq hnet (.inr hpp), hcount⟩
    unfold exportMetadata
    rw [if_neg hne, hmd]
    rfl

/-- What is built for a block: the lanes root, the number of lanes, and the inactivity shortcut. -/
def commitment (net : Network L B D) (build : SmtBuild B D) : D × ℕ × Except (Fault Empty) D :=
  (build.root, build.active_lanes_count, inactivityShortcut net build.inactivity_shortcut_block)

omit [DecidableEq D] in
theorem Commits.commitment_eq (hnet : net.Lawful) {b : B} (hzero : net.zero_hash ∉ net.tree.path b)
    {build build' : SmtBuild B D} (h : Commits net b build) (h' : Commits net b build') :
    net.commitment build = net.commitment build' := by
  unfold commitment
  rw [h.root, h.count, h.shortcut.inactivityShortcut_eq hnet.toOrdered hzero, h'.root, h'.count,
    h'.shortcut.inactivityShortcut_eq hnet.toOrdered hzero]

omit [DecidableEq D] in
theorem Builds.commitment_eq (hnet : net.Lawful) {blocks blocks' : List B}
    {builds builds' : List (B × Option (SmtBuild B D))} (h : Builds net blocks builds)
    (h' : Builds net blocks' builds') {r r' : B × Option (SmtBuild B D)} (hr : r ∈ builds)
    (hr' : r' ∈ builds') (hzero : net.zero_hash ∉ net.tree.path r.1) (heq : r.1 = r'.1) :
    r.2.map net.commitment = r'.2.map net.commitment := by
  have hsome : r.2.isSome = r'.2.isSome := by rw [h.active r hr, h'.active r' hr', heq]
  cases hbuild : r.2 with
  | none =>
    rw [hbuild] at hsome
    rw [isSome_eq_false_iff.mp hsome.symm |> isNone_iff_eq_none.mp]
  | some build =>
    rw [hbuild] at hsome
    obtain ⟨build', hbuild'⟩ := isSome_iff_exists.mp hsome.symm
    have hcommits := h.commits r hr build hbuild
    have hcommits' := h'.commits r' hr' build' hbuild'
    rw [hbuild', map_some, map_some, hcommits.commitment_eq hnet hzero (heq ▸ hcommits')]

/-- A node processes blocks, exports the lanes of one of them and goes on. Another node, with empty
stores, imports what was exported, in any chunks, and processes blocks above. The import computes
the lanes root of the block, and every later block gets the same lanes root, number of lanes and
inactivity shortcut on both nodes. -/
theorem import_agrees (hnet : net.Lawful) (hroot : net.tree.root ≠ net.zero_hash)
    {before after later : List B} (hbefore : Follows net net.tree.root [] before)
    (hafter : Follows net net.tree.root before.reverse after) (hpp : pp ∈ before)
    (hactive : net.toccataActive pp = true) (hlater : Follows net pp [] later)
    (branch_cache lane_cache branch_cache' lane_cache' : ℕ) :
    ∃ builds state builds₁ state₁ metadata lanes,
      processBlocks net ⟨.new branch_cache lane_cache, ∅⟩ before = .ok (builds, state) ∧
      processBlocks net state after = .ok (builds₁, state₁) ∧
      exportMetadata net state pp = some metadata ∧ exportLanes net state.stores pp = .ok lanes ∧
      ∀ chunks : List (List (ImportLane D)), chunks.flatten = lanes →
        ∃ result state' builds' state₁',
          importPruningPointSmt net ⟨.new branch_cache' lane_cache', ∅⟩ pp metadata
            (inactivityShortcutBlockForPov net pp) chunks = .ok (result, state') ∧
          (∃ build, (pp, some build) ∈ builds ∧ result.root = build.root) ∧
          processBlocks net state' later = .ok (builds', state₁') ∧
          builds'.map Prod.fst = later ∧ (builds ++ builds₁).map Prod.fst = before ++ after ∧
          ∀ r ∈ builds ++ builds₁, ∀ r' ∈ builds', r.1 = r'.1 →
            r.2.map net.commitment = r'.2.map net.commitment := by
  -- The first node.
  obtain ⟨builds, state, hok, hbuilds, hinv, -⟩ :=
    (inv_new hroot branch_cache lane_cache).processBlocks_eq hnet hbefore
  rw [append_nil] at hinv
  obtain ⟨builds₁, state₁, hok₁, hbuilds₁, hinv₁, -⟩ := hinv.processBlocks_eq hnet hafter
  have hdone : pp ∈ before.reverse := mem_reverse.mpr hpp
  obtain ⟨metadata, hmetadata, hlanes_root, hcount⟩ := hinv.exportMetadata_eq hnet hdone hactive
  obtain ⟨lanes, hlanes, hexported⟩ := hinv.exportLanes_eq hnet (.inr hdone)
  refine ⟨builds, state, builds₁, state₁, metadata, lanes, hok, hok₁, hmetadata, hlanes,
    fun chunks hchunks => ?_⟩
  -- The second one.
  subst hchunks
  have hzero := hinv.region.zero_not_mem hinv.zero_not_mem (.inr hdone)
  obtain ⟨result, state', himport, hresult, hinv'⟩ := hexported.importPruningPointSmt_eq hnet hzero
    hactive hlanes_root hcount branch_cache' lane_cache'
  obtain ⟨builds', state₁', hok', hbuilds', -, -⟩ := hinv'.processBlocks_eq hnet hlater
  refine ⟨result, state', builds', state₁', himport, ?_, hok', hbuilds'.blocks, ?_,
    fun r hr r' hr' heq => ?_⟩
  · obtain ⟨⟨b, build⟩, hr, rfl⟩ : ∃ r ∈ builds, r.1 = pp := by
      rw [← hbuilds.blocks] at hpp
      exact mem_map.mp hpp
    obtain ⟨build, rfl⟩ := isSome_iff_exists.mp ((hbuilds.active _ hr).trans hactive)
    exact ⟨build, hr, hresult.trans (hbuilds.commits _ hr build rfl).root.symm⟩
  · rw [map_append, hbuilds.blocks, hbuilds₁.blocks]
  · have hmem : r.1 ∈ after.reverse ++ before.reverse := by
      rw [mem_append, mem_reverse, mem_reverse, ← hbuilds.blocks, ← hbuilds₁.blocks]
      exact (mem_append.mp hr).symm.imp mem_map_of_mem mem_map_of_mem
    have hzero' := hinv₁.region.zero_not_mem hinv₁.zero_not_mem (.inr hmem)
    rcases mem_append.mp hr with hr | hr
    · exact hbuilds.commitment_eq hnet hbuilds' hr hr' hzero' heq
    · exact hbuilds₁.commitment_eq hnet hbuilds' hr hr' hzero' heq

end

namespace Sample

/-- The lanes of block 4 are imported, with the second lane of block 2 among them. It expires on the
way to block 16. -/
theorem import_agrees_expired : ∃ builds state builds₁ state₁ metadata lanes,
      processBlocks network ⟨.new 4 4, ∅⟩ [2, 3, 4, 8] = .ok (builds, state) ∧
      processBlocks network state [16, 6] = .ok (builds₁, state₁) ∧
      exportMetadata network state 4 = some metadata ∧
      exportLanes network state.stores 4 = .ok lanes ∧
      ∀ chunks : List (List (ImportLane (Term 256))), chunks.flatten = lanes →
        ∃ result state' builds' state₁', importPruningPointSmt network ⟨.new 1 1, ∅⟩ 4 metadata
            (inactivityShortcutBlockForPov network 4) chunks = .ok (result, state') ∧
          (∃ build, (4, some build) ∈ builds ∧ result.root = build.root) ∧
          processBlocks network state' [8, 16] = .ok (builds', state₁') ∧
          builds'.map Prod.fst = [8, 16] ∧
          (builds ++ builds₁).map Prod.fst = [2, 3, 4, 8] ++ [16, 6] ∧
          ∀ r ∈ builds ++ builds₁, ∀ r' ∈ builds', r.1 = r'.1 →
            r.2.map network.commitment = r'.2.map network.commitment := by
  have next {base : ℕ} {done : List ℕ} {b : ℕ} (h : b ≠ 1 ∧ b ≠ 0 ∧ b ≠ base ∧ b ∉ done ∧
      (network.tree.parent b = base ∨ network.tree.parent b ∈ done)) : Next network base done b :=
    ⟨h.1, h.2.1, h.2.2.1, h.2.2.2.1, h.2.2.2.2⟩
  have hbefore : Follows network network.tree.root [] [2, 3, 4, 8] :=
    ⟨next (by decide), next (by decide), next (by decide), next (by decide), trivial⟩
  have hafter : Follows network network.tree.root [2, 3, 4, 8].reverse [16, 6] :=
    ⟨next (by decide), next (by decide), trivial⟩
  have hlater : Follows network 4 [] [8, 16] := ⟨next (by decide), next (by decide), trivial⟩
  exact import_agrees network_lawful (by decide) hbefore hafter (by decide)
    (by decide) hlater 4 4 1 1

end Sample

/-! ## The inactivity shortcut -/

section

variable [LinearOrder B] [DecidableEq D]

theorem lane_version_of_importChunk {st st' : ImportState B D} {chunk : List (ImportLane D)}
    {lanes_root : D} (hok : importChunk net.hashing.activeNode net.hashing.smtLeafHash net.zero_hash
      lanes_root st chunk = .ok st') {k : VersionKey Key B} (hk : k ∈ st'.lane_version) :
    k ∈ st.lane_version ∨ k.block = net.zero_hash ∧ ∃ lane ∈ chunk, lane.blue_score = k.score := by
  unfold importChunk at hok
  split_ifs at hok with hnil
  · exact .inl (ok.inj hok ▸ hk)
  · simp only [bind_eq_ok_iff] at hok
    obtain ⟨-, -, builder, -, heq⟩ := hok
    rw [← ok.inj heq] at hk
    clear hnil heq
    induction chunk generalizing st with
    | nil => exact .inl hk
    | cons lane chunk ih =>
      rcases @ih { st with lane_version := _ } hk with hmem | ⟨hblock, l, hl, hscore⟩
      · rcases (mem_insert _).mp hmem with rfl | hmem
        · exact .inr ⟨rfl, lane, mem_cons_self, rfl⟩
        · exact .inl hmem
      · exact .inr ⟨hblock, l, mem_cons_of_mem _ hl, hscore⟩

/-- What an import leaves: lane rows without a block, an empty cache, and the metadata of its block.
-/
theorem importPruningPointSmt_eq_ok {metadata : SmtExportMetadata D} {shortcut : B}
    {chunks : List (List (ImportLane D))} {branch_cache lane_cache : ℕ}
    {result : StreamingImportResult D} {state : SmtState B D}
    (hok : importPruningPointSmt net ⟨.new branch_cache lane_cache, ∅⟩ pp metadata shortcut chunks =
      .ok (result, state)) :
    (∀ k ∈ state.stores.lane_version, k.block = net.zero_hash ∧
        ∃ lane ∈ chunks.flatten, lane.blue_score = k.score) ∧
      state.stores.lane_cache = ⟨∅, lane_cache⟩ ∧
      ∃ row, state.metadata = insert pp row ∅ ∧ row.inactivity_shortcut_block = shortcut := by
  obtain ⟨⟨result', stores⟩, himport, hok⟩ := bind_eq_ok_iff.mp hok
  rw [mapError_eq_ok] at himport
  dsimp only at hok
  split_ifs at hok
  obtain ⟨-, rfl⟩ := Prod.mk.inj (ok.inj hok)
  rw [← and_assoc]
  refine ⟨?_, _, rfl, rfl⟩
  unfold streamingImport at himport
  split_ifs at himport
  · obtain ⟨-, rfl⟩ := Prod.mk.inj (ok.inj himport)
    exact ⟨fun k hk => absurd hk (notMem_empty k), rfl⟩
  · simp only [bind_eq_ok_iff] at himport
    obtain ⟨st, hchunks, ⟨root, sink⟩, -, himport⟩ := himport
    split_ifs at himport
    obtain ⟨-, rfl⟩ := Prod.mk.inj (ok.inj himport)
    refine ⟨foldlM_inv (fun st => ∀ k ∈ st.lane_version, k.block = net.zero_hash ∧
      ∃ lane ∈ chunks.flatten, lane.blue_score = k.score) ?_ hchunks
      fun k hk => absurd hk (notMem_empty k), rfl⟩
    intro st chunk st' hchunk hstep hrows k hk
    rcases lane_version_of_importChunk hstep hk with hk | ⟨hblock, lane, hlane, hscore⟩
    · exact hrows k hk
    · exact ⟨hblock, lane, mem_flatten_of_mem hchunk hlane, hscore⟩

/-- On a chain with any activation and increasing blue scores, of which each block from the
activation on touches the coinbase lane at its own score and records the shortcut block that is
computed for it, both ways to find the inactivity shortcut of a block lead to the same value: on a
node that processed all blocks, and on one that imported the lanes of a block below, whatever they
are, with the shortcut block found from the headers. -/
theorem inactivityShortcut_agrees (hnet : net.Ordered) (hroot : net.tree.root ≠ net.zero_hash)
    (branch_cache lane_cache : ℕ) :
    (∀ done state, Records net net.tree.root ⟨.new branch_cache lane_cache, ∅⟩ done state →
      ∀ b, b ∈ done ∨ Next net net.tree.root done b → ∃ value, inactivityShortcut net
          (computeInactivityShortcutBlock net state (net.tree.parent b) (net.score b)) = .ok value ∧
        inactivityShortcut net (inactivityShortcutBlockForPov net b) = .ok value) ∧
    ∀ pp metadata chunks result init, net.zero_hash ∉ net.tree.path pp →
      (∀ lane ∈ chunks.flatten, lane.blue_score ≤ net.score pp) →
      importPruningPointSmt net ⟨.new branch_cache lane_cache, ∅⟩ pp metadata
        (inactivityShortcutBlockForPov net pp) chunks = .ok (result, init) →
      ∀ done state, Records net pp init done state → ∀ b, b ∈ done ∨ Next net pp done b → ∃ value,
        inactivityShortcut net
          (computeInactivityShortcutBlock net state (net.tree.parent b) (net.score b)) = .ok value ∧
        inactivityShortcut net (inactivityShortcutBlockForPov net b) = .ok value := by
  constructor
  · intro done state hrun b hb
    have hzero : net.zero_hash ∉ net.tree.path net.tree.root := by
      rw [ParentTree.path_root, mem_singleton]
      exact hroot.symm
    have hshortcut : IsShortcut net net.tree.root net.tree.root := by
      refine .inl (mem_singleton.mp ?_).symm
      rw [← ParentTree.path_root]
      exact shortcutBlock_mem net.tree.root
    have hinit : Tracks net net.tree.root [] ⟨.new branch_cache lane_cache, ∅⟩ :=
      tracks_init hzero (fun k hk => absurd hk (notMem_empty k)) rfl hshortcut
        fun b hb => absurd hb (notMem_empty b)
    exact (hrun.tracks hnet hinit).exists_shortcut hnet hb
  · intro pp metadata chunks result init hzero hscores himport done state hrun b hb
    obtain ⟨hrows, hcache, row, hmetadata, hrow⟩ := importPruningPointSmt_eq_ok himport
    have hinit : Tracks net pp [] init := by
      refine tracks_init hzero (fun k hk => ?_) hcache ?_ fun b hb => ?_
      · obtain ⟨hblock, lane, hlane, hscore⟩ := hrows k hk
        exact ⟨hblock, hscore ▸ hscores lane hlane⟩
      · rw [hmetadata, lookup_insert, map_some, getD_some, hrow]
        exact hnet.isShortcut_forPov pp
      · rw [hmetadata] at hb
        exact ((mem_insert _).mp hb).resolve_right (notMem_empty b)
    exact (hrun.tracks hnet hinit).exists_shortcut hnet hb

end

namespace Sample

/-- The lanes of block 4 are imported, and blocks 8 and 16 are processed above it. -/
theorem inactivityShortcut_agrees_imported : ∃ metadata chunks result init state,
      importPruningPointSmt network ⟨.new 1 1, ∅⟩ 4 metadata
        (inactivityShortcutBlockForPov network 4) chunks = .ok (result, init) ∧
      Records network 4 init [16, 8] state ∧ ∃ value, inactivityShortcut network
          (computeInactivityShortcutBlock network state (network.tree.parent 16)
            (network.score 16)) =
          .ok value ∧
        inactivityShortcut network (inactivityShortcutBlockForPov network 16) = .ok value := by
  have next {base : ℕ} {done : List ℕ} {b : ℕ} (h : b ≠ 1 ∧ b ≠ 0 ∧ b ≠ base ∧ b ∉ done ∧
      (network.tree.parent b = base ∨ network.tree.parent b ∈ done)) : Next network base done b :=
    ⟨h.1, h.2.1, h.2.2.1, h.2.2.2.1, h.2.2.2.2⟩
  have hbefore : Follows network network.tree.root [] [2, 4] :=
    ⟨next (by decide), next (by decide), trivial⟩
  have hlater : Follows network 4 [] [8, 16] := ⟨next (by decide), next (by decide), trivial⟩
  have hroot : network.tree.root ≠ network.zero_hash := by decide
  obtain ⟨-, state, -, -, hinv, -⟩ := (inv_new hroot 4 4).processBlocks_eq network_lawful hbefore
  have hdone : 4 ∈ [2, 4].reverse ++ [] := by decide
  obtain ⟨metadata, -, hlanes_root, hcount⟩ :=
    hinv.exportMetadata_eq network_lawful hdone (by decide)
  obtain ⟨lanes, -, hexported⟩ := hinv.exportLanes_eq network_lawful (.inr hdone)
  have hzero : network.zero_hash ∉ network.tree.path 4 := by decide
  have hflatten : [lanes].flatten = lanes := append_nil lanes
  rw [← hflatten] at hexported
  obtain ⟨result, init, himport, -, hinit⟩ :=
    hexported.importPruningPointSmt_eq network_lawful hzero
    (by decide) hlanes_root hcount 1 1
  obtain ⟨-, state', -, -, -, hrun⟩ := hinit.processBlocks_eq network_lawful hlater
  have hrecords := hrun init .init
  refine ⟨metadata, [lanes], result, init, state', himport, hrecords, ?_⟩
  exact (inactivityShortcut_agrees network_lawful.toOrdered hroot 1 1).2 4 metadata [lanes]
    result init
    hzero (fun lane hlane => network_lawful.score_le_of_lanesAt
      (activeAt_eq_some.mp (hexported.activeAt hlane)).1) himport _ state' hrecords 16
    (.inl (by decide))

end Sample

end Network

end Zkas.Smt
