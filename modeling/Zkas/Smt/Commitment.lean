import Zkas.Smt.LaneRun
import Zkas.Smt.StreamingRun

/-!
# The commitment to the active lanes

Whatever blocks a node processes, on whatever forks, the lanes root of a block is the root that the
streaming builder computes from the lanes in the window of the block, and their number is counted
right (`processBlocks_streamLeaves`). -/

namespace Zkas.Smt

open BitPath SparseTree List

namespace Network

variable {L B D : Type} {net : Network L B D}

theorem activeLanes_sorted (net : Network L B D) (b : B) :
    (net.activeLanes b).Pairwise fun x y => x.1 < y.1 := by
  rw [← pairwise_map (R := fun k k' : Key => k < k'), activeLanes_map_fst]
  exact activeKeys_sorted b

theorem laneMap_activeLanes (net : Network L B D) (b : B) :
    StreamingSmtBuilder.laneMap (net.activeLanes b) =
      fun k => (net.activeAt b k).map fun v => (net.leafOf v, v.2) := by
  funext k
  unfold StreamingSmtBuilder.laneMap
  cases hlookup : (net.activeLanes b).lookup k with
  | none =>
    have hnot : k ∉ net.activeKeys b := by
      rw [← activeLanes_map_fst, mem_map]
      rintro ⟨x, hx, rfl⟩
      exact bne_iff_ne.mp (lookup_eq_none_iff.mp hlookup x hx) rfl
    rw [mem_activeKeys, not_not] at hnot
    rw [hnot]
    rfl
  | some v =>
    obtain ⟨front, back, hlist, -⟩ := lookup_eq_some_iff.mp hlookup
    have hmem : (k, v.1, v.2) ∈ net.activeLanes b := by
      rw [hlist]
      exact mem_append_right _ mem_cons_self
    obtain ⟨tip, htip, hleaf⟩ := mem_activeLanes.mp hmem
    rw [htip]
    exact congrArg some (Prod.ext hleaf.symm rfl)

theorem leafMap_activeLanes (net : Network L B D) (b : B) :
    leafMap (StreamingSmtBuilder.laneMap (net.activeLanes b)) = net.leavesAt b := by
  funext k
  rw [laneMap_activeLanes, leafMap, leavesAt, Option.map_map]
  rfl

theorem streamLeaves_activeLanes (net : Network L B D) (b : B) :
    streamLeaves net.hashing.activeNode (RootOnlyMergeSink net.hashing.activeNode) ()
      (net.activeLanes b) = .ok (root net.hashing.activeNode (net.leavesAt b), ()) := by
  obtain ⟨sink', K, hok, -⟩ := streamLeaves_eq (rootOnlyMergeSink_lawful net.hashing.activeNode)
    (s := ()) trivial (activeLanes_sorted net b)
  rw [hok, leafMap_activeLanes]

/-- Of every block that is processed and commits to lanes the lanes root is the one that the
streaming builder computes from the lanes whose newest version on the chain of the block is in its
window, and their number is counted right. No count underflows, since no step panics. -/
theorem processBlocks_streamLeaves [LinearOrder B] [DecidableEq D] (hnet : net.Lawful)
    (hroot : net.tree.root ≠ net.zero_hash) {blocks : List B}
    (hblocks : Follows net net.tree.root [] blocks) (branch_cache lane_cache : ℕ) :
    ∃ builds state', processBlocks net ⟨.new branch_cache lane_cache, ∅⟩ blocks =
        .ok (builds, state') ∧ builds.map Prod.fst = blocks ∧
      ∀ r ∈ builds, r.2.isSome = net.toccataActive r.1 ∧ ∀ build ∈ r.2,
        streamLeaves net.hashing.activeNode (RootOnlyMergeSink net.hashing.activeNode) ()
          (net.activeLanes r.1) = .ok (build.root, ()) ∧
        build.active_lanes_count = (net.activeLanes r.1).length ∧
        ∀ k leaf s, (k, leaf, s) ∈ net.activeLanes r.1 ↔
          ∃ tip, net.lanesAt r.1 k = some (tip, s) ∧ net.score r.1 - net.finality_depth ≤ s ∧
            s ≤ net.score r.1 ∧ net.hashing.smtLeafHash tip s = leaf := by
  obtain ⟨builds, state', hok, hbuilds, -, -⟩ :=
    (inv_new hroot branch_cache lane_cache).processBlocks_eq hnet hblocks
  refine ⟨builds, state', hok, hbuilds.blocks,
    fun r hr => ⟨hbuilds.active r hr, fun build hbuild => ?_⟩⟩
  have hcommit := hbuilds.commits r hr build hbuild
  refine ⟨?_, ?_, fun k leaf s => ?_⟩
  · rw [streamLeaves_activeLanes, hcommit.root]
  · rw [hcommit.count, ← activeLanes_map_fst, length_map]
  · rw [mem_activeLanes]
    refine exists_congr fun tip => ?_
    rw [activeAt_eq_some]
    constructor
    · rintro ⟨⟨hlane, hmin⟩, hleaf⟩
      exact ⟨hlane, hmin, hnet.score_le_of_lanesAt hlane, hleaf⟩
    · rintro ⟨hlane, hmin, -, hleaf⟩
      exact ⟨⟨hlane, hmin⟩, hleaf⟩

/-- Reads through the caches give what the stores alone give, at every block of every fork. -/
structure Uncached (net : Network L B D) [LinearOrder B] (stores : SmtStores B D) : Prop where
  nodes : ∀ tip entity bounds, stores.getNode entity bounds (net.isSmtCanonical tip) =
    stores.branch_version.getAtCanonical entity bounds.target_blue_score bounds.min_blue_score
      (net.isSmtCanonical tip)
  lanes : ∀ tip lane_key bounds, stores.getLane lane_key bounds (net.isSmtCanonical tip) =
    stores.lane_version.getAtCanonical lane_key bounds.target_blue_score bounds.min_blue_score
      (net.isSmtCanonical tip)

/-- After any run, with caches of any size, reads do not depend on what the caches hold. -/
theorem processBlocks_uncached [LinearOrder B] [DecidableEq D] (hnet : net.Lawful)
    (hroot : net.tree.root ≠ net.zero_hash) {blocks : List B}
    (hblocks : Follows net net.tree.root [] blocks) (branch_cache lane_cache : ℕ) :
    ∃ builds state', processBlocks net ⟨.new branch_cache lane_cache, ∅⟩ blocks =
        .ok (builds, state') ∧ Uncached net state'.stores := by
  obtain ⟨builds, state', hok, -, hinv, -⟩ :=
    (inv_new hroot branch_cache lane_cache).processBlocks_eq hnet hblocks
  refine ⟨builds, state', hok, fun tip entity bounds => ?_, fun tip lane_key bounds => ?_⟩
  · exact hinv.branches.read_eq hnet.toOrdered hinv.region tip entity _ _
  · exact hinv.lanes.read_eq hnet.toOrdered hinv.region tip lane_key _ _

namespace Sample

/-- The number of levels above block 1, in the binary tree where block `n` is above `n / 2`. -/
def height (n : ℕ) : ℕ := if n = 0 then 1 else n.log2

/-- A tree of blocks: block 1 is the root, and the blocks above `n` are `2 n` and `2 n + 1`. -/
def tree : ParentTree ℕ where
  root := 1
  parent n := if n = 0 then 1 else n / 2
  height := height
  height_root := rfl
  height_parent b hb := by
    rcases Nat.eq_zero_or_pos b with rfl | hpos
    · rfl
    · have hne : b / 2 ≠ 0 := by omega
      rw [height, if_neg hpos.ne', if_neg hpos.ne', height, if_neg hne, Nat.log2_def,
        if_pos (by omega)]

/-- Two lanes with free hashes. Every block touches the first one; some touch the second one too. A
lane stays for one more score. -/
def network : Network Bool ℕ (Term 256) where
  hashing := {
    activeNode := Term.hashing 256
    laneKey := fun ℓ => if ℓ then BitVec.twoPow 256 255 else 0
    activityDigestLane := fun leaves => leaves.foldr .node (.atom 0)
    laneTipNext :=
      fun parent_ref _ digest context_hash => .node parent_ref (.node digest context_hash)
    smtLeafHash := .tagged
    mergesetContextHash := fun timestamp daa_score blue_score =>
      .tagged (.tagged (.atom timestamp) daa_score) blue_score
    minerPayloadRoot := fun leaves => leaves.foldr .node (.atom 0)
    payloadAndContextDigest := .node
    activityRootHash := .node
    seqStateRoot := .node
    seqCommit := .node }
  tree := tree
  zero_hash := 0
  header b := { blue_score := height b, daa_score := height b, timestamp := b
                accepted_id_merkle_root := .atom b }
  lane_activities b := (false, []) :: if b % 4 = 2 then [(true, [.atom b])] else []
  miner_payload_leaves b := [.atom b]
  coinbase_lane := false
  finality_depth := 1
  toccata_activation := 0

theorem network_lawful : network.Lawful where
  injective := Term.hashing_injective 256
  emptyFollows := Term.hashing_emptyFollows 256
  leaf_inj := fun _ _ _ _ h => Term.tagged.inj h
  leaf_ne_zero := fun _ _ h => by cases h
  apart := by
    intro ℓ ℓ' h
    have hbit := h 0 (by omega)
    revert hbit
    cases ℓ <;> cases ℓ' <;> decide
  score_parent := by
    intro b hb
    have := tree.height_parent b hb
    change height (tree.parent b) < height b
    change height b = height (tree.parent b) + 1 at this
    omega
  daa_parent := by
    intro b hb
    have := tree.height_parent b hb
    change height (tree.parent b) ≤ height b
    change height b = height (tree.parent b) + 1 at this
    omega
  lanes_nodup := by
    intro b
    change (((false, []) :: if b % 4 = 2 then [(true, [Term.atom b])] else []).map Prod.fst).Nodup
    split_ifs <;> simp
  coinbase_touched := fun _ => mem_cons_self

/-- Two forks above block 1 are processed parent before child. -/
theorem follows_forks : Follows network network.tree.root [] [2, 3, 4, 8, 6] := by
  have next {done : List ℕ} {b : ℕ} (h : b ≠ 1 ∧ b ≠ 0 ∧ b ∉ done ∧
      (network.tree.parent b = 1 ∨ network.tree.parent b ∈ done)) : Next network 1 done b :=
    ⟨h.1, h.2.1, h.1, h.2.2.1, h.2.2.2⟩
  exact ⟨next (by decide), next (by decide), next (by decide), next (by decide), next (by decide),
    trivial⟩

/-- On the fork with block 8 the second lane expires. -/
theorem processBlocks_streamLeaves_forks :
    ∃ builds state', processBlocks network ⟨.new 4 4, ∅⟩ [2, 3, 4, 8, 6] = .ok (builds, state') ∧
      builds.map Prod.fst = [2, 3, 4, 8, 6] ∧
      ∀ r ∈ builds, r.2.isSome = network.toccataActive r.1 ∧ ∀ build ∈ r.2,
        streamLeaves network.hashing.activeNode (RootOnlyMergeSink network.hashing.activeNode) ()
          (network.activeLanes r.1) = .ok (build.root, ()) ∧
        build.active_lanes_count = (network.activeLanes r.1).length ∧
        ∀ k leaf s, (k, leaf, s) ∈ network.activeLanes r.1 ↔
          ∃ tip, network.lanesAt r.1 k = some (tip, s) ∧
            network.score r.1 - network.finality_depth ≤ s ∧ s ≤ network.score r.1 ∧
            network.hashing.smtLeafHash tip s = leaf :=
  processBlocks_streamLeaves network_lawful (by decide) follows_forks 4 4

theorem processBlocks_uncached_forks : ∃ builds state',
    processBlocks network ⟨.new 1 1, ∅⟩ [2, 3, 4, 8, 6] = .ok (builds, state') ∧
      Uncached network state'.stores :=
  processBlocks_uncached network_lawful (by decide) follows_forks 1 1

end Sample

end Network

end Zkas.Smt
