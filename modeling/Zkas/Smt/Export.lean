import Zkas.Smt.ImportSpec
import Zkas.Smt.Commitment

/-!
# What a node exports

The lanes that a node exports for a processed block are those in the window of the block, in the
order of their keys, and every proof among them verifies (`Inv.exportLanes_eq`). The reader of the
stores does not know leaves, but it is not asked for one: that would take two lanes that share all
but the last bit (`proveLoop_congr`). -/

namespace Zkas.Smt

open BitPath SparseTree List Except

/-! ## Proofs without leaves -/

section

variable {ε D : Type} {H : SmtHasher D} {store store' : SmtStore ε D} {key : Key}
variable (hnode : ∀ bk, store.getNode bk = store'.getNode bk)
include hnode

theorem readSibling_congr {d : ℕ}
    (hd : d ≠ DEPTH - 1) : readSibling H store key d = readSibling H store' key d := by
  rw [readSibling, readSibling, if_neg hd, if_neg hd, hnode]

/-- Two stores with the same nodes give the same proof, if the path has no inner node at the last
level. -/
theorem proveLoop_congr
    (hlast : ∀ hash, store.getNode (.new (DEPTH - 1) key) ≠ .ok (some (.internal hash)))
    (left : ℕ) (bitmap : BitVec 256) (siblings : List D) :
    proveLoop H store key left bitmap siblings = proveLoop H store' key left bitmap siblings := by
  induction left generalizing bitmap siblings with
  | zero => rfl
  | succ left ih =>
    rw [proveLoop, proveLoop, ← hnode]
    cases hread : store.getNode (.new (DEPTH - 1 - left) key) with
    | error e => rfl
    | ok node =>
      rcases node with _ | hash | leaf
      · rfl
      · have hd : DEPTH - 1 - left ≠ DEPTH - 1 := fun heq => hlast hash (heq ▸ hread)
        rw [readSibling_congr hnode hd]
        cases readSibling H store' key (DEPTH - 1 - left) with
        | error e => rfl
        | ok sibling =>
          cases sibling with
          | none => exact ih _ _
          | some sibling => exact ih _ _
      · rfl

end

namespace Network

variable {L B D : Type} [LinearOrder B] {net : Network L B D} {base pp : B} {floor : ℕ}
  {done : List B} {state : SmtState B D}

/-- What a lane is about. -/
def laneData (lane : ImportLane D) : Key × D × ℕ := (lane.lane_key, lane.lane_tip, lane.blue_score)

/-- The lanes in the window of a block, with proofs that verify. -/
structure Exported (net : Network L B D) [DecidableEq D] (pp : B) (lanes : List (ImportLane D)) :
    Prop where
  ascending : Ascending lanes
  mem_iff : ∀ k tip s, (∃ lane ∈ lanes, laneData lane = (k, tip, s)) ↔
    net.activeAt pp k = some (tip, s)
  proofs : ∀ lane ∈ lanes, checkProof net.hashing.activeNode net.hashing.smtLeafHash
    (root net.hashing.activeNode (net.leavesAt pp)) lane = .ok ()

section

variable (hnet : net.Lawful) (hinv : Inv net base floor done state) (hpp : pp = base ∨ pp ∈ done)

include hnet hinv hpp

theorem Inv.getAtCanonical_eq (k : Key) :
    (state.stores.lane_version.getAtCanonical k (net.score pp) (net.activeMin pp)
      (net.isSmtCanonical pp)).map (fun v => (v.value, v.score)) = net.activeAt pp k := by
  have hlane := hinv.getLane_eq hnet hpp k (hinv.holds pp hpp).floor_le
  unfold SmtStores.getLane at hlane
  rw [hinv.lanes.read_eq hnet.toOrdered hinv.region] at hlane
  exact hlane

theorem Inv.mem_iterAllCanonical {k : Key} {tip : D} {s : ℕ} :
    (∃ r ∈ iterAllCanonical state.stores.lane_version (net.activeMin pp) (net.score pp)
        (net.isSmtCanonical pp), (r.1, r.2.value, r.2.score) = (k, tip, s)) ↔
      net.activeAt pp k = some (tip, s) := by
  rw [← hinv.getAtCanonical_eq hnet hpp k, Option.map_eq_some_iff]
  constructor
  · rintro ⟨r, hr, heq⟩
    obtain ⟨k', -, hr⟩ := mem_filterMap.mp hr
    obtain ⟨v, hv, rfl⟩ := Option.map_eq_some_iff.mp hr
    obtain ⟨rfl, hvalue⟩ := Prod.mk.inj heq
    exact ⟨v, hv, hvalue⟩
  · rintro ⟨v, hv, heq⟩
    obtain ⟨rfl, rfl⟩ := Prod.mk.inj heq
    refine ⟨(k, v), mem_filterMap.mpr ⟨k, ?_, by rw [hv]; rfl⟩, rfl⟩
    -- The key is that of a row.
    have hrow := (VersionStore.of_getAtCanonical hv).1.1
    rw [mem_insertionSort, mem_dedup]
    exact mem_map_of_mem (AList.mem_lookup_iff.mp hrow)

omit hnet hinv hpp in
theorem iterAllCanonical_sorted (db : VersionStore Key B D) (min max : ℕ)
    (is_canonical : B → Bool) :
    (iterAllCanonical db min max is_canonical).Pairwise fun x y => x.1 < y.1 := by
  have hsorted : ((db.entries.map fun r => r.1.entity).dedup.insertionSort (· ≤ ·)).Pairwise
      (· < ·) := by
    have hle := pairwise_insertionSort (· ≤ ·) (db.entries.map fun r => r.1.entity).dedup
    have hnodup := (perm_insertionSort (· ≤ ·)
      (db.entries.map fun r => r.1.entity).dedup).nodup_iff.mpr (nodup_dedup _)
    exact (hle.and hnodup).imp fun h => lt_of_le_of_ne h.1 h.2
  refine List.Pairwise.filterMap _ (fun k k' hlt r hr r' hr' => ?_) hsorted
  obtain ⟨v, -, rfl⟩ := Option.map_eq_some_iff.mp hr
  obtain ⟨v', -, rfl⟩ := Option.map_eq_some_iff.mp hr'
  exact hlt

theorem Inv.prove_verifies [DecidableEq D] (k : Key) :
    ∃ p, prove net.hashing.activeNode (state.stores.reader ⟨net.score pp, net.activeMin pp⟩
        (net.isSmtCanonical pp)) k = .ok p ∧
      p.verify net.hashing.activeNode k (net.leavesAt pp k)
        (root net.hashing.activeNode (net.leavesAt pp)) = .ok true := by
  have hread (d : ℕ) (hd : d < 256) (x : Key) :
      (state.stores.reader ⟨net.score pp, net.activeMin pp⟩ (net.isSmtCanonical pp)).getNode
      (.new d x) = .ok (stored net.hashing.activeNode (net.leavesAt pp) x 0 d) := by
    rw [← (hinv.holds pp hpp).nodes d x hd, ← hinv.getNode_eq hnet]
    rfl
  -- The same nodes, and the leaves.
  obtain ⟨store, hstore⟩ : ∃ store : SmtStore Empty D, store = ⟨(state.stores.reader
    ⟨net.score pp, net.activeMin pp⟩ (net.isSmtCanonical pp)).getNode,
    fun x => .ok (net.leavesAt pp x)⟩ := ⟨_, rfl⟩
  have hcanonical : Canonical net.hashing.activeNode (net.leavesAt pp) store := by
    subst hstore
    refine ⟨fun d hd x hinner => ?_, fun x => rfl⟩
    have hstored := stored_of_internal (n := d) (d := 0) fun e he => by
      rw [zero_add]
      exact hinner e he
    rw [zero_add] at hstored
    exact (hread d hd x).trans (congrArg _ hstored)
  obtain ⟨p, hp, hverify⟩ := Smt.prove_verifies hnet.emptyFollows hcanonical k
  refine ⟨p, ?_, hverify⟩
  rw [← hp]
  refine proveLoop_congr (fun bk => by rw [hstore]) (fun hash hlast => ?_) _ _ _
  rw [hread (DEPTH - 1) (by decide) k] at hlast
  have hnode := node_of_stored (ok.inj hlast)
  have hinternal : nodeAt net.hashing.activeNode (net.leavesAt pp) 255 k = .internal hash := by
    change NodeResult.node (nodeAt net.hashing.activeNode (net.leavesAt pp) 255 k) = _ at hnode
    cases hat : nodeAt net.hashing.activeNode (net.leavesAt pp) 255 k with
    | empty =>
      rw [hat] at hnode
      cases hnode
    | collapsed x v =>
      rw [hat] at hnode
      cases hnode
    | internal hash' =>
      rw [hat] at hnode
      cases hnode
      rfl
  obtain ⟨y, y', hne, hy, hy', hleaf, hleaf'⟩ := exists_two_of_internal (by omega) hinternal
  have hlane {x : Key} (hx : net.leavesAt pp x ≠ none) : ∃ ℓ, net.hashing.laneKey ℓ = x := by
    obtain ⟨leaf, hleaf⟩ := Option.ne_none_iff_exists'.mp hx
    obtain ⟨v, hv, -⟩ := leavesAt_eq_some.mp hleaf
    exact exists_lane_of_lanesAt (activeAt_eq_some.mp hv).1
  exact hne (hnet.key_eq (hlane hleaf) (hlane hleaf') (hy.symm.trans hy'))

theorem Inv.exportLane_eq [DecidableEq D] {r : (Key × Version B D) × ℕ}
    (hr : r.1 ∈ iterAllCanonical state.stores.lane_version (net.activeMin pp) (net.score pp)
      (net.isSmtCanonical pp)) :
    ∃ lane, exportLane net state.stores pp ⟨net.score pp, net.activeMin pp⟩ r = .ok lane ∧
      laneData lane = (r.1.1, r.1.2.value, r.1.2.score) ∧
      checkProof net.hashing.activeNode net.hashing.smtLeafHash
        (root net.hashing.activeNode (net.leavesAt pp)) lane = .ok () := by
  have hactive : net.activeAt pp r.1.1 = some (r.1.2.value, r.1.2.score) :=
    (hinv.mem_iterAllCanonical hnet hpp).mp ⟨r.1, hr, rfl⟩
  have hleaf : net.leavesAt pp r.1.1 = some (net.hashing.smtLeafHash r.1.2.value r.1.2.score) :=
    leavesAt_eq_some.mpr ⟨_, hactive, rfl⟩
  unfold exportLane
  split_ifs
  · obtain ⟨p, hp, hverify⟩ := hinv.prove_verifies hnet hpp r.1.1
    rw [hp]
    refine ⟨_, rfl, rfl, ?_⟩
    rw [hleaf] at hverify
    unfold checkProof
    dsimp only
    rw [hverify]
  · exact ⟨_, rfl, rfl, rfl⟩

/-- The lanes of a processed block are exported. -/
theorem Inv.exportLanes_eq [DecidableEq D] :
    ∃ lanes, exportLanes net state.stores pp = .ok lanes ∧ Exported net pp lanes := by
  set iter := iterAllCanonical state.stores.lane_version (net.activeMin pp) (net.score pp)
    (net.isSmtCanonical pp) with hiter
  have heach := fun r (hr : r ∈ iter.zipIdx) =>
    hinv.exportLane_eq hnet hpp (fst_mem_of_mem_zipIdx hr)
  obtain ⟨lanes, hok, hdata, hproofs⟩ := exists_mapM_of_forall (g := laneData) heach
  have hdata : lanes.map laneData = iter.map fun r => (r.1, r.2.value, r.2.score) := by
    rw [hdata, ← zipIdx_map_fst 0 iter, map_map, zipIdx_map_fst 0 iter]
    rfl
  refine ⟨lanes, hok, ?_, fun k tip s => ?_, hproofs⟩
  · have hsorted := iterAllCanonical_sorted state.stores.lane_version (net.activeMin pp)
      (net.score pp) (net.isSmtCanonical pp)
    have hkeys : (lanes.map laneData).Pairwise fun x y => x.1 < y.1 := by
      rw [hdata, pairwise_map]
      exact hsorted
    exact (pairwise_map (f := laneData)).mp hkeys
  · rw [← hinv.mem_iterAllCanonical hnet hpp, ← hiter, ← mem_map, hdata, mem_map]

end

/-- A block is served: its lanes are exported, and for every key, of a lane or not, a proof is made
that verifies against the root of the block's build. -/
structure Served (net : Network L B D) [DecidableEq D] (stores : SmtStores B D) (b : B)
    (build : SmtBuild B D) : Prop where
  lanes : ∃ lanes, exportLanes net stores b = .ok lanes ∧ Exported net b lanes
  proofs : ∀ k, ∃ p, prove net.hashing.activeNode (stores.reader ⟨net.score b, net.activeMin b⟩
      (net.isSmtCanonical b)) k = .ok p ∧
    p.verify net.hashing.activeNode k (net.leavesAt b k) build.root = .ok true

namespace Sample

end Sample

end Network

end Zkas.Smt
