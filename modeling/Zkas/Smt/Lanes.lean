import Zkas.Smt.SeqCommit

/-!
# The lanes of a chain

What the stores are for, without stores. A lane has a version for each block of a chain that touches
it: a tip, which continues the tip before it if that is still in the window of the block, and the
blue score of the block (`lanesAt`). The lanes of a block are those whose newest version is in its
window (`activeAt`); their leaves are what the commitment is about (`activeLanes`). -/

namespace Zkas.Smt

open BitPath SparseTree List Option ParentTree

/-- Blue scores increase along every chain, and DAA scores do not drop. -/
structure Network.Ordered {L B D : Type} (net : Network L B D) : Prop where
  score_parent : ∀ b, b ≠ net.tree.root →
    (net.header (net.tree.parent b)).blue_score < (net.header b).blue_score
  daa_parent : ∀ b, b ≠ net.tree.root →
    (net.header (net.tree.parent b)).daa_score ≤ (net.header b).daa_score

/-- What is assumed of the hashes and of the blocks: the hashes have no collisions, the keys of no
two lanes share all but the last bit, and the blocks are ordered. Every block touches the coinbase
lane. -/
structure Network.Lawful {L B D : Type} (net : Network L B D) : Prop extends net.Ordered where
  injective : net.hashing.activeNode.Injective
  emptyFollows : net.hashing.activeNode.EmptyFollows
  leaf_inj : Function.Injective2 net.hashing.smtLeafHash
  leaf_ne_zero : ∀ tip score, net.hashing.smtLeafHash tip score ≠ net.hashing.activeNode.ZERO_HASH
  apart : ∀ ℓ ℓ', Agree 255 (net.hashing.laneKey ℓ) (net.hashing.laneKey ℓ') → ℓ = ℓ'
  lanes_nodup : ∀ b, ((net.lane_activities b).map Prod.fst).Nodup
  coinbase_touched : ∀ b, net.coinbase_lane ∈ (net.lane_activities b).map Prod.fst

namespace Network

variable {L B D : Type} (net : Network L B D)

/-- The blue score of a block. -/
def score (b : B) : ℕ := (net.header b).blue_score

/-- The lowest score in the window of a block. -/
def activeMin (b : B) : ℕ := net.score b - net.finality_depth

/-- The lanes that a block touches, with the digests of their activities. A block from before the
activation touches none. -/
def touched (b : B) : List (Key × D) :=
  if net.toccataActive b then
    (net.lane_activities b).map fun (lane_id, leaves) =>
      (net.hashing.laneKey lane_id, net.hashing.activityDigestLane leaves)
  else []

/-- The newest version of a lane: its tip and its score. -/
abbrev LaneVersions (D : Type) := Key → Option (D × ℕ)

/-- The part of the versions that is not below a score. -/
def LaneVersions.from (lanes : LaneVersions D) (min : ℕ) : LaneVersions D :=
  fun k => (lanes k).filter fun v => min ≤ v.2

/-- The versions after a block. -/
def laneStep (b : B) (lanes : LaneVersions D) : LaneVersions D := fun k =>
  match (net.touched b).lookup k with
  | none => lanes k
  | some digest =>
    let parent_ref := ((lanes.from (net.activeMin b) k).map Prod.fst).getD
      (net.header (net.tree.parent b)).accepted_id_merkle_root
    some (net.hashing.laneTipNext parent_ref k digest (contextHash net b), net.score b)

/-- The newest versions on the chain of a block. -/
def lanesAt (b : B) : LaneVersions D :=
  (net.tree.path b).tail.foldl (fun lanes b => net.laneStep b lanes) fun _ => none

/-- The versions in the window of the block. -/
def activeAt (b : B) : LaneVersions D := (net.lanesAt b).from (net.activeMin b)

/-- The leaf of a version. -/
def leafOf (v : D × ℕ) : D := net.hashing.smtLeafHash v.1 v.2

/-- The leaves of a block. -/
def leavesAt (b : B) : Key → Option D := fun k => (net.activeAt b k).map net.leafOf

/-- The keys of the lanes in the window, in order. -/
def activeKeys (b : B) : List Key :=
  (((net.tree.path b).tail.flatMap fun b => (net.touched b).map Prod.fst).dedup.filter fun k =>
    (net.activeAt b k).isSome).insertionSort (· ≤ ·)

/-- The lanes in the window, with their leaves and scores, in the order of their keys. -/
def activeLanes (b : B) : List (Key × D × ℕ) :=
  (net.activeKeys b).filterMap fun k => (net.activeAt b k).map fun v => (k, net.leafOf v, v.2)

variable {net}

/-! ## Along a chain -/

theorem lanesAt_root : net.lanesAt net.tree.root = fun _ => none := by
  rw [lanesAt, path_root]
  rfl

variable {b : B} {k : Key} {v : D × ℕ}

theorem lanesAt_of_ne (hb : b ≠ net.tree.root) :
    net.lanesAt b = net.laneStep b (net.lanesAt (net.tree.parent b)) := by
  have hne : net.tree.path (net.tree.parent b) ≠ [] := ne_nil_of_mem (self_mem_path _)
  rw [lanesAt, path_of_ne hb, tail_append_of_ne_nil hne, foldl_append]
  rfl

theorem lookup_touched_eq_none :
    (net.touched b).lookup k = none ↔ k ∉ (net.touched b).map Prod.fst := by
  rw [List.lookup_eq_none_iff, List.mem_map]
  constructor
  · rintro h ⟨p, hp, rfl⟩
    exact bne_iff_ne.mp (h p hp) rfl
  · intro h p hp
    exact bne_iff_ne.mpr fun heq => h ⟨p, hp, heq.symm⟩

theorem lanesAt_of_not_mem (hb : b ≠ net.tree.root) (hk : k ∉ (net.touched b).map Prod.fst) :
      net.lanesAt b k = net.lanesAt (net.tree.parent b) k := by
  rw [lanesAt_of_ne hb, laneStep, lookup_touched_eq_none.mpr hk]

theorem lanesAt_of_mem (hb : b ≠ net.tree.root)
    (hk : k ∈ (net.touched b).map Prod.fst) : ∃ tip, net.lanesAt b k = some (tip, net.score b) := by
  rw [lanesAt_of_ne hb, laneStep]
  cases hlookup : (net.touched b).lookup k with
  | none => exact absurd hk (lookup_touched_eq_none.mp hlookup)
  | some digest => exact ⟨_, rfl⟩

theorem exists_touched_of_lanesAt (h : net.lanesAt b k = some v) :
    ∃ c ∈ (net.tree.path b).tail, k ∈ (net.touched c).map Prod.fst := by
  induction b using induction (T := net.tree) with
  | hroot =>
    rw [lanesAt_root] at h
    cases h
  | hstep b hb ih =>
    have hne : net.tree.path (net.tree.parent b) ≠ [] := ne_nil_of_mem (self_mem_path _)
    rw [path_of_ne hb, tail_append_of_ne_nil hne]
    by_cases hk : k ∈ (net.touched b).map Prod.fst
    · exact ⟨b, mem_append_right _ (mem_singleton_self b), hk⟩
    · rw [lanesAt_of_not_mem hb hk] at h
      obtain ⟨c, hc, hck⟩ := ih h
      exact ⟨c, mem_append_left _ hc, hck⟩

theorem touched_map_fst (b : B) : (net.touched b).map Prod.fst =
    if net.toccataActive b then ((net.lane_activities b).map Prod.fst).map net.hashing.laneKey
    else [] := by
  unfold touched
  split_ifs
  · rw [List.map_map, List.map_map]
    rfl
  · rfl

theorem exists_lane_of_lanesAt (h : net.lanesAt b k = some v) : ∃ ℓ, net.hashing.laneKey ℓ = k := by
  obtain ⟨c, -, hc⟩ := exists_touched_of_lanesAt h
  rw [touched_map_fst] at hc
  split_ifs at hc
  · obtain ⟨ℓ, -, rfl⟩ := mem_map.mp hc
    exact ⟨ℓ, rfl⟩
  · cases hc

/-! ## Windows -/

theorem activeAt_eq_some :
    net.activeAt b k = some v ↔ net.lanesAt b k = some v ∧ net.activeMin b ≤ v.2 := by
  rw [activeAt, LaneVersions.from, filter_eq_some_iff, decide_eq_true_iff]

theorem leavesAt_eq_some {leaf : D} :
    net.leavesAt b k = some leaf ↔ ∃ v, net.activeAt b k = some v ∧ net.leafOf v = leaf := by
  rw [leavesAt, map_eq_some_iff]

theorem leavesAt_eq_none : net.leavesAt b k = none ↔ net.activeAt b k = none := by
  rw [leavesAt, map_eq_none_iff]

variable {b c : B} {k : Key}

section

variable (hnet : net.Ordered)

include hnet

theorem Ordered.toccataActive_of_mem (h : b ∈ net.tree.path c)
    (hactive : net.toccataActive b = true) : net.toccataActive c = true :=
  mem_path_induction (P := fun c => net.toccataActive c = true) hactive
    (fun c hc _ ih => decide_eq_true ((of_decide_eq_true ih).trans (hnet.daa_parent c hc))) h

theorem Ordered.lanesAt_of_inactive (hinactive : net.toccataActive b = false) :
    net.lanesAt b = fun _ => none := by
  funext k
  cases hlane : net.lanesAt b k with
  | none => rfl
  | some v =>
    obtain ⟨c, hc, hk⟩ := exists_touched_of_lanesAt hlane
    rw [touched_map_fst] at hk
    split_ifs at hk with hactive
    · rw [hnet.toccataActive_of_mem (mem_of_mem_tail hc) hactive] at hinactive
      cases hinactive
    · cases hk

theorem Ordered.score_le (h : b ∈ net.tree.path c) : net.score b ≤ net.score c :=
  mem_path_induction (P := fun c => net.score b ≤ net.score c) le_rfl
    (fun c hc _ ih => ih.trans (hnet.score_parent c hc).le) h

theorem Ordered.score_lt (h : b ∈ net.tree.path c) (hne : b ≠ c) : net.score b < net.score c :=
  mem_path_induction (P := fun c => b ≠ c → net.score b < net.score c) (fun heq => absurd rfl heq)
    (fun c hc hb _ _ => (hnet.score_le hb).trans_lt (hnet.score_parent c hc)) h hne

theorem Ordered.activeMin_le (hb : b ≠ net.tree.root) :
    net.activeMin (net.tree.parent b) ≤ net.activeMin b := by
  have : net.score (net.tree.parent b) < net.score b := hnet.score_parent b hb
  unfold activeMin
  omega

theorem Ordered.score_le_of_lanesAt {v : D × ℕ} (h : net.lanesAt b k = some v) :
    v.2 ≤ net.score b := by
  induction b using induction (T := net.tree) with
  | hroot =>
    rw [lanesAt_root] at h
    cases h
  | hstep b hb ih =>
    by_cases hk : k ∈ (net.touched b).map Prod.fst
    · obtain ⟨tip, htip⟩ := lanesAt_of_mem hb hk
      rw [htip] at h
      cases h
      exact le_rfl
    · rw [lanesAt_of_not_mem hb hk] at h
      exact (ih h).trans (hnet.score_parent b hb).le

end

section

variable (hnet : net.Lawful)

include hnet

theorem Lawful.laneKey_inj : Function.Injective net.hashing.laneKey := fun ℓ ℓ' h =>
  hnet.apart ℓ ℓ' (h ▸ Agree.refl 255 _)

theorem Lawful.key_eq {k' : Key} (hk : ∃ ℓ, net.hashing.laneKey ℓ = k)
    (hk' : ∃ ℓ, net.hashing.laneKey ℓ = k') (h : Agree 255 k k') : k = k' := by
  obtain ⟨ℓ, rfl⟩ := hk
  obtain ⟨ℓ', rfl⟩ := hk'
  rw [hnet.apart ℓ ℓ' h]

theorem Lawful.touched_nodup (b : B) : ((net.touched b).map Prod.fst).Nodup := by
  rw [touched_map_fst]
  split_ifs
  · exact (hnet.lanes_nodup b).map hnet.laneKey_inj
  · exact nodup_nil

theorem Lawful.lookup_touched {digest : D} (h : (k, digest) ∈ net.touched b) :
    (net.touched b).lookup k = some digest := by
  obtain ⟨digest', hlookup⟩ : ∃ digest', (net.touched b).lookup k = some digest' := by
    rw [← ne_none_iff_exists', Ne, lookup_touched_eq_none, not_not]
    exact mem_map_of_mem h
  obtain ⟨front, back, hlist, -⟩ := lookup_eq_some_iff.mp hlookup
  have hmem : (k, digest') ∈ net.touched b := by
    rw [hlist]
    exact mem_append_right _ mem_cons_self
  rw [hlookup, (Prod.mk.inj (inj_on_of_nodup_map (hnet.touched_nodup b) h hmem rfl)).2]

theorem Lawful.coinbase_mem (hactive : net.toccataActive b = true) :
    net.hashing.laneKey net.coinbase_lane ∈ (net.touched b).map Prod.fst := by
  rw [touched_map_fst, if_pos hactive]
  exact mem_map_of_mem (hnet.coinbase_touched b)

variable (hb : b ≠ net.tree.root)
include hb

theorem Lawful.leavesAt_of_mem (hk : k ∈ (net.touched b).map Prod.fst) :
    ∃ tip, net.lanesAt b k = some (tip, net.score b) ∧
      net.leavesAt b k = some (net.hashing.smtLeafHash tip (net.score b)) ∧
      net.leavesAt b k ≠ net.leavesAt (net.tree.parent b) k := by
  obtain ⟨tip, htip⟩ := lanesAt_of_mem hb hk
  have hleaf : net.leavesAt b k = some (net.hashing.smtLeafHash tip (net.score b)) :=
    leavesAt_eq_some.mpr ⟨_, activeAt_eq_some.mpr ⟨htip, Nat.sub_le _ _⟩, rfl⟩
  refine ⟨tip, htip, hleaf, fun hsame => ?_⟩
  rw [hleaf] at hsame
  obtain ⟨v, hv, heq⟩ := leavesAt_eq_some.mp hsame.symm
  -- A leaf has the score of its version.
  have hscore : v.2 = net.score b := (hnet.leaf_inj heq).2
  have hle := hnet.score_le_of_lanesAt (activeAt_eq_some.mp hv).1
  have hlt : net.score (net.tree.parent b) < net.score b := hnet.score_parent b hb
  omega

theorem Lawful.activeAt_of_not_mem (hk : k ∉ (net.touched b).map Prod.fst) :
    net.activeAt b k = (net.activeAt (net.tree.parent b)).from (net.activeMin b) k := by
  apply ext
  intro v
  rw [activeAt_eq_some, lanesAt_of_not_mem hb hk, LaneVersions.from, filter_eq_some_iff,
    activeAt_eq_some, decide_eq_true_iff]
  have hle := hnet.activeMin_le hb
  constructor
  · rintro ⟨hv, hmin⟩
    exact ⟨⟨hv, by omega⟩, hmin⟩
  · rintro ⟨⟨hv, -⟩, hmin⟩
    exact ⟨hv, hmin⟩

/-- The leaves that change: those of touched lanes, and of those that leave the window. -/
theorem Lawful.leavesAt_ne_iff :
    net.leavesAt b k ≠ net.leavesAt (net.tree.parent b) k ↔ k ∈ (net.touched b).map Prod.fst ∨
        ∃ v, net.activeAt (net.tree.parent b) k = some v ∧ v.2 < net.activeMin b := by
  by_cases hk : k ∈ (net.touched b).map Prod.fst
  · obtain ⟨-, -, -, hne⟩ := hnet.leavesAt_of_mem hb hk
    exact ⟨fun _ => .inl hk, fun _ => hne⟩
  · have hactive := hnet.activeAt_of_not_mem hb hk
    rw [leavesAt, leavesAt, hactive, LaneVersions.from]
    cases hv : net.activeAt (net.tree.parent b) k with
    | none => simp [hk]
    | some v =>
      by_cases hmin : net.activeMin b ≤ v.2
      · simp [Option.filter, hmin, hk]
      · simp [Option.filter, hmin, hk, not_le.mp hmin]

end

/-! ## The lanes in the window -/

theorem mem_activeKeys : k ∈ net.activeKeys b ↔ net.activeAt b k ≠ none := by
  unfold activeKeys
  rw [mem_insertionSort, mem_filter, mem_dedup, mem_flatMap, ← isSome_iff_ne_none]
  constructor
  · exact fun h => h.2
  · intro h
    obtain ⟨v, hv⟩ := isSome_iff_exists.mp h
    exact ⟨exists_touched_of_lanesAt (activeAt_eq_some.mp hv).1, h⟩

theorem activeKeys_nodup (b : B) : (net.activeKeys b).Nodup :=
  (perm_insertionSort _ _).nodup_iff.mpr ((nodup_dedup _).filter _)

theorem activeKeys_sorted (b : B) : (net.activeKeys b).Pairwise (· < ·) := by
  have hle : (net.activeKeys b).Pairwise (· ≤ ·) := pairwise_insertionSort _ _
  exact (hle.and (activeKeys_nodup b)).imp fun h => lt_of_le_of_ne h.1 h.2

theorem mem_activeLanes {leaf : D} {s : ℕ} : (k, leaf, s) ∈ net.activeLanes b ↔
      ∃ tip, net.activeAt b k = some (tip, s) ∧ net.hashing.smtLeafHash tip s = leaf := by
  unfold activeLanes
  rw [mem_filterMap]
  constructor
  · rintro ⟨k', -, h⟩
    obtain ⟨⟨tip, s'⟩, hv, heq⟩ := map_eq_some_iff.mp h
    obtain ⟨rfl, hrest⟩ := Prod.mk.inj heq
    obtain ⟨rfl, rfl⟩ := Prod.mk.inj hrest
    exact ⟨tip, hv, rfl⟩
  · rintro ⟨tip, hv, rfl⟩
    exact ⟨k, mem_activeKeys.mpr (by rw [hv]; exact some_ne_none _), by rw [hv]; rfl⟩

theorem activeLanes_map_fst (b : B) : (net.activeLanes b).map Prod.fst = net.activeKeys b := by
  unfold activeLanes
  have h : ∀ k ∈ net.activeKeys b, (net.activeAt b k).isSome := fun k hk =>
    isSome_iff_ne_none.mpr (mem_activeKeys.mp hk)
  generalize net.activeKeys b = keys at h
  induction keys with
  | nil => rfl
  | cons k keys ih =>
    obtain ⟨v, hv⟩ := isSome_iff_exists.mp (h k mem_cons_self)
    rw [filterMap_cons, hv]
    exact congrArg (k :: ·) (ih fun k' hk' => h k' (.tail k hk'))

end Network

end Zkas.Smt
