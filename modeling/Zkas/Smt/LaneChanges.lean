import Zkas.Smt.LaneStore

/-!
# The lane changes of a block

What `build_seq_commit` collects for the next block of a chain: a new tip for each touched lane
(`resolveLaneUpdates_eq`), and the lanes that leave the window (`expireStaleLanes_eq`), which the
score index finds. As leaf updates they are a batch that takes the leaves of the parent to those of
the block (`Changes.batch`). -/

namespace Zkas.Smt

open BitPath SparseTree List Option BlockLaneChanges

/-! ## Collections of changes -/

namespace BlockLaneChanges

variable {D : Type} {c : BlockLaneChanges D}

theorem mem_sorted {k : Key} {change : Option D} :
    (k, change) ∈ c.sorted ↔ c.changes.lookup k = some change := by
  unfold sorted
  rw [List.mem_insertionSort, List.mem_map]
  constructor
  · rintro ⟨⟨k', change'⟩, hmem, heq⟩
    obtain ⟨rfl, rfl⟩ := Prod.mk.inj heq
    exact AList.mem_lookup_iff.mpr hmem
  · intro h
    exact ⟨⟨k, change⟩, AList.mem_lookup_iff.mp h, rfl⟩

theorem sorted_pairwise (c : BlockLaneChanges D) : c.sorted.Pairwise fun r r' => r.1 < r'.1 := by
  have hnodup : (c.sorted.map Prod.fst).Nodup := by
    have hperm : (c.sorted.map Prod.fst).Perm c.changes.keys := by
      refine ((perm_insertionSort _ _).map Prod.fst).trans ?_
      rw [List.map_map]
      exact List.Perm.refl _
    exact hperm.nodup_iff.mpr c.changes.keys_nodup
  have hle : c.sorted.Pairwise fun r r' => r.1 ≤ r'.1 :=
    @List.pairwise_insertionSort _ (fun r r' : Key × Option D => r.1 ≤ r'.1) _
      ⟨fun r r' => le_total r.1 r'.1⟩ ⟨fun _ _ _ h h' => le_trans h h'⟩ _
  rw [List.Nodup, pairwise_map] at hnodup
  exact (hle.and hnodup).imp fun h => lt_of_le_of_ne h.1 h.2

theorem mem_updated {k : Key} {tip : D} :
    (k, tip) ∈ c.updated ↔ c.changes.lookup k = some (some tip) := by
  unfold updated
  rw [mem_filterMap]
  constructor
  · rintro ⟨⟨k', change⟩, hmem, h⟩
    obtain ⟨tip', rfl, heq⟩ := map_eq_some_iff.mp h
    obtain ⟨rfl, rfl⟩ := Prod.mk.inj heq
    exact mem_sorted.mp hmem
  · intro h
    exact ⟨(k, some tip), mem_sorted.mpr h, rfl⟩

theorem updated_nodup (c : BlockLaneChanges D) : (c.updated.map Prod.fst).Nodup := by
  have hpairwise : c.updated.Pairwise fun r r' => r.1 < r'.1 := by
    refine List.Pairwise.filterMap _ (fun r r' hlt s hs s' hs' => ?_) c.sorted_pairwise
    obtain ⟨tip, -, rfl⟩ := map_eq_some_iff.mp hs
    obtain ⟨tip', -, rfl⟩ := map_eq_some_iff.mp hs'
    exact hlt
  rw [List.Nodup, pairwise_map]
  exact hpairwise.imp fun h => ne_of_lt h

end BlockLaneChanges

section

variable {D : Type} {p : SmtProcessor D}

theorem lookup_foldl_expireLane (keys : List Key) (k : Key) :
    (keys.foldl SmtProcessor.expireLane p).lane_changes.changes.lookup k =
      if k ∈ keys then some none else p.lane_changes.changes.lookup k := by
  induction keys generalizing p with
  | nil => rw [foldl_nil, if_neg not_mem_nil]
  | cons k' keys ih =>
    rw [foldl_cons, ih]
    by_cases hk : k ∈ keys
    · rw [if_pos hk, if_pos (mem_cons_of_mem _ hk)]
    · rw [if_neg hk]
      by_cases heq : k = k'
      · rw [if_pos (heq ▸ mem_cons_self), heq]
        exact AList.lookup_insert _
      · rw [if_neg (by simp [heq, hk])]
        exact AList.lookup_insert_ne heq

variable {updates : List (ResolvedLaneUpdate D)}

theorem lookup_foldl_updateLane_of_not_mem {k : Key}
    (hk : k ∉ updates.map ResolvedLaneUpdate.lane_key) :
    (updates.foldl (fun p u => p.updateLane u.lane_key u.new_tip) p).lane_changes.changes.lookup k =
      p.lane_changes.changes.lookup k := by
  induction updates generalizing p with
  | nil => rfl
  | cons u updates ih =>
    rw [map_cons, mem_cons, not_or] at hk
    rw [foldl_cons, ih hk.2]
    exact AList.lookup_insert_ne hk.1

theorem lookup_foldl_updateLane_of_mem
    (hnodup : (updates.map ResolvedLaneUpdate.lane_key).Nodup) {u : ResolvedLaneUpdate D}
    (hu : u ∈ updates) :
    (updates.foldl (fun p u => p.updateLane u.lane_key u.new_tip) p).lane_changes.changes.lookup
      u.lane_key = some (some u.new_tip) := by
  induction updates generalizing p with
  | nil => cases hu
  | cons u' updates ih =>
    rw [map_cons, nodup_cons] at hnodup
    rw [foldl_cons]
    rcases mem_cons.mp hu with rfl | hu
    · rw [lookup_foldl_updateLane_of_not_mem hnodup.1]
      exact AList.lookup_insert _
    · exact ih hnodup.2 hu

theorem foldl_expireLane_frame (keys : List Key) :
    (keys.foldl SmtProcessor.expireLane p).bounds = p.bounds ∧
      (keys.foldl SmtProcessor.expireLane p).current_lanes_root = p.current_lanes_root ∧
      (keys.foldl SmtProcessor.expireLane p).lane_changes.blue_score =
        p.lane_changes.blue_score := by
  induction keys generalizing p with
  | nil => exact ⟨rfl, rfl, rfl⟩
  | cons k keys ih => exact ih

theorem foldl_updateLane_frame (updates : List (ResolvedLaneUpdate D)) :
    (updates.foldl (fun p u => p.updateLane u.lane_key u.new_tip) p).bounds = p.bounds ∧
      (updates.foldl (fun p u => p.updateLane u.lane_key u.new_tip) p).current_lanes_root =
        p.current_lanes_root ∧
      (updates.foldl (fun p u => p.updateLane u.lane_key u.new_tip) p).lane_changes.blue_score =
        p.lane_changes.blue_score := by
  induction updates generalizing p with
  | nil => exact ⟨rfl, rfl, rfl⟩
  | cons u updates ih => exact ih

end

namespace Network

variable {L B D : Type} [LinearOrder B] {net : Network L B D} {base : B} {floor : ℕ}
  {done : List B} {state : SmtState B D}

/-- The update of a touched lane, from the versions of the parent. -/
def laneUpdate (net : Network L B D) (b : B) (t : Key × D) : ResolvedLaneUpdate D where
  lane_key := t.1
  new_tip := net.hashing.laneTipNext
    ((((net.lanesAt (net.tree.parent b)).from (net.activeMin b) t.1).map Prod.fst).getD
      (net.header (net.tree.parent b)).accepted_id_merkle_root) t.1 t.2 (contextHash net b)
  is_new := ((net.lanesAt (net.tree.parent b)).from (net.activeMin b) t.1).isNone

/-- A scan: the lanes that it has not seen and that the window does not show, each once. -/
theorem exists_scan (net : Network L B D) (stores : SmtStores B D) (tip : B)
    (bounds : SmtReadBounds) (keys : List Key)
    (scan : ExpireScan D) :
    ∃ expired : List Key, expired.Nodup ∧ (∀ k, k ∈ expired ↔ k ∈ keys ∧ k ∉ scan.seen ∧
        stores.getLane k bounds (net.isSmtCanonical tip) = none) ∧
      (keys.foldl (expireLane net stores tip bounds) scan).proc =
        expired.foldl SmtProcessor.expireLane scan.proc ∧
      (keys.foldl (expireLane net stores tip bounds) scan).expired =
        scan.expired + expired.length := by
  induction keys generalizing scan with
  | nil => exact ⟨[], nodup_nil, fun k => by simp, rfl, rfl⟩
  | cons k keys ih =>
    rw [foldl_cons]
    by_cases hseen : k ∈ scan.seen
    · have hstep : expireLane net stores tip bounds scan k = scan := by
        rw [expireLane, if_pos hseen]
      obtain ⟨expired, hnodup, hmem, hproc, hcount⟩ := ih scan
      refine ⟨expired, hnodup, fun k' => ?_, by rw [hstep, hproc], by rw [hstep, hcount]⟩
      rw [hmem, mem_cons]
      constructor
      · exact fun h => ⟨.inr h.1, h.2⟩
      · rintro ⟨rfl | hk', hnot, hnone⟩
        · exact absurd hseen hnot
        · exact ⟨hk', hnot, hnone⟩
    · by_cases hnone : stores.getLane k bounds (net.isSmtCanonical tip) = none
      · have hstep : expireLane net stores tip bounds scan k =
            ⟨k :: scan.seen, scan.proc.expireLane k, scan.expired + 1⟩ := by
          rw [expireLane, if_neg hseen, hnone]
          rfl
        obtain ⟨expired, hnodup, hmem, hproc, hcount⟩ :=
          ih ⟨k :: scan.seen, scan.proc.expireLane k, scan.expired + 1⟩
        refine ⟨k :: expired, nodup_cons.mpr ⟨fun h => ?_, hnodup⟩, fun k' => ?_,
          by rw [hstep, hproc]; rfl, by rw [hstep, hcount, length_cons]; dsimp only; omega⟩
        · exact ((hmem k).mp h).2.1 mem_cons_self
        · rw [mem_cons, hmem, mem_cons, mem_cons, not_or]
          constructor
          · rintro (rfl | ⟨hk', hnot, hnone'⟩)
            · exact ⟨.inl rfl, hseen, hnone⟩
            · exact ⟨.inr hk', hnot.2, hnone'⟩
          · rintro ⟨hk', hnot, hnone'⟩
            by_cases heq : k' = k
            · exact .inl heq
            · exact .inr ⟨hk'.resolve_left heq, ⟨heq, hnot⟩, hnone'⟩
      · have hstep : expireLane net stores tip bounds scan k =
            { scan with seen := k :: scan.seen } := by
          rw [expireLane, if_neg hseen, if_neg (by rwa [isNone_iff_eq_none])]
        obtain ⟨expired, hnodup, hmem, hproc, hcount⟩ := ih { scan with seen := k :: scan.seen }
        refine ⟨expired, hnodup, fun k' => ?_, by rw [hstep, hproc], by rw [hstep, hcount]⟩
        rw [hmem, mem_cons, mem_cons, not_or]
        constructor
        · exact fun h => ⟨.inr h.1, h.2.1.2, h.2.2⟩
        · rintro ⟨hk', hnot, hnone'⟩
          have heq : k' ≠ k := fun heq => hnone (heq ▸ hnone')
          exact ⟨hk'.resolve_left heq, ⟨heq, hnot⟩, hnone'⟩

section

variable (hnet : net.Lawful) (hinv : Inv net base floor done state)

include hnet hinv

theorem Inv.getLane_eq {p : B} (hp : p = base ∨ p ∈ done) (k : Key) {min : ℕ} (hmin : floor ≤ min) :
    (state.stores.getLane k ⟨net.score p, min⟩ (net.isSmtCanonical p)).map
      (fun v => (v.value, v.score)) = (net.lanesAt p).from min k := by
  have hlanes := (hinv.holds p hp).lanes k
  unfold SmtStores.getLane
  rw [hinv.lanes.read_latest hnet.toOrdered hinv.region]
  unfold LaneVersions.from at hlanes ⊢
  cases hlatest : latest net state.stores.lane_version p k with
  | none =>
    rw [hlatest, map_none] at hlanes
    cases hk : net.lanesAt p k with
    | none => rfl
    | some w =>
      rw [hk, filter_some] at hlanes
      have hlow : ¬floor ≤ w.2 := fun hle => by simp [hle] at hlanes
      simp [filter_some, show ¬min ≤ w.2 by omega]
  | some v =>
    rw [hlatest, map_some] at hlanes
    obtain ⟨hk, hle⟩ := filter_eq_some_iff.mp hlanes.symm
    rw [hk]
    by_cases hmin' : min ≤ v.score <;> simp [filter_some, hmin']

variable {b : B} (hb : Next net base done b)

include hb

theorem Inv.floor_le : floor ≤ net.activeMin b :=
  ((hinv.holds _ hb.parent).floor_le).trans (hnet.activeMin_le hb.ne_root)

/-- The updates of the touched lanes. -/
theorem Inv.resolveLaneUpdates_eq (hactive : net.toccataActive b = true) :
    resolveLaneUpdates net state.stores (net.tree.parent b) (net.lane_activities b)
        (contextHash net b) (net.score b) (net.score (net.tree.parent b))
        (net.header (net.tree.parent b)).accepted_id_merkle_root =
      (net.touched b).map (net.laneUpdate b) := by
  unfold resolveLaneUpdates touched
  rw [if_pos hactive, List.map_map]
  refine List.map_congr_left fun activity _ => ?_
  obtain ⟨ℓ, leaves⟩ := activity
  have hread := hinv.getLane_eq hnet hb.parent (net.hashing.laneKey ℓ) (hinv.floor_le hnet hb)
  have htip : ((net.lanesAt (net.tree.parent b)).from (net.activeMin b)
      (net.hashing.laneKey ℓ)).map Prod.fst = (state.stores.getLane (net.hashing.laneKey ℓ)
        ⟨net.score (net.tree.parent b), net.activeMin b⟩
        (net.isSmtCanonical (net.tree.parent b))).map Version.value := by
    rw [← hread, Option.map_map]
    rfl
  have hnew : ((net.lanesAt (net.tree.parent b)).from (net.activeMin b)
      (net.hashing.laneKey ℓ)).isNone = (state.stores.getLane (net.hashing.laneKey ℓ)
        ⟨net.score (net.tree.parent b), net.activeMin b⟩
        (net.isSmtCanonical (net.tree.parent b))).isNone := by
    rw [← hread, isNone_map]
  dsimp only [Function.comp, laneUpdate]
  rw [htip, hnew]
  rfl

theorem Inv.getLane_eq_none_iff {k : Key} :
    state.stores.getLane k ⟨net.score (net.tree.parent b), net.activeMin b⟩
        (net.isSmtCanonical (net.tree.parent b)) = none ↔
      ∀ w, net.lanesAt (net.tree.parent b) k = some w → w.2 < net.activeMin b := by
  have hread := hinv.getLane_eq hnet hb.parent k (hinv.floor_le hnet hb)
  rw [← map_eq_none_iff, hread, LaneVersions.from, filter_eq_none_iff]
  simp only [decide_eq_true_eq, not_le]

/-- The lanes that expire are those of the parent that are below the window of the block. -/
theorem Inv.expireStaleLanes_eq (proc : SmtProcessor D) : ∃ expired : List Key, expired.Nodup ∧
      (∀ k, k ∈ expired ↔
        ∃ w, net.activeAt (net.tree.parent b) k = some w ∧ w.2 < net.activeMin b) ∧
      expireStaleLanes net state.stores (net.tree.parent b) proc
          (.new (net.score (net.tree.parent b)) (net.score b) net.finality_depth) =
        (expired.foldl SmtProcessor.expireLane proc, expired.length) := by
  have hholds := hinv.holds _ hb.parent
  have hrange : (SeqCommitBounds.new (net.score (net.tree.parent b)) (net.score b)
      net.finality_depth).newlyExpiredRange =
        if net.activeMin b ≤ net.activeMin (net.tree.parent b) then none
        else some (net.activeMin (net.tree.parent b), net.activeMin b - 1) := rfl
  unfold expireStaleLanes
  rw [hrange]
  by_cases hsame : net.activeMin b ≤ net.activeMin (net.tree.parent b)
  · rw [if_pos hsame]
    refine ⟨[], nodup_nil, fun k => ?_, rfl⟩
    constructor
    · exact fun h => by cases h
    · rintro ⟨w, hw, hlt⟩
      have := (activeAt_eq_some.mp hw).2
      omega
  · rw [if_neg hsame]
    obtain ⟨expired, hnodup, hmem, hproc, hcount⟩ := exists_scan net state.stores
      (net.tree.parent b) ⟨net.score (net.tree.parent b), net.activeMin b⟩
      (((state.stores.score_index.getLeafUpdates (net.activeMin (net.tree.parent b))
        (net.activeMin b - 1)).filter fun entry =>
          net.isSmtCanonical (net.tree.parent b) entry.block).flatMap Version.value)
      { seen := [], proc, expired := 0 }
    refine ⟨expired, hnodup, fun k => ?_, Prod.ext hproc (hcount.trans (Nat.zero_add _))⟩
    rw [hmem, hinv.getLane_eq_none_iff hnet hb, mem_flatMap]
    constructor
    · -- An entry in the range is of a lane with a version that is not older.
      rintro ⟨⟨entry, hentry, hk⟩, -, hlow⟩
      obtain ⟨hentry, hcanonical⟩ := mem_filter.mp hentry
      obtain ⟨batch_id, max_depth, hlookup, hfirst, -⟩ := ScoreIndex.mem_getLeafUpdates.mp hentry
      obtain ⟨w, hw, hs⟩ := hholds.entries _ _ _ _ _ hlookup hcanonical k hk
      exact ⟨w, activeAt_eq_some.mpr ⟨hw, hfirst.trans hs⟩, hlow w hw⟩
    · rintro ⟨w, hw, hlt⟩
      obtain ⟨hw, hmin⟩ := activeAt_eq_some.mp hw
      obtain ⟨block, batch_id, max_depth, keys, hlookup, hcanonical, hk⟩ :=
        hholds.listed k w hw (hholds.floor_le.trans hmin)
      refine ⟨⟨⟨w.2, block, keys⟩, mem_filter.mpr ⟨?_, hcanonical⟩, hk⟩, not_mem_nil, ?_⟩
      · exact ScoreIndex.mem_getLeafUpdates.mpr ⟨batch_id, max_depth, hlookup, hmin, by
          change w.2 ≤ net.activeMin b - 1
          omega⟩
      · intro w' hw'
        rw [hw] at hw'
        cases hw'
        exact hlt

end

/-- What a block changes: it gives touched lanes their tips and removes the others that leave the
window. -/
structure Changes (net : Network L B D) (b : B) (c : BlockLaneChanges D) : Prop where
  blue_score : c.blue_score = net.score b
  touched : ∀ k ∈ (net.touched b).map Prod.fst, ∃ tip,
    net.lanesAt b k = some (tip, net.score b) ∧ c.changes.lookup k = some (some tip)
  untouched : ∀ k ∉ (net.touched b).map Prod.fst, c.changes.lookup k = none ∨
    c.changes.lookup k = some none
  expired : ∀ k ∉ (net.touched b).map Prod.fst, c.changes.lookup k = some none ↔
    ∃ w, net.activeAt (net.tree.parent b) k = some w ∧ w.2 < net.activeMin b

omit [LinearOrder B] in
theorem Changes.not_updated {b : B} {c : BlockLaneChanges D} (h : Changes net b c) {k : Key}
    (hk : k ∉ (net.touched b).map Prod.fst) : k ∉ c.updated.map Prod.fst := fun hmem => by
  obtain ⟨⟨k', tip⟩, hupdated, rfl⟩ := mem_map.mp hmem
  have hlookup := mem_updated.mp hupdated
  rcases h.untouched k' hk with hnone | hnone <;> rw [hnone] at hlookup <;> cases hlookup

omit [LinearOrder B] in
theorem Changes.updated_ne_nil {b : B} {c : BlockLaneChanges D} (hnet : net.Lawful)
    (hactive : net.toccataActive b = true) (h : Changes net b c) :
    c.updated.map Prod.fst ≠ [] := by
  obtain ⟨tip, -, hlookup⟩ := h.touched _ (hnet.coinbase_mem hactive)
  exact ne_nil_of_mem (mem_map_of_mem (mem_updated.mpr hlookup))

section

variable (hnet : net.Lawful) (hinv : Inv net base floor done state) {b : B}
  (hb : Next net base done b)

include hnet hinv hb

theorem Inv.laneChanges_eq (parent : ParentBlockSeqState D)
    (hparent : parent.blue_score = net.score (net.tree.parent b)) :
    ∃ proc expired, laneChanges net state.stores (net.tree.parent b) parent (net.score b)
        ((net.touched b).map (net.laneUpdate b)) = (proc, length (α := Key) expired) ∧
      proc.bounds = ⟨net.score (net.tree.parent b), net.activeMin b⟩ ∧
      proc.current_lanes_root = parent.lanes_root ∧ Changes net b proc.lane_changes ∧
      expired.Nodup ∧ ∀ k, k ∈ expired ↔
        ∃ w, net.activeAt (net.tree.parent b) k = some w ∧ w.2 < net.activeMin b := by
  obtain ⟨expired, hnodup, hmem, hexpire⟩ := hinv.expireStaleLanes_eq hnet hb
    (.new (net.score b) ⟨net.score (net.tree.parent b), net.activeMin b⟩ parent.lanes_root)
  set proc₀ := SmtProcessor.new (net.score b)
    ⟨net.score (net.tree.parent b), net.activeMin b⟩ parent.lanes_root with hproc₀
  set updates := (net.touched b).map (net.laneUpdate b) with hupdates
  have hkeys : updates.map ResolvedLaneUpdate.lane_key = (net.touched b).map Prod.fst := by
    rw [hupdates, List.map_map]
    rfl
  have hframe := foldl_expireLane_frame (p := proc₀) expired
  have hframe' := foldl_updateLane_frame (p := expired.foldl SmtProcessor.expireLane proc₀) updates
  have hcollect : laneChanges net state.stores (net.tree.parent b) parent (net.score b) updates =
      (updates.foldl (fun p u => p.updateLane u.lane_key u.new_tip)
        (expireStaleLanes net state.stores (net.tree.parent b) proc₀
          (.new (net.score (net.tree.parent b)) (net.score b) net.finality_depth)).1,
        (expireStaleLanes net state.stores (net.tree.parent b) proc₀
          (.new (net.score (net.tree.parent b)) (net.score b) net.finality_depth)).2) := by
    rw [laneChanges, hparent]
    rfl
  refine ⟨_, expired, by rw [hcollect, hexpire], ?_, ?_, ⟨?_, ?_, ?_, ?_⟩, hnodup, hmem⟩
  · rw [hframe'.1, hframe.1]
    rfl
  · rw [hframe'.2.1, hframe.2.1]
    rfl
  · rw [hframe'.2.2, hframe.2.2]
    rfl
  · intro k hk
    obtain ⟨⟨k', digest⟩, htouched, rfl⟩ := mem_map.mp hk
    have hupdate := lookup_foldl_updateLane_of_mem
      (p := expired.foldl SmtProcessor.expireLane proc₀) (hkeys ▸ hnet.touched_nodup b)
      (mem_map_of_mem (f := net.laneUpdate b) htouched)
    refine ⟨_, ?_, hupdate⟩
    rw [lanesAt_of_ne hb.ne_root, laneStep, hnet.lookup_touched htouched]
    rfl
  · intro k hk
    rw [lookup_foldl_updateLane_of_not_mem (hkeys ▸ hk), lookup_foldl_expireLane]
    by_cases hk' : k ∈ expired
    · rw [if_pos hk']
      exact .inr rfl
    · rw [if_neg hk']
      exact .inl rfl
  · intro k hk
    rw [lookup_foldl_updateLane_of_not_mem (hkeys ▸ hk), lookup_foldl_expireLane, ← hmem]
    by_cases hk' : k ∈ expired
    · simp [hk']
    · rw [if_neg hk']
      simp only [hk', iff_false]
      exact fun h => by cases h

end

/-! ## The batch of a block -/

section

variable [DecidableEq D] {b : B} {c : BlockLaneChanges D}

omit [LinearOrder B] [DecidableEq D] in
theorem mem_toLeafUpdates {H : SmtHasher D} {smt_leaf_hash : D → ℕ → D} {u : LeafUpdate D} :
    u ∈ c.toLeafUpdates H smt_leaf_hash ↔ ∃ change, c.changes.lookup u.key = some change ∧
      u.leaf_hash = change.elim H.ZERO_HASH (smt_leaf_hash · c.blue_score) := by
  unfold BlockLaneChanges.toLeafUpdates
  rw [List.mem_map]
  constructor
  · rintro ⟨⟨k, change⟩, hmem, rfl⟩
    exact ⟨change, mem_sorted.mp hmem, rfl⟩
  · rintro ⟨change, hlookup, hleaf⟩
    obtain ⟨k, leaf⟩ := u
    exact ⟨(k, change), mem_sorted.mpr hlookup, congrArg (LeafUpdate.mk k) hleaf.symm⟩

omit [LinearOrder B] in
/-- The changes of a block are a batch that leads to its leaves. -/
theorem Changes.batch (hnet : net.Lawful) (hb : b ≠ net.tree.root) (h : Changes net b c) :
    Batch net.hashing.activeNode (net.leavesAt (net.tree.parent b)) (net.leavesAt b) 0 0
      (c.toLeafUpdates net.hashing.activeNode net.hashing.smtLeafHash) := by
  have hlane {k : Key} {change : Option D} (hlookup : c.changes.lookup k = some change) :
      ∃ ℓ, net.hashing.laneKey ℓ = k := by
    by_cases hk : k ∈ (net.touched b).map Prod.fst
    · obtain ⟨tip, htip, -⟩ := h.touched k hk
      exact exists_lane_of_lanesAt htip
    · rcases h.untouched k hk with hnone | hnone
      · rw [hnone] at hlookup
        cases hlookup
      · obtain ⟨w, hw, -⟩ := (h.expired k hk).mp hnone
        exact exists_lane_of_lanesAt (activeAt_eq_some.mp hw).1
  have hpresent {k : Key} (hk : net.leavesAt (net.tree.parent b) k ≠ none ∨
      ∃ u ∈ c.toLeafUpdates net.hashing.activeNode net.hashing.smtLeafHash, u.key = k) :
      ∃ ℓ, net.hashing.laneKey ℓ = k := by
    rcases hk with hk | ⟨u, hu, rfl⟩
    · rw [Ne, leavesAt_eq_none] at hk
      obtain ⟨w, hw⟩ := ne_none_iff_exists'.mp hk
      exact exists_lane_of_lanesAt (activeAt_eq_some.mp hw).1
    · obtain ⟨change, hlookup, -⟩ := mem_toLeafUpdates.mp hu
      exact hlane hlookup
  refine ⟨?_, fun u _ => agree_zero _ _, fun u hu => ?_, fun y _ hy => ?_,
    fun y y' _ _ hy hy' => hnet.key_eq (hpresent hy) (hpresent hy')⟩
  · unfold toLeafUpdates
    rw [pairwise_map]
    exact c.sorted_pairwise
  · obtain ⟨change, hlookup, hleaf⟩ := mem_toLeafUpdates.mp hu
    by_cases hk : u.key ∈ (net.touched b).map Prod.fst
    · obtain ⟨tip, htip, hlookup'⟩ := h.touched u.key hk
      obtain ⟨tip', htip', hleaves, -⟩ := hnet.leavesAt_of_mem hb hk
      obtain rfl : tip = tip' := (Prod.mk.inj (mem_unique htip htip')).1
      obtain rfl : some tip = change := mem_unique hlookup' hlookup
      have hleaf' : u.leaf_hash = net.hashing.smtLeafHash tip (net.score b) := by
        rw [hleaf, h.blue_score]
        rfl
      rw [hleaves, LeafUpdate.leaf, hleaf', if_pos (hnet.leaf_ne_zero tip _)]
    · have hnone : change = none := by
        rcases h.untouched u.key hk with hnone | hnone <;> rw [hnone] at hlookup
        · cases hlookup
        · exact (some.inj hlookup).symm
      rw [hnone] at hlookup hleaf
      obtain ⟨w, hw, hlt⟩ := (h.expired u.key hk).mp hlookup
      rw [LeafUpdate.leaf, hleaf, if_neg (fun hne => hne rfl), leavesAt_eq_none,
        hnet.activeAt_of_not_mem hb hk, LaneVersions.from, hw, filter_some, if_neg]
      simpa using hlt
  · have hnone : c.changes.lookup y = none := by
      by_contra hsome
      obtain ⟨change, hlookup⟩ := ne_none_iff_exists'.mp hsome
      exact hy
        ⟨y, change.elim net.hashing.activeNode.ZERO_HASH (net.hashing.smtLeafHash · c.blue_score)⟩
        (mem_toLeafUpdates.mpr ⟨change, hlookup, rfl⟩) rfl
    by_contra hne
    rcases (hnet.leavesAt_ne_iff hb).mp hne with hk | hexpired
    · obtain ⟨tip, -, hlookup⟩ := h.touched y hk
      rw [hnone] at hlookup
      cases hlookup
    · by_cases hk : y ∈ (net.touched b).map Prod.fst
      · obtain ⟨tip, -, hlookup⟩ := h.touched y hk
        rw [hnone] at hlookup
        cases hlookup
      · have := (h.expired y hk).mpr hexpired
        rw [hnone] at this
        cases this

omit [LinearOrder B] [DecidableEq D] in
theorem Changes.ne (hnet : net.Lawful) (hb : b ≠ net.tree.root) (h : Changes net b c)
    {u : LeafUpdate D} (hu : u ∈ c.toLeafUpdates net.hashing.activeNode net.hashing.smtLeafHash) :
    net.leavesAt b u.key ≠ net.leavesAt (net.tree.parent b) u.key := by
  obtain ⟨change, hlookup, -⟩ := mem_toLeafUpdates.mp hu
  rw [hnet.leavesAt_ne_iff hb]
  by_cases hk : u.key ∈ (net.touched b).map Prod.fst
  · exact .inl hk
  · refine .inr ((h.expired u.key hk).mp ?_)
    rcases h.untouched u.key hk with hnone | hnone
    · rw [hnone] at hlookup
      cases hlookup
    · exact hnone

end

end Network

end Zkas.Smt
