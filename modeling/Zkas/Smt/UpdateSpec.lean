import Zkas.Smt.Built

/-!
# The root after a batch of updates

`computes_computeSubtree` says what `compute_subtree` leaves (`Left`) of a store that it can read
(`Readable`). Below a position where nothing is seen the updates alone make the new tree
(`computeSides_blank`), also below a collapsed leaf, once it is one of the updates. No two keys
share all but the last bit, so the walk never has two leaves at a leaf parent. -/

namespace Zkas.Smt

open BitPath SparseTree List NodeResult

variable {D : Type}

/-! ## Batches -/

section

variable [DecidableEq D]

/-- The leaf that an update sets. -/
def LeafUpdate.leaf (H : SmtHasher D) (u : LeafUpdate D) : Option D :=
  if u.leaf_hash ≠ H.ZERO_HASH then some u.leaf_hash else none

/-- Sorted updates below a position, which take the leaves from `m` to `m'`. No two leaves or
updates are below one leaf parent. -/
structure Batch (H : SmtHasher D) (m m' : Key → Option D) (d : ℕ) (k : Key)
    (us : List (LeafUpdate D)) : Prop where
  sorted : us.Pairwise fun u u' => u.key < u'.key
  below : ∀ u ∈ us, Agree d k u.key
  sets : ∀ u ∈ us, m' u.key = u.leaf H
  rest : ∀ y, Agree d k y → (∀ u ∈ us, u.key ≠ y) → m' y = m y
  apart : ∀ y y', Agree d k y → Agree d k y' → (m y ≠ none ∨ ∃ u ∈ us, u.key = y) →
    (m y' ≠ none ∨ ∃ u ∈ us, u.key = y') → Agree 255 y y' → y = y'

variable {H : SmtHasher D} {m m' : Key → Option D} {view : BranchKey → Option (Node D)} {d : ℕ}
  {k : Key} {us : List (LeafUpdate D)} {changes : SmtNodeChanges D}

theorem Batch.side (h : Batch H m m' d k us) (hd : d < 256) (b : Bool) :
    Batch H m m' (d + 1) (withBit k d b) (us.filter fun u => u.key.getMsbD d == b) := by
  have hup {y : Key} (hy : Agree (d + 1) (withBit k d b) y) := (agree_withBit_iff hd).mp hy
  have hmem {u : LeafUpdate D} (hu : u ∈ us.filter fun u => u.key.getMsbD d == b) :
      u ∈ us ∧ u.key.getMsbD d = b := by
    simpa only [mem_filter, beq_iff_eq] using hu
  have hpresent {y : Key} (hy : m y ≠ none ∨
      ∃ u ∈ us.filter fun u => u.key.getMsbD d == b, u.key = y) :
      m y ≠ none ∨ ∃ u ∈ us, u.key = y := by
    rcases hy with hy | ⟨u, hu, hkey⟩
    · exact .inl hy
    · exact .inr ⟨u, (hmem hu).1, hkey⟩
  refine ⟨h.sorted.filter _, fun u hu => ?_, fun u hu => h.sets u (hmem hu).1, fun y hy hne => ?_,
    fun y y' hy hy' hp hp' => ?_⟩
  · exact (agree_withBit_iff hd).mpr ⟨h.below u (hmem hu).1, (hmem hu).2⟩
  · refine h.rest y (hup hy).1 fun u hu hkey => ?_
    refine hne u (mem_filter.mpr ⟨hu, ?_⟩) hkey
    rw [hkey, (hup hy).2, beq_self_eq_true]
  · exact h.apart y y' (hup hy).1 (hup hy').1 (hpresent hp) (hpresent hp')

theorem Batch.partitionByBit_eq (h : Batch H m m' d k us) (hd : d < 256) :
    partitionByBit us d = (us.filter fun u => u.key.getMsbD d == false,
      us.filter fun u => u.key.getMsbD d == true) := by
  obtain ⟨htake, hdrop⟩ := takeWhile_eq_filter LeafUpdate.key hd h.sorted h.below
  unfold partitionByBit bitAt
  rw [htake, hdrop]
  simp only [beq_false, beq_true]

theorem Batch.eq_singleton (h : Batch H m m' 255 k us) (hne : us ≠ []) : ∃ u, us = [u] := by
  match us, hne, h with
  | [u], _, _ => exact ⟨u, rfl⟩
  | u :: u' :: us, _, h =>
    have hu : u ∈ u :: u' :: us := mem_cons_self
    have hu' : u' ∈ u :: u' :: us := mem_cons_of_mem _ mem_cons_self
    have hkey := h.apart u.key u'.key (h.below u hu) (h.below u' hu') (.inr ⟨u, hu, rfl⟩)
      (.inr ⟨u', hu', rfl⟩) ((h.below u hu).symm.trans (h.below u' hu'))
    have hlt := (pairwise_cons.mp h.sorted).1 u' mem_cons_self
    rw [hkey] at hlt
    exact absurd hlt (BitVec.lt_irrefl _)

theorem Batch.nodeAt_single {u : LeafUpdate D} (h : Batch H (fun _ => none) m' d k [u])
    (hd : d ≤ 256) : nodeAt H m' d k = leafResult H (some u) := by
  have hset := h.sets u mem_cons_self
  have hrest : ∀ y, Agree d k y → y ≠ u.key → m' y = none := fun y hy hne =>
    h.rest y hy fun u' hu' => by rw [mem_singleton.mp hu']; exact hne.symm
  unfold LeafUpdate.leaf at hset
  rw [leafResult]
  by_cases hzero : u.leaf_hash ≠ H.ZERO_HASH
  · rw [if_pos hzero] at hset ⊢
    exact (nodeAt_eq_collapsed_iff hd).mpr ⟨h.below u mem_cons_self, hset, hrest⟩
  · rw [if_neg hzero] at hset ⊢
    refine (nodeAt_eq_empty_iff hd).mpr fun y hy => ?_
    by_cases hy' : y = u.key
    · rw [hy', hset]
    · exact hrest y hy hy'

omit [DecidableEq D] in
/-- The updates of a collapsed leaf that is in the way: the leaf is one of them, unless it is
updated. -/
theorem mem_expandSingleton {cl : CollapsedLeaf D} {u : LeafUpdate D} :
    u ∈ (expandSingleton (some (.collapsed cl)) us).2 ↔
      u ∈ us ∨ (∀ u ∈ us, u.key ≠ cl.lane_key) ∧ u = ⟨cl.lane_key, cl.leaf_hash⟩ := by
  unfold expandSingleton
  dsimp only
  split_ifs with hmem
  · obtain ⟨u', hu', hkey⟩ := hmem
    exact ⟨.inl, fun h => h.resolve_right fun hnone => hnone.1 u' hu' hkey⟩
  · push Not at hmem
    nth_rewrite 3 [← takeWhile_append_dropWhile (p := fun u => decide (u.key < cl.lane_key))
      (l := us)]
    simp only [mem_append, mem_cons]
    tauto

theorem Batch.expand (h : Batch H m m' d k us) {cl : CollapsedLeaf D}
    (honly : ∀ y, Agree d k y → y ≠ cl.lane_key → m y = none) (hagree : Agree d k cl.lane_key)
    (hleaf : m cl.lane_key = some cl.leaf_hash) (hnonzero : cl.leaf_hash ≠ H.ZERO_HASH) :
    Batch H (fun _ => none) m' d k (expandSingleton (some (.collapsed cl)) us).2 := by
  have hpresent {y : Key} (hy : (none : Option D) ≠ none ∨
      ∃ u ∈ (expandSingleton (some (.collapsed cl)) us).2, u.key = y) :
      m y ≠ none ∨ ∃ u ∈ us, u.key = y := by
    obtain ⟨u, hu, rfl⟩ := hy.resolve_left (fun hne => hne rfl)
    rcases mem_expandSingleton.mp hu with hu | ⟨-, rfl⟩
    · exact .inr ⟨u, hu, rfl⟩
    · exact .inl (by rw [hleaf]; exact Option.some_ne_none _)
  refine ⟨?_, fun u hu => ?_, fun u hu => ?_, fun y hy hne => ?_, fun y y' hy hy' hp hp' =>
    h.apart y y' hy hy' (hpresent hp) (hpresent hp')⟩
  · unfold expandSingleton
    dsimp only
    split_ifs with hmem
    · exact h.sorted
    · push Not at hmem
      exact pairwise_insert (e := { key := cl.lane_key, leaf_hash := cl.leaf_hash }) LeafUpdate.key
        h.sorted hmem
  · rcases mem_expandSingleton.mp hu with hu | ⟨-, rfl⟩
    · exact h.below u hu
    · exact hagree
  · rcases mem_expandSingleton.mp hu with hu | ⟨hnone, rfl⟩
    · exact h.sets u hu
    · rw [h.rest _ hagree hnone, hleaf, LeafUpdate.leaf, if_pos hnonzero]
  · have hus : ∀ u ∈ us, u.key ≠ y := fun u hu => hne u (mem_expandSingleton.mpr (.inl hu))
    rw [h.rest y hy hus]
    refine honly y hy ?_
    rintro rfl
    exact hne _ (mem_expandSingleton.mpr (.inr ⟨hus, rfl⟩)) rfl

/-! ## The walk -/

/-- The keys of a batch. -/
def keysOf (us : List (LeafUpdate D)) (y : Key) : Prop := ∃ u ∈ us, u.key = y

/-- Every inner node with updates below changes. -/
def Differs (H : SmtHasher D) (m m' : Key → Option D) (updated : Key → Prop) : Prop :=
  ∀ e x hash, e < 256 → (∃ y, Agree e x y ∧ updated y) → nodeAt H m e x = .internal hash →
    nodeAt H m' e x ≠ .internal hash

/-- A computation of the subtrees at a depth, for the updates of some leaves. -/
def Computes {ε : Type} (H : SmtHasher D) (m m' : Key → Option D) (updated : Key → Prop)
    (strict : Prop) (view : BranchKey → Option (Node D)) (d : ℕ)
    (recurse : SmtNodeChanges D → List (LeafUpdate D) →
      Except (Fault ε) (NodeResult D × SmtNodeChanges D)) : Prop :=
  ∀ c us k, us ≠ [] → Batch H m m' d k us → (∀ y, Agree d k y → (updated y ↔ keysOf us y)) →
    Readable H m updated view d k → Fresh c d k →
    ∃ c', recurse c us = .ok (nodeAt H m' d k, c') ∧ Left H m' updated strict view d k c c'

section

variable {ε : Type} {store : SmtStore ε D} {updated : Key → Prop} {strict : Prop}
  {recurse : SmtNodeChanges D → List (LeafUpdate D) →
    Except (Fault ε) (NodeResult D × SmtNodeChanges D)}

theorem computeSides_eq (hd : d < 255) {m₀ : Key → Option D} (hbatch : Batch H m₀ m' d k us)
    {existing : Option (Node D)}
    {c₁ c₂ : SmtNodeChanges D}
    (hleft : computeSide store recurse changes (us.filter fun u => u.key.getMsbD d == false)
      (.new d k) false d = .ok (nodeAt H m' (d + 1) (withBit k d false), c₁))
    (hright : computeSide store recurse c₁ (us.filter fun u => u.key.getMsbD d == true)
      (.new d k) true d = .ok (nodeAt H m' (d + 1) (withBit k d true), c₂)) :
    computeSides H store recurse changes (.new d k) existing us d =
      .ok (nodeAt H m' d k, recordChange (promote c₂ (.new d k) (nodeAt H m' d k) d) (.new d k)
        existing (node (nodeAt H m' d k))) := by
  have hmerge : nodeAt H m' d k = Summary.merge H (DEPTH - 1 - d)
      (nodeAt H m' (d + 1) (withBit k d false)) (nodeAt H m' (d + 1) (withBit k d true)) := by
    rw [nodeAt_of_lt (by omega), show 256 - d - 1 = DEPTH - 1 - d by unfold DEPTH; omega]
  rw [computeSides, hbatch.partitionByBit_eq (by omega)]
  simp only [hleft, hright, Except.ok_bind, mergedNode, ← hmerge]
  rfl

theorem leafResult_ne_internal {u : Option (LeafUpdate D)} {hash : D} :
    leafResult H u ≠ .internal hash := by
  cases u with
  | none => exact fun h => by cases h
  | some u =>
    rw [leafResult]
    split_ifs <;> exact fun h => by cases h

variable {u : LeafUpdate D}

theorem visitRead_none :
    visitRead H changes (.new d k) none u [] = .done (leafResult H (some u))
      (recordChange changes (.new d k) none (node (leafResult H (some u)))) := by
  by_cases hzero : u.leaf_hash = H.ZERO_HASH
  · simp only [visitRead, visitSingle, leafResult, hzero, if_true, ne_eq, not_true_eq_false,
      if_false]
    rfl
  · simp only [visitRead, visitSingle, leafResult, hzero, if_true, ne_eq, not_false_eq_true,
      if_false]
    rfl

theorem visitRead_expand {bk : BranchKey} {cl : CollapsedLeaf D}
    (h : ¬(us = [] ∧ u.key = cl.lane_key)) :
    visitRead H changes bk (some (.collapsed cl)) u us =
      .descend bk none (expandSingleton (some (.collapsed cl)) (u :: us)).2 := by
  have hsingle : (if us = [] then visitSingle H changes bk (some (.collapsed cl)) u else none) =
      none := by
    by_cases hus : us = []
    · rw [if_pos hus, visitSingle, if_neg fun hkey => h ⟨hus, hkey⟩]
    · rw [if_neg hus]
  rw [visitRead, hsingle, expandSingleton]
  split_ifs <;> rfl

theorem Batch.blank (h : Batch H m m' d k us) (hd : d < 256)
    (hupdated : ∀ y, Agree d k y → (updated y ↔ keysOf us y))
      (hread : Readable H m updated view d k)
    (hnone : view (.new d k) = none) : Batch H (fun _ => none) m' d k us := by
  refine ⟨h.sorted, h.below, h.sets, fun y hy hne => ?_, fun y y' hy hy' hp hp' => ?_⟩
  · by_contra hsome
    have hmy : m y ≠ none := h.rest y hy hne ▸ hsome
    have hstored : stored H m k d 0 ≠ none := by
      intro hs
      have hempty : nodeAt H m d k = .empty := by
        rw [← ofNode_node (nodeAt H m d k)]
        exact congrArg ofNode hs
      exact hmy ((nodeAt_eq_empty_iff hd.le).mp hempty y hy)
    obtain ⟨u, hu, hkey⟩ :=
      (hupdated y hy).mp (hread.unseen 0 k hd (.refl d k) hnone hstored y hy hmy)
    exact hne u hu hkey
  · exact h.apart y y' hy hy' (.inr (hp.resolve_left fun hne => hne rfl))
      (.inr (hp'.resolve_left fun hne => hne rfl))

variable (hstore : ∀ bk, store.getNode bk = .ok (view bk))
include hstore

omit [DecidableEq D] in
theorem readNode_of_fresh {bk : BranchKey} (h : changes bk = none) :
    readNode store changes bk = .ok (view bk) := by
  rw [readNode, h, hstore]

theorem visit_eq (hd : d < 256) (hu : Agree d k u.key) (hfresh : Fresh changes d k) :
    visit H store changes (u :: us) d =
      .ok (visitRead H changes (.new d k) (view (.new d k)) u us) := by
  have hkey : BranchKey.new d u.key = .new d k := (BranchKey.new_eq_iff hd.le).mpr hu.symm
  have hread := readNode_of_fresh hstore (hfresh 0 k hd (.refl d k))
  rw [visit, hkey]
  rw [add_zero] at hread
  rw [hread]
  rfl

variable {left : ℕ}

theorem computeSubtree_done (hd : d + left = 255)
    (hu : Agree d k u.key) (hfresh : Fresh changes d k) {result : NodeResult D}
    {changes' : SmtNodeChanges D}
    (hvisit : visitRead H changes (.new d k) (view (.new d k)) u us = .done result changes') :
    computeSubtree H store left changes (u :: us) = .ok (result, changes') := by
  have hvisit' : visit H store changes (u :: us) d = .ok (.done result changes') :=
    (visit_eq hstore (by omega) hu hfresh).trans (congrArg Except.ok hvisit)
  cases left with
  | zero =>
    rw [computeSubtree, show DEPTH - 1 = d by unfold DEPTH; omega, hvisit']
    rfl
  | succ left =>
    rw [computeSubtree, show DEPTH - 1 - (left + 1) = d by unfold DEPTH; omega]
    simp only [hvisit']
    rfl

theorem computeSubtree_descend (hd : d + (left + 1) = 255)
    (hu : Agree d k u.key) (hfresh : Fresh changes d k) {existing : Option (Node D)}
    {us' : List (LeafUpdate D)}
    (hvisit : visitRead H changes (.new d k) (view (.new d k)) u us =
      .descend (.new d k) existing us') :
    computeSubtree H store (left + 1) changes (u :: us) =
      computeSides H store (computeSubtree H store left) changes (.new d k) existing us' d := by
  have hvisit' : visit H store changes (u :: us) d = .ok (.descend (.new d k) existing us') :=
    (visit_eq hstore (by omega) hu hfresh).trans (congrArg Except.ok hvisit)
  rw [computeSubtree, show DEPTH - 1 - (left + 1) = d by unfold DEPTH; omega]
  simp only [hvisit']
  rfl

omit [DecidableEq D] in
theorem computeSide_nil (hd : d < 255) {b : Bool} (hfresh : Fresh changes (d + 1) (withBit k d b)) :
    computeSide store recurse changes [] (.new d k) b d =
      .ok (ofNode (view (.new (d + 1) (withBit k d b))), changes) := by
  have hread := readNode_of_fresh hstore (hfresh 0 (withBit k d b) (by omega) (.refl _ _))
  rw [add_zero] at hread
  rw [computeSide, if_pos rfl, readSiblingResult, childBranchKey_new (by omega), hread]
  rfl

/-! ### What a visit leaves -/

theorem computeSide_left (hd : d < 255)
    (hrec : Computes H m m' updated strict view (d + 1) recurse) (hbatch : Batch H m m' d k us)
    (hupdated : ∀ y, Agree d k y → (updated y ↔ keysOf us y)) (b : Bool)
    (hread : Readable H m updated view (d + 1) (withBit k d b))
    (hfresh : Fresh changes (d + 1) (withBit k d b)) :
    ∃ c', computeSide store recurse changes (us.filter fun u => u.key.getMsbD d == b)
    (.new d k) b d = .ok (nodeAt H m' (d + 1) (withBit k d b), c') ∧
      Left H m' updated strict view (d + 1) (withBit k d b) changes c' := by
  have hd' : d < 256 := by omega
  have hside := hbatch.side hd' b
  have hupdated' : ∀ y, Agree (d + 1) (withBit k d b) y →
      (updated y ↔ keysOf (us.filter fun u => u.key.getMsbD d == b) y) := by
    intro y hy
    obtain ⟨hy, hbit⟩ := (agree_withBit_iff hd').mp hy
    rw [hupdated y hy]
    constructor
    · rintro ⟨u, hu, rfl⟩
      exact ⟨u, mem_filter.mpr ⟨hu, by rw [hbit, beq_self_eq_true]⟩, rfl⟩
    · rintro ⟨u, hu, rfl⟩
      exact ⟨u, (mem_filter.mp hu).1, rfl⟩
  by_cases hnil : (us.filter fun u => u.key.getMsbD d == b) = []
  · rw [hnil] at hside hupdated' ⊢
    have hsame : ∀ y, Agree (d + 1) (withBit k d b) y → m' y = m y := fun y hy =>
      hside.rest y hy (by simp)
    have hkept : ∀ y, Agree (d + 1) (withBit k d b) y → ¬updated y := by
      intro y hy hu
      obtain ⟨u, hu, -⟩ := (hupdated' y hy).mp hu
      exact not_mem_nil hu
    refine ⟨changes, ?_, hread.left hkept hsame hfresh⟩
    have hroot := hread.view_eq hkept (n := 0) (by omega) (.refl _ _)
    rw [add_zero, stored] at hroot
    rw [computeSide_nil hstore hd hfresh, hroot, ofNode_node,
      nodeAt_congr (by omega) (.refl _ _) hsame]
  · rw [computeSide, if_neg hnil]
    exact hrec changes _ _ hnil hside hupdated' hread hfresh

theorem computeSides_left (hd : d < 255)
    (hrec : Computes H m m' updated strict view (d + 1) recurse) (hbatch : Batch H m m' d k us)
    (hupdated : ∀ y, Agree d k y → (updated y ↔ keysOf us y))
    (hread : ∀ b, Readable H m updated view (d + 1) (withBit k d b)) (hfresh : Fresh changes d k)
    (existing : Option (Node D)) :
    ∃ c₁ c₂, Left H m' updated strict view (d + 1) (withBit k d false) changes c₁ ∧
      Left H m' updated strict view (d + 1) (withBit k d true) c₁ c₂ ∧
      computeSides H store recurse changes (.new d k) existing us d =
        .ok (nodeAt H m' d k, recordChange (promote c₂ (.new d k) (nodeAt H m' d k) d) (.new d k)
          existing (node (nodeAt H m' d k))) := by
  have hd' : d < 256 := by omega
  obtain ⟨c₁, hok₁, hleft⟩ := computeSide_left hstore hd hrec hbatch hupdated false (hread false)
    (hfresh.child hd' false)
  have hfresh₁ : Fresh c₁ (d + 1) (withBit k d true) := fun n x hn hx => by
    rw [hleft.frame _ x hn fun h => not_agree_other hd' hx h.2]
    exact hfresh.child hd' true n x hn hx
  obtain ⟨c₂, hok₂, hright⟩ :=
    computeSide_left hstore hd hrec hbatch hupdated true (hread true) hfresh₁
  exact ⟨c₁, c₂, hleft, hright, computeSides_eq hd hbatch hok₁ hok₂⟩

/-- A node below which nothing is seen: the updates alone make the new tree. -/
theorem computeSides_blank (hd : d < 255)
    (hrec : Computes H (fun _ => none) m' (keysOf us) strict view (d + 1) recurse)
    (hbatch : Batch H (fun _ => none) m' d k us)
    (hview : ∀ n x, d + (n + 1) < 256 → Agree d k x → view (.new (d + (n + 1)) x) = none)
    (htop : view (.new d k) = none ∨
      (nodeAt H m' d k = .empty → Stale m' updated view d k)) (hfresh : Fresh changes d k) :
    ∃ c', computeSides H store recurse changes (.new d k) none us d = .ok (nodeAt H m' d k, c') ∧
      Left H m' updated strict view d k changes c' := by
  have hd' : d < 256 := by omega
  have hbelow (b : Bool) : ∀ n x, d + 1 + n < 256 → Agree (d + 1) (withBit k d b) x →
      view (.new (d + 1 + n) x) = none := by
    intro n x hn hx
    rw [show d + 1 + n = d + (n + 1) by omega] at hn ⊢
    exact hview n x hn ((agree_withBit_iff hd').mp hx).1
  have hread (b : Bool) : Readable H (fun _ => none) (keysOf us) view (d + 1) (withBit k d b) := by
    refine ⟨fun n x v hn hx hv => ?_, fun n x hn _ _ hs => ?_, fun n x hn hx _ => ?_⟩
    · rw [hbelow b n x hn hx] at hv
      cases hv
    · obtain ⟨y, -, hy⟩ := exists_leaf_of_stored hn.le hs
      exact absurd rfl hy
    · exact hbelow b (n + 1) x hn hx
  obtain ⟨c₁, c₂, hleft, hright, hok⟩ :=
    computeSides_left hstore hd hrec hbatch (fun _ _ => Iff.rfl) hread hfresh none
  have hleft' : Left H m' updated strict view (d + 1) (withBit k d false) changes c₁ :=
    hleft.of_none (hbelow false)
  have hright' : Left H m' updated strict view (d + 1) (withBit k d true) c₁ c₂ :=
    hright.of_none (hbelow true)
  refine ⟨_, hok, left_of_sides hd hfresh hleft' hright' ?_ fun _ hsame => ?_⟩
  · rcases htop with htop | htop
    · exact .inl ⟨htop.symm, fun _ h => by cases h⟩
    · exact .inr ⟨rfl, htop⟩
  · have hempty : nodeAt H m' d k = .empty := by
      rw [← ofNode_node (nodeAt H m' d k), ← hsame]
      rfl
    exact ⟨hempty, Left.fresh_sides hd' hfresh hleft hright hview hempty⟩

/-- A single update of a position where nothing is seen, or of the leaf that is alone there. -/
theorem computeSubtree_single (hd : d + left = 255)
    (hbatch : Batch H m m' d k [u]) (hupdated : ∀ y, Agree d k y → (updated y ↔ keysOf [u] y))
    (hleaf : ∀ y v, m y = some v → v ≠ H.ZERO_HASH) (hread : Readable H m updated view d k)
    (hview : view (.new d k) = none ∨
      ∃ cl, view (.new d k) = some (.collapsed cl) ∧ u.key = cl.lane_key)
    (hfresh : Fresh changes d k) :
    ∃ c', computeSubtree H store left changes [u] = .ok (nodeAt H m' d k, c') ∧
      Left H m' updated strict view d k changes c' := by
  have hd' : d < 256 := by omega
  have hu := hbatch.below u mem_cons_self
  have hnode : nodeAt H m' d k = leafResult H (some u) ∧
      visitRead H changes (.new d k) (view (.new d k)) u [] = .done (leafResult H (some u))
        (recordChange changes (.new d k) (view (.new d k)) (node (leafResult H (some u)))) ∧
      ∀ n x, d + (n + 1) < 256 → Agree d k x → view (.new (d + (n + 1)) x) = none := by
    rcases hview with hview | ⟨cl, hview, hkey⟩
    · refine ⟨(hbatch.blank hd' hupdated hread hview).nodeAt_single hd'.le, ?_, fun n x hn hx =>
        hread.view_eq_none hview hn hx⟩
      rw [hview, visitRead_none]
    · have hcl : nodeAt H m d k = .collapsed cl.lane_key cl.leaf_hash := hread.nodeAt_eq hd' hview
      obtain ⟨hagree, hmcl, honly⟩ := (nodeAt_eq_collapsed_iff hd'.le).mp hcl
      have hblank := hbatch.expand honly hagree hmcl (hleaf _ _ hmcl)
      rw [expandSingleton, if_pos ⟨u, mem_cons_self, hkey⟩] at hblank
      refine ⟨hblank.nodeAt_single hd'.le, ?_, fun n x hn hx =>
        hread.view_below hd' (by rw [hcl]; exact fun _ h => by cases h) hn hx⟩
      rw [hview]
      by_cases hzero : u.leaf_hash = H.ZERO_HASH <;>
        simp [visitRead, visitSingle, leafResult, node, hkey, hzero]
  obtain ⟨hnode, hvisit, hbelow⟩ := hnode
  refine ⟨_, ?_, left_of_single hd' hfresh hbelow (fun hash => hnode ▸ leafResult_ne_internal) ?_⟩
  · rw [hnode]
    exact computeSubtree_done hstore hd hu hfresh hvisit
  · rintro ⟨cl, hcl, -, y, hy, hyu, hne⟩
    obtain ⟨u', hu', rfl⟩ := (hupdated y hy).mp hyu
    rcases hview with hview | ⟨cl', hview, hkey⟩
    · rw [hview] at hcl
      cases hcl
    · rw [hview] at hcl
      cases hcl
      exact hne (mem_singleton.mp hu' ▸ hkey)

/-- **What a batch of updates leaves**, when the nodes that are out of sight have updated leaves
only. -/
theorem computes_computeSubtree (hd : d + left = 255)
    (hleaf : ∀ y v, m y = some v → v ≠ H.ZERO_HASH) (hdiffers : strict → Differs H m m' updated) :
    Computes H m m' updated strict view d (computeSubtree H store left) := by
  induction left generalizing d m updated with
  | zero =>
    -- A leaf parent has a single update, of the leaf that is there or of none.
    intro c us k hne hbatch hupdated hread hfresh
    obtain rfl : d = 255 := hd
    obtain ⟨u, rfl⟩ := hbatch.eq_singleton hne
    have hu := hbatch.below u mem_cons_self
    have hsame {y : Key} (hy : Agree 255 k y) (hmy : m y ≠ none) : u.key = y :=
      hbatch.apart u.key y hu hy (.inr ⟨u, mem_cons_self, rfl⟩) (.inl hmy) (hu.symm.trans hy)
    refine computeSubtree_single hstore rfl hbatch hupdated hleaf hread ?_ hfresh
    cases hview : view (.new 255 k) with
    | none => exact .inl rfl
    | some node =>
      have hnode := hread.nodeAt_eq (by omega) hview
      cases node with
      | internal hash =>
        obtain ⟨y, y', hne', hy, hy', hmy, hmy'⟩ := exists_two_of_internal (by omega) hnode
        exact absurd ((hsame hy hmy).symm.trans (hsame hy' hmy')) hne'
      | collapsed cl =>
        obtain ⟨hagree, hcl, -⟩ := (nodeAt_eq_collapsed_iff (by omega)).mp hnode
        exact .inr ⟨cl, rfl, hsame hagree (by rw [hcl]; exact Option.some_ne_none _)⟩
  | succ left ih =>
    intro c us k hne hbatch hupdated hread hfresh
    have hd' : d < 256 := by omega
    have hblank (us : List (LeafUpdate D)) :
        Computes H (fun _ => none) m' (keysOf us) strict view (d + 1)
        (computeSubtree H store left) := by
      refine ih (by omega) (fun _ _ h => by cases h) fun _ e x hash he _ hnode => ?_
      rw [(nodeAt_eq_empty_iff he.le).mpr fun _ _ => rfl] at hnode
      cases hnode
    obtain ⟨u, us, rfl⟩ := exists_cons_of_ne_nil hne
    have hu := hbatch.below u mem_cons_self
    cases hview : view (.new d k) with
    | none =>
      by_cases hus : us = []
      · subst hus
        exact computeSubtree_single hstore hd hbatch hupdated hleaf hread (.inl hview) hfresh
      · have hvisit : visitRead H c (.new d k) (view (.new d k)) u us =
            .descend (.new d k) none (u :: us) := by
          rw [hview, visitRead, if_neg hus]
          rfl
        rw [computeSubtree_descend hstore hd hu hfresh hvisit]
        exact computeSides_blank hstore (by omega) (hblank _)
          (hbatch.blank hd' hupdated hread hview)
          (fun n x hn hx => hread.view_eq_none hview hn hx) (.inl hview) hfresh
    | some node =>
      have hnode := hread.nodeAt_eq hd' hview
      cases node with
      | internal hash =>
        have hvisit : visitRead H c (.new d k) (view (.new d k)) u us =
            .descend (.new d k) (some (.internal hash)) (u :: us) := by
          rw [hview, visitRead]
          cases us <;> rfl
        rw [computeSubtree_descend hstore hd hu hfresh hvisit]
        obtain ⟨c₁, c₂, hleft, hright, hok⟩ := computeSides_left hstore (by omega)
          (ih (by omega) hleaf hdiffers) hbatch hupdated (hread.child hd' hnode) hfresh
          (some (.internal hash))
        refine ⟨_, hok, left_of_sides (by omega) hfresh hleft hright
          (.inl ⟨hview.symm, fun _ h => by cases h⟩) fun hstrict hsame => ?_⟩
        refine absurd ?_ (hdiffers hstrict d k hash hd'
          ⟨u.key, hu, (hupdated _ hu).mpr ⟨u, mem_cons_self, rfl⟩⟩ hnode)
        rw [← ofNode_node (nodeAt H m' d k), ← hsame]
        rfl
      | collapsed cl =>
        by_cases hsingle : us = [] ∧ u.key = cl.lane_key
        · obtain ⟨rfl, hkey⟩ := hsingle
          exact computeSubtree_single hstore hd hbatch hupdated hleaf hread
            (.inr ⟨cl, hview, hkey⟩) hfresh
        · obtain ⟨hagree, hcl, honly⟩ := (nodeAt_eq_collapsed_iff hd'.le).mp hnode
          have hvisit : visitRead H c (.new d k) (view (.new d k)) u us =
              .descend (.new d k) none (expandSingleton (some (.collapsed cl)) (u :: us)).2 := by
            rw [hview, visitRead_expand hsingle]
          -- The leaf is left behind if nothing else is, since there is an update of another key.
          have hother : ∃ y, Agree d k y ∧ updated y ∧ y ≠ cl.lane_key := by
            by_contra hall
            push Not at hall
            have hkey : ∀ u' ∈ u :: us, u'.key = cl.lane_key := fun u' hu' =>
              hall u'.key (hbatch.below u' hu')
                ((hupdated _ (hbatch.below u' hu')).mpr ⟨u', hu', rfl⟩)
            refine hsingle ⟨eq_nil_iff_forall_not_mem.mpr fun u' hu' => ?_, hkey u mem_cons_self⟩
            have hlt := (pairwise_cons.mp hbatch.sorted).1 u' hu'
            rw [hkey u mem_cons_self, hkey u' (.tail u hu')] at hlt
            exact absurd hlt (BitVec.lt_irrefl _)
          rw [computeSubtree_descend hstore hd hu hfresh hvisit]
          exact computeSides_blank hstore (by omega) (hblank _)
            (hbatch.expand honly hagree hcl (hleaf _ _ hcl))
            (fun n x hn hx => hread.view_below hd'
              (by rw [hnode]; exact fun _ h => by cases h) hn hx)
            (.inr fun hempty => ⟨cl, hview, (nodeAt_eq_empty_iff hd'.le).mp hempty, hother⟩) hfresh

/-- The root after a batch of updates, which may change nothing, and the nodes it leaves. -/
theorem computeRootUpdate_left (hbatch : Batch H m m' 0 0 us)
    (hleaf : ∀ y v, m y = some v → v ≠ H.ZERO_HASH) (hread : Readable H m (keysOf us) view 0 0)
    (hdiffers : strict → Differs H m m' (keysOf us)) :
    ∃ c', computeRootUpdate H store (root H m) us = .ok (root H m', c') ∧
      Left H m' (keysOf us) strict view 0 0 ∅ c' := by
  have hfresh : Fresh (∅ : SmtNodeChanges D) 0 0 := fun _ _ _ _ => rfl
  by_cases hus : us = []
  · subst hus
    have hsame : m' = m := funext fun y => hbatch.rest y (agree_zero 0 y) (by simp)
    refine ⟨∅, by rw [computeRootUpdate, if_pos rfl, hsame], ?_⟩
    refine hread.left (fun y _ hy => ?_) (fun y _ => congrFun hsame y) hfresh
    obtain ⟨u, hu, -⟩ := hy
    exact not_mem_nil hu
  · obtain ⟨c', hok, hleft⟩ := computes_computeSubtree hstore (show 0 + (DEPTH - 1) = 255 by rfl)
      hleaf hdiffers ∅ us 0 hus hbatch (fun _ _ => Iff.rfl) hread hfresh
    refine ⟨c', ?_, hleft⟩
    rw [computeRootUpdate, if_neg hus, hok]
    rfl

theorem computeRootUpdate_spec (hH : H.Injective) (hfollow : H.EmptyFollows)
    (hbatch : Batch H m m' 0 0 us) (hchange : ∀ u ∈ us, m' u.key ≠ m u.key)
    (hleaf : ∀ y v, m y = some v → v ≠ H.ZERO_HASH)
    (hread : Readable H m (fun y => m' y ≠ m y) view 0 0) :
    ∃ c', computeRootUpdate H store (root H m) us = .ok (root H m', c') ∧
      Built H m m' (fun y => m' y ≠ m y) view 0 0 ∅ c' := by
  have hkeys : keysOf us = fun y => m' y ≠ m y := by
    funext y
    refine propext ⟨?_, fun hne => ?_⟩
    · rintro ⟨u, hu, rfl⟩
      exact hchange u hu
    · by_contra hnot
      exact hne (hbatch.rest y (agree_zero 0 y) fun u hu hkey => hnot ⟨u, hu, hkey⟩)
  -- A node that stays the same has the same leaves below.
  have hsame {e : ℕ} {x y : Key} (he : e < 256) (hy : Agree e x y)
      (h : nodeAt H m' e x = nodeAt H m e x) : m' y = m y :=
    nodeAt_digest_inj hH hfollow he.le (by rw [h]) hy
  have hdiffers : True → Differs H m m' (keysOf us) := by
    rintro - e x hash he ⟨y, hy, hyu⟩ hnode hnode'
    rw [hkeys] at hyu
    exact hyu (hsame he hy (hnode'.trans hnode.symm))
  rw [← hkeys] at hread ⊢
  obtain ⟨c', hok, hleft⟩ := computeRootUpdate_left hstore hbatch hleaf hread hdiffers
  have hstale (n : ℕ) (x : Key) (hn : 0 + n < 256) : ¬Stale m' (keysOf us) view (0 + n) x := by
    rintro ⟨cl, hcl, hgone, y, hy, hyu, hne⟩
    rw [hkeys] at hyu
    have hnode := congrArg ofNode (node_of_stored (hread.seen n x _ hn (agree_zero 0 x) hcl))
    rw [ofNode_node] at hnode
    have hnone := ((nodeAt_eq_collapsed_iff hn.le).mp hnode).2.2 y hy hne
    exact hyu ((hgone y hy).trans hnone.symm)
  refine ⟨c', hok, hleft.frame, fun n x hn hx => hleft.reads n x hn hx (hstale n x hn),
    hleft.closed trivial, fun n x hn hx hc hs => ?_⟩
  have hview := hleft.reads n x hn hx (hstale n x hn)
  rw [hc, Option.getD_none] at hview
  obtain ⟨v, hv⟩ := Option.ne_none_iff_exists'.mp hs
  have hold := hread.seen n x v hn hx (hview.trans hv)
  refine ⟨by rw [hold]; exact Option.some_ne_none v, fun y hy => ?_⟩
  rw [hkeys, not_not]
  refine hsame hn hy ?_
  rw [← ofNode_node (nodeAt H m' (0 + n) x), node_of_stored hv, ← node_of_stored hold, ofNode_node]

end

end

end Zkas.Smt
