import Zkas.Smt.StreamingRun
import Zkas.Smt.UpdateSpec

/-!
# Batches on a stored tree

A stored tree is a root and a node map; an update computes the changes with `compute_root_update`
and writes them back, a `None` being an absent node. Removals of absent keys never change the root,
but they may keep a collapsed leaf in the node map that should have gone. -/

namespace Zkas.Smt

open BitPath SparseTree List Except

variable {D : Type}

/-! ## Stored trees -/

variable (H : SmtHasher D)

/-- The node that the tree of a leaf map has under a name: a collapsed leaf at the smallest depth
where it is alone, the inner nodes above, and nothing else. -/
def canonicalNode (m : Key → Option D) (bk : BranchKey) : Option (Node D) :=
  if bk.depth < DEPTH ∧ stem bk.depth bk.node_key = bk.node_key then
    stored H m bk.node_key 0 bk.depth
  else none

/-- The changes written back; a deleted node is absent. -/
def writeBack (changes : SmtNodeChanges D) (nodes : BranchKey → Option (Node D)) :
    BranchKey → Option (Node D) :=
  fun bk => (changes bk).getD (nodes bk)

/-- A root with a node map. -/
structure StoredTree (D : Type) where
  root : D
  nodes : BranchKey → Option (Node D)

/-- The reads of a stored tree. Updates read no leaves. -/
def StoredTree.store (t : StoredTree D) : SmtStore Empty D where
  getNode bk := .ok (t.nodes bk)
  getLeaf _ := .ok none

/-- The empty tree. -/
def StoredTree.empty : StoredTree D where
  root := H.empty DEPTH
  nodes _ := none

/-- The tree of a leaf map. -/
def StoredTree.ofLeaves (m : Key → Option D) : StoredTree D where
  root := SparseTree.root H m
  nodes := canonicalNode H m

variable [DecidableEq D] (H : SmtHasher D)

/-- A batch, with its changes written back. -/
def StoredTree.update (t : StoredTree D) (us : List (LeafUpdate D)) :
    Except (Fault Empty) (StoredTree D) := do
  let (root, changes) ← computeRootUpdate H t.store t.root us
  return { root, nodes := writeBack changes t.nodes }

/-- The leaf map after a batch. -/
def applyUpdates (m : Key → Option D) (us : List (LeafUpdate D)) : Key → Option D := fun k =>
  ((us.find? fun u => u.key = k).map (LeafUpdate.leaf H)).getD (m k)

/-- Batches in the order of their keys, which remove keys that are present. -/
def ValidBatches : (Key → Option D) → List (List (LeafUpdate D)) → Prop
  | _, [] => True
  | m, us :: rest => (us.Pairwise fun u u' => u.key < u'.key) ∧
    (∀ u ∈ us, u.leaf_hash = H.ZERO_HASH → m u.key ≠ none) ∧ ValidBatches (applyUpdates H m us) rest

/-- No two keys share all but the last bit. -/
def KeysApart (keys : Key → Prop) : Prop := ∀ y y', keys y → keys y' → Agree 255 y y' → y = y'

variable {H} {m : Key → Option D} {us ws : List (LeafUpdate D)}

omit [DecidableEq D] in
theorem KeysApart.of_subset (h : KeysApart fun y => m y ≠ none ∨ ∃ u ∈ ws, u.key = y)
    (hsub : ∀ u ∈ us, u ∈ ws) : KeysApart fun y => m y ≠ none ∨ ∃ u ∈ us, u.key = y := by
  have hkeys {y : Key} (hy : m y ≠ none ∨ ∃ u ∈ us, u.key = y) :
      m y ≠ none ∨ ∃ u ∈ ws, u.key = y := by
    refine hy.imp_right ?_
    rintro ⟨u, hu, hkey⟩
    exact ⟨u, hsub u hu, hkey⟩
  exact fun y y' hy hy' => h y y' (hkeys hy) (hkeys hy')

/-! ## One batch -/

omit [DecidableEq D] in
theorem canonicalNode_new {e : ℕ} (he : e < 256) (x : Key) :
    canonicalNode H m (.new e x) = stored H m x 0 e := by
  have hagree : Agree e (stem e x) x := by
    intro i hi
    rw [getMsbD_stem (by omega), decide_eq_true hi, Bool.true_and]
  have hstem : stem e (stem e x) = stem e x := (stem_eq_iff he.le).mpr hagree
  unfold canonicalNode BranchKey.new
  rw [if_pos ⟨he, hstem⟩]
  exact stored_agree ((zero_add e).trans_le he.le) (by rwa [zero_add])

omit [DecidableEq D] in
theorem canonicalNode_eq_collapsed {e : ℕ} (he : e < 256) {x : Key} {cl : CollapsedLeaf D}
    (h : canonicalNode H m (.new e x) = some (.collapsed cl)) :
    Agree e x cl.lane_key ∧ m cl.lane_key = some cl.leaf_hash ∧
      ∀ y, Agree e x y → y ≠ cl.lane_key → m y = none := by
  rw [canonicalNode_new he] at h
  have hnode := congrArg NodeResult.ofNode (node_of_stored h)
  rw [NodeResult.ofNode_node, zero_add] at hnode
  exact (nodeAt_eq_collapsed_iff he.le).mp hnode

omit [DecidableEq D] in
theorem canonicalNode_of_ne {bk : BranchKey} (h : ∀ e x, e < 256 → bk ≠ .new e x) :
    canonicalNode H m bk = none := by
  refine if_neg fun hbk => h bk.depth bk.node_key hbk.1 ?_
  rw [BranchKey.new, hbk.2]

theorem computeSubtree_of_ne {ε : Type} {store : SmtStore ε D} {bk : BranchKey}
    (h : ∀ e x, e < 256 → bk ≠ .new e x) {left : ℕ} (hleft : left < 256)
    {changes changes' : SmtNodeChanges D} {result : NodeResult D}
    (hok : computeSubtree H store left changes us = .ok (result, changes')) :
    changes' bk = changes bk := by
  have hinsert {e : ℕ} (he : e < 256) (x : Key) (c : SmtNodeChanges D) (v : Option (Node D)) :
      (c.insert (.new e x) v : SmtNodeChanges D) bk = c bk := AList.lookup_insert_ne (h e x he)
  have hrecord {e : ℕ} (he : e < 256) (x : Key) (c : SmtNodeChanges D) (v w : Option (Node D)) :
      recordChange c (.new e x) v w bk = c bk := by
    unfold recordChange
    split_ifs
    · exact hinsert he x c w
    · rfl
  have hpromote {e : ℕ} (he : e + 1 < 256) (x : Key) (c : SmtNodeChanges D) (r : NodeResult D) :
      promote c (.new e x) r e bk = c bk := by
    cases r with
    | empty => rfl
    | internal hash => rfl
    | collapsed y v =>
      rw [promote, childBranchKey_new (by omega)]
      exact hinsert he _ _ _
  -- A visit is at the position of the first update.
  have hvisit {e : ℕ} (he : e < 256) {us : List (LeafUpdate D)} {c : SmtNodeChanges D} {v : Visit D}
      (hv : visit H store c us e = .ok v) :
      (∃ r c', v = .done r c' ∧ c' bk = c bk) ∨ ∃ x v' us', v = .descend (.new e x) v' us' := by
    obtain _ | ⟨u, us⟩ := us
    · cases hv
    · obtain ⟨node, -, hv⟩ := bind_eq_ok_iff.mp hv
      cases hv
      unfold visitRead visitSingle
      rcases node with _ | (hash | cl) <;> rcases us with _ | ⟨u', us⟩ <;>
        simp only [if_true, reduceCtorEq, if_false] <;> try exact .inr ⟨_, _, _, rfl⟩
      · split_ifs
        · exact .inl ⟨_, _, rfl, rfl⟩
        · exact .inl ⟨_, _, rfl, hrecord he _ _ _ _⟩
      · by_cases hkey : u.key = cl.lane_key
        · rw [if_pos hkey]
          exact .inl ⟨_, _, rfl, hrecord he _ _ _ _⟩
        · rw [if_neg hkey]
          exact .inr ⟨_, _, _, rfl⟩
  induction left generalizing changes changes' us result with
  | zero =>
    obtain ⟨v, hv, hok⟩ := bind_eq_ok_iff.mp hok
    obtain ⟨r, c', rfl, hc⟩ | ⟨x, v', us', rfl⟩ := hvisit (by decide) hv
    · cases hok
      exact hc
    · cases hok
      exact hrecord (by decide) _ _ _ _
  | succ left ih =>
    have hdepth : DEPTH - 1 - (left + 1) + 1 < 256 := by
      unfold DEPTH
      omega
    obtain ⟨v, hv, hok⟩ := bind_eq_ok_iff.mp hok
    obtain ⟨r, c', rfl, hc⟩ | ⟨x, v', us', rfl⟩ := hvisit (by omega) hv
    · cases hok
      exact hc
    · have hside {us : List (LeafUpdate D)} {b : Bool} {c c' : SmtNodeChanges D} {r : NodeResult D}
          (hs : computeSide store (computeSubtree H store left) c us
            (.new (DEPTH - 1 - (left + 1)) x) b (DEPTH - 1 - (left + 1)) = .ok (r, c')) :
          c' bk = c bk := by
        unfold computeSide at hs
        split_ifs at hs
        · obtain ⟨_, -, hs⟩ := bind_eq_ok_iff.mp hs
          cases hs
          rfl
        · exact ih (by omega) hs
      obtain ⟨⟨l, c₁⟩, hl, hok⟩ := bind_eq_ok_iff.mp hok
      obtain ⟨⟨r, c₂⟩, hr, hok⟩ := bind_eq_ok_iff.mp hok
      cases hok
      rw [hrecord (by omega), hpromote hdepth, hside hr, hside hl]

theorem computeRootUpdate_of_ne {ε : Type} {store : SmtStore ε D} {bk : BranchKey}
    (h : ∀ e x, e < 256 → bk ≠ .new e x) {root root' : D} {changes : SmtNodeChanges D}
    (hok : computeRootUpdate H store root us = .ok (root', changes)) : changes bk = none := by
  unfold computeRootUpdate at hok
  split_ifs at hok
  · cases hok
    rfl
  · obtain ⟨⟨result, changes'⟩, hsub, hok⟩ := bind_eq_ok_iff.mp hok
    cases hok
    exact computeSubtree_of_ne h (by decide) hsub

theorem applyUpdates_of_mem (hsorted : us.Pairwise fun u u' => u.key < u'.key) {u : LeafUpdate D}
    (hu : u ∈ us) : applyUpdates H m us u.key = u.leaf H := by
  have hnodup : (us.map LeafUpdate.key).Nodup := by
    rw [List.Nodup, pairwise_map]
    exact hsorted.imp fun h => ne_of_lt h
  obtain ⟨u', hfind⟩ := Option.isSome_iff_exists.mp
    (find?_isSome (p := fun u' => decide (u'.key = u.key)).mpr ⟨u, hu, decide_eq_true rfl⟩)
  have hkey := find?_some hfind
  rw [decide_eq_true_iff] at hkey
  obtain rfl : u' = u := inj_on_of_nodup_map hnodup (mem_of_find?_eq_some hfind) hu hkey
  rw [applyUpdates, hfind]
  rfl

theorem applyUpdates_of_notMem {k : Key} (h : ∀ u ∈ us, u.key ≠ k) :
    applyUpdates H m us k = m k := by
  have hfind : us.find? (fun u => decide (u.key = k)) = none :=
    find?_eq_none.mpr fun u hu => by simpa using h u hu
  rw [applyUpdates, hfind]
  rfl

section

variable (hsorted : us.Pairwise fun u u' => u.key < u'.key)
include hsorted

variable (hleaf : ∀ y v, m y = some v → v ≠ H.ZERO_HASH)
include hleaf

theorem applyUpdates_ne_zero (y : Key) (v : D)
    (h : applyUpdates H m us y = some v) : v ≠ H.ZERO_HASH := by
  by_cases hy : ∃ u ∈ us, u.key = y
  · obtain ⟨u, hu, rfl⟩ := hy
    rw [applyUpdates_of_mem hsorted hu, LeafUpdate.leaf] at h
    split_ifs at h with hne
    exact Option.some.inj h ▸ hne
  · push Not at hy
    rw [applyUpdates_of_notMem hy] at h
    exact hleaf y v h

variable (hapart : KeysApart fun y => m y ≠ none ∨ ∃ u ∈ us, u.key = y)
include hapart

/-- A batch on the tree of a leaf map: the root is that of the new map, and so are the nodes apart
from those that are left behind. -/
theorem update_ofLeaves :
    ∃ nodes, (StoredTree.ofLeaves H m).update H us =
        .ok { root := root H (applyUpdates H m us), nodes } ∧
      (∀ bk, (∀ e x, e < 256 → bk ≠ .new e x) → nodes bk = none) ∧
      ∀ e x, e < 256 → (¬Stale (applyUpdates H m us) (keysOf us) (canonicalNode H m) e x →
          nodes (.new e x) = canonicalNode H (applyUpdates H m us) (.new e x)) ∧
        (Stale (applyUpdates H m us) (keysOf us) (canonicalNode H m) e x →
          nodes (.new e x) = canonicalNode H m (.new e x)) := by
  have hbatch : Batch H m (applyUpdates H m us) 0 0 us :=
    ⟨hsorted, fun u _ => agree_zero 0 u.key, fun u hu => applyUpdates_of_mem hsorted hu,
      fun y _ hy => applyUpdates_of_notMem hy, fun y y' _ _ hy hy' => hapart y y' hy hy'⟩
  have hview (n : ℕ) (x : Key) (hn : 0 + n < 256) :
      canonicalNode H m (.new (0 + n) x) = stored H m x 0 n := by
    rw [zero_add] at hn ⊢
    exact canonicalNode_new hn x
  -- All nodes are in sight.
  have hread : Readable H m (keysOf us) (canonicalNode H m) 0 0 := by
    refine ⟨fun n x v hn _ hv => hview n x hn ▸ hv, fun n x hn _ hv hs => ?_, fun n x hn _ hv => ?_⟩
    · exact absurd (hview n x hn ▸ hv) hs
    · rw [hview n x (by omega)] at hv
      rw [hview (n + 1) x hn]
      by_contra hs
      obtain ⟨hash, hparent⟩ := stored_parent hs
      rw [hv] at hparent
      cases hparent
  have hstore : ∀ bk, (StoredTree.ofLeaves H m).store.getNode bk = .ok (canonicalNode H m bk) :=
    fun _ => rfl
  have hdiffers : False → Differs H m (applyUpdates H m us) (keysOf us) := False.elim
  have hroot : (StoredTree.ofLeaves H m).root = SparseTree.root H m := by rw [StoredTree.ofLeaves]
  obtain ⟨changes, hok, hleft⟩ := computeRootUpdate_left hstore hbatch hleaf hread hdiffers
  refine ⟨writeBack changes (canonicalNode H m), ?_, fun bk hbk => ?_, fun e x he => ?_⟩
  · rw [StoredTree.update, hroot, hok, ok_bind, StoredTree.ofLeaves]
    rfl
  · rw [writeBack, computeRootUpdate_of_ne hbk hok]
    exact canonicalNode_of_ne hbk
  · have hreads := hleft.reads e x (by omega) (agree_zero 0 x)
    have hstale := hleft.stale e x (by omega) (agree_zero 0 x)
    rw [zero_add] at hreads hstale
    rw [canonicalNode_new he, writeBack]
    refine ⟨hreads, fun hs => ?_⟩
    rw [hstale hs, Option.getD_none]

/-! ## Batches from the empty tree -/

theorem update_ofLeaves_eq (hpresent : ∀ u ∈ us, u.leaf_hash = H.ZERO_HASH → m u.key ≠ none) :
    (StoredTree.ofLeaves H m).update H us = .ok (.ofLeaves H (applyUpdates H m us)) := by
  obtain ⟨nodes, hok, hnone, hnodes⟩ := update_ofLeaves hsorted hleaf hapart
  have hfresh (e : ℕ) (x : Key) (he : e < 256) :
      ¬Stale (applyUpdates H m us) (keysOf us) (canonicalNode H m) e x := by
    rintro ⟨cl, hcl, hgone, -, hy, ⟨u, hu, rfl⟩, hne⟩
    -- The update of the other key can only be a removal, and its key is absent.
    have habsent := ((canonicalNode_eq_collapsed he hcl).2.2) u.key hy hne
    have hremoved := hgone u.key hy
    rw [applyUpdates_of_mem hsorted hu, LeafUpdate.leaf] at hremoved
    split_ifs at hremoved with hzero
    exact hpresent u hu (not_not.mp hzero) habsent
  have hsame : nodes = canonicalNode H (applyUpdates H m us) := by
    funext bk
    rcases Classical.em (∃ e x, e < 256 ∧ bk = .new e x) with ⟨e, x, he, rfl⟩ | hbk
    · exact (hnodes e x he).1 (hfresh e x he)
    · push Not at hbk
      rw [hnone bk hbk, canonicalNode_of_ne hbk]
  rw [hok, hsame]
  rfl

end

/-- Batches one after the other. -/
theorem run_eq {batches : List (List (LeafUpdate D))} (hvalid : ValidBatches H m batches)
    (hleaf : ∀ y v, m y = some v → v ≠ H.ZERO_HASH)
    (hapart : KeysApart fun y => m y ≠ none ∨ ∃ u ∈ batches.flatten, u.key = y) :
    batches.foldlM (StoredTree.update H) (.ofLeaves H m) =
      .ok (.ofLeaves H (batches.foldl (applyUpdates H) m)) := by
  induction batches generalizing m with
  | nil => rfl
  | cons us rest ih =>
    obtain ⟨hsorted, hpresent, hrest⟩ := hvalid
    have hmem (u : LeafUpdate D) (hu : u ∈ us) : u ∈ (us :: rest).flatten :=
      mem_flatten.mpr ⟨us, mem_cons_self, hu⟩
    rw [foldlM_cons, update_ofLeaves_eq hsorted hleaf (hapart.of_subset hmem) hpresent,
      ok_bind, foldl_cons]
    -- The keys of the new leaves are those of old leaves or of the batch.
    have hkeys' {y : Key} (hy : applyUpdates H m us y ≠ none ∨ ∃ u ∈ rest.flatten, u.key = y) :
        m y ≠ none ∨ ∃ u ∈ (us :: rest).flatten, u.key = y := by
      by_cases hbatch : ∃ u ∈ us, u.key = y
      · obtain ⟨u, hu, hkey⟩ := hbatch
        exact .inr ⟨u, hmem u hu, hkey⟩
      · push Not at hbatch
        rw [applyUpdates_of_notMem hbatch] at hy
        refine hy.imp_right ?_
        rintro ⟨u, hu, hkey⟩
        exact ⟨u, mem_append_right us hu, hkey⟩
    exact ih hrest (applyUpdates_ne_zero hsorted hleaf) fun y y' hy hy' =>
      hapart y y' (hkeys' hy) (hkeys' hy')

omit [DecidableEq D] in
theorem ofLeaves_none : StoredTree.ofLeaves H (fun _ => none) = .empty H := by
  have hempty (e : ℕ) (he : e ≤ 256) (x : Key) : nodeAt H (fun _ => none) e x = .empty :=
    (nodeAt_eq_empty_iff he).mpr fun _ _ => rfl
  have hnodes : canonicalNode H (fun _ => none) = fun _ => none := by
    funext bk
    unfold canonicalNode
    split_ifs
    · cases bk.depth with
      | zero => rw [stored, hempty 0 (by omega)]; rfl
      | succ e => rw [stored, hempty 0 (by omega)]
    · rfl
  unfold StoredTree.ofLeaves StoredTree.empty
  rw [hnodes, SparseTree.root, hempty 0 (by omega)]
  rfl

/-- **Batches on an empty tree lead to the root and the nodes of the leaf map.** The root is also
that of the one-pass builder over the leaves. -/
theorem batches_lead_to_canonical_nodes (H : SmtHasher D) (batches : List (List (LeafUpdate D)))
    (hvalid : ValidBatches H (fun _ => none) batches)
    (hapart : KeysApart fun y => ∃ u ∈ batches.flatten, u.key = y) :
    ∃ t, batches.foldlM (StoredTree.update H) (StoredTree.empty H) = .ok t ∧
      t.nodes = canonicalNode H (batches.foldl (applyUpdates H) fun _ => none) ∧
      ∀ leaves : List (Key × D × ℕ), (leaves.Pairwise fun x y => x.1 < y.1) →
        leafMap (StreamingSmtBuilder.laneMap leaves) =
          batches.foldl (applyUpdates H) (fun _ => none) →
        streamLeaves H (RootOnlyMergeSink H) () leaves = .ok (t.root, ()) := by
  have hrun := run_eq hvalid (fun _ _ h => by cases h) fun y y' hy hy' =>
    hapart y y' (hy.resolve_left fun h => h rfl) (hy'.resolve_left fun h => h rfl)
  rw [ofLeaves_none] at hrun
  refine ⟨_, hrun, by rw [StoredTree.ofLeaves], fun leaves hsorted hleaves => ?_⟩
  obtain ⟨_, _, hok, -⟩ := streamLeaves_eq (rootOnlyMergeSink_lawful H) trivial hsorted
  rw [hok, hleaves, StoredTree.ofLeaves]

namespace Sample

/-- The hashes of the samples. -/
abbrev hasher : SmtHasher (Term 256) := Term.hashing 256

/-- Two keys are set; one is removed and another one changes. -/
def batches : List (List (LeafUpdate (Term 256))) :=
  [[⟨5, .atom 1⟩, ⟨6, .atom 2⟩], [⟨5, .empty 0⟩, ⟨6, .atom 3⟩]]

theorem keysApart_batches : KeysApart fun y => ∃ u ∈ batches.flatten, u.key = y := by
  have hkeys : ∀ u ∈ batches.flatten, u.key = 5 ∨ u.key = 6 := by decide +kernel
  rintro _ _ ⟨u, hu, rfl⟩ ⟨u', hu', rfl⟩ hagree
  have hdiffer : ¬Agree 255 (5 : Key) 6 := by decide +kernel
  rcases hkeys u hu with h | h <;> rcases hkeys u' hu' with h' | h' <;> rw [h, h'] at hagree ⊢
  · exact absurd hagree hdiffer
  · exact absurd hagree.symm hdiffer

/-- The sample, on an empty tree. -/
theorem batches_run : ∃ t, batches.foldlM (StoredTree.update hasher) (.empty hasher) = .ok t ∧
    t.nodes = canonicalNode hasher (batches.foldl (applyUpdates hasher) fun _ => none) ∧
    ∀ leaves : List (Key × Term 256 × ℕ), (leaves.Pairwise fun x y => x.1 < y.1) →
      leafMap (StreamingSmtBuilder.laneMap leaves) =
        batches.foldl (applyUpdates hasher) (fun _ => none) →
      streamLeaves hasher (RootOnlyMergeSink hasher) () leaves = .ok (t.root, ()) := by
  refine batches_lead_to_canonical_nodes hasher batches ?_ keysApart_batches
  refine ⟨by decide +kernel, by decide +kernel, by decide +kernel, by decide +kernel, trivial⟩

end Sample

/-! ## Removals of absent keys -/

theorem applyUpdates_absent (hus : us.Pairwise fun u u' => u.key < u'.key)
    (hws : ws.Pairwise fun u u' => u.key < u'.key) (hsub : ∀ u ∈ us, u ∈ ws)
    (hadd : ∀ u ∈ ws, u ∈ us ∨ (u.leaf_hash = H.ZERO_HASH ∧ m u.key = none)) :
    applyUpdates H m ws = applyUpdates H m us := by
  funext y
  rcases Classical.em (∃ u ∈ us, u.key = y) with ⟨u, hu, rfl⟩ | hy
  · rw [applyUpdates_of_mem hus hu, applyUpdates_of_mem hws (hsub u hu)]
  · push Not at hy
    rw [applyUpdates_of_notMem hy]
    rcases Classical.em (∃ w ∈ ws, w.key = y) with ⟨w, hw, rfl⟩ | hy'
    · obtain ⟨hzero, hnone⟩ := (hadd w hw).resolve_left fun hu => hy w hu rfl
      rw [applyUpdates_of_mem hws hw, LeafUpdate.leaf, if_neg (not_not_intro hzero), hnone]
    · push Not at hy'
      exact applyUpdates_of_notMem hy'

/-- **Removals of absent keys** leave the root alone. They leave the node map alone if and only if
each collapsed leaf that goes with everything below it, and that a new removal goes past, was passed
by another update anyway. -/
theorem absent_removals_keep_nodes_iff (H : SmtHasher D) (m : Key → Option D)
    (us ws : List (LeafUpdate D)) (hleaf : ∀ y v, m y = some v → v ≠ H.ZERO_HASH)
    (hus : us.Pairwise fun u u' => u.key < u'.key) (hws : ws.Pairwise fun u u' => u.key < u'.key)
    (hsub : ∀ u ∈ us, u ∈ ws)
    (hadd : ∀ u ∈ ws, u ∈ us ∨ (u.leaf_hash = H.ZERO_HASH ∧ m u.key = none))
    (hapart : KeysApart fun y => m y ≠ none ∨ ∃ u ∈ ws, u.key = y) :
    ∃ t t', (StoredTree.ofLeaves H m).update H us = .ok t ∧
      (StoredTree.ofLeaves H m).update H ws = .ok t' ∧ t'.root = t.root ∧
      (t'.nodes = t.nodes ↔ ∀ e < 256, ∀ cl,
        canonicalNode H m (.new e cl.lane_key) = some (.collapsed cl) →
        (∀ y, Agree e cl.lane_key y → applyUpdates H m us y = none) →
        (∃ u ∈ ws, u ∉ us ∧ Agree e cl.lane_key u.key) →
        ∃ u ∈ us, u.key ≠ cl.lane_key ∧ Agree e cl.lane_key u.key) := by
  obtain ⟨nodes, hok, hnone, hnodes⟩ := update_ofLeaves hus hleaf (hapart.of_subset hsub)
  obtain ⟨nodes', hok', hnone', hnodes'⟩ := update_ofLeaves hws hleaf hapart
  rw [applyUpdates_absent hus hws hsub hadd] at hok' hnodes'
  refine ⟨_, _, hok, hok', rfl, fun hsame e he cl hcl hgone hnew => ?_, fun hcond => ?_⟩
  · -- The leaf is left behind by the longer batch, hence also by the shorter one.
    obtain ⟨u, hu, hnot, hagree⟩ := hnew
    have hne : u.key ≠ cl.lane_key := by
      intro hkey
      have habsent := ((hadd u hu).resolve_left hnot).2
      rw [hkey, (canonicalNode_eq_collapsed he hcl).2.1] at habsent
      cases habsent
    have hleft := (hnodes' e cl.lane_key he).2 ⟨cl, hcl, hgone, u.key, hagree, ⟨u, hu, rfl⟩, hne⟩
    by_contra hother
    push Not at hother
    have hfresh : ¬Stale (applyUpdates H m us) (keysOf us) (canonicalNode H m) e cl.lane_key := by
      rintro ⟨cl', hcl', -, y, hy, ⟨v, hv, rfl⟩, hne'⟩
      rw [hcl] at hcl'
      cases hcl'
      exact hother v hv hne' hy
    have hsame' : nodes' (.new e cl.lane_key) = nodes (.new e cl.lane_key) := congrFun hsame _
    rw [hleft, hcl, (hnodes e cl.lane_key he).1 hfresh] at hsame'
    obtain ⟨hself, hsome, -⟩ := canonicalNode_eq_collapsed he hsame'.symm
    rw [hgone _ hself] at hsome
    cases hsome
  · funext bk
    rcases Classical.em (∃ e x, e < 256 ∧ bk = .new e x) with ⟨e, x, he, rfl⟩ | hbk
    · have hiff : Stale (applyUpdates H m us) (keysOf ws) (canonicalNode H m) e x ↔
          Stale (applyUpdates H m us) (keysOf us) (canonicalNode H m) e x := by
        constructor
        · rintro ⟨cl, hcl, hgone, -, hy, ⟨u, hu, rfl⟩, hne⟩
          by_cases hmem : u ∈ us
          · exact ⟨cl, hcl, hgone, u.key, hy, ⟨u, hmem, rfl⟩, hne⟩
          · have hx := (canonicalNode_eq_collapsed he hcl).1
            have hname := (BranchKey.new_eq_iff he.le).mpr hx
            obtain ⟨v, hv, hvne, hvy⟩ := hcond e he cl (hname ▸ hcl)
              (fun y hy => hgone y (hx.trans hy)) ⟨u, hu, hmem, hx.symm.trans hy⟩
            exact ⟨cl, hcl, hgone, v.key, hx.trans hvy, ⟨v, hv, rfl⟩, hvne⟩
        · rintro ⟨cl, hcl, hgone, y, hy, ⟨u, hu, hkey⟩, hne⟩
          exact ⟨cl, hcl, hgone, y, hy, ⟨u, hsub u hu, hkey⟩, hne⟩
      rcases Classical.em (Stale (applyUpdates H m us) (keysOf us) (canonicalNode H m) e x) with
        hstale | hstale
      · exact ((hnodes' e x he).2 (hiff.mpr hstale)).trans ((hnodes e x he).2 hstale).symm
      · exact ((hnodes' e x he).1 (hiff.not.mpr hstale)).trans ((hnodes e x he).1 hstale).symm
    · push Not at hbk
      exact (hnone' bk hbk).trans (hnone bk hbk).symm

namespace Sample

/-- A single leaf. -/
def single : Key → Option (Term 256) := fun key => if key = 5 then some (.atom 1) else none

/-- The removal of the leaf. -/
def removal : List (LeafUpdate (Term 256)) := [⟨5, .empty 0⟩]

/-- The same batch with the removal of a key that is absent. -/
def removals : List (LeafUpdate (Term 256)) := [⟨5, .empty 0⟩, ⟨6, .empty 0⟩]

theorem single_ne_zero (y : Key) (v : Term 256) (h : single y = some v) : v ≠ hasher.ZERO_HASH := by
  unfold single at h
  split_ifs at h
  cases h
  exact fun h => by cases h

theorem keysApart_single {us : List (LeafUpdate (Term 256))} (ks : List Key)
    (hus : ∀ u ∈ us, u.key ∈ 5 :: ks)
    (hks : (5 :: ks).Pairwise fun k k' => ¬Agree 255 k k') :
    KeysApart fun y => single y ≠ none ∨ ∃ u ∈ us, u.key = y := by
  have hkeys {y : Key} (hy : single y ≠ none ∨ ∃ u ∈ us, u.key = y) : y ∈ 5 :: ks := by
    rcases hy with hy | ⟨u, hu, rfl⟩
    · unfold single at hy
      split_ifs at hy with h
      · exact h ▸ mem_cons_self
      · exact absurd rfl hy
    · exact hus u hu
  have : Std.Symm fun k k' : Key => ¬Agree 255 k k' := ⟨fun _ _ hnot hagree => hnot hagree.symm⟩
  intro y y' hy hy' hagree
  by_contra hne
  exact hks.forall (hkeys hy) (hkeys hy') hne hagree

theorem keysApart_removals : KeysApart fun y => single y ≠ none ∨ ∃ u ∈ removals, u.key = y :=
  keysApart_single [6] (by decide +kernel) (by decide +kernel)

/-- An insertion next to the leaf, and the same with the removal of an absent key. -/
def insertion (absent : List Key) : List (LeafUpdate (Term 256)) :=
  absent.map (⟨·, .empty 0⟩) ++ [⟨9, .atom 2⟩]

/-- A leaf that stays is not left behind, whatever absent key is removed next to it. -/
theorem removal_keeps_nodes : ∃ t t',
    (StoredTree.ofLeaves hasher single).update hasher (insertion []) = .ok t ∧
    (StoredTree.ofLeaves hasher single).update hasher (insertion [6]) = .ok t' ∧
    t'.root = t.root ∧ t'.nodes = t.nodes := by
  obtain ⟨t, t', h, h', hroot, hnodes⟩ :=
    absent_removals_keep_nodes_iff hasher single (insertion [])
    (insertion [6]) single_ne_zero (by decide +kernel) (by decide +kernel) (by decide +kernel)
    (by decide +kernel) (keysApart_single [6, 9] (by decide +kernel) (by decide +kernel))
  refine ⟨t, t', h, h', hroot, hnodes.mpr fun e he cl hcl hgone _ => ?_⟩
  have hsome := (canonicalNode_eq_collapsed he hcl).2.1
  have hkey : cl.lane_key = 5 := by
    by_contra hne
    rw [single, if_neg hne] at hsome
    cases hsome
  have hkept := hgone _ (Agree.refl e cl.lane_key)
  rw [hkey, applyUpdates_of_notMem (by decide +kernel)] at hkept
  cases hkept

/-- With the removal of an absent key the collapsed leaf stays in the node map, at the root. -/
theorem removals_leave_leaf_behind : ∃ t t',
    (StoredTree.ofLeaves hasher single).update hasher removal = .ok t ∧
    (StoredTree.ofLeaves hasher single).update hasher removals = .ok t' ∧ t'.root = t.root ∧
    t.nodes (.new 0 0) = none ∧ t'.nodes (.new 0 0) = some (.collapsed ⟨5, .atom 1⟩) := by
  have hadd : ∀ u ∈ removals, u ∈ removal ∨
    (u.leaf_hash = hasher.ZERO_HASH ∧ single u.key = none) := by
    decide +kernel
  have hsub : ∀ u ∈ removal, u ∈ removals := by decide +kernel
  have hsorted : removal.Pairwise fun u u' => u.key < u'.key := by decide +kernel
  have hsorted' : removals.Pairwise fun u u' => u.key < u'.key := by decide +kernel
  have hroot : canonicalNode hasher single (.new 0 0) = some (.collapsed ⟨5, .atom 1⟩) := by
    have hnode : nodeAt hasher single 0 0 = .collapsed 5 (.atom 1) :=
      (nodeAt_eq_collapsed_iff (Nat.zero_le _)).mpr
        ⟨agree_zero _ _, if_pos rfl, fun y _ hy => if_neg hy⟩
    rw [canonicalNode_new (by decide), stored, hnode]
    rfl
  have hgone : applyUpdates hasher single removal = fun _ => none := by
    funext y
    by_cases hy : y = 5
    · subst hy
      decide +kernel
    · rw [applyUpdates_of_notMem fun u hu => mem_singleton.mp hu ▸ fun h => hy h.symm]
      exact if_neg hy
  obtain ⟨nodes, hok, -, hnodes⟩ :=
    update_ofLeaves hsorted single_ne_zero (keysApart_removals.of_subset hsub)
  obtain ⟨nodes', hok', -, hnodes'⟩ := update_ofLeaves hsorted' single_ne_zero keysApart_removals
  rw [applyUpdates_absent hsorted hsorted' hsub hadd, hgone] at hok' hnodes'
  rw [hgone] at hok hnodes
  refine ⟨_, _, hok, hok', rfl, ((hnodes 0 0 (by decide)).1 ?_).trans ?_, ?_⟩
  · rintro ⟨cl, hcl, -, y, -, ⟨u, hu, rfl⟩, hne⟩
    rw [hroot] at hcl
    cases hcl
    exact hne (mem_singleton.mp hu ▸ rfl)
  · rw [canonicalNode_new (by decide), stored,
      (nodeAt_eq_empty_iff (Nat.zero_le _)).mpr fun _ _ => rfl]
    rfl
  · rw [← hroot]
    exact (hnodes' 0 0 (by decide)).2 ⟨_, hroot, fun _ _ => rfl, 6, agree_zero _ _,
      ⟨⟨6, .empty 0⟩, by decide +kernel, rfl⟩, by decide +kernel⟩

end Sample

end Zkas.Smt
