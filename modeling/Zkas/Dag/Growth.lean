import Zkas.Dag.Coloring

/-!
# Adding a block

A block is added with parents none of which is in the past of the selected one, which has the
highest blue work. What the other parents add is found and ordered (`MergeOrder`), and the
candidates are coloured in that order; after each of them the blues so far are a cluster with its
sizes stored (`Partial`). -/

namespace Zkas.Dag

open Cluster Word List Except AList GhostdagData

variable {B : Type} [LinearOrder B]

/-! ## Sorting by blue work -/

variable (dag : Store B)

/-- The entry of a known block to sort by. -/
def sortableOf (b : B) : SortableBlock B :=
  ⟨b, (dag.lookup b).elim 0 fun block => block.data.blue_work⟩

section

variable {M : GhostdagManager B} {dag : Store B} {b : B} {blocks : List B}

/-- The sort key of a block. -/
theorem key_sortableOf (dag : Store B) (b : B) : (sortableOf dag b).key = keyOf dag b := by
  rw [SortableBlock.key, sortableOf, keyOf, blueWork]
  cases dag.lookup b <;> rfl

/-- Blocks of the DAG have sort keys. -/
theorem mapM_sortable (h : ∀ b ∈ blocks, b ∈ dag) :
    blocks.mapM dag.sortable = .ok (blocks.map (sortableOf dag)) := by
  refine mapM_eq_ok_map fun b hb => ?_
  obtain ⟨block, hblock⟩ := mem_iff_lookup.mp (h b hb)
  rw [Store.sortable, get_of_lookup hblock, ok_bind, sortableOf, hblock]
  rfl

/-- Sorting is by blue work and then by hash. -/
theorem sortBlocks_spec (h : ∀ b ∈ blocks, b ∈ dag) :
    ∃ order, sortBlocks dag blocks = .ok order ∧ order.Perm blocks ∧
      order.Pairwise fun x y => keyOf dag x ≤ keyOf dag y := by
  rw [sortBlocks, mapM_sortable h, ok_bind]
  refine ⟨_, rfl, ?_, ?_⟩
  · have hperm := (mergeSort_perm (blocks.map (sortableOf dag))
      fun a b => decide (a.key ≤ b.key)).map SortableBlock.hash
    rw [map_map] at hperm
    exact hperm.trans (List.Perm.of_eq (map_id _))
  · have hsorted :
        ((blocks.map (sortableOf dag)).mergeSort fun a b => decide (a.key ≤ b.key)).Pairwise
          fun a b => decide (a.key ≤ b.key) = true := by
      refine pairwise_mergeSort (fun a b c hab hbc => ?_) (fun a b => ?_) _
      · rw [decide_eq_true_iff] at hab hbc ⊢
        exact hab.trans hbc
      · rw [Bool.or_eq_true, decide_eq_true_iff, decide_eq_true_iff]
        exact le_total _ _
    rw [pairwise_map]
    refine hsorted.imp_of_mem fun {x y} hx hy hle => ?_
    have hkey {z : SortableBlock B}
        (hz : z ∈ (blocks.map (sortableOf dag)).mergeSort fun a b => decide (a.key ≤ b.key)) :
        z.key = keyOf dag z.hash := by
      obtain ⟨b, -, rfl⟩ := mem_map.mp (mem_mergeSort.mp hz)
      exact key_sortableOf dag b
    rw [← hkey hx, ← hkey hy]
    exact of_decide_eq_true hle

/-- The selected parent has the highest blue work. -/
theorem findSelectedParent_spec (hne : blocks ≠ []) (h : ∀ b ∈ blocks, b ∈ dag) :
    ∃ sp ∈ blocks, findSelectedParent dag blocks = .ok sp ∧
      ∀ p ∈ blocks, blueWork dag p ≤ blueWork dag sp := by
  rw [findSelectedParent, mapM_sortable h, ok_bind]
  cases htop : (blocks.map (sortableOf dag)).argmax SortableBlock.key with
  | none => exact absurd (map_eq_nil_iff.mp (argmax_eq_none.mp htop)) hne
  | some top =>
    obtain ⟨sp, hsp, rfl⟩ := mem_map.mp (argmax_mem htop)
    refine ⟨sp, hsp, rfl, fun p hp => ?_⟩
    have hle := le_of_mem_argmax (mem_map_of_mem hp) htop
    rw [key_sortableOf, key_sortableOf, keyOf, keyOf, Prod.Lex.toLex_le_toLex] at hle
    exact hle.elim le_of_lt fun heq => heq.1.le

/-- A parent is only selected among known ones. -/
theorem mem_of_findSelectedParent {sp : B} (h : findSelectedParent dag blocks = .ok sp) :
    ∀ p ∈ blocks, p ∈ dag := by
  intro p hp
  obtain ⟨keyed, hkeyed, -⟩ := bind_eq_ok_iff.mp h
  obtain ⟨key, hkey⟩ := exists_of_mapM hkeyed hp
  obtain ⟨block, hblock, -⟩ := bind_eq_ok_iff.mp hkey
  exact mem_iff_lookup.mpr ⟨block, Option.okOr_eq_ok.mp hblock⟩

end

/-! ## The mergeset -/

/-- No parent is in the past of the one that is selected. -/
def SelectedApart (parents : List B) : Prop :=
  ∀ sp, findSelectedParent dag parents = .ok sp → ∀ p ∈ parents, ¬Past dag p sp

/-- Parents that a block can be added with. -/
structure Admissible (parents : List B) : Prop where
  ne_nil : parents ≠ []
  mem : ∀ p ∈ parents, p ∈ dag
  apart : SelectedApart dag parents

/-- Parents that are not in the past of each other, as `check_parents_incest` has it. -/
theorem selectedApart_of_not_past {dag : Store B} {parents : List B}
    (h : ∀ p ∈ parents, ∀ q ∈ parents, ¬Past dag p q) : SelectedApart dag parents := by
  intro sp hfind p hp
  obtain ⟨sp', hsp, hfind', -⟩ :=
    findSelectedParent_spec (ne_nil_of_mem hp) (mem_of_findSelectedParent hfind)
  obtain rfl := ok.inj (hfind.symm.trans hfind')
  exact h p hp sp hsp

/-- Blocks outside the past of the selected parent, each after those in its past. -/
structure MergeOrder (sp : B) (order : List B) : Prop where
  mem : ∀ x ∈ order, x ∈ dag
  outside : ∀ x ∈ order, ¬Past dag x sp
  ne : ∀ x ∈ order, x ≠ sp
  topological : order.Pairwise fun x y => ¬Past dag y x
  nodup : order.Nodup

section

variable {M : GhostdagManager B} {dag : Store B} {sp : B} {parents : List B} {reach : B → B → Bool}

/-- A store has a key for each entry. -/
theorem card_keys (dag : Store B) : dag.keys.toFinset.card = dag.entries.length := by
  rw [toFinset_card_of_nodup dag.keys_nodup, AList.keys, List.keys, length_map]

/-- The search can be run on every DAG with the invariant. -/
theorem searchable (hinv : Inv M dag) (hreach : Correct dag reach) (hsp : sp ∈ dag) :
    Searchable dag.getParents (reach · sp) dag.keys.toFinset where
  parents b hb := by
    obtain ⟨block, hblock⟩ := mem_iff_lookup.mp (mem_keys.mpr (mem_toFinset.mp hb))
    refine ⟨block.parents, by rw [Store.getParents, hblock, Option.map_some], fun p hp => ?_⟩
    obtain hmem | rfl := hinv.mem_of_isParent (isParent_iff.mpr ⟨block, hblock, hp⟩)
    · exact .inl (mem_toFinset.mpr (mem_keys.mp hmem))
    · exact .inr ((hreach _ sp hsp).mpr (.inr (hinv.origin_past hsp)))
  past {a b} hb hparent := by
    refine (hreach a sp hsp).mpr (.inr ?_)
    obtain rfl | hpast := (hreach b sp hsp).mp hb
    · exact .single hparent
    · exact .head hparent hpast

/-- The mergeset is found and ordered: what another parent adds to the past of the selected one. -/
theorem orderedMergeset_spec (hinv : Inv M dag) (hreach : Correct dag reach)
    (hparents : ∀ p ∈ parents, p ∈ dag) (hsp : sp ∈ parents)
    (hapart : ∀ p ∈ parents, ¬Past dag p sp) :
    ∃ order, GhostdagManager.orderedMergesetWithoutSelectedParent reach dag sp parents = .ok order ∧
      MergeOrder dag sp order ∧ (order.Pairwise fun x y => keyOf dag x ≤ keyOf dag y) ∧
      ∀ x, x ∈ order ↔ (∃ p ∈ parents, x = p ∨ Past dag x p) ∧ x ≠ sp ∧ ¬Past dag x sp := by
  have hspmem := hparents sp hsp
  have hreach' (x : B) : reach x sp = false ↔ x ≠ sp ∧ ¬Past dag x sp := by
    rw [← Bool.not_eq_true, hreach x sp hspmem, not_or]
  have hstart (p : B) (hp : p ∈ parents) (hne : p ≠ sp) :
      p ∈ dag.keys.toFinset ∧ reach p sp = false :=
    ⟨mem_toFinset.mpr (mem_keys.mp (hparents p hp)), (hreach' p).mpr ⟨hne, hapart p hp⟩⟩
  have hfuel :
      parents.length + dag.keys.toFinset.card < parents.length + dag.entries.length + 1 := by
    rw [card_keys]
    exact Nat.lt_succ_self _
  obtain ⟨mergeset, hok, hnodup, hiff⟩ :=
    unorderedMergeset_spec (searchable hinv hreach hspmem) hstart hfuel
  have hmem (x : B) : x ∈ mergeset ↔
      (∃ p ∈ parents, x = p ∨ Past dag x p) ∧ x ≠ sp ∧ ¬Past dag x sp := by
    rw [hiff x, hreach' x]
    refine and_congr_left fun hout => ?_
    constructor
    · rintro ⟨p, hp, -, hx⟩
      exact ⟨p, hp, reaches_iff.mp hx⟩
    · rintro ⟨p, hp, hx⟩
      refine ⟨p, hp, ?_, reaches_iff.mpr hx⟩
      rintro rfl
      exact hx.elim hout.1 hout.2
  have hknown (x : B) (hx : x ∈ mergeset) : x ∈ dag := by
    obtain ⟨⟨p, hp, rfl | hpast⟩, -, hnot⟩ := (hmem x).mp hx
    · exact hparents _ hp
    · refine (hinv.mem_of_past hpast).resolve_right fun heq => hnot ?_
      exact heq ▸ hinv.origin_past hspmem
  obtain ⟨order, hsort, hperm, hsorted⟩ := sortBlocks_spec hknown
  refine ⟨order, ?_, ?_, hsorted, fun x => (hperm.mem_iff).trans (hmem x)⟩
  · rw [GhostdagManager.orderedMergesetWithoutSelectedParent, hok, ok_bind, hsort]
  · refine ⟨fun x hx => hknown x (hperm.mem_iff.mp hx),
      fun x hx => ((hmem x).mp (hperm.mem_iff.mp hx)).2.2,
      fun x hx => ((hmem x).mp (hperm.mem_iff.mp hx)).2.1,
      hinv.topological (fun x hx => hknown x (hperm.mem_iff.mp hx)) hsorted,
      hperm.nodup_iff.mpr hnodup⟩

end

/-! ## Colouring the mergeset -/

section

/-- Raising the sizes of distinct blocks, if they all fit. -/
theorem foldlM_bumpSize {es : List (Sigma fun _ : B => KType)} (hnodup : es.NodupKeys)
    (hfits : ∀ e ∈ es, e.2.toNat + 1 < 2 ^ 16) (init : AList fun _ : B => KType) :
    ∃ sizes, es.foldlM bumpSize init = .ok sizes ∧
      (∀ x size, es.dlookup x = some size → sizes.lookup x = some (size + 1)) ∧
      ∀ x, es.dlookup x = none → sizes.lookup x = init.lookup x := by
  induction es generalizing init with
  | nil =>
    refine ⟨init, rfl, fun x size hx => ?_, fun _ _ => rfl⟩
    cases hx
  | cons e es ih =>
    obtain ⟨y, size⟩ := e
    obtain ⟨hy, hnodup⟩ := nodupKeys_cons.mp hnodup
    have hadd : checkedAdd size 1 = some (size + 1) := if_pos (hfits _ mem_cons_self)
    obtain ⟨sizes, hok, hbumped, hsame⟩ := ih hnodup
      (fun e he => hfits e (mem_cons_of_mem _ he)) (init.insert y (size + 1))
    refine ⟨sizes, ?_, fun x s hx => ?_, fun x hx => ?_⟩
    · rw [foldlM_cons, bumpSize, hadd]
      exact hok
    · by_cases heq : x = y
      · subst heq
        rw [dlookup_cons_eq] at hx
        rw [hsame x (dlookup_eq_none.mpr hy), lookup_insert, Option.some.inj hx]
      · rw [dlookup_cons_ne es ⟨y, size⟩ heq] at hx
        exact hbumped x s hx
    · have heq : x ≠ y := by
        rintro rfl
        rw [dlookup_cons_eq] at hx
        cases hx
      rw [dlookup_cons_ne es ⟨y, size⟩ heq] at hx
      rw [hsame x hx, lookup_insert_ne heq]

end

variable {M : GhostdagManager B} {dag : Store B}

/-- The size of a block depends on its entry and on the selected parent. -/
theorem SizeAt.congr {data data' : GhostdagData B} {x : B} {size : KType}
    (hsizes : data'.blues_anticone_sizes.lookup x = data.blues_anticone_sizes.lookup x)
    (hsp : data'.selected_parent = data.selected_parent) (h : SizeAt M dag x data size) :
    SizeAt M dag x data' size := by
  cases h with
  | here hsize => exact .here (hsizes.trans hsize)
  | deeper hnone hne hparent hsize =>
    exact .deeper (hsizes.trans hnone) (hsp ▸ hne) (hsp ▸ hparent) hsize

/-- A cluster in the view of block data depends on its blues, sizes and selected parent. -/
theorem Clustered.congr {data data' : GhostdagData B}
    (hblues : data'.mergeset_blues = data.mergeset_blues)
    (hsizes : data'.blues_anticone_sizes = data.blues_anticone_sizes)
    (hsp : data'.selected_parent = data.selected_parent) (h : Clustered M dag data) :
    Clustered M dag data' := by
  have hbluesOf : bluesOf M dag data' = bluesOf M dag data := by rw [bluesOf, hblues, hsp, bluesOf]
  refine ⟨hbluesOf ▸ h.cluster, fun x hx => ?_, hblues ▸ h.blues_nodup, hblues ▸ h.blues_length⟩
  rw [sizeIn, hbluesOf]
  exact (h.sizes x (hbluesOf ▸ hx)).congr (by rw [hsizes]) hsp

/-- Score and work do not matter to the cluster. -/
theorem Clustered.finalize {data : GhostdagData B} (h : Clustered M dag data)
    (blue_score : BitVec 64) (blue_work : BlueWork) :
    Clustered M dag { data with blue_score, blue_work } := by
  have hblues : ({ data with blue_score, blue_work } : GhostdagData B).mergeset_blues =
      data.mergeset_blues := rfl
  exact h.congr hblues rfl rfl

/-- The mergeset coloured so far. -/
structure Partial (M : GhostdagManager B) (dag : Store B) (sp : B) (seen : List B)
    (data : GhostdagData B) : Prop extends Clustered M dag data where
  selected_parent : data.selected_parent = sp
  selected_parent_blue : sp ∈ data.mergeset_blues
  perm : (data.mergeset_blues ++ data.mergeset_reds).Perm (sp :: seen)
  blues_sublist : data.mergeset_blues.Sublist (sp :: seen)
  reds_sublist : data.mergeset_reds.Sublist (sp :: seen)

section

variable {sp c : B} {seen rest : List B} {data : GhostdagData B} {reach : B → B → Bool}

/-- The next block of the order is a candidate. -/
theorem Partial.candidate (h : Partial M dag sp seen data) (hinv : Inv M dag) (hsp : sp ∈ dag)
    (horder : MergeOrder dag sp (seen ++ c :: rest)) : Candidate M dag data c := by
  have hc : c ∈ seen ++ c :: rest := mem_append_right _ mem_cons_self
  have hseen {x : B} (hx : x ∈ data.mergeset_blues) : x = sp ∨ x ∈ seen :=
    mem_cons.mp (h.blues_sublist.subset hx)
  have hin {x : B} (hx : x ∈ seen) : x ∈ seen ++ c :: rest := mem_append_left _ hx
  have hblue_past {x : B} (hx : x ∈ blueSet M dag sp) : Past dag x sp := hinv.past_of_mem_blueSet hx
  obtain ⟨-, -, hcross⟩ := pairwise_append.mp horder.topological
  refine { h with selected_parent_mem := h.selected_parent ▸ hsp, merged_notMem := ?_,
                  mem := horder.mem c hc, notMem := ?_, not_past := ?_ }
  · intro x hx hmem
    rw [h.selected_parent] at hmem
    obtain rfl | hx := hseen hx
    · exact hinv.not_past_self _ (hblue_past hmem)
    · exact horder.outside x (hin hx) (hblue_past hmem)
  · intro hmem
    rw [mem_bluesOf, h.selected_parent] at hmem
    obtain hx | hx := hmem
    · obtain heq | hx := hseen hx
      · exact horder.ne c hc heq
      · exact (nodup_append.mp horder.nodup).2.2 c hx c mem_cons_self rfl
    · exact horder.outside c hc (hblue_past hx)
  · intro x hx hpast
    rw [mem_bluesOf, h.selected_parent] at hx
    obtain hx | hx := hx
    · obtain rfl | hx := hseen hx
      · exact horder.outside c hc hpast
      · exact hcross x hx c mem_cons_self hpast
    · exact horder.outside c hc (hpast.trans (hblue_past hx))

/-- A red block leaves the blue ones as they are. -/
theorem Partial.addRed (h : Partial M dag sp seen data) (c : B) :
    Partial M dag sp (seen ++ [c]) (data.addRed c) := by
  have hblues : (data.addRed c).mergeset_blues = data.mergeset_blues := rfl
  have hclustered : Clustered M dag (data.addRed c) := h.toClustered.congr hblues rfl rfl
  refine { hclustered with
    selected_parent := h.selected_parent, selected_parent_blue := h.selected_parent_blue
    perm := ?_, blues_sublist := ?_, reds_sublist := ?_ }
  · change (data.mergeset_blues ++ (data.mergeset_reds ++ [c])).Perm (sp :: (seen ++ [c]))
    rw [← append_assoc, ← cons_append]
    exact h.perm.append_right [c]
  · exact h.blues_sublist.trans (sublist_append_left (sp :: seen) [c])
  · exact h.reds_sublist.append (List.Sublist.refl [c])

/-- The cluster with a candidate that there is room for, once the sizes in its anticone are raised.
-/
theorem Candidate.clustered (hc : Candidate M dag data c) {collected : Collected B}
    (hlen : data.mergeset_blues.length ≤ M.k.toNat)
    (hV : Visited M dag data c (bluesOf M dag data) collected) {data' : GhostdagData B}
    (hblues : data'.mergeset_blues = data.mergeset_blues ++ [c])
    (hsp : data'.selected_parent = data.selected_parent)
    (hself : data'.blues_anticone_sizes.lookup c = some collected.blue_anticone_size)
    (hraised : ∀ x ∈ bluesOf M dag data, InAnticone dag x c →
      data'.blues_anticone_sizes.lookup x = some (sizeIn M dag data x + 1))
    (hsame : ∀ x, x ≠ c → ¬InAnticone dag x c →
      data'.blues_anticone_sizes.lookup x = data.blues_anticone_sizes.lookup x) :
    Clustered M dag data' := by
  have hinsert : bluesOf M dag data' = insert c (bluesOf M dag data) := by
    ext x
    simp only [mem_bluesOf, Finset.mem_insert, hblues, hsp, mem_append, mem_singleton]
    tauto
  have hirrefl : ¬InAnticone dag c c := not_anticone_self _ c
  refine ⟨?_, fun x hx => ?_, ?_, ?_⟩
  · rw [hinsert]
    exact hc.cluster.insert hc.notMem hirrefl hV.size_le hV.room
  · rw [hinsert, Finset.mem_insert] at hx
    rw [sizeIn, hinsert]
    obtain rfl | hx := hx
    · rw [degree_insert_of_not hc.notMem hirrefl, ← hV.size, BitVec.ofNat_toNat, BitVec.setWidth_eq]
      exact .here hself
    · by_cases hrel : InAnticone dag x c
      · rw [degree_insert_of hc.notMem hrel, BitVec.ofNat_add]
        exact .here (hraised x hx hrel)
      · rw [degree_insert_of_not hc.notMem hrel]
        have hne : x ≠ c := fun heq => hc.notMem (heq ▸ hx)
        exact (hc.sizes x hx).congr (hsame x hne hrel) hsp
  · rw [hblues]
    refine hc.blues_nodup.append (nodup_singleton c) (disjoint_singleton.mpr fun hmem => ?_)
    exact hc.notMem (mem_bluesOf.mpr (.inl hmem))
  · rw [hblues, length_append, length_singleton]
    omega

section

variable (h : Partial M dag sp seen data)
include h

/-- A blue block with few in its anticone keeps the cluster. -/
theorem Partial.addBlue (hk : M.k.toNat + 1 < 2 ^ 16)
    (hc : Candidate M dag data c) {collected : Collected B}
    (hlen : data.mergeset_blues.length ≤ M.k.toNat)
    (hV : Visited M dag data c (bluesOf M dag data) collected) :
    ∃ data', data.addBlue c collected.blue_anticone_size collected.blues_anticone_sizes =
      .ok data' ∧ Partial M dag sp (seen ++ [c]) data' := by
  -- Every collected size is one of a blue in the anticone, and below the limit.
  have hfits (e : Sigma fun _ : B => KType) (he : e ∈ collected.blues_anticone_sizes.entries) :
      e.2.toNat + 1 < 2 ^ 16 := by
    have hlookup : collected.blues_anticone_sizes.lookup e.1 = some e.2 := mem_lookup_iff.mpr he
    by_cases hin : e.1 ∈ bluesOf M dag data ∧ InAnticone dag e.1 c
    · have hdegree := hc.toNat_sizeIn hin.1
      have hroom := hV.room e.1 hin.1 hin.2
      rw [Option.mem_unique hlookup (hV.sizes e.1 hin.1 hin.2)]
      omega
    · rw [hV.others e.1 hin] at hlookup
      cases hlookup
  obtain ⟨sizes, hok, hraised, hsame⟩ := foldlM_bumpSize collected.blues_anticone_sizes.nodupKeys
    hfits (data.blues_anticone_sizes.insert c collected.blue_anticone_size)
  have hother (x : B) (hx : ¬InAnticone dag x c) :
      sizes.lookup x = (data.blues_anticone_sizes.insert c collected.blue_anticone_size).lookup x :=
    hsame x (hV.others x fun hin => hx hin.2)
  let data' : GhostdagData B :=
    { data with mergeset_blues := data.mergeset_blues ++ [c], blues_anticone_sizes := sizes }
  have hclustered : Clustered M dag data' := by
    refine hc.clustered hlen hV rfl rfl ?_ (fun x hx hrel => hraised x _ (hV.sizes x hx hrel))
      fun x hne hrel => ?_
    · exact (hother c (not_anticone_self _ c)).trans (lookup_insert _)
    · exact (hother x hrel).trans (lookup_insert_ne hne)
  refine ⟨data', ?_, { hclustered with
    selected_parent := h.selected_parent
    selected_parent_blue := mem_append_left _ h.selected_parent_blue
    perm := ?_, blues_sublist := ?_, reds_sublist := ?_ }⟩
  · rw [GhostdagData.addBlue, hok]
    rfl
  · change ((data.mergeset_blues ++ [c]) ++ data.mergeset_reds).Perm (sp :: (seen ++ [c]))
    have hswap : ((data.mergeset_blues ++ [c]) ++ data.mergeset_reds).Perm
        ((data.mergeset_blues ++ data.mergeset_reds) ++ [c]) := by
      rw [append_assoc, append_assoc]
      exact perm_append_comm.append_left _
    exact hswap.trans (h.perm.append_right [c])
  · exact h.blues_sublist.append (List.Sublist.refl [c])
  · exact h.reds_sublist.trans (sublist_append_left (sp :: seen) [c])

/-- One candidate is coloured. -/
theorem Partial.color (hinv : Inv M dag)
    (hk : M.k.toNat + 1 < 2 ^ 16) (hreach : Correct dag reach) (hsp : sp ∈ dag)
    (horder : MergeOrder dag sp (seen ++ c :: rest)) :
    ∃ data', M.colorCandidate reach dag data c = .ok data' ∧
      Partial M dag sp (seen ++ [c]) data' := by
  have hc := h.candidate hinv hsp horder
  rw [GhostdagManager.colorCandidate]
  obtain hred | ⟨collected, hblue, hlen, hV⟩ := checkBlueCandidate_spec hinv hk hreach hc
  · rw [hred]
    exact ⟨_, rfl, h.addRed c⟩
  · rw [hblue]
    exact h.addBlue hk hc hlen hV

/-- All candidates are coloured. -/
theorem Partial.colorAll (hinv : Inv M dag)
    (hk : M.k.toNat + 1 < 2 ^ 16) (hreach : Correct dag reach) (hsp : sp ∈ dag)
    (horder : MergeOrder dag sp (seen ++ rest)) :
    ∃ data', rest.foldlM (M.colorCandidate reach dag) data = .ok data' ∧
      Partial M dag sp (seen ++ rest) data' := by
  induction rest generalizing seen data with
  | nil =>
    refine ⟨data, rfl, ?_⟩
    rw [append_nil]
    exact h
  | cons c rest ih =>
    obtain ⟨data₁, hstep, h₁⟩ := h.color hinv hk hreach hsp horder
    have happend : seen ++ c :: rest = (seen ++ [c]) ++ rest := by
      rw [append_assoc, singleton_append]
    obtain ⟨data₂, hloop, h₂⟩ := ih h₁ (happend ▸ horder)
    refine ⟨data₂, ?_, happend ▸ h₂⟩
    rw [foldlM_cons, hstep, ok_bind, hloop]

end

/-- The blue set of a block is a cluster. -/
theorem Inv.isCluster (hinv : Inv M dag) (hsp : sp ∈ dag) :
    IsCluster (InAnticone dag) M.k.toNat (blueSet M dag sp) := by
  by_cases hne : sp = M.genesis_hash
  · rw [hne, blueSet_genesis]
    exact fun x hx => absurd hx (Finset.notMem_empty x)
  · obtain ⟨block, hblock⟩ := mem_iff_lookup.mp hsp
    rw [hinv.blueSet_eq hblock hne]
    exact (hinv.colored hblock hne).cluster

/-- Before the first candidate the selected parent is the only blue that is merged. -/
theorem exists_newWithSelectedParent (hinv : Inv M dag) (hk : M.k.toNat + 1 < 2 ^ 16)
    (hsp : sp ∈ dag) :
    ∃ data, newWithSelectedParent sp M.k = .ok data ∧ Partial M dag sp [] data := by
  obtain ⟨k1, hadd, -⟩ := exists_succ_size hk
  refine ⟨⟨0, 0, sp, [sp], [], singleton sp 0⟩, ?_, ?_⟩
  · rw [newWithSelectedParent, hadd]
    rfl
  have hnew : sp ∉ blueSet M dag sp := fun hmem =>
    hinv.not_past_self sp (hinv.past_of_mem_blueSet hmem)
  -- The blues of the selected parent are in its past.
  have hrel {x : B} (hx : x ∈ blueSet M dag sp) : ¬InAnticone dag x sp :=
    fun hrel => hrel.2.1 (hinv.past_of_mem_blueSet hx)
  have hdegree : degree (InAnticone dag) (blueSet M dag sp) sp = 0 :=
    degree_eq_zero fun y hy hrel' => hrel hy hrel'.symm
  have hblues : bluesOf M dag ⟨0, 0, sp, [sp], [], singleton sp 0⟩ =
      insert sp (blueSet M dag sp) := by
    rw [bluesOf, toFinset_cons, toFinset_nil, Finset.insert_union, Finset.empty_union]
  refine ⟨⟨?_, fun x hx => ?_, nodup_singleton sp, Nat.le_add_left 1 _⟩, rfl,
    mem_singleton_self sp, List.Perm.refl _, List.Sublist.refl _, nil_sublist _⟩
  · rw [hblues]
    refine (hinv.isCluster hsp).insert hnew (not_anticone_self _ sp) (hdegree ▸ Nat.zero_le _)
      fun x hx hx' => ?_
    exact absurd hx' (hrel hx)
  · rw [hblues, Finset.mem_insert] at hx
    rw [sizeIn, hblues]
    obtain rfl | hx := hx
    · rw [degree_insert_of_not hnew (not_anticone_self _ x), hdegree]
      exact .here (dlookup_cons_eq [] x 0)
    · have hne : sp ≠ M.genesis_hash := fun heq => by
        rw [heq, blueSet_genesis] at hx
        exact absurd hx (Finset.notMem_empty x)
      have hxsp : x ≠ sp := fun heq => hnew (heq ▸ hx)
      obtain ⟨block, hblock⟩ := mem_iff_lookup.mp hsp
      rw [degree_insert_of_not hnew (hrel hx)]
      refine .deeper (dlookup_cons_ne [] ⟨sp, 0⟩ hxsp) hne hblock ?_
      rw [hinv.blueSet_eq hblock hne] at hx ⊢
      exact (hinv.colored hblock hne).sizes x hx

end

end Zkas.Dag
