import Zkas.Dag.Growth

/-!
# Grown DAGs

A DAG grows from the genesis by blocks whose data is what `ghostdag` returns for their parents. If
no block names a parent in the past of its selected parent, every block of a grown DAG is coloured
and the next call does not panic, but for a blue score that no longer fits (`coloring_correct`).
With such a parent the mergeset is wrong: the search takes every other parent for one outside the
past of the selected parent. The header processor refuses any parent in the past of another one
(`check_parents_incest`, `selectedApart_of_not_past`). -/

namespace Zkas.Dag

open Cluster Word List Option Except AList GhostdagManager

variable {B : Type} [LinearOrder B]

/-- The work of a known block as a number. -/
def blockWork (M : GhostdagManager B) (dag : Store B) (b : B) : ℕ :=
  (dag.lookup b).elim 0 fun block => (M.work block.bits).toNat

/-- The blue work of a new block does not overflow. -/
def WorkFits (M : GhostdagManager B) (dag : Store B) (data : GhostdagData B) : Prop :=
  blueWork dag data.selected_parent + (data.mergeset_blues.map (blockWork M dag)).sum < 2 ^ 192

/-- A DAG grown from the genesis, one block at a time. -/
inductive Grown (M : GhostdagManager B) : Store B → Prop
  | init {bits : BitVec 32} (hwork : 0 < (M.work bits).toNat) : Grown M (M.init bits)
  | add {dag : Store B} {b : B} {parents : List B} {bits : BitVec 32} {data : GhostdagData B}
      {is_dag_ancestor_of : B → B → Bool} (hdag : Grown M dag) (hb : b ∉ dag)
      (horigin : b ≠ M.origin) (hne : parents ≠ []) (hparents : ∀ p ∈ parents, p ∈ dag)
      (hreach : Correct dag is_dag_ancestor_of)
      (hdata : M.ghostdag is_dag_ancestor_of dag parents = .ok data) (hfits : WorkFits M dag data)
      (hwork : 0 < (M.work bits).toNat) : Grown M (dag.insert b ⟨parents, bits, data⟩)

/-- No block of the DAG names a parent in the past of the selected one. -/
def ParentsApart (dag : Store B) : Prop :=
  ∀ b block, dag.lookup b = some block → SelectedApart dag block.parents

/-! ## One call -/

/-- What a call returns for admissible parents. -/
structure Added (M : GhostdagManager B) (dag : Store B) (parents : List B) (data : GhostdagData B) :
    Prop extends Clustered M dag data where
  selected_parent_mem : data.selected_parent ∈ parents
  parents_apart : ∀ p ∈ parents, ¬Past dag p data.selected_parent
  selected_parent_blue : data.selected_parent ∈ data.mergeset_blues
  selected_parent_max : ∀ p ∈ parents, blueWork dag p ≤ blueWork dag data.selected_parent
  mergeset_iff : ∀ x, x ∈ data.mergeset_blues ∨ x ∈ data.mergeset_reds ↔
    (∃ p ∈ parents, x = p ∨ Past dag x p) ∧ ¬Past dag x data.selected_parent
  ordered : ∃ order, InOrder dag data order
  blue_score : ∀ parent, dag.lookup data.selected_parent = some parent →
    data.blue_score.toNat = parent.data.blue_score.toNat + data.mergeset_blues.length
  blue_work : WorkFits M dag data → data.blue_work.toNat =
    blueWork dag data.selected_parent + (data.mergeset_blues.map (blockWork M dag)).sum

section

variable {M : GhostdagManager B} {dag : Store B} {parents : List B} {reach : B → B → Bool}

omit [LinearOrder B] in
/-- A sum of work that fits is the sum of the numbers. -/
theorem toNat_foldl_add (ws : List BlueWork) (w : BlueWork)
    (h : w.toNat + (ws.map BitVec.toNat).sum < 2 ^ 192) :
    (ws.foldl (· + ·) w).toNat = w.toNat + (ws.map BitVec.toNat).sum := by
  induction ws generalizing w with
  | nil => rfl
  | cons v ws ih =>
    rw [map_cons, sum_cons] at h
    have hadd : (w + v).toNat = w.toNat + v.toNat := BitVec.toNat_add_of_lt (by omega)
    rw [foldl_cons, ih (w + v) (by omega), hadd, map_cons, sum_cons, add_assoc]

/-- The work of blocks of the DAG can be read. -/
theorem works_spec {blocks : List B} (h : ∀ b ∈ blocks, b ∈ dag) :
    ∃ ws, M.works dag blocks = .ok ws ∧ ws.map BitVec.toNat = blocks.map (blockWork M dag) := by
  refine ⟨blocks.map fun b => (dag.lookup b).elim 0 fun block => M.work block.bits, ?_, ?_⟩
  · refine mapM_eq_ok_map fun b hb => ?_
    obtain ⟨block, hblock⟩ := mem_iff_lookup.mp (h b hb)
    rw [get_of_lookup hblock, ok_bind, hblock]
    rfl
  · rw [List.map_map]
    refine map_congr_left fun b _ => ?_
    rw [Function.comp_apply, blockWork]
    cases dag.lookup b <;> rfl

/-- The mergeset of apart parents is coloured without a panic. -/
theorem colorMergeset_spec (hinv : Inv M dag) (hk : M.k.toNat + 1 < 2 ^ 16)
    (hreach : Correct dag reach) (hparents : ∀ p ∈ parents, p ∈ dag) {sp : B} (hsp : sp ∈ parents)
    (hapart : ∀ p ∈ parents, ¬Past dag p sp) :
    ∃ data order, M.colorMergeset reach dag sp parents = .ok data ∧ Partial M dag sp order data ∧
      MergeOrder dag sp order ∧ (order.Pairwise fun x y => keyOf dag x ≤ keyOf dag y) ∧
      ∀ x, x ∈ order ↔ (∃ p ∈ parents, x = p ∨ Past dag x p) ∧ x ≠ sp ∧ ¬Past dag x sp := by
  have hspmem := hparents sp hsp
  obtain ⟨order, hok, horder, hsorted, hiff⟩ := orderedMergeset_spec hinv hreach hparents hsp hapart
  obtain ⟨data₀, hnew, h₀⟩ := exists_newWithSelectedParent hinv hk hspmem
  obtain ⟨data, hcolor, h⟩ := h₀.colorAll hinv hk hreach hspmem horder
  refine ⟨data, order, ?_, h, horder, hsorted, hiff⟩
  rw [colorMergeset, hnew, ok_bind, hok, ok_bind, hcolor]

/-- A call with admissible parents does not panic, but for a blue score that does not fit. -/
theorem ghostdag_spec (hinv : Inv M dag) (hk : M.k.toNat + 1 < 2 ^ 16) (hreach : Correct dag reach)
    (hparents : Admissible dag parents) :
    M.ghostdag reach dag parents = .error .scoreOverflow ∨
      ∃ data, M.ghostdag reach dag parents = .ok data ∧ Added M dag parents data := by
  obtain ⟨sp, hsp, hfind, hmax⟩ := findSelectedParent_spec hparents.ne_nil hparents.mem
  have hspmem := hparents.mem sp hsp
  obtain ⟨parent, hparent⟩ := mem_iff_lookup.mp hspmem
  obtain ⟨data, order, hcolor, h, horder, hsorted, hiff⟩ :=
    colorMergeset_spec hinv hk hreach hparents.mem hsp (hparents.apart sp hfind)
  have hempty : ¬parents.isEmpty = true := fun hnil => hparents.ne_nil (isEmpty_iff.mp hnil)
  have hmerged (x : B) (hx : x ∈ data.mergeset_blues) : x ∈ dag := by
    obtain rfl | hx := mem_cons.mp (h.blues_sublist.subset hx)
    · exact hspmem
    · exact horder.mem x hx
  obtain ⟨ws, hworks, hws⟩ := works_spec (M := M) hmerged
  rw [ghostdag, if_neg hempty]
  rw [hfind, ok_bind, if_neg (hinv.ne_origin hspmem), hcolor, ok_bind,
    get_of_lookup hparent, ok_bind]
  cases hscore : checkedAdd parent.data.blue_score (BitVec.ofNat 64 data.mergeset_blues.length) with
  | none => exact .inl rfl
  | some score =>
    rw [okOr, ok_bind, hworks, ok_bind]
    refine .inr ⟨_, rfl, ?_⟩
    have hlen :
        (BitVec.ofNat 64 data.mergeset_blues.length).toNat = data.mergeset_blues.length := by
      have hle := h.blues_length
      rw [BitVec.toNat_ofNat, Nat.mod_eq_of_lt (by omega)]
    have hmergeset (x : B) : x ∈ data.mergeset_blues ∨ x ∈ data.mergeset_reds ↔
        (∃ p ∈ parents, x = p ∨ Past dag x p) ∧ ¬Past dag x sp := by
      rw [← mem_append, h.perm.mem_iff, mem_cons, hiff x]
      constructor
      · rintro (rfl | ⟨hreach, -, hnot⟩)
        · exact ⟨⟨x, hsp, .inl rfl⟩, hinv.not_past_self x⟩
        · exact ⟨hreach, hnot⟩
      · rintro ⟨hreach, hnot⟩
        exact (em (x = sp)).imp_right fun hne => ⟨hreach, hne, hnot⟩
    have hnodup : (sp :: order).Nodup :=
      nodup_cons.mpr ⟨fun hmem => horder.ne sp hmem rfl, horder.nodup⟩
    obtain rfl := h.selected_parent
    refine { h.toClustered.finalize score (parent.data.blue_work + ws.foldl (· + ·) 0) with
      selected_parent_mem := hsp, parents_apart := hparents.apart _ hfind
      selected_parent_blue := h.selected_parent_blue, selected_parent_max := hmax,
      mergeset_iff := hmergeset
      ordered := ⟨order, hsorted, hnodup, h.selected_parent_blue, h.perm, h.blues_sublist,
        h.reds_sublist⟩
      blue_score := fun parent' hparent' => ?_, blue_work := fun hfits => ?_ }
    · obtain rfl := mem_unique hparent hparent'
      rw [checkedAdd_eq_some.mp hscore, hlen]
    · have hsum := hfits
      unfold WorkFits at hsum
      rw [← hws, blueWork_of_lookup hparent] at hsum ⊢
      have hzero : (0 : BlueWork).toNat = 0 := rfl
      have hfold := toNat_foldl_add ws 0 (by omega)
      rw [hzero, zero_add] at hfold
      rw [BitVec.toNat_add_of_lt (by omega), hfold]

end

/-! ## The invariant of a grown DAG -/

section

variable {M : GhostdagManager B} {dag dag' : Store B} {b x : B}

/-- Blue blocks are in the DAG. -/
theorem Inv.blue_mem (hinv : Inv M dag) (hx : Blue M dag b x) : x ∈ dag := by
  induction hx with
  | merged hblock hne hx => exact hinv.merged_mem hblock hne hx
  | inherited _ _ _ ih => exact ih

variable {block : Block B}

/-- The blue score counts the blue blocks. -/
theorem Inv.blue_score_eq (hinv : Inv M dag) (hblock : dag.lookup b = some block) :
    block.data.blue_score.toNat = (blueSet M dag b).card := by
  by_cases hne : b = M.genesis_hash
  · subst hne
    rw [hinv.genesis_data hblock, blueSet_genesis, Finset.card_empty]
    rfl
  · rw [hinv.blueSet_eq hblock hne]
    exact (hinv.colored hblock hne).blue_score

/-- Blue blocks stay as they are when the DAG grows. -/
theorem Extends.blue_iff (hext : Extends dag dag') (hinv : Inv M dag) (hb : b ∈ dag) :
    Blue M dag' b x ↔ Blue M dag b x := by
  constructor
  · intro hx
    induction hx with
    | merged hblock' hne hx =>
      obtain ⟨block, hblock⟩ := mem_iff_lookup.mp hb
      obtain rfl := mem_unique (hext hblock) hblock'
      exact .merged hblock hne hx
    | inherited hblock' hne _ ih =>
      obtain ⟨block, hblock⟩ := mem_iff_lookup.mp hb
      obtain rfl := mem_unique (hext hblock) hblock'
      exact .inherited hblock hne (ih (hinv.selected_parent_mem hblock hne))
  · intro hx
    clear hb
    induction hx with
    | merged hblock hne hx => exact .merged (hext hblock) hne hx
    | inherited hblock hne _ ih => exact .inherited (hext hblock) hne ih

/-- So do blue sets. -/
theorem Extends.blueSet_eq (hext : Extends dag dag') (hinv : Inv M dag) (hb : b ∈ dag) :
    blueSet M dag' b = blueSet M dag b := by
  ext x
  rw [mem_blueSet, mem_blueSet, hext.blue_iff hinv hb]
  exact ⟨fun hx => ⟨hinv.blue_mem hx.2, hx.2⟩, fun hx => ⟨hext.mem hx.1, hx.2⟩⟩

variable {data : GhostdagData B}

/-- So do the blocks that data calls blue. -/
theorem Extends.bluesOf_eq (hext : Extends dag dag') (hinv : Inv M dag)
    (hsp : data.selected_parent ∈ dag) : bluesOf M dag' data = bluesOf M dag data := by
  rw [bluesOf, bluesOf, hext.blueSet_eq hinv hsp]

/-- A cluster stays one when the DAG grows. -/
theorem Clustered.extend (h : Clustered M dag data) (hext : Extends dag dag') (hinv : Inv M dag)
    (horigin : M.origin ∉ dag') (hsp : data.selected_parent ∈ dag)
    (hmerged : ∀ x ∈ data.mergeset_blues, x ∈ dag) : Clustered M dag' data := by
  have hblues := hext.bluesOf_eq hinv hsp
  have hmem (x : B) (hx : x ∈ bluesOf M dag data) : x ∈ dag := by
    obtain hx | hx := mem_bluesOf.mp hx
    · exact hmerged x hx
    · exact (mem_blueSet.mp hx).1
  have hdegree (x : B) (hx : x ∈ bluesOf M dag data) :=
    hext.degree_eq hinv.toOrdered horigin hmem (hmem x hx)
  refine ⟨fun x hx => ?_, fun x hx => ?_, h.blues_nodup, h.blues_length⟩
  · rw [hblues] at hx ⊢
    rw [hdegree x hx]
    exact h.cluster x hx
  · rw [hblues] at hx
    rw [sizeIn, hblues, hdegree x hx]
    exact hext.sizeAt (h.sizes x hx)

/-- An order stays topological when the DAG grows. -/
theorem InOrder.extend {order : List B} (h : InOrder dag data order) (hext : Extends dag dag')
    (hmem : ∀ x, x ∈ data.mergeset_blues ∨ x ∈ data.mergeset_reds → x ∈ dag) :
    InOrder dag' data order := by
  have hkey {z : B} (hz : z ∈ order) : keyOf dag' z = keyOf dag z := by
    have hz := mem_append.mp (h.perm.mem_iff.mpr (mem_cons_of_mem _ hz))
    rw [keyOf, keyOf, hext.blueWork_eq (hmem z hz)]
  refine { h with sorted := h.sorted.imp_of_mem fun {x y} hx hy hle => ?_ }
  rw [hkey hx, hkey hy]
  exact hle

/-- A coloured block stays so when the DAG grows. -/
theorem Colored.extend (h : Colored M dag b block) (hext : Extends dag dag')
    (hinv : Inv M dag) (horigin : M.origin ∉ dag') (hblock : dag.lookup b = some block)
    (hne : b ≠ M.genesis_hash) : Colored M dag' b block := by
  have hsp := hinv.selected_parent_mem hblock hne
  have hpast {x y : B} (hy : y ∈ dag) : Past dag' x y ↔ Past dag x y :=
    hext.past_iff hinv.toOrdered horigin hy
  refine { h.toClustered.extend hext hinv horigin hsp fun x hx => hinv.merged_mem hblock hne hx with
    selected_parent_mem := h.selected_parent_mem
    parents_apart := fun p hp hsel => h.parents_apart p hp ((hpast hsp).mp hsel)
    mergeset_iff := fun x => ?_, ordered := ?_, blue_score := ?_ }
  · rw [hpast (mem_of_lookup hblock), hpast hsp]
    exact h.mergeset_iff x
  · obtain ⟨order, horder⟩ := h.ordered
    exact ⟨order, horder.extend hext fun x hx => hinv.mergeset_mem hblock hne hx⟩
  · rw [hext.bluesOf_eq hinv hsp]
    exact h.blue_score

/-- The invariant of genesis alone. -/
theorem inv_init (bits : BitVec 32) : Inv M (M.init bits) := by
  have hlookup {b : B} {block : Block B} (hblock : (M.init bits).lookup b = some block) :
      b = M.genesis_hash ∧ block = ⟨[M.origin], bits, M.genesisGhostdagData⟩ := by
    by_cases heq : b = M.genesis_hash
    · subst heq
      exact ⟨rfl, (mem_unique (dlookup_cons_eq [] _ _) hblock).symm⟩
    · have hnone : (M.init bits).lookup b = none := dlookup_cons_ne [] _ heq
      rw [hnone] at hblock
      cases hblock
  have horigin : M.origin ∉ M.init bits := fun hmem => by
    obtain ⟨block, hblock⟩ := mem_iff_lookup.mp hmem
    exact M.genesis_ne_origin (hlookup hblock).1.symm
  refine ⟨⟨horigin, ⟨_, dlookup_cons_eq [] _ _, rfl⟩, fun hblock => ?_, fun hblock hne => ?_,
    fun hblock hp hmem => ?_⟩, fun hblock => ?_, fun hblock hne => ?_⟩
  · rw [(hlookup hblock).2]
    exact cons_ne_nil _ _
  · exact absurd (hlookup hblock).1 hne
  · rw [(hlookup hblock).2, mem_singleton] at hp
    exact absurd (hp ▸ hmem) horigin
  · rw [(hlookup hblock).2]
  · exact absurd (hlookup hblock).1 hne

/-- A block of the new DAG is the added one or an old one. -/
theorem lookup_insert_cases {block block' : Block B} {b' : B}
    (h : (dag.insert b block).lookup b' = some block') :
    (b' = b ∧ block' = block) ∨ (b' ≠ b ∧ dag.lookup b' = some block') := by
  by_cases heq : b' = b
  · subst heq
    rw [lookup_insert] at h
    exact .inl ⟨rfl, (some.inj h).symm⟩
  · rw [lookup_insert_ne heq] at h
    exact .inr ⟨heq, h⟩

variable {parents : List B} {bits : BitVec 32}

/-- The work of the new block exceeds that of its parents. -/
theorem Added.work_lt (hadded : Added M dag parents data) (hfits : WorkFits M dag data)
    (hpos : 0 < blockWork M dag data.selected_parent) {p : B} (hp : p ∈ parents) :
    blueWork dag p < data.blue_work.toNat := by
  have hmax := hadded.selected_parent_max p hp
  have hsum := hadded.blue_work hfits
  have hle : blockWork M dag data.selected_parent ≤
      (data.mergeset_blues.map (blockWork M dag)).sum :=
    single_le_sum (fun _ _ => Nat.zero_le _) _ (mem_map_of_mem hadded.selected_parent_blue)
  omega

/-- A block on top keeps the order. -/
theorem Ordered.add (hinv : Inv M dag) (hb : b ∉ dag) (horigin : b ≠ M.origin)
    (hparents : Admissible dag parents)
    (hwork : ∀ p ∈ parents, blueWork dag p < data.blue_work.toNat) :
    Ordered M (dag.insert b ⟨parents, bits, data⟩) := by
  have hext : Extends dag (dag.insert b ⟨parents, bits, data⟩) := extends_insert hb _
  have hnew : M.origin ∉ dag.insert b ⟨parents, bits, data⟩ := by
    rw [mem_insert, not_or]
    exact ⟨horigin.symm, hinv.origin_notMem⟩
  refine ⟨hnew, ?_, fun {b' block} hblock => ?_, fun {b' block} hblock hne p hp => ?_,
    fun {b' block p} hblock hp hmem => ?_⟩
  · obtain ⟨block, hblock, hgenesis⟩ := hinv.genesis
    exact ⟨block, hext hblock, hgenesis⟩
  · obtain ⟨-, rfl⟩ | ⟨-, hblock⟩ := lookup_insert_cases hblock
    · exact hparents.ne_nil
    · exact hinv.parents_ne_nil hblock
  · obtain ⟨-, rfl⟩ | ⟨-, hblock⟩ := lookup_insert_cases hblock
    · exact hext.mem (hparents.mem p hp)
    · exact hext.mem (hinv.parents_mem hblock hne p hp)
  · obtain ⟨rfl, rfl⟩ | ⟨-, hold⟩ := lookup_insert_cases hblock
    · rw [hext.blueWork_eq (hparents.mem p hp), blueWork_of_lookup hblock]
      exact hwork p hp
    · have hpmem : p ∈ dag := by
        refine (hinv.mem_of_isParent (isParent_iff.mpr ⟨block, hold, hp⟩)).resolve_right ?_
        exact fun heq => hnew (heq ▸ hmem)
      rw [hext.blueWork_eq hpmem, hext.blueWork_eq (mem_of_lookup hold)]
      exact hinv.work_lt hold hp hpmem

/-- The new block is coloured. -/
theorem Added.colored (hadded : Added M dag parents data) (hinv : Inv M dag) (hb : b ∉ dag)
    (hparents : Admissible dag parents) (hnew : M.origin ∉ dag.insert b ⟨parents, bits, data⟩) :
    Colored M (dag.insert b ⟨parents, bits, data⟩) b ⟨parents, bits, data⟩ := by
  have hext : Extends dag (dag.insert b ⟨parents, bits, data⟩) := extends_insert hb _
  have hsp := hparents.mem _ hadded.selected_parent_mem
  have hpast {x y : B} (hy : y ∈ dag) :
      Past (dag.insert b ⟨parents, bits, data⟩) x y ↔ Past dag x y :=
    hext.past_iff hinv.toOrdered hnew hy
  have hmem {x : B} (hx : x ∈ data.mergeset_blues ∨ x ∈ data.mergeset_reds) : x ∈ dag := by
    obtain ⟨⟨p, hp, rfl | hxp⟩, hnot⟩ := (hadded.mergeset_iff x).mp hx
    · exact hparents.mem _ hp
    · exact (hinv.mem_of_past hxp).resolve_right fun heq => hnot (heq ▸ hinv.origin_past hsp)
  have hlookup : (dag.insert b ⟨parents, bits, data⟩).lookup b = some ⟨parents, bits, data⟩ :=
    lookup_insert dag
  refine { hadded.toClustered.extend hext hinv hnew hsp fun x hx => hmem (.inl hx) with
    selected_parent_mem := hadded.selected_parent_mem
    parents_apart := fun p hp hsel => hadded.parents_apart p hp ((hpast hsp).mp hsel)
    mergeset_iff := fun x => ?_, ordered := ?_, blue_score := ?_ }
  · rw [past_iff hlookup, hpast hsp, hadded.mergeset_iff x]
    refine and_congr_left fun _ => exists_congr fun p => and_congr_right fun hp => ?_
    rw [hpast (hparents.mem p hp)]
  · obtain ⟨order, horder⟩ := hadded.ordered
    exact ⟨order, horder.extend hext fun _ hx => hmem hx⟩
  · obtain ⟨parent, hparent⟩ := mem_iff_lookup.mp hsp
    have hdisj : Disjoint data.mergeset_blues.toFinset (blueSet M dag data.selected_parent) := by
      refine Finset.disjoint_left.mpr fun x hx hblue => ?_
      have hnot := ((hadded.mergeset_iff x).mp (.inl (mem_toFinset.mp hx))).2
      exact hnot (hinv.past_of_mem_blueSet hblue)
    rw [hext.bluesOf_eq hinv hsp, bluesOf, Finset.card_union_of_disjoint hdisj,
      toFinset_card_of_nodup hadded.blues_nodup, hadded.blue_score parent hparent,
      hinv.blue_score_eq hparent, add_comm]

/-- A block on top keeps the invariant. -/
theorem Inv.add (hinv : Inv M dag) (hb : b ∉ dag) (horigin : b ≠ M.origin)
    (hparents : Admissible dag parents) (hadded : Added M dag parents data)
    (hfits : WorkFits M dag data) (hwork : ∀ p ∈ dag, 0 < blockWork M dag p) :
    Inv M (dag.insert b ⟨parents, bits, data⟩) := by
  have hext : Extends dag (dag.insert b ⟨parents, bits, data⟩) := extends_insert hb _
  have hpos := hwork _ (hparents.mem _ hadded.selected_parent_mem)
  have hordered : Ordered M (dag.insert b ⟨parents, bits, data⟩) :=
    .add hinv hb horigin hparents fun p hp => hadded.work_lt hfits hpos hp
  refine { hordered with genesis_data := fun hblock => ?_, colored := fun hblock hne => ?_ }
  · obtain ⟨heq, -⟩ | ⟨-, hblock⟩ := lookup_insert_cases hblock
    · exact absurd (heq ▸ hinv.genesis_mem) hb
    · exact hinv.genesis_data hblock
  · obtain ⟨rfl, rfl⟩ | ⟨-, hblock⟩ := lookup_insert_cases hblock
    · exact hadded.colored hinv hb hparents hordered.origin_notMem
    · exact (hinv.colored hblock hne).extend hext hinv hordered.origin_notMem hblock hne

/-- What is in the past stays there. -/
theorem Extends.past (hext : Extends dag dag') {a : B} (h : Past dag a b) : Past dag' a b := by
  have hstep {a b : B} (hparent : IsParent dag.getParents a b) : IsParent dag'.getParents a b := by
    obtain ⟨block, hblock, ha⟩ := isParent_iff.mp hparent
    exact isParent_iff.mpr ⟨block, hext hblock, ha⟩
  induction h with
  | single hparent => exact .single (hstep hparent)
  | tail _ hparent ih => exact .tail ih (hstep hparent)

/-- What is selected among known parents stays selected. -/
theorem SelectedApart.of_extends {ps : List B} (h : SelectedApart dag' ps)
    (hext : Extends dag dag') :
    SelectedApart dag ps := by
  intro sp hfind p hp hpast
  refine h sp ?_ p hp (hext.past hpast)
  have hmem := mem_of_findSelectedParent hfind
  have hmap : ps.map (sortableOf dag') = ps.map (sortableOf dag) := map_congr_left fun q hq => by
    obtain ⟨block, hblock⟩ := mem_iff_lookup.mp (hmem q hq)
    rw [sortableOf, sortableOf, hblock, hext hblock]
  rw [findSelectedParent, mapM_sortable fun q hq => hext.mem (hmem q hq),
    hmap, ← mapM_sortable hmem]
  exact hfind

/-- Every block has positive work. -/
theorem Grown.blockWork_pos (h : Grown M dag) : ∀ p ∈ dag, 0 < blockWork M dag p := by
  induction h with
  | init hwork =>
    intro p hp
    obtain rfl : p = M.genesis_hash := mem_singleton.mp (mem_keys.mp hp)
    rw [blockWork, GhostdagManager.init, AList.lookup, AList.singleton, dlookup_cons_eq]
    exact hwork
  | @add dag b parents bits data _ _ hb _ _ _ _ _ _ hwork ih =>
    intro p hp
    obtain ⟨block, hblock⟩ := mem_iff_lookup.mp hp
    rw [blockWork, hblock, elim_some]
    obtain ⟨-, rfl⟩ | ⟨-, hold⟩ := lookup_insert_cases hblock
    · exact hwork
    · have hpos := ih p (mem_of_lookup hold)
      rw [blockWork, hold, elim_some] at hpos
      exact hpos

/-- Every grown DAG with apart parents has the invariant. -/
theorem Grown.inv (hk : M.k.toNat + 1 < 2 ^ 16) (h : Grown M dag) (hapart : ParentsApart dag) :
    Inv M dag := by
  induction h with
  | init hwork => exact inv_init _
  | @add dag b parents bits data reach hdag hb horigin hne hparents hreach hdata hfits hwork ih =>
    have hext : Extends dag (dag.insert b ⟨parents, bits, data⟩) := extends_insert hb _
    have hinv : Inv M dag := ih fun b' block hblock =>
      (hapart b' block (hext hblock)).of_extends hext
    have hadmissible : Admissible dag parents :=
      ⟨hne, hparents, (hapart b _ (lookup_insert dag)).of_extends hext⟩
    obtain herror | ⟨data', hok, hadded⟩ := ghostdag_spec hinv hk hreach hadmissible
    · rw [hdata] at herror
      cases herror
    · obtain rfl := ok.inj (hdata.symm.trans hok)
      exact hinv.add hb horigin hadmissible hadded hfits hdag.blockWork_pos

/-- The mergeset of a stored block is the one that the search finds, in its order. -/
theorem Inv.exists_order (hinv : Inv M dag) {reach : B → B → Bool} (hreach : Correct dag reach)
    (hblock : dag.lookup b = some block) (hne : b ≠ M.genesis_hash) :
    ∃ order, orderedMergesetWithoutSelectedParent reach dag
        block.data.selected_parent block.parents = .ok order ∧
      (block.data.selected_parent :: order).Pairwise (fun x y => ¬Past dag y x) ∧
      (block.data.mergeset_blues ++ block.data.mergeset_reds).Perm
        (block.data.selected_parent :: order) ∧
      block.data.mergeset_blues.Sublist (block.data.selected_parent :: order) ∧
      block.data.mergeset_reds.Sublist (block.data.selected_parent :: order) := by
  have hcolored := hinv.colored hblock hne
  obtain ⟨order, hok, hmerge, hsorted, hiff⟩ :=
    orderedMergeset_spec hinv hreach (hinv.parents_mem hblock hne) hcolored.selected_parent_mem
      hcolored.parents_apart
  obtain ⟨order', horder'⟩ := hcolored.ordered
  -- Both orders are sorted by the same keys and have the same members.
  have hmem (x : B) : x ∈ order' ↔ x ∈ order := by
    have hne_sp : x ∈ order' → x ≠ block.data.selected_parent := fun hx heq =>
      (nodup_cons.mp horder'.nodup).1 (heq ▸ hx)
    have hall : x = block.data.selected_parent ∨ x ∈ order' ↔
        (∃ p ∈ block.parents, x = p ∨ Past dag x p) ∧ ¬Past dag x block.data.selected_parent := by
      rw [← mem_cons, ← horder'.perm.mem_iff, mem_append, hcolored.mergeset_iff x, past_iff hblock]
    rw [hiff x]
    constructor
    · intro hx
      obtain ⟨hpast, hnot⟩ := hall.mp (.inr hx)
      exact ⟨hpast, hne_sp hx, hnot⟩
    · rintro ⟨hpast, hx, hnot⟩
      exact (hall.mpr ⟨hpast, hnot⟩).resolve_left hx
  have hperm : order'.Perm order :=
    (perm_ext_iff_of_nodup (nodup_cons.mp horder'.nodup).2 hmerge.nodup).mpr hmem
  have hkey (x y : B) (h : keyOf dag x = keyOf dag y) : x = y :=
    congrArg (fun key => (ofLex key).2) h
  obtain rfl : order' = order := hperm.eq_of_pairwise
    (fun x y _ _ hxy hyx => hkey x y (le_antisymm hxy hyx)) horder'.sorted hsorted
  refine ⟨order', hok, ?_, horder'.perm, horder'.blues, horder'.reds⟩
  exact pairwise_cons.mpr ⟨hmerge.outside, hmerge.topological⟩

end

variable {M : GhostdagManager B} {dag : Store B}

/-- GHOSTDAG on a DAG grown from the genesis, where no block names a parent in the past of the one
that is selected. A further call on such parents does not panic, but for a blue score that does not
fit. Every block has a `k`-cluster of blues with the sizes that are read, merges at most `k + 1` of
them, merges exactly what it adds to the past of its selected parent, in an order in which no block
comes before one of its ancestors, counts its blues as its score, and has more blue work than each
of its parents. -/
theorem coloring_correct (hk : M.k.toNat + 1 < 2 ^ 16) (hdag : Grown M dag)
    (hapart : ParentsApart dag) :
    (∀ parents is_dag_ancestor_of, parents ≠ [] → (∀ p ∈ parents, p ∈ dag) →
      SelectedApart dag parents → Correct dag is_dag_ancestor_of →
      (∃ data, M.ghostdag is_dag_ancestor_of dag parents = .ok data) ∨
        M.ghostdag is_dag_ancestor_of dag parents = .error .scoreOverflow) ∧
    ∀ b block, dag.lookup b = some block → IsCluster (InAnticone dag) M.k.toNat (blueSet M dag b) ∧
      (∀ x ∈ blueSet M dag b, ∃ size, M.blueAnticoneSize dag x block.data = .ok size ∧
        size.toNat = degree (InAnticone dag) (blueSet M dag b) x) ∧
      block.data.mergeset_blues.length ≤ M.k.toNat + 1 ∧
      (∀ x ∈ dag, x ∈ block.data.mergeset_blues ∨ x ∈ block.data.mergeset_reds ↔
        Past dag x b ∧ ¬Past dag x block.data.selected_parent) ∧
      (b ≠ M.genesis_hash → ∀ is_dag_ancestor_of, Correct dag is_dag_ancestor_of →
        ∃ order, orderedMergesetWithoutSelectedParent is_dag_ancestor_of dag
            block.data.selected_parent block.parents = .ok order ∧
          (block.data.selected_parent :: order).Pairwise (fun x y => ¬Past dag y x) ∧
          (block.data.mergeset_blues ++ block.data.mergeset_reds).Perm
            (block.data.selected_parent :: order) ∧
          block.data.mergeset_blues.Sublist (block.data.selected_parent :: order) ∧
          block.data.mergeset_reds.Sublist (block.data.selected_parent :: order)) ∧
      (∀ x ∈ blueSet M dag b, Past dag x b) ∧
      block.data.blue_score.toNat = (blueSet M dag b).card ∧
      ∀ p ∈ block.parents, p ∈ dag → blueWork dag p < blueWork dag b := by
  have hinv := hdag.inv hk hapart
  refine ⟨fun parents reach hne hmem hpast hreach => ?_, fun b block hblock => ?_⟩
  · exact (ghostdag_spec hinv hk hreach ⟨hne, hmem, hpast⟩).symm.imp_left
      fun ⟨data, hok, _⟩ => ⟨data, hok⟩
  have hb := mem_of_lookup hblock
  refine ⟨hinv.isCluster hb, fun x hx => ?_, ?_, fun x hx => ?_, fun hne reach hreach => ?_,
    fun x hx => hinv.past_of_mem_blueSet hx, hinv.blue_score_eq hblock,
    fun p hp hpmem => hinv.work_lt hblock hp hpmem⟩
  · have hne : b ≠ M.genesis_hash := by
      rintro rfl
      rw [blueSet_genesis] at hx
      exact absurd hx (Finset.notMem_empty x)
    have hcolored := hinv.colored hblock hne
    rw [hinv.blueSet_eq hblock hne] at hx ⊢
    refine ⟨_, hinv.blueAnticoneSize_eq (hcolored.sizes x hx)
      (hinv.selected_parent_mem hblock hne), ?_⟩
    have hle := hcolored.cluster x hx
    rw [sizeIn, BitVec.toNat_ofNat, Nat.mod_eq_of_lt (by omega)]
  · by_cases hne : b = M.genesis_hash
    · subst hne
      rw [hinv.genesis_data hblock]
      exact Nat.zero_le _
    · exact (hinv.colored hblock hne).blues_length
  · by_cases hne : b = M.genesis_hash
    · -- The genesis merges nothing, and no block is in its past.
      subst hne
      have hnot : ¬Past dag x M.genesis_hash := by
        intro hpast
        obtain ⟨genesis, hgenesis, hparents⟩ := hinv.genesis
        obtain ⟨p, hp, hxp⟩ := (past_iff hgenesis).mp hpast
        rw [hparents, mem_singleton] at hp
        subst hp
        exact hxp.elim (hinv.ne_origin hx) hinv.not_past_origin
      rw [hinv.genesis_data hblock]
      refine iff_of_false ?_ fun h => hnot h.1
      rintro (h | h)
      · exact absurd h not_mem_nil
      · exact absurd h not_mem_nil
    · exact (hinv.colored hblock hne).mergeset_iff x
  · exact hinv.exists_order hreach hblock hne

namespace Sample

/-- A manager with a given `k`, for which all blocks have the same work. -/
def manager (k : KType) : GhostdagManager ℕ where
  genesis_hash := 0
  origin := 100
  genesis_ne_origin := by decide
  k := k
  level_work := 0
  calc_work _ := 1

/-- The data that a call returns. -/
def returned : Except Panic (GhostdagData ℕ) → GhostdagData ℕ
  | .ok data => data
  | .error _ => (manager 0).genesisGhostdagData

/-- The reachability of a DAG whose blocks are children of the genesis. -/
def reach (a b : ℕ) : Bool := a == 100 || a == 0 || a == b

/-- A DAG with one block more. -/
def grow (dag : Store ℕ) (b : ℕ) (parents : List ℕ) : Store ℕ :=
  dag.insert b ⟨parents, 0, returned ((manager 1).ghostdag reach dag parents)⟩

/-- The genesis with one child. -/
def one : Store ℕ := grow ((manager 1).init 0) 1 [0]

/-- The genesis with two children. -/
def two : Store ℕ := grow one 2 [0]

/-- A block that merges the two children. -/
def diamond : Store ℕ := grow two 3 [1, 2]

/-- A block whose parents are the child and the genesis. -/
def redundant : Store ℕ := grow one 2 [1, 0]

/-- A result that is a success is read off. -/
theorem eq_returned {r : Except Panic (GhostdagData ℕ)} (h : r.isOk = true) :
    r = .ok (returned r) := by
  cases r with
  | ok data => rfl
  | error e => exact absurd h Bool.false_ne_true

section

variable {dag : Store ℕ} {a b : ℕ} {block : Block ℕ}

/-- Only the origin is before genesis. -/
theorem past_genesis (hgenesis : dag.lookup 0 = some block) (hparents : block.parents = [100])
    (horigin : dag.lookup 100 = none) : Past dag a 0 ↔ a = 100 := by
  have hnot : ¬Past dag a 100 := fun hpast => by
    have hmem := Ordered.mem_of_past_right hpast
    rw [← lookup_isSome, horigin] at hmem
    exact absurd hmem Bool.false_ne_true
  rw [past_iff hgenesis, hparents]
  simp [hnot]

/-- Genesis and the origin are before a child of genesis. -/
theorem past_child {genesis : Block ℕ} (hgenesis : dag.lookup 0 = some genesis)
    (hparents : genesis.parents = [100]) (horigin : dag.lookup 100 = none)
    (hchild : dag.lookup b = some block) (hchild_parents : block.parents = [0]) :
    Past dag a b ↔ a = 0 ∨ a = 100 := by
  rw [past_iff hchild, hchild_parents]
  simp [past_genesis hgenesis hparents horigin]

/-- The reachability is right about a DAG whose blocks are children of the genesis. -/
theorem correct_reach {genesis : Block ℕ} (hgenesis : dag.lookup 0 = some genesis)
    (hparents : genesis.parents = [100]) (horigin : dag.lookup 100 = none)
    (hchildren : ∀ b block, dag.lookup b = some block → b ≠ 0 → block.parents = [0]) :
    Correct dag reach := by
  intro a b hb
  obtain ⟨block, hblock⟩ := mem_iff_lookup.mp hb
  simp only [reach, Bool.or_eq_true, beq_iff_eq]
  by_cases hzero : b = 0
  · subst hzero
    rw [past_genesis hgenesis hparents horigin]
    tauto
  · rw [past_child hgenesis hparents horigin hblock (hchildren b block hblock hzero)]
    tauto

end

/-- Genesis alone is a grown DAG. -/
theorem grown_genesis : Grown (manager 1) ((manager 1).init 0) := .init (by decide)

/-- One more block gives a grown DAG. -/
theorem grown_grow {dag : Store ℕ} {b : ℕ} {parents : List ℕ} (hdag : Grown (manager 1) dag)
    (hb : b ∉ dag) (horigin : b ≠ 100) (hne : parents ≠ []) (hparents : ∀ p ∈ parents, p ∈ dag)
    (hreach : Correct dag reach)
    (hok : ((manager 1).ghostdag reach dag parents).isOk = true)
    (hfits : WorkFits (manager 1) dag (returned ((manager 1).ghostdag reach dag parents))) :
    Grown (manager 1) (grow dag b parents) :=
  .add hdag hb horigin hne hparents hreach (eq_returned hok) hfits (by decide)

/-- Both blocks are children of genesis. -/
theorem parents_two {b : ℕ} {block : Block ℕ} (hblock : two.lookup b = some block) (hb : b ≠ 0) :
    block.parents = [0] := by
  obtain ⟨-, rfl⟩ | ⟨-, hblock⟩ := lookup_insert_cases hblock
  · rfl
  obtain ⟨-, rfl⟩ | ⟨-, hblock⟩ := lookup_insert_cases hblock
  · rfl
  · have hnone : ((manager 1).init 0).lookup b = none := dlookup_cons_ne [] _ hb
    rw [hnone] at hblock
    cases hblock

/-- The queries are right on two children. -/
theorem correct_two : Correct two reach :=
  correct_reach rfl rfl rfl fun _ _ hblock hb => parents_two hblock hb

/-- The queries are right on one child. -/
theorem correct_one : Correct one reach := by
  have hext : Extends one two := extends_insert (by decide) _
  exact correct_reach rfl rfl rfl fun b block hblock hb => parents_two (hext hblock) hb

/-- The DAG with one child is grown. -/
theorem grown_one : Grown (manager 1) one := by
  have hext : Extends ((manager 1).init 0) one := extends_insert (by decide) _
  have hext' : Extends one two := extends_insert (by decide) _
  have hreach : Correct ((manager 1).init 0) reach :=
    correct_reach rfl rfl rfl fun b block hblock hb => parents_two (hext' (hext hblock)) hb
  refine grown_grow grown_genesis (by decide) (by decide) (cons_ne_nil _ _) (by decide) hreach
    (by decide +kernel) ?_
  unfold WorkFits
  decide +kernel

/-- The diamond is a grown DAG. -/
theorem grown_diamond : Grown (manager 1) diamond := by
  have htwo : Grown (manager 1) two := by
    refine grown_grow grown_one (by decide) (by decide) (cons_ne_nil _ _) (by decide)
      correct_one (by decide +kernel) ?_
    unfold WorkFits
    decide +kernel
  refine grown_grow htwo (by decide) (by decide) (cons_ne_nil _ _) (by decide) correct_two
    (by decide +kernel) ?_
  unfold WorkFits
  decide +kernel

/-- The parents in the diamond are apart. -/
theorem parentsApart_diamond : ParentsApart diamond := by
  intro b block hblock
  refine selectedApart_of_not_past fun p hp q hq hpast => ?_
  obtain ⟨-, rfl⟩ | ⟨-, hblock⟩ := lookup_insert_cases hblock
  · -- The past of either child is the genesis and the origin.
    have hchild : p = 0 ∨ p = 100 := by
      obtain rfl | hq := mem_cons.mp hq
      · exact (past_child rfl rfl rfl rfl rfl).mp hpast
      · obtain rfl := mem_singleton.mp hq
        exact (past_child rfl rfl rfl rfl rfl).mp hpast
    simp only [mem_cons, not_mem_nil, or_false] at hp
    omega
  · by_cases hb : b = 0
    · subst hb
      obtain rfl := mem_unique hblock rfl
      obtain rfl := mem_singleton.mp hq
      have hmem := Ordered.mem_of_past_right hpast
      exact absurd hmem (by decide)
    · rw [parents_two hblock hb, mem_singleton] at hp hq
      subst hp hq
      exact absurd ((past_genesis rfl rfl rfl).mp hpast) (by decide)

/-- The top of the diamond has the other three blocks as its cluster of blues. -/
theorem coloring_correct_diamond : ∃ block, diamond.lookup 3 = some block ∧
      IsCluster (InAnticone diamond) 1 (blueSet (manager 1) diamond 3) ∧
      block.data.blue_score.toNat = (blueSet (manager 1) diamond 3).card ∧
      block.data.blue_score = 3 := by
  obtain ⟨hcluster, -, -, -, -, -, hscore, -⟩ :=
    (coloring_correct (M := manager 1) (by decide) grown_diamond parentsApart_diamond).2 3 _ rfl
  exact ⟨_, rfl, hcluster, hscore, by decide +kernel⟩

/-- With a parent and an ancestor of it as parents, a block merges a block in the past of its
selected parent, and its score counts more blues than there are blocks besides it. With the largest
`k` the first call already panics. -/
theorem redundant_merges_ancestor : (Grown (manager 1) redundant ∧ redundant.keys = [2, 1, 0] ∧
      ∃ block, redundant.lookup 2 = some block ∧ block.data.selected_parent = 1 ∧
        0 ∈ block.data.mergeset_blues ∧ Past redundant 0 1 ∧ block.data.blue_score = 3) ∧
    (manager 0xffff).ghostdag reach ((manager 0xffff).init 0) [0] = .error .sizeOverflow := by
  refine ⟨⟨?_, by decide +kernel, _, rfl, by decide +kernel, by decide +kernel, ?_,
    by decide +kernel⟩, rfl⟩
  · refine grown_grow grown_one (by decide) (by decide) (cons_ne_nil _ _) (by decide)
      correct_one (by decide +kernel) ?_
    unfold WorkFits
    decide +kernel
  · exact (past_child rfl rfl rfl rfl rfl).mpr (.inl rfl)

end Sample

end Zkas.Dag
