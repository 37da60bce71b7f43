import Zkas.Dag.Grown

/-!
# The blocks between two blocks

Model of `antipast_hashes_between` in `consensus/src/processes/sync/mod.rs`: what one block adds to
the past of another, gathered from the mergesets of the chain blocks above the highest common one
(`Gathered`). The tree of the reachability service is that of the selected parents; its queries are
parameters. A vector is shorter than `usize::MAX`, so a call without `max_blocks` has no limit. -/

namespace Zkas.Dag

open List Except

variable {B : Type} [LinearOrder B]

/-- What is read of the reachability service. -/
structure Reachability (B : Type) where
  is_dag_ancestor_of : B → B → Bool
  is_chain_ancestor_of : B → B → Bool
  /-- `get_next_chain_ancestor`, of a descendant and an ancestor. -/
  get_next_chain_ancestor : B → B → Option B

/-- `SyncManagerError`, as far as it is returned here. -/
inductive SyncManagerError (B : Type) where
  | MissingChainData (hash : B)

/-! ## The mergeset in consensus order -/

/-- One round of `merge_join_by`: the blocks of a list below `a`, then `a` and the rest. -/
def takeBelow (a : SortableBlock B)
    (rest : List (SortableBlock B) → Except (Fault (SyncManagerError B)) (List (SortableBlock B))) :
    List (SortableBlock B) → Except (Fault (SyncManagerError B)) (List (SortableBlock B))
  | [] => return a :: (← rest [])
  | b :: bs =>
    if a.key < b.key then return a :: (← rest (b :: bs))
    else if b.key < a.key then return b :: (← takeBelow a rest bs)
    -- `distinct blocks are never equal`
    else .error .panic

/-- `merge_join_by` in the order of the keys. -/
def mergeJoin : List (SortableBlock B) → List (SortableBlock B) →
    Except (Fault (SyncManagerError B)) (List (SortableBlock B))
  | [], bs => .ok bs
  | a :: as, bs => takeBelow a (mergeJoin as) bs

/-- `consensus_ordered_mergeset`. -/
def consensusOrderedMergeset (dag : Store B) (data : GhostdagData B) :
    Except (Fault (SyncManagerError B)) (List B) := do
  let blues ← ((data.mergeset_blues.drop 1).mapM dag.sortable).mapError fun _ => .panic
  let reds ← (data.mergeset_reds.mapM dag.sortable).mapError fun _ => .panic
  let merged ← mergeJoin blues reds
  return data.selected_parent :: merged.map SortableBlock.hash

/-! ## The sync manager -/

section

variable (M : GhostdagManager B) (R : Reachability B) (dag : Store B)

/-- `find_highest_common_chain_block`: the loop over the chain of `low`. -/
def findHighestCommonChainBlock (low high : B) : ℕ → B → Except (Fault (SyncManagerError B)) B
  | 0, _ => .error .panic
  | fuel + 1, current =>
    if current = M.origin then .error (.err (.MissingChainData low))
    else do
      let block ← (dag.lookup current).okOr .panic
      if R.is_chain_ancestor_of current high then return current
      findHighestCommonChainBlock low high fuel block.data.selected_parent

/-- The loop over `forward_chain_iterator`: the blocks gathered so far and the highest reached. -/
def antipastLoop (original_low high : B) (max_blocks : Option ℕ) :
    ℕ → List B × B → Except (Fault (SyncManagerError B)) (List B × B)
  | 0, _ => .error .panic
  | fuel + 1, (blocks, highest_reached) =>
    if highest_reached = high then .ok (blocks, highest_reached)
    else do
      let current ← (R.get_next_chain_ancestor high highest_reached).okOr .panic
      let block ← (dag.lookup current).okOr (.err (.MissingChainData current))
      let size := block.data.mergeset_blues.length + block.data.mergeset_reds.length
      if max_blocks.any (· < blocks.length + size) then return (blocks, highest_reached)
      let mergeset ← consensusOrderedMergeset dag block.data
      antipastLoop original_low high max_blocks fuel
        (blocks ++ mergeset.filter (!R.is_dag_ancestor_of · original_low), current)

/-- `antipast_hashes_between`. -/
def antipastHashesBetween (mergeset_size_limit : ℕ) (low high : B) (max_blocks : Option ℕ) :
    Except (Fault (SyncManagerError B)) (List B × B) := do
  if max_blocks.any (· < mergeset_size_limit) then .error .panic
  let original_low := low
  let low ← findHighestCommonChainBlock M R dag low high (dag.entries.length + 1) low
  let low_block ← (dag.lookup low).okOr (.err (.MissingChainData low))
  let high_block ← (dag.lookup high).okOr (.err (.MissingChainData high))
  if high_block.data.blue_score < low_block.data.blue_score then .error .panic
  let (blocks, highest_reached) ←
    antipastLoop R dag original_low high max_blocks (dag.entries.length + 1) ([], low)
  return (if low ≠ highest_reached then blocks ++ [highest_reached] else blocks, highest_reached)

end

/-! ## The selected chain -/

/-- One block is the selected parent of another. -/
def IsSelectedParent (dag : Store B) (a b : B) : Prop :=
  ∃ block, dag.lookup b = some block ∧ block.data.selected_parent = a

/-- One block is another or on its selected chain. -/
abbrev OnChain (dag : Store B) : B → B → Prop := Relation.ReflTransGen (IsSelectedParent dag)

/-- The service answers rightly about the blocks of a DAG. -/
structure Reachability.Correct (R : Reachability B) (dag : Store B) : Prop where
  dag_ancestor : Dag.Correct dag R.is_dag_ancestor_of
  chain_ancestor : ∀ a, ∀ b ∈ dag, R.is_chain_ancestor_of a b = true ↔ OnChain dag a b
  next : ∀ a, ∀ b ∈ dag, OnChain dag a b → a ≠ b → ∃ c,
    R.get_next_chain_ancestor b a = some c ∧ IsSelectedParent dag a c ∧ OnChain dag c b

section

variable {M : GhostdagManager B} {R : Reachability B} {dag : Store B} {a b high : B}
  (hinv : Inv M dag)
include hinv

/-- Genesis has no selected parent in the DAG. -/
theorem IsSelectedParent.ne_genesis (h : IsSelectedParent dag a b) (ha : a ∈ dag) :
    b ≠ M.genesis_hash := by
  rintro rfl
  obtain ⟨block, hblock, rfl⟩ := h
  rw [hinv.genesis_data hblock] at ha
  exact hinv.origin_notMem ha

/-- A chain leads from its lower end into the future. -/
theorem OnChain.reaches (h : OnChain dag a b) (ha : a ∈ dag) :
    b ∈ dag ∧ (a = b ∨ Past dag a b) := by
  induction h with
  | refl => exact ⟨ha, .inl rfl⟩
  | tail _ hstep ih =>
    obtain ⟨block, hblock, rfl⟩ := id hstep
    have hpast := hinv.selected_parent_past hblock (hstep.ne_genesis hinv ih.1)
    exact ⟨mem_of_lookup hblock, .inr (ih.2.elim (fun heq => heq ▸ hpast) (·.trans hpast))⟩

/-- Blue sets grow along a chain. -/
theorem OnChain.blueSet_subset (h : OnChain dag a b) (ha : a ∈ dag) :
    blueSet M dag a ⊆ blueSet M dag b := by
  induction h with
  | refl => exact Finset.Subset.refl _
  | tail hchain hstep ih =>
    obtain ⟨block, hblock, rfl⟩ := id hstep
    have hne := hstep.ne_genesis hinv (OnChain.reaches hinv hchain ha).1
    refine ih.trans fun x hx => ?_
    rw [hinv.blueSet_eq hblock hne, mem_bluesOf]
    exact .inr hx

/-- The selected chain of every block starts at genesis. -/
theorem onChain_genesis (hb : b ∈ dag) : OnChain dag M.genesis_hash b := by
  -- By induction on the rank, which is lower at the selected parent.
  induction hn : rank dag b using Nat.strong_induction_on generalizing b with
  | _ n ih =>
    by_cases hne : b = M.genesis_hash
    · exact hne ▸ .refl
    · obtain ⟨block, hblock⟩ := mem_iff_lookup.mp hb
      have hmem := hinv.selected_parent_mem hblock hne
      have hlt := hinv.rank_lt hmem (hinv.selected_parent_past hblock hne)
      exact (ih _ (hn ▸ hlt) hmem rfl).tail ⟨block, hblock, rfl⟩

/-- The walk down finds a block on both chains. -/
theorem exists_commonChainBlock (low : B) (hR : R.Correct dag) (hhigh : high ∈ dag) {fuel : ℕ}
    (ha : a ∈ dag) (hfuel : rank dag a < fuel) : ∃ c ∈ dag,
      findHighestCommonChainBlock M R dag low high fuel a = .ok c ∧ OnChain dag c a ∧
        OnChain dag c high := by
  induction fuel generalizing a with
  | zero => exact absurd hfuel (Nat.not_lt_zero _)
  | succ fuel ih =>
    obtain ⟨block, hblock⟩ := mem_iff_lookup.mp ha
    rw [findHighestCommonChainBlock, if_neg (hinv.ne_origin ha), hblock, Option.okOr, ok_bind]
    split_ifs with hchain
    · exact ⟨a, ha, rfl, .refl, (hR.chain_ancestor a high hhigh).mp hchain⟩
    · have hne : a ≠ M.genesis_hash := by
        rintro rfl
        exact hchain ((hR.chain_ancestor _ high hhigh).mpr (onChain_genesis hinv hhigh))
      have hmem := hinv.selected_parent_mem hblock hne
      have hlt := hinv.rank_lt hmem (hinv.selected_parent_past hblock hne)
      obtain ⟨c, hc, hok, hlow, htop⟩ := ih hmem (by omega)
      exact ⟨c, hc, hok, hlow.tail ⟨block, hblock, rfl⟩, htop⟩

end

/-! ## The mergesets -/

/-- Two sorted parts of a sorted list are joined to it. -/
theorem mergeJoin_eq {l as bs : List (SortableBlock B)} (hsorted : l.Pairwise (·.key < ·.key))
    (has : as.Sublist l) (hbs : bs.Sublist l) (hperm : (as ++ bs).Perm l) :
    mergeJoin as bs = .ok l := by
  induction l generalizing as bs with
  | nil =>
    obtain rfl := sublist_nil.mp has
    obtain rfl := sublist_nil.mp hbs
    rfl
  | cons x l ih =>
    obtain ⟨hx, hsorted⟩ := pairwise_cons.mp hsorted
    have hnot : x ∉ l := fun hmem => lt_irrefl _ (hx x hmem)
    -- The first block is the head of exactly one of the lists.
    cases has with
    | cons _ has =>
      cases hbs with
      | cons _ hbs =>
        obtain hmem | hmem := mem_append.mp (hperm.mem_iff.mpr mem_cons_self)
        · exact absurd (has.subset hmem) hnot
        · exact absurd (hbs.subset hmem) hnot
      | @cons_cons bs _ _ hbs =>
        have hrest := ih hsorted has hbs (perm_middle.symm.trans hperm).cons_inv
        cases as with
        | nil => rw [← ok.inj hrest]; rfl
        | cons a as =>
          have hlt := hx a (has.subset mem_cons_self)
          rw [mergeJoin] at hrest
          rw [mergeJoin, takeBelow, if_neg hlt.not_gt, if_pos hlt, hrest]
          rfl
    | @cons_cons as _ _ has =>
      cases hbs with
      | cons _ hbs =>
        have hrest := ih hsorted has hbs hperm.cons_inv
        rw [mergeJoin]
        cases bs with
        | nil => rw [takeBelow, hrest]; rfl
        | cons b bs => rw [takeBelow, if_pos (hx b (hbs.subset mem_cons_self)), hrest]; rfl
      | @cons_cons bs _ _ hbs =>
        have hmem := hperm.cons_inv.mem_iff.mp (mem_append_right as mem_cons_self)
        exact absurd hmem hnot

section

variable {M : GhostdagManager B} {R : Reachability B} {dag : Store B} {b low high base : B}
  {block : Block B} (hinv : Inv M dag)
include hinv

/-- The mergeset of a block, in an order in which no block comes before one of its ancestors. -/
theorem consensusOrderedMergeset_spec (hblock : dag.lookup b = some block)
    (hne : b ≠ M.genesis_hash) : ∃ mergeset,
      consensusOrderedMergeset dag block.data = .ok mergeset ∧ mergeset.Nodup ∧
        mergeset.Pairwise (fun x y => ¬Past dag y x) ∧
        ∀ x, x ∈ mergeset ↔ Past dag x b ∧ ¬Past dag x block.data.selected_parent := by
  have hcolored := hinv.colored hblock hne
  obtain ⟨order, horder⟩ := hcolored.ordered
  obtain ⟨hsp, hnodup⟩ := nodup_cons.mp horder.nodup
  have hiff (x : B) : x ∈ block.data.selected_parent :: order ↔
      Past dag x b ∧ ¬Past dag x block.data.selected_parent := by
    rw [← hcolored.mergeset_iff, ← mem_append, horder.perm.mem_iff]
  have hmem {x : B} (hx : x ∈ order) : x ∈ dag := by
    refine hinv.mergeset_mem hblock hne ((hcolored.mergeset_iff x).mpr ((hiff x).mp ?_))
    exact mem_cons_of_mem _ hx
  -- The blues start with the selected parent, and the reds do not hold it.
  obtain ⟨blues, hblues, hblues_sub⟩ : ∃ blues,
      block.data.mergeset_blues = block.data.selected_parent :: blues ∧ blues.Sublist order := by
    obtain hsub | ⟨blues, heq, hsub⟩ := sublist_cons_iff.mp horder.blues
    · exact absurd (hsub.subset horder.selected_parent_blue) hsp
    · exact ⟨blues, heq, hsub⟩
  have hperm : (blues ++ block.data.mergeset_reds).Perm order := by
    have hperm := horder.perm
    rw [hblues] at hperm
    exact hperm.cons_inv
  have hreds : block.data.mergeset_reds.Sublist order := by
    obtain hsub | ⟨reds, heq, -⟩ := sublist_cons_iff.mp horder.reds
    · exact hsub
    · refine absurd (hperm.mem_iff.mp (mem_append_right _ ?_)) hsp
      exact heq ▸ mem_cons_self
  have hsorted : (order.map (sortableOf dag)).Pairwise (·.key < ·.key) := by
    rw [pairwise_map]
    refine (horder.sorted.and hnodup).imp fun {x y} ⟨hle, hxy⟩ => ?_
    rw [key_sortableOf, key_sortableOf]
    exact lt_of_le_of_ne hle fun heq => hxy (congrArg (fun key => (ofLex key).2) heq)
  have hjoin := mergeJoin_eq hsorted (hblues_sub.map _) (hreds.map _)
    (by rw [← map_append]; exact hperm.map _)
  refine ⟨block.data.selected_parent :: order, ?_, horder.nodup, pairwise_cons.mpr
    ⟨fun x hx => ((hiff x).mp (mem_cons_of_mem _ hx)).2,
      hinv.topological (fun x hx => hmem hx) horder.sorted⟩, hiff⟩
  unfold consensusOrderedMergeset
  rw [hblues, drop_one, tail_cons, mapM_sortable fun x hx => hmem (hblues_sub.subset hx),
    mapM_sortable fun x hx => hmem (hreds.subset hx)]
  change (mergeJoin _ _ >>= _) = _
  rw [hjoin, ok_bind, map_map]
  exact congrArg (fun l => ok (block.data.selected_parent :: l)) (map_id _)

/-- What has been gathered above a common chain block, up to `current`. -/
structure Gathered (dag : Store B) (low base current : B) (blocks : List B) : Prop where
  nodup : blocks.Nodup
  topological : blocks.Pairwise fun x y => ¬Past dag y x
  mem : ∀ x, x ∈ blocks ↔ (Past dag x current ∧ ¬Past dag x base) ∧ ¬(x = low ∨ Past dag x low)

omit hinv in
/-- The next chain block adds its mergeset. -/
theorem Gathered.append {current : B} {blocks mergeset : List B}
    (h : Gathered dag low base current blocks) (hbase : base = current ∨ Past dag base current)
    (hcurrent : Past dag current b) (hnodup : mergeset.Nodup)
    (htopological : mergeset.Pairwise fun x y => ¬Past dag y x)
    (hiff : ∀ x, x ∈ mergeset ↔ Past dag x b ∧ ¬Past dag x current)
    {keep : B → Bool} (hkeep : ∀ x, keep x = true ↔ ¬(x = low ∨ Past dag x low)) :
    Gathered dag low base b (blocks ++ mergeset.filter keep) := by
  have hnew {x : B} (hx : x ∈ mergeset.filter keep) : ¬Past dag x current :=
    ((hiff x).mp (mem_of_mem_filter hx)).2
  have hold {x : B} (hx : x ∈ blocks) : Past dag x current := ((h.mem x).mp hx).1.1
  have hdown {x : B} (hx : Past dag x base) : Past dag x current :=
    hbase.elim (fun heq => heq ▸ hx) hx.trans
  refine ⟨h.nodup.append (hnodup.filter _) fun x hx hx' => hnew hx' (hold hx),
    pairwise_append.mpr ⟨h.topological, htopological.filter _,
      fun x hx y hy hpast => hnew hy (hpast.trans (hold hx))⟩, fun x => ?_⟩
  rw [mem_append, h.mem, mem_filter, hiff, hkeep, ← or_and_right]
  refine and_congr_left fun _ => ⟨?_, fun hx => ?_⟩
  · rintro (⟨hpast, hnot⟩ | ⟨hpast, hnot⟩)
    · exact ⟨hpast.trans hcurrent, hnot⟩
    · exact ⟨hpast, fun hx => hnot (hdown hx)⟩
  · exact (em (Past dag x current)).imp (fun hpast => ⟨hpast, hx.2⟩) fun hnot => ⟨hx.1, hnot⟩

/-- The walk up to `high` gathers every mergeset on its way. -/
theorem exists_antipastLoop (hR : R.Correct dag) (hlow : low ∈ dag) (hhigh : high ∈ dag)
    (hbase : base ∈ dag) {fuel : ℕ} {current : B} {blocks : List B}
    (hbelow : OnChain dag base current) (habove : OnChain dag current high)
    (h : Gathered dag low base current blocks)
    (hfuel : rank dag high - rank dag current < fuel) : ∃ blocks',
      antipastLoop R dag low high none fuel (blocks, current) = .ok (blocks', high) ∧
        Gathered dag low base high blocks' := by
  induction fuel generalizing current blocks with
  | zero => exact absurd hfuel (Nat.not_lt_zero _)
  | succ fuel ih =>
    rw [antipastLoop]
    split_ifs with heq
    · exact ⟨blocks, heq ▸ rfl, heq ▸ h⟩
    · obtain ⟨next, hnext, hstep, habove'⟩ := hR.next current high hhigh habove heq
      obtain ⟨hmem, hreach⟩ := hbelow.reaches hinv hbase
      obtain ⟨block, hblock, hparent⟩ := id hstep
      have hne := hstep.ne_genesis hinv hmem
      have hpast := hinv.selected_parent_past hblock hne
      rw [hparent] at hpast
      obtain ⟨mergeset, hok, hnodup, htopological, hiff⟩ :=
        consensusOrderedMergeset_spec hinv hblock hne
      rw [hparent] at hiff
      have hrank := hinv.rank_lt hmem hpast
      have hrank' : rank dag next ≤ rank dag high :=
        (habove'.reaches hinv (mem_of_lookup hblock)).2.elim (fun heq => heq ▸ le_rfl) fun hlt =>
          (hinv.rank_lt (mem_of_lookup hblock) hlt).le
      have hkeep (x : B) : (!R.is_dag_ancestor_of x low) = true ↔ ¬(x = low ∨ Past dag x low) := by
        rw [Bool.not_eq_true', ← Bool.not_eq_true, hR.dag_ancestor x low hlow]
      rw [hnext, Option.okOr, ok_bind, hblock, Option.okOr, ok_bind]
      dsimp only [Option.any_none]
      rw [if_neg Bool.false_ne_true, hok, ok_bind]
      exact ih (hbelow.tail hstep) habove'
        (h.append hreach hpast hnodup htopological hiff hkeep) (by omega)

variable (dag low high) in
/-- What `high` adds to the past of `low`: the blocks in the past of `high` and `high` itself,
without `low` and those in its past, each once and after its ancestors. -/
structure Between (blocks : List B) : Prop where
  nodup : blocks.Nodup
  topological : blocks.Pairwise fun x y => ¬Past dag y x
  mem : ∀ x, x ∈ blocks ↔ (x = high ∨ Past dag x high) ∧ x ≠ low ∧ ¬Past dag x low

/-- What is returned, for any mergeset size limit. -/
theorem exists_between (hR : R.Correct dag) (hlow : low ∈ dag) (hhigh : high ∈ dag)
    (hne : high ≠ low) (hpast : ¬Past dag high low) (mergeset_size_limit : ℕ) : ∃ blocks,
      antipastHashesBetween M R dag mergeset_size_limit low high none = .ok (blocks, high) ∧
        Between dag low high blocks := by
  have hrank {b : B} (hb : b ∈ dag) : rank dag b < dag.entries.length + 1 :=
    (hinv.rank_lt_length hb).trans (Nat.lt_succ_self _)
  obtain ⟨base, hbase, hfind, hbase_low, hbase_high⟩ :=
    exists_commonChainBlock hinv low hR hhigh hlow (hrank hlow)
  obtain ⟨-, hreach⟩ := hbase_low.reaches hinv hbase
  have hstart : Gathered dag low base base [] :=
    ⟨nodup_nil, List.Pairwise.nil, fun x => iff_of_false not_mem_nil fun h => h.1.2 h.1.1⟩
  obtain ⟨blocks, hloop, hblocks⟩ := exists_antipastLoop hinv hR hlow hhigh hbase .refl hbase_high
    hstart (lt_of_le_of_lt (Nat.sub_le _ _) (hrank hhigh))
  obtain ⟨base_block, hbase_block⟩ := mem_iff_lookup.mp hbase
  obtain ⟨high_block, hhigh_block⟩ := mem_iff_lookup.mp hhigh
  have hscore : ¬high_block.data.blue_score < base_block.data.blue_score := by
    rw [BitVec.lt_def, hinv.blue_score_eq hhigh_block, hinv.blue_score_eq hbase_block, not_lt]
    exact Finset.card_le_card (hbase_high.blueSet_subset hinv hbase)
  have hdistinct : base ≠ high := by
    rintro rfl
    exact hreach.elim hne hpast
  refine ⟨blocks ++ [high], ?_, ?_, ?_, fun x => ?_⟩
  · unfold antipastHashesBetween
    rw [hfind, ok_bind, hbase_block, hhigh_block]
    simp only [Option.okOr, ok_bind, if_neg hscore]
    rw [hloop, ok_bind, if_pos hdistinct]
    rfl
  · refine hblocks.nodup.append (nodup_singleton _) (disjoint_singleton.mpr ?_)
    intro hmem
    exact hinv.not_past_self high ((hblocks.mem high).mp hmem).1.1
  · refine pairwise_append.mpr ⟨hblocks.topological, pairwise_singleton _ _, ?_⟩
    rintro x hx y hy hxy
    obtain rfl := mem_singleton.mp hy
    exact hinv.not_past_self _ (hxy.trans ((hblocks.mem x).mp hx).1.1)
  · rw [mem_append, hblocks.mem, mem_singleton, not_or]
    constructor
    · rintro (⟨⟨hx, -⟩, hnot⟩ | rfl)
      · exact ⟨.inr hx, hnot⟩
      · exact ⟨.inl rfl, hne, hpast⟩
    · rintro ⟨rfl | hx, hnot⟩
      · exact .inr rfl
      · refine .inl ⟨⟨hx, fun hxb => hnot.2 ?_⟩, hnot⟩
        exact hreach.elim (fun heq => heq ▸ hxb) hxb.trans

/-- Between two blocks of a DAG with the right data the call returns what the higher block adds to
the past of the lower one, each block once and after its ancestors. The highest reached block is
`high`. -/
theorem antipastHashesBetween_exact (hR : R.Correct dag) (hlow : low ∈ dag) (hhigh : high ∈ dag)
    (hne : high ≠ low) (hpast : ¬Past dag high low) (mergeset_size_limit : ℕ) : ∃ blocks,
      antipastHashesBetween M R dag mergeset_size_limit low high none = .ok (blocks, high) ∧
        blocks.Nodup ∧ blocks.Pairwise (fun x y => ¬Past dag y x) ∧
        ∀ x, x ∈ blocks ↔ (x = high ∨ Past dag x high) ∧ x ≠ low ∧ ¬Past dag x low := by
  obtain ⟨blocks, hok, h⟩ := exists_between hinv hR hlow hhigh hne hpast mergeset_size_limit
  exact ⟨blocks, hok, h.nodup, h.topological, h.mem⟩

omit hinv in
/-- The right data is that of a grown DAG, where no block names a parent in the past of its selected
one and `k + 1` is in range. -/
theorem Grown.exists_between (hk : M.k.toNat + 1 < 2 ^ 16) (hdag : Grown M dag)
    (hapart : ParentsApart dag) (hR : R.Correct dag) (hlow : low ∈ dag) (hhigh : high ∈ dag)
    (hne : high ≠ low) (hpast : ¬Past dag high low) (mergeset_size_limit : ℕ) : ∃ blocks,
      antipastHashesBetween M R dag mergeset_size_limit low high none = .ok (blocks, high) ∧
        Between dag low high blocks :=
  Dag.exists_between (hdag.inv hk hapart) hR hlow hhigh hne hpast mergeset_size_limit

end

namespace Sample

open Classical in
/-- A service that answers rightly about a DAG. -/
noncomputable def service (dag : Store ℕ) : Reachability ℕ where
  is_dag_ancestor_of a b := decide (a = b ∨ Past dag a b)
  is_chain_ancestor_of a b := decide (OnChain dag a b)
  get_next_chain_ancestor b a :=
    if h : ∃ c, IsSelectedParent dag a c ∧ OnChain dag c b then some h.choose else none

/-- The queries of the sample are right on every store. -/
theorem service_correct (dag : Store ℕ) : (service dag).Correct dag where
  dag_ancestor _ _ _ := by simp [service]
  chain_ancestor _ _ _ := by simp [service]
  next a b _ hchain hne := by
    have hnext := (Relation.ReflTransGen.cases_head hchain).resolve_left hne
    exact ⟨hnext.choose, dif_pos hnext, hnext.choose_spec⟩

/-- Between a child of the genesis and the top of the diamond is the other child. -/
theorem antipastHashesBetween_diamond : ∃ blocks,
    antipastHashesBetween (manager 1) (service diamond) diamond 0 1 3 none = .ok (blocks, 3) ∧
      2 ∈ blocks ∧ 0 ∉ blocks := by
  have hpast {a : ℕ} : Past diamond a 1 ↔ a = 0 ∨ a = 100 := past_child rfl rfl rfl rfl rfl
  obtain ⟨blocks, hok, -, -, hiff⟩ := antipastHashesBetween_exact
    (grown_diamond.inv (by decide) parentsApart_diamond) (service_correct diamond)
    (show 1 ∈ diamond by decide) (show 3 ∈ diamond by decide) (by decide) (by simp [hpast]) 0
  refine ⟨blocks, hok, (hiff 2).mpr ⟨.inr ?_, by decide, by simp [hpast]⟩, fun hmem => ?_⟩
  · exact .single (isParent_iff.mpr ⟨_, rfl, .tail _ (.head _)⟩)
  · exact ((hiff 0).mp hmem).2.2 (hpast.mpr (.inl rfl))

end Sample

end Zkas.Dag
