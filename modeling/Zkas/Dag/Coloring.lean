import Zkas.Dag.Order

/-!
# Colouring a candidate

The blocks of a grown DAG are coloured (`Colored`): the blues of each block are a `k`-cluster and
the size found for a blue is the number of blues in its anticone. A candidate is compared with the
blues merged by the new block so far and with those of its selected chain, block by block; `Visited`
is what has been collected on the way. A chain block in the candidate's past ends the walk, since
all blues that are left are in that past as well. -/

namespace Zkas.Dag

open Cluster Word List Except Finset GhostdagManager

variable {B : Type} [LinearOrder B] (M : GhostdagManager B) (dag : Store B) (data : GhostdagData B)

/-- The degree of a block among the blues in the view of block data, as a stored size. -/
noncomputable def sizeIn (x : B) : KType :=
  BitVec.ofNat 16 (degree (InAnticone dag) (bluesOf M dag data) x)

/-- A `k`-cluster in the view of block data, with its sizes stored. -/
structure Clustered : Prop where
  cluster : IsCluster (InAnticone dag) M.k.toNat (bluesOf M dag data)
  sizes : ∀ x ∈ bluesOf M dag data, SizeAt M dag x data (sizeIn M dag data x)
  blues_nodup : data.mergeset_blues.Nodup
  blues_length : data.mergeset_blues.length ≤ M.k.toNat + 1

/-- The order in which a mergeset was coloured, the selected parent first. -/
structure InOrder (order : List B) : Prop where
  sorted : order.Pairwise fun x y => keyOf dag x ≤ keyOf dag y
  nodup : (data.selected_parent :: order).Nodup
  selected_parent_blue : data.selected_parent ∈ data.mergeset_blues
  perm : (data.mergeset_blues ++ data.mergeset_reds).Perm (data.selected_parent :: order)
  blues : data.mergeset_blues.Sublist (data.selected_parent :: order)
  reds : data.mergeset_reds.Sublist (data.selected_parent :: order)

/-- What is known of a stored block other than the genesis. -/
structure Colored (b : B) (block : Block B) : Prop
    extends Clustered M dag block.data where
  selected_parent_mem : block.data.selected_parent ∈ block.parents
  parents_apart : ∀ p ∈ block.parents, ¬Past dag p block.data.selected_parent
  mergeset_iff : ∀ x, x ∈ block.data.mergeset_blues ∨ x ∈ block.data.mergeset_reds ↔
    Past dag x b ∧ ¬Past dag x block.data.selected_parent
  ordered : ∃ order, InOrder dag block.data order
  blue_score : block.data.blue_score.toNat = (bluesOf M dag block.data).card

/-- What is known of a grown DAG. -/
structure Inv : Prop extends Ordered M dag where
  genesis_data : ∀ {block}, dag.lookup M.genesis_hash = some block →
    block.data = M.genesisGhostdagData
  colored : ∀ {b block}, dag.lookup b = some block → b ≠ M.genesis_hash → Colored M dag b block

namespace Inv

variable {M : GhostdagManager B} {dag : Store B} {b x : B} {block : Block B}

/-- The origin is in the past of every block. -/
theorem origin_past (h : Inv M dag) (hb : b ∈ dag) : Past dag M.origin b := by
  obtain ⟨genesis, hgenesis, hparents⟩ := h.genesis
  have hstep : Past dag M.origin M.genesis_hash :=
    .single (isParent_iff.mpr ⟨genesis, hgenesis, hparents ▸ List.mem_singleton_self _⟩)
  by_cases heq : b = M.genesis_hash
  · exact heq ▸ hstep
  · exact hstep.trans (h.genesis_past hb heq)

variable (hblock : dag.lookup b = some block) (hne : b ≠ M.genesis_hash)

include hblock hne

variable (h : Inv M dag)
include h

/-- The selected parent is in the DAG. -/
theorem selected_parent_mem : block.data.selected_parent ∈ dag :=
  h.parents_mem hblock hne _ (h.colored hblock hne).selected_parent_mem

/-- The selected parent is in the past. -/
theorem selected_parent_past : Past dag block.data.selected_parent b :=
  .single (isParent_iff.mpr ⟨block, hblock, (h.colored hblock hne).selected_parent_mem⟩)

/-- A merged blue block is new in the past. -/
theorem merged_past (hx : x ∈ block.data.mergeset_blues) :
    Past dag x b ∧ ¬Past dag x block.data.selected_parent :=
  ((h.colored hblock hne).mergeset_iff x).mp (.inl hx)

/-- Merged blocks are in the DAG. -/
theorem mergeset_mem
    (hx : x ∈ block.data.mergeset_blues ∨ x ∈ block.data.mergeset_reds) : x ∈ dag := by
  obtain ⟨hpast, hnot⟩ := ((h.colored hblock hne).mergeset_iff x).mp hx
  refine (h.mem_of_past hpast).resolve_right fun heq => hnot ?_
  exact heq ▸ h.origin_past (h.selected_parent_mem hblock hne)

/-- Merged blue blocks are in the DAG. -/
theorem merged_mem (hx : x ∈ block.data.mergeset_blues) : x ∈ dag :=
  h.mergeset_mem hblock hne (.inl hx)

/-- The blue blocks of a block are those its data names. -/
theorem blueSet_eq : blueSet M dag b = bluesOf M dag block.data :=
  Dag.blueSet_eq hblock hne fun _ hx => h.merged_mem hblock hne hx

omit hblock hne in
/-- Blue blocks are in the past. -/
theorem blue_past (hx : Blue M dag b x) : Past dag x b := by
  induction hx with
  | merged hblock hne hx => exact (h.merged_past hblock hne hx).1
  | inherited hblock hne _ ih => exact ih.trans (h.selected_parent_past hblock hne)

omit hblock hne in
/-- The blue set is in the past. -/
theorem past_of_mem_blueSet (hx : x ∈ blueSet M dag b) : Past dag x b :=
  h.blue_past (mem_blueSet.mp hx).2

/-- A merged blue block was not blue before. -/
theorem merged_notMem (hx : x ∈ block.data.mergeset_blues) :
    x ∉ blueSet M dag block.data.selected_parent :=
  fun hmem => (h.merged_past hblock hne hx).2 (h.past_of_mem_blueSet hmem)

omit hblock hne in
/-- The walk down finds the size that is stored. -/
theorem blueAnticoneSizeLoop_eq {data : GhostdagData B} {size : KType}
    (hsize : SizeAt M dag x data size) (hmem : data.selected_parent ∈ dag) {fuel : ℕ}
    (hfuel : rank dag data.selected_parent < fuel) :
    M.blueAnticoneSizeLoop dag x fuel data.blues_anticone_sizes data.selected_parent =
      .ok size := by
  induction hsize generalizing fuel with
  | here hsize =>
    obtain ⟨fuel, rfl⟩ := Nat.exists_eq_succ_of_ne_zero (ne_zero_of_lt hfuel)
    rw [blueAnticoneSizeLoop, hsize]
  | deeper hnone hne hparent _ ih =>
    obtain ⟨fuel, rfl⟩ := Nat.exists_eq_succ_of_ne_zero (ne_zero_of_lt hfuel)
    have hstop : ¬(_ = M.genesis_hash ∨ _ = M.origin) := not_or.mpr ⟨hne, h.ne_origin hmem⟩
    rw [blueAnticoneSizeLoop, hnone]
    dsimp only
    rw [if_neg hstop, get_of_lookup hparent, ok_bind]
    have hparent_mem := h.selected_parent_mem hparent hne
    have hlt := h.rank_lt hparent_mem (h.selected_parent_past hparent hne)
    exact ih hparent_mem (by omega)

omit hblock hne in
/-- The size that is stored is returned. -/
theorem blueAnticoneSize_eq {data : GhostdagData B} {size : KType}
    (hsize : SizeAt M dag x data size) (hmem : data.selected_parent ∈ dag) :
    M.blueAnticoneSize dag x data = .ok size :=
  h.blueAnticoneSizeLoop_eq hsize hmem ((h.rank_lt_length hmem).trans (Nat.lt_succ_self _))

end Inv

/-- The reachability queries are right about the blocks of a DAG. -/
def Correct (is_dag_ancestor_of : B → B → Bool) : Prop :=
  ∀ a, ∀ b ∈ dag, is_dag_ancestor_of a b = true ↔ a = b ∨ Past dag a b

/-! ## The walk of a candidate -/

/-- A candidate for the blues of a new block: no blue block is in its future. -/
structure Candidate (c : B) : Prop
    extends Clustered M dag data where
  selected_parent_mem : data.selected_parent ∈ dag
  merged_notMem : ∀ x ∈ data.mergeset_blues, x ∉ blueSet M dag data.selected_parent
  mem : c ∈ dag
  notMem : c ∉ bluesOf M dag data
  not_past : ∀ x ∈ bluesOf M dag data, ¬Past dag c x

/-- What has been collected of the candidate's anticone among the blues `V`. -/
structure Visited (c : B)
    (V : Finset B) (collected : Collected B) : Prop where
  sizes : ∀ x ∈ V, InAnticone dag x c →
    collected.blues_anticone_sizes.lookup x = some (sizeIn M dag data x)
  others : ∀ x, ¬(x ∈ V ∧ InAnticone dag x c) → collected.blues_anticone_sizes.lookup x = none
  size : collected.blue_anticone_size.toNat = degree (InAnticone dag) V c
  size_le : degree (InAnticone dag) V c ≤ M.k.toNat
  room : ∀ x ∈ V, InAnticone dag x c → degree (InAnticone dag) (bluesOf M dag data) x < M.k.toNat

section

variable {M : GhostdagManager B} {dag : Store B} {data : GhostdagData B} {c : B}
  {reach : B → B → Bool} {V : Finset B} {collected : Collected B}

/-- Nothing is collected before the first visit. -/
theorem visited_empty : Visited M dag data c ∅ ⟨∅, 0⟩ where
  sizes x hx := absurd hx (notMem_empty x)
  others _ _ := rfl
  size := (degree_eq_zero fun y hy => absurd hy (notMem_empty y)).symm
  size_le := by exact Nat.zero_le _
  room x hx := absurd hx (notMem_empty x)

section

variable (h : Visited M dag data c V collected)
include h

/-- A block outside the anticone changes nothing. -/
theorem Visited.skip {x : B} (hx : x ∉ V)
    (hnot : ¬InAnticone dag x c) : Visited M dag data c (insert x V) collected where
  sizes y hy hrel := by
    obtain rfl | hy := mem_insert.mp hy
    · exact absurd hrel hnot
    · exact h.sizes y hy hrel
  others y hy := h.others y fun hV => hy ⟨mem_insert_of_mem hV.1, hV.2⟩
  size := by rw [h.size, degree_insert_of_not hx fun hrel => hnot hrel.symm]
  size_le := by
    rw [degree_insert_of_not hx fun hrel => hnot hrel.symm]
    exact h.size_le
  room y hy hrel := by
    obtain rfl | hy := mem_insert.mp hy
    · exact absurd hrel hnot
    · exact h.room y hy hrel

/-- A blue in the candidate's anticone is collected with its size, if neither limit is reached. -/
theorem Visited.collect {x : B} (hx : x ∉ V) (hrel : InAnticone dag x c) {size : KType}
    (hsize : size.toNat = collected.blue_anticone_size.toNat + 1) (hle : size.toNat ≤ M.k.toNat)
    (hroom : degree (InAnticone dag) (bluesOf M dag data) x < M.k.toNat) :
    Visited M dag data c (insert x V)
      ⟨collected.blues_anticone_sizes.insert x (sizeIn M dag data x), size⟩ := by
  have hdegree : degree (InAnticone dag) (insert x V) c = size.toNat := by
    rw [degree_insert_of hx hrel.symm, ← h.size, hsize]
  refine ⟨fun y hy hrel' => ?_, fun y hy => ?_, hdegree.symm, hdegree ▸ hle, fun y hy hrel' => ?_⟩
  · by_cases heq : y = x
    · rw [heq, AList.lookup_insert]
    · rw [AList.lookup_insert_ne heq]
      exact h.sizes y ((mem_insert.mp hy).resolve_left heq) hrel'
  · have heq : y ≠ x := fun heq => hy ⟨heq ▸ Finset.mem_insert_self x V, heq ▸ hrel⟩
    rw [AList.lookup_insert_ne heq]
    exact h.others y fun hV => hy ⟨mem_insert_of_mem hV.1, hV.2⟩
  · obtain rfl | hy := mem_insert.mp hy
    · exact hroom
    · exact h.room y hy hrel'

/-- Blocks outside the anticone need no visit. -/
theorem Visited.complete {S : Finset B} (hsub : V ⊆ S)
    (hrest : ∀ x ∈ S, x ∉ V → ¬InAnticone dag x c) : Visited M dag data c S collected := by
  have hmem {x : B} (hx : x ∈ S) (hrel : InAnticone dag x c) : x ∈ V := by
    by_contra hV
    exact hrest x hx hV hrel
  have hdegree : degree (InAnticone dag) S c = degree (InAnticone dag) V c := by
    unfold degree
    congr 1
    ext x
    simp only [Finset.mem_filter]
    exact ⟨fun hx => ⟨hmem hx.1 hx.2.symm, hx.2⟩, fun hx => ⟨hsub hx.1, hx.2⟩⟩
  exact ⟨fun x hx hrel => h.sizes x (hmem hx hrel) hrel,
    fun x hx => h.others x fun hV => hx ⟨hsub hV.1, hV.2⟩, hdegree ▸ h.size, hdegree ▸ h.size_le,
    fun x hx hrel => h.room x (hmem hx hrel) hrel⟩

end

/-- One query decides whether a blue block is in the anticone. -/
theorem Candidate.inAnticone_iff (h : Candidate M dag data c) (hreach : Correct dag reach) {x : B}
    (hx : x ∈ bluesOf M dag data) : InAnticone dag x c ↔ reach x c = false := by
  have hne : x ≠ c := fun heq => h.notMem (heq ▸ hx)
  rw [← Bool.not_eq_true, hreach x c h.mem, not_or]
  exact ⟨fun hrel => ⟨hne, hrel.2.1⟩, fun hnot => ⟨hne, hnot.2, h.not_past x hx⟩⟩

/-- The size that is read is the number of blue blocks in the anticone. -/
theorem Candidate.toNat_sizeIn (h : Candidate M dag data c) {x : B} (hx : x ∈ bluesOf M dag data) :
    (sizeIn M dag data x).toNat = degree (InAnticone dag) (bluesOf M dag data) x := by
  have hle := h.cluster x hx
  rw [sizeIn, BitVec.toNat_ofNat, Nat.mod_eq_of_lt (by omega)]

omit [LinearOrder B] in
/-- A size below the bound can be raised. -/
theorem exists_succ_size {size : KType} (h : size.toNat + 1 < 2 ^ 16) :
    ∃ size', checkedAdd size 1 = some size' ∧ size'.toNat = size.toNat + 1 :=
  exists_checkedAdd h

/-- The loop over blue peers ends with a limit reached, or with all of them visited. -/
theorem checkPeers_spec (hinv : Inv M dag) (hk : M.k.toNat + 1 < 2 ^ 16)
    (hreach : Correct dag reach) (hc : Candidate M dag data c) {peers : List B}
    (hV : Visited M dag data c V collected) (hnodup : peers.Nodup)
    (hblue : ∀ x ∈ peers, x ∈ bluesOf M dag data) (hnew : ∀ x ∈ peers, x ∉ V) :
    (∃ collected', M.checkPeers reach dag data c peers collected = .ok (.Red, collected')) ∨
      ∃ collected', M.checkPeers reach dag data c peers collected = .ok (.Pending, collected') ∧
        Visited M dag data c (V ∪ peers.toFinset) collected' := by
  induction peers generalizing V collected with
  | nil =>
    refine .inr ⟨collected, rfl, ?_⟩
    rw [toFinset_nil, union_empty]
    exact hV
  | cons x peers ih =>
    obtain ⟨hx, hnodup⟩ := nodup_cons.mp hnodup
    have hxblue := hblue x mem_cons_self
    have hxnew := hnew x mem_cons_self
    have hunion : insert x V ∪ peers.toFinset = V ∪ (x :: peers).toFinset := by
      rw [toFinset_cons, insert_union, union_insert]
    have hrest {collected' : Collected B} (hV' : Visited M dag data c (insert x V) collected') :=
      ih hV' hnodup (fun y hy => hblue y (mem_cons_of_mem _ hy)) fun y hy hmem => by
        obtain rfl | hmem := mem_insert.mp hmem
        · exact hx hy
        · exact hnew y (mem_cons_of_mem _ hy) hmem
    rw [hunion] at hrest
    rw [checkPeers]
    cases hr : reach x c with
    | true =>
      refine hrest (hV.skip hxnew ?_)
      rw [hc.inAnticone_iff hreach hxblue, hr]
      exact fun heq => Bool.false_ne_true heq.symm
    | false =>
      have hrel : InAnticone dag x c := (hc.inAnticone_iff hreach hxblue).mpr hr
      have hpeer := hinv.blueAnticoneSize_eq (hc.sizes x hxblue) hc.selected_parent_mem
      have hcount := hV.size
      have hcount_le := hV.size_le
      have hfits : collected.blue_anticone_size.toNat + 1 < 2 ^ 16 := by omega
      obtain ⟨size, hadd, hsize⟩ := exists_succ_size hfits
      rw [if_neg Bool.false_ne_true, hpeer, ok_bind, hadd, Option.okOr, ok_bind]
      have hdegree := hc.toNat_sizeIn hxblue
      have hcluster := hc.cluster x hxblue
      split_ifs with habove hlimit hpanic
      · exact .inl ⟨_, rfl⟩
      · exact .inl ⟨_, rfl⟩
      · omega
      · have hne : (sizeIn M dag data x).toNat ≠ M.k.toNat := fun heq =>
          hlimit (BitVec.eq_of_toNat_eq heq)
        exact hrest (hV.collect hxnew hrel hsize (by omega) (by omega))

/-- The walk down the selected chain ends with a limit reached, or with all blues visited. -/
theorem checkBlueCandidateLoop_spec (hinv : Inv M dag) (hk : M.k.toNat + 1 < 2 ^ 16)
    (hreach : Correct dag reach) (hc : Candidate M dag data c) {h : B} {block : Block B}
    (hblock : dag.lookup h = some block) (hV : Visited M dag data c V collected)
    (hsplit : bluesOf M dag data = V ∪ blueSet M dag h) (hdisj : Disjoint V (blueSet M dag h))
    {fuel : ℕ} (hfuel : rank dag h < fuel) :
    M.checkBlueCandidateLoop reach dag data c fuel (some h) block.data collected = .ok .Red ∨
      ∃ collected', M.checkBlueCandidateLoop reach dag data c fuel (some h) block.data collected =
          .ok (.Blue collected'.blue_anticone_size collected'.blues_anticone_sizes) ∧
        Visited M dag data c (bluesOf M dag data) collected' := by
  induction fuel generalizing h block V collected with
  | zero => exact absurd hfuel (Nat.not_lt_zero _)
  | succ fuel ih =>
    have hsub : V ⊆ bluesOf M dag data := hsplit ▸ subset_union_left
    rw [checkBlueCandidateLoop, checkBlueCandidateWithChainBlock,
      Option.any_some]
    by_cases hr : reach h c = true
    · -- The blues that are left are in the past of `h`, and so in that of the candidate.
      rw [if_pos hr]
      refine .inr ⟨collected, rfl, hV.complete hsub fun x hx hxV => ?_⟩
      rw [hsplit, mem_union] at hx
      have hpast := hinv.past_of_mem_blueSet (hx.resolve_left hxV)
      obtain rfl | hhc := (hreach h c hc.mem).mp hr
      · exact fun hrel => hrel.2.1 hpast
      · exact fun hrel => hrel.2.1 (hpast.trans hhc)
    · have hne : h ≠ M.genesis_hash := by
        rintro rfl
        refine hr ((hreach _ c hc.mem).mpr ?_)
        by_cases heq : c = M.genesis_hash
        · exact .inl heq.symm
        · exact .inr (hinv.genesis_past hc.mem heq)
      have hblues := hinv.blueSet_eq hblock hne
      have hmerged {x : B} (hx : x ∈ block.data.mergeset_blues) : x ∈ blueSet M dag h :=
        hblues ▸ mem_bluesOf.mpr (.inl hx)
      rw [if_neg hr]
      obtain ⟨collected', hred⟩ | ⟨collected', hpending, hV'⟩ :=
        checkPeers_spec hinv hk hreach hc hV (hinv.colored hblock hne).blues_nodup
        (fun x hx => hsplit ▸ mem_union_right _ (hmerged hx))
        (fun x hx hxV => disjoint_left.mp hdisj hxV (hmerged hx))
      · rw [hred]
        exact .inl rfl
      · rw [hpending, ok_bind]
        dsimp only
        have hparent_mem := hinv.selected_parent_mem hblock hne
        obtain ⟨parent, hparent⟩ := mem_iff_lookup.mp hparent_mem
        rw [get_of_lookup hparent, ok_bind]
        have hlt := hinv.rank_lt hparent_mem (hinv.selected_parent_past hblock hne)
        refine ih hparent hV' ?_ ?_ (by omega)
        · rw [hsplit, hblues, bluesOf, union_assoc]
        · refine disjoint_union_left.mpr ⟨?_, ?_⟩
          · refine hdisj.mono_right ?_
            rw [hblues]
            exact subset_union_right
          · refine disjoint_left.mpr fun x hx => ?_
            exact hinv.merged_notMem hblock hne (mem_toFinset.mp hx)

/-- The colour of a candidate is found without a panic. It is blue only if there is room for it: the
sizes collected are then those of the blues in its anticone, all below the limit. -/
theorem checkBlueCandidate_spec (hinv : Inv M dag) (hk : M.k.toNat + 1 < 2 ^ 16)
    (hreach : Correct dag reach) (hc : Candidate M dag data c) :
    M.checkBlueCandidate reach dag data c = .ok .Red ∨
      ∃ collected, M.checkBlueCandidate reach dag data c =
          .ok (.Blue collected.blue_anticone_size collected.blues_anticone_sizes) ∧
        data.mergeset_blues.length ≤ M.k.toNat ∧
        Visited M dag data c (bluesOf M dag data) collected := by
  obtain ⟨k1, hadd, hk1⟩ := exists_succ_size hk
  obtain ⟨parent, hparent⟩ := mem_iff_lookup.mp hc.selected_parent_mem
  rw [checkBlueCandidate, hadd, Option.okOr, ok_bind]
  split_ifs with hfull
  · exact .inl rfl
  · have hlen : data.mergeset_blues.length ≤ M.k.toNat := by
      by_contra hnot
      have hle := hc.blues_length
      refine hfull (BitVec.eq_of_toNat_eq ?_)
      rw [BitVec.toNat_ofNat, Nat.mod_eq_of_lt (by omega)]
      omega
    -- The first round is over the blues of the new block itself.
    rw [checkBlueCandidateLoop, checkBlueCandidateWithChainBlock,
      Option.any_none, if_neg Bool.false_ne_true]
    obtain ⟨collected', hred⟩ | ⟨collected', hpending, hV⟩ := checkPeers_spec hinv hk hreach hc
      visited_empty hc.blues_nodup (fun x hx => mem_bluesOf.mpr (.inl hx))
      (fun x _ => notMem_empty x)
    · rw [hred]
      exact .inl rfl
    · rw [hpending, ok_bind]
      dsimp only
      rw [get_of_lookup hparent, ok_bind]
      have hfuel := (hinv.rank_lt_length hc.selected_parent_mem).trans (Nat.lt_succ_self _)
      have hdisj : Disjoint (∅ ∪ data.mergeset_blues.toFinset)
          (blueSet M dag data.selected_parent) := by
        exact disjoint_left.mpr fun x hx => hc.merged_notMem x (mem_toFinset.mp hx)
      have hsplit : bluesOf M dag data =
          (∅ ∪ data.mergeset_blues.toFinset) ∪ blueSet M dag data.selected_parent := by
        rw [empty_union, bluesOf]
      obtain hred | ⟨collected, hok, hV⟩ :=
        checkBlueCandidateLoop_spec hinv hk hreach hc hparent hV hsplit hdisj hfuel
      · exact .inl hred
      · exact .inr ⟨collected, hok, hlen, hV⟩

end

end Zkas.Dag
