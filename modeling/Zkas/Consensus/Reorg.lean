import Zkas.Consensus.ChainInvariant
import Zkas.Consensus.Instance

/-!
# The nullifier set across reorgs

The processor reverts the stored diffs of the blocks it leaves, re-applies those of the blocks it
rejoins and commits the blocks it validates. Every step of a walk keeps the invariant of the stores
and moves the nullifier set to the chain of the block it reached
(`calculateUtxoStateRelatively_spec`). -/

namespace Zkas

open List ShieldedStores ParentTree Finset

variable {H N G : Type} [DecidableEq H]

/-! ## Batches -/

theorem foldl_delete (set : Finset H) (nfs : List H) :
    (nfs.map NullifierOp.delete).foldl NullifierOp.apply set = set \ nfs.toFinset := by
  induction nfs generalizing set with
  | nil => simp
  | cons nf nfs ih =>
    rw [List.map_cons, List.foldl_cons, ih, List.toFinset_cons]
    ext x
    simp only [NullifierOp.apply, mem_sdiff, mem_erase, mem_insert, mem_toFinset]
    tauto

theorem foldl_insert (set : Finset H) (nfs : List H) :
    (nfs.map NullifierOp.insert).foldl NullifierOp.apply set = set ∪ nfs.toFinset := by
  induction nfs generalizing set with
  | nil => simp
  | cons nf nfs ih =>
    rw [List.map_cons, List.foldl_cons, ih, List.toFinset_cons]
    ext x
    simp only [NullifierOp.apply, mem_union, mem_insert, mem_toFinset]
    tauto

namespace ShieldedStores

variable (s : ShieldedStores H G)

/-- Staging the insertion of a block's nullifiers shows them to reads and stages them. -/
theorem applyNullifiersFromStore_eq (batch : List (NullifierOp H)) (block : H) :
    s.applyNullifiersFromStore batch block =
      ({ s with nullifiers := s.nullifiers ∪ (s.nullifierDiffAt block).toFinset },
        batch ++ (s.nullifierDiffAt block).map .insert) := by
  unfold applyNullifiersFromStore
  generalize s.nullifierDiffAt block = nfs
  induction nfs generalizing s batch with
  | nil => simp
  | cons nf nfs ih =>
    refine (ih { s with nullifiers := insert nf s.nullifiers } (batch ++ [.insert nf])).trans ?_
    simp only [List.toFinset_cons, List.map_cons, List.append_assoc, List.singleton_append,
      Finset.insert_union, Finset.union_insert]

end ShieldedStores

section

variable [CommGroupWithZero G] {C : Crypto H N G} {D : BlockDag H} {P : SecurityParams}

namespace ProcessorState

variable {V : H → BlockVerdict H N → Prop} {σ : ProcessorState H G}

/-! ## The down-walk -/

omit [CommGroupWithZero G] in
/-- The down-walk over validated blocks off the candidate's chain stages their reverts and stops at
the first block on it. -/
theorem walkDown_eq_ok {is_ancestor : H → Bool} {left rest : List H} {split_point : H}
    (hleft : ∀ x ∈ left, is_ancestor x = false ∧ x ∈ σ.utxo_diffs)
    (hsplit : is_ancestor split_point = true) (batch : List (NullifierOp H)) :
    σ.walkDown is_ancestor (left ++ split_point :: rest) batch = .ok (split_point,
      batch ++ (left.flatMap σ.stores.nullifierDiffAt).map .delete) := by
  induction left generalizing batch with
  | nil => simp [walkDown, hsplit]
  | cons x left ih =>
    obtain ⟨hx, hmem⟩ := hleft x mem_cons_self
    have hrest := ih (fun y hy => hleft y (mem_cons_of_mem _ hy))
      (σ.stores.revertNullifiersFromStore batch x)
    rw [cons_append, walkDown, hx, if_neg Bool.false_ne_true, if_neg (not_not.mpr hmem), hrest]
    simp only [revertNullifiersFromStore, flatMap_cons, map_append, append_assoc]

omit [CommGroupWithZero G] in
/-- The reverts move the nullifier set from the chain of one block to the chain of its ancestor, if
no nullifier is spent twice on the chain. -/
theorem revert_atBlock {start split_point : H} {left : List H} (hat : AtBlock D σ start)
    (hvalid : split_point ∈ σ.utxo_diffs) (hnodup : (σ.stores.chainNullifiers D start).Nodup)
    (hpath : D.path start = D.path split_point ++ left) :
    AtBlock D { σ with
      stores := σ.stores.writeNullifiers
        ((left.reverse.flatMap σ.stores.nullifierDiffAt).map .delete) } split_point := by
  refine ⟨hvalid, ?_⟩
  have hchain : σ.stores.chainNullifiers D start =
      σ.stores.chainNullifiers D split_point ++ left.flatMap σ.stores.nullifierDiffAt := by
    rw [chainNullifiers, hpath, flatMap_append]
    rfl
  -- No nullifier is spent twice on the chain, so the reverts touch nothing below the split point.
  rw [hchain, nodup_append'] at hnodup
  change foldl NullifierOp.apply σ.stores.nullifiers _ =
    (σ.stores.chainNullifiers D split_point).toFinset
  rw [foldl_delete, hat.nullifiers, hchain]
  ext nf
  simp only [mem_sdiff, mem_toFinset, mem_append, mem_flatMap, mem_reverse]
  constructor
  · rintro ⟨h | h, hnot⟩
    · exact h
    · exact absurd h hnot
  · intro h
    refine ⟨.inl h, fun hnot => hnodup.2.2 h (mem_flatMap.mpr hnot)⟩

omit [CommGroupWithZero G] in
/-- The down-walk to a candidate from a block whose chain is valid: it stages the reverts of the
blocks that leave the chain and stops at the split point. -/
theorem exists_walkDown (σ : ProcessorState H G) {start : H} (target : H)
    (hvalid : ∀ x ∈ D.path start, x ∈ σ.utxo_diffs) :
    ∃ split_point left, D.path start = D.path split_point ++ left ∧ split_point ∈ D.path target ∧
      split_point ∈ σ.utxo_diffs ∧
      σ.walkDown (· ∈ D.path target) (D.path start).reverse [] =
        .ok (split_point, (left.reverse.flatMap σ.stores.nullifierDiffAt).map .delete) := by
  obtain ⟨split_point, left, hpath, hsplit, hleft⟩ :=
    exists_split (T := D.toParentTree) start target
  obtain ⟨front, hfront⟩ := getLast?_eq_some_iff.mp (getLast?_path
    (T := D.toParentTree) split_point)
  have hreverse : (D.path start).reverse = left.reverse ++ split_point :: front.reverse := by
    rw [hpath, hfront, reverse_append, reverse_append]
    rfl
  have hmem : split_point ∈ D.path start := by
    rw [hpath]
    exact mem_append_left _ (self_mem_path _)
  have hoff : ∀ x ∈ left.reverse, decide (x ∈ D.path target) = false ∧ x ∈ σ.utxo_diffs := by
    intro x hx
    have hx' := mem_reverse.mp hx
    refine ⟨decide_eq_false (hleft x hx'), hvalid x ?_⟩
    rw [hpath]
    exact mem_append_right _ hx'
  refine ⟨split_point, left, hpath, hsplit, hvalid _ hmem, ?_⟩
  rw [hreverse]
  exact walkDown_eq_ok hoff (decide_eq_true hsplit) []

/-! ## The up-walk -/

omit [CommGroupWithZero G] in
theorem rejoin_eq (σ : ProcessorState H G) (current : H) :
    σ.rejoin current = { σ with stores := { σ.stores with
      nullifiers := σ.stores.nullifiers ∪ (σ.stores.nullifierDiffAt current).toFinset } } := by
  unfold rejoin
  rw [applyNullifiersFromStore_eq]
  simp only [writeNullifiers, nil_append, foldl_insert, union_assoc, union_self]

omit [CommGroupWithZero G] in
theorem rejoin_atBlock {b : H} (hb : b ≠ D.root) (hmem : b ∈ σ.utxo_diffs)
    (hat : AtBlock D σ (D.parent b)) : AtBlock D (σ.rejoin b) b := by
  rw [rejoin_eq]
  refine ⟨hmem, ?_⟩
  change σ.stores.nullifiers ∪ _ = (σ.stores.chainNullifiers D b).toFinset
  rw [hat.nullifiers, chainNullifiers_of_ne _ hb, toFinset_append]

/-- Committing a validated block keeps the invariant and moves the nullifier set to it. -/
theorem commit_spec (hT : C.T.Spec) (hE : C.mf.EmptyDistinct) (hinv : ProcessorInvariant C D P V σ)
    {b : H} (hb : b ≠ D.root) (hnew : b ∉ σ.utxo_diffs) (hat : AtBlock D σ (D.parent b))
    {v : BlockVerdict H N} (hv : V b v) {c : ComputedBlockShielded H N G}
    (hvalid : σ.stores.validate C (D.parent b) v = .ok c) :
    ∃ stores, σ.stores.commitUtxoState C D P b c v = .ok stores ∧
      ProcessorInvariant C D P V { σ with stores, utxo_diffs := insert b σ.utxo_diffs } ∧
      AtBlock D { σ with stores, utxo_diffs := insert b σ.utxo_diffs } b := by
  have hp := hinv.chainFacts hT hat.valid
  -- The set is the one of the parent's chain, so the block was validated against that chain.
  have honChain : (σ.stores.onChain D (D.parent b)).validate C (D.parent b) v = .ok c := by
    rwa [hat.onChain_eq]
  have hfacts := computedFacts hT hp honChain
  have hcommit : ∃ stores, σ.stores.commitUtxoState C D P b c v = .ok stores := by
    refine commitUtxoState_isOk c v fun _ => ?_
    obtain ⟨before, hbefore, hwf, hcount⟩ := hp.parentWindow
    have hgrows := D.blue_score_lt b hb
    exact ⟨before, hbefore, hwf, by omega⟩
  obtain ⟨stores, hstores⟩ := hcommit
  have hne : D.parent b ≠ b := parent_ne hb
  obtain ⟨hspec, hrows⟩ := commitUtxoState_spec hstores hne (hinv.fresh b hnew)
    hfacts.frontier (hfacts.muhash_eq_new hE)
  -- Rows of validated blocks stay, and the new block is on none of their chains.
  have hsame : ∀ x ∈ σ.utxo_diffs, σ.stores.rows x = stores.rows x := fun x hx =>
    (hspec.others x fun h => hnew (h ▸ hx)).symm
  have hchain : ∀ x ∈ D.path (D.parent b), σ.stores.rows x = stores.rows x := fun x hx =>
    hsame x (hinv.path_mem hat.valid hx)
  refine ⟨stores, hstores, ⟨?_, ?_, ?_, ?_, ?_⟩, ?_, ?_⟩
  · exact mem_insert_of_mem hinv.root_mem
  · intro x hx hroot
    rcases mem_insert.mp hx with rfl | hx
    · exact mem_insert_of_mem hat.valid
    · exact mem_insert_of_mem (hinv.parent_mem x hx hroot)
  · rw [hspec.others _ hb.symm]
    exact hinv.root_rows
  · intro x hx
    rw [mem_insert, not_or] at hx
    rw [hspec.others x hx.1]
    exact hinv.fresh x hx.2
  · intro x hx hroot
    rcases mem_insert.mp hx with rfl | hx
    · exact ⟨v, c, hv, (validate_onChain_congr hchain v).symm.trans honChain, hrows⟩
    · obtain ⟨v', c', hv', hc⟩ := hinv.committed x hx hroot
      exact ⟨v', c', hv', hc.congr hroot fun y hy => hsame y (hinv.path_mem hx hy)⟩
  · exact mem_insert_self _ _
  · change stores.nullifiers = (stores.chainNullifiers D b).toFinset
    rw [hspec.nullifiers, hat.nullifiers, chainNullifiers_of_ne stores hb,
      toFinset_append, hrows.diff, chainNullifiers_congr hchain]

variable {verdict : H → BlockVerdict H N}

/-- A step of the up-walk to a child of the last block walked keeps the invariant, and the nullifier
set is the one of the most recent valid block's chain. -/
theorem stepUp_spec (hT : C.T.Spec) (hE : C.mf.EmptyDistinct) (hV : ∀ b, V b (verdict b))
      (hinv : ProcessorInvariant C D P V σ) {diff_point : H}
    (hat : AtBlock D σ diff_point) {selected_parent current : H}
    (hchild : D.IsChild selected_parent current) :
    ∃ σ' diff_point', σ.stepUp C D P verdict diff_point selected_parent current =
        .ok (σ', diff_point') ∧ ProcessorInvariant C D P V σ' ∧ AtBlock D σ' diff_point' := by
  obtain ⟨hroot, rfl⟩ := hchild
  have hdisqualified : ProcessorInvariant C D P V (σ.disqualify current) :=
    hinv.congr rfl fun _ => rfl
  unfold stepUp
  split_ifs with hsp hmem hdis
  · exact ⟨_, _, rfl, hdisqualified, hat.valid, hat.nullifiers⟩
  · obtain rfl : D.parent current = diff_point := not_not.mp hsp
    have hjoined := rejoin_atBlock hroot hmem hat
    refine ⟨_, _, rfl, ?_, hjoined⟩
    rw [rejoin_eq]
    exact hinv.congr rfl fun _ => rfl
  · exact ⟨_, _, rfl, hinv, hat⟩
  · obtain rfl : D.parent current = diff_point := not_not.mp hsp
    obtain ⟨tree, htree⟩ := (hinv.chainFacts hT hat.valid).tree
    have hpanic := validate_ne_panic (s := σ.stores) htree (verdict current)
    cases hv : σ.stores.validate C (D.parent current) (verdict current) with
    | ok c =>
      obtain ⟨stores, hstores, hinv', hat'⟩ := commit_spec hT hE hinv hroot hmem hat (hV current) hv
      simp only [hstores]
      exact ⟨_, _, rfl, hinv', hat'⟩
    | error e =>
      cases e with
      | panic => exact absurd hv hpanic
      | err e => exact ⟨_, _, rfl, hdisqualified, hat.valid, hat.nullifiers⟩

theorem walkUp_spec (hT : C.T.Spec) (hE : C.mf.EmptyDistinct) (hV : ∀ b, V b (verdict b))
      (hinv : ProcessorInvariant C D P V σ) {diff_point : H}
    (hat : AtBlock D σ diff_point) {selected_parent : H} {blocks : List H}
    (hchain : List.IsChain D.IsChild (selected_parent :: blocks)) :
    ∃ σ' diff_point', walkUp C D P verdict σ diff_point selected_parent blocks =
        .ok (σ', diff_point') ∧ ProcessorInvariant C D P V σ' ∧ AtBlock D σ' diff_point' := by
  induction blocks generalizing σ diff_point selected_parent with
  | nil => exact ⟨_, _, rfl, hinv, hat⟩
  | cons current blocks ih =>
    rw [isChain_cons_cons] at hchain
    obtain ⟨hchild, hrest⟩ := hchain
    obtain ⟨σ₁, dp₁, hstep, hinv₁, hat₁⟩ := stepUp_spec hT hE hV hinv hat hchild
    obtain ⟨σ', dp', hwalk, hinv', hat'⟩ := ih hinv₁ hat₁ hrest
    refine ⟨σ', dp', ?_, hinv', hat'⟩
    rw [walkUp, hstep]
    exact hwalk

/-! ## Calls and runs -/

/-- A call keeps the invariant, and the nullifier set is the one of the returned block's chain. -/
theorem calculateUtxoStateRelatively_spec (hT : C.T.Spec) (hE : C.mf.EmptyDistinct)
    (hV : ∀ b, V b (verdict b)) (hinv : ProcessorInvariant C D P V σ) {start : H}
    (hat : AtBlock D σ start) (target : H) :
    ∃ σ' tip, σ.calculateUtxoStateRelatively C D P verdict start target = .ok (σ', tip) ∧
      ProcessorInvariant C D P V σ' ∧ AtBlock D σ' tip := by
  unfold calculateUtxoStateRelatively
  split_ifs with hdis
  · exact ⟨_, _, rfl, hinv, hat⟩
  · obtain ⟨split_point, left, hpath, hsplit, hvalid, hdown⟩ :=
      exists_walkDown σ target fun x hx => hinv.path_mem hat.valid hx
    have hinv' : ProcessorInvariant C D P V { σ with
        stores := σ.stores.writeNullifiers
          ((left.reverse.flatMap σ.stores.nullifierDiffAt).map .delete) } :=
      hinv.congr rfl fun _ => rfl
    have hreverted := revert_atBlock hat hvalid (hinv.chainFacts hT hat.valid).nodup hpath
    rw [hdown]
    exact walkUp_spec hT hE hV hinv' hreverted (isChain_above hsplit)

/-- A run from a state at a block keeps the invariant and ends at the returned block. -/
theorem run_spec (hT : C.T.Spec) (hE : C.mf.EmptyDistinct) (hinv : ProcessorInvariant C D P V σ)
    {start : H} (hat : AtBlock D σ start) {calls : List ((H → BlockVerdict H N) × H)}
    (hV : ∀ call ∈ calls, ∀ b, V b (call.1 b)) :
    ∃ σ' tip, run C D P σ start calls = .ok (σ', tip) ∧ ProcessorInvariant C D P V σ' ∧
      AtBlock D σ' tip := by
  induction calls generalizing σ start with
  | nil => exact ⟨_, _, rfl, hinv, hat⟩
  | cons call calls ih =>
    obtain ⟨verdict, target⟩ := call
    have hfirst : ∀ b, V b (verdict b) := hV _ mem_cons_self
    obtain ⟨σ₁, tip₁, hcall, hinv₁, hat₁⟩ :=
      calculateUtxoStateRelatively_spec hT hE hfirst hinv hat target
    obtain ⟨σ', tip', hrun, hinv', hat'⟩ := ih hinv₁ hat₁ fun call hmem =>
      hV call (mem_cons_of_mem _ hmem)
    refine ⟨σ', tip', ?_, hinv', hat'⟩
    rw [run, hcall]
    exact hrun

variable (C D P V) in
theorem genesis_spec : ProcessorInvariant C D P V (genesis D : ProcessorState H G) ∧
    AtBlock D (genesis D : ProcessorState H G) D.root := by
  have hmem : D.root ∈ (genesis D : ProcessorState H G).utxo_diffs := Finset.mem_singleton_self _
  refine ⟨⟨hmem, fun b hb hne => ?_, rfl, fun _ _ => rfl, fun b hb hne => ?_⟩, hmem, ?_⟩
  · exact absurd (Finset.mem_singleton.mp hb) hne
  · exact absurd (Finset.mem_singleton.mp hb) hne
  · change ∅ = ((D.path D.root).flatMap _).toFinset
    rw [path_root]
    rfl

/-- After any run of calls the nullifier set is the union of the stored diffs along the returned
block's chain, these diffs are pairwise disjoint, and the accumulator stored at the block is the one
of the set. -/
theorem run_nullifiers (hT : C.T.Spec) (hE : C.mf.EmptyDistinct)
    (calls : List ((H → BlockVerdict H N) × H)) :
    ∃ σ tip, run C D P (genesis D) D.root calls = .ok (σ, tip) ∧ σ.stores.nullifiers =
        (D.path tip).toFinset.biUnion (fun b => (σ.stores.nullifierDiffAt b).toFinset) ∧
      (D.path tip).Pairwise
        (fun b b' => (σ.stores.nullifierDiffAt b).Disjoint (σ.stores.nullifierDiffAt b')) ∧
      σ.stores.nullifierMuhashAt tip = MuHash.ofFinset C.mf σ.stores.nullifiers := by
  obtain ⟨hinv₀, hat₀⟩ := genesis_spec C D P fun _ _ => True
  obtain ⟨σ, tip, hrun, hinv, hat⟩ := run_spec hT hE hinv₀ hat₀
    fun call (_ : call ∈ calls) _ => trivial
  have hfacts := hinv.chainFacts hT hat.valid
  have hdistinct : ((D.path tip).flatMap σ.stores.nullifierDiffAt).Nodup := hfacts.nodup
  refine ⟨σ, tip, hrun, ?_, (nodup_flatMap.mp hdistinct).2, ?_⟩
  · rw [hat.nullifiers]
    ext nf
    simp only [chainNullifiers, mem_toFinset, mem_flatMap, mem_biUnion]
  · calc σ.stores.nullifierMuhashAt tip
        = MuHash.new.addAll C.mf (σ.stores.chainNullifiers D tip) := hfacts.muhash
      _ = MuHash.ofFinset C.mf (σ.stores.chainNullifiers D tip).toFinset :=
        MuHash.addAll_new_eq_ofFinset hfacts.nodup
      _ = MuHash.ofFinset C.mf σ.stores.nullifiers := by rw [hat.nullifiers]

end ProcessorState

end

/-! ## A run with a reorg -/

namespace Sample

open Symbolic

/-- The height of block `n`: the blocks below eight form a binary tree, all others are children of
the root. -/
def height : Term → ℕ
  | .atom n => if n < 8 then n.size else 1
  | _ => 1

/-- The parent of a block. -/
def parent : Term → Term
  | .atom n => .atom (if n < 8 then n / 2 else 0)
  | _ => .atom 0

theorem height_parent (b : Term) (hb : b ≠ .atom 0) : height b = height (parent b) + 1 := by
  cases b with
  | atom n =>
    have hn : n ≠ 0 := fun h => hb (congrArg Term.atom h)
    by_cases hlt : n < 8
    · interval_cases n <;> first | exact absurd rfl hn | decide
    · simp [height, parent, hlt]
  | _ => rfl

theorem height_le (b : Term) : height b ≤ 3 := by
  cases b with
  | atom n =>
    by_cases hlt : n < 8
    · interval_cases n <;> decide
    · simp [height, hlt]
  | _ => simp [height]

/-- A tree of blocks; the blocks two and three are the children of block one. -/
def dag : BlockDag Term where
  root := .atom 0
  parent := parent
  height := height
  height_root := rfl
  height_parent := height_parent
  daa_score b := BitVec.ofNat 64 (height b)
  blue_score b := BitVec.ofNat 64 (height b)
  blue_score_lt b hb := by
    have hheight := height_parent b hb
    have hle := height_le b
    simp only [BitVec.toNat_ofNat]
    omega

/-- Parameters with the security fork active from the start. -/
def params : SecurityParams where
  security_fork_activation := ⟨0⟩
  dev_fee_accrual_activation := ⟨0⟩
  dev_fee_end_activation := ⟨100⟩
  shielded_anchor_depth := 1
  max_shielded_anchor_age := 100

/-- Block one mints a note, and its children both spend it. -/
def verdict : Term → BlockVerdict Term ℕ
  | .atom 1 =>
    { shielded_txs := [], anchor_final := fun _ => true,
      coinbase := some { notes := [{ value := 100, commitment := 5 }] }, other_rules := true,
      dev_accrued := 0, miner_accrual := .default }
  | _ =>
    { shielded_txs := [{ nullifiers := [.atom 30], commitments := [6], fee := 0, anchor := .atom 0,
                         burn := none, anchor_block := none }],
      anchor_final := fun _ => true, coinbase := none, other_rules := true, dev_accrued := 0,
      miner_accrual := .default }

/-- To block two, over to block three and back. -/
def calls : List ((Term → BlockVerdict Term ℕ) × Term) :=
  [(verdict, .atom 2), (verdict, .atom 3), (verdict, .atom 2)]

/-- The run over the two branches and back. -/
theorem run_nullifiers_reorg : NoteTree.natural.Spec ∧ MuHashFns.rational.EmptyDistinct ∧
      ∃ σ tip, ProcessorState.run Crypto.sample dag params (.genesis dag) dag.root calls =
          .ok (σ, tip) ∧
        σ.stores.nullifiers =
          (dag.path tip).toFinset.biUnion (fun b => (σ.stores.nullifierDiffAt b).toFinset) ∧
        (dag.path tip).Pairwise
          (fun b b' => (σ.stores.nullifierDiffAt b).Disjoint (σ.stores.nullifierDiffAt b')) ∧
        σ.stores.nullifierMuhashAt tip = MuHash.ofFinset .rational σ.stores.nullifiers :=
  ⟨NoteTree.natural_spec, MuHashFns.rational_injective.emptyDistinct,
    ProcessorState.run_nullifiers (C := Crypto.sample) NoteTree.natural_spec
      MuHashFns.rational_injective.emptyDistinct calls⟩

end Sample

end Zkas
