import Zkas.Consensus.HonestChain
import Zkas.Consensus.ImportSpec
import Zkas.Consensus.Reorg

/-!
# The nullifier set of a pruning point

Model of `subtract_nullifier_diffs` and `pruning_point_nullifier_set`: a node keeps one nullifier
set, the tip's, and recovers the set as of a pruning point by taking out what the blocks above it
added. A node that was itself synced from a pruning point has no diffs up to there; its set starts
from the nullifiers it was seeded with, the base.

`SeededChain` is the invariant of such a node. Seeding establishes it (`VerifySpec.seededChain`),
and a node that validated from genesis has it with an empty base (`ProcessorState.run_seededChain`).
-/

namespace Zkas

open ShieldedStores ParentTree ProcessorState MuHash

variable {H N G : Type} [DecidableEq H]

namespace ShieldedStores

variable (s : ShieldedStores H G)

/-- Take the nullifiers that blocks added out of a set. -/
def subtractNullifierDiffs (set post_blocks : List H) : List H :=
  let post : Finset H :=
    post_blocks.foldl (fun post block => post ∪ (s.nullifierDiffAt block).toFinset) ∅
  if post = ∅ then set else set.filter (· ∉ post)

variable [CommGroupWithZero G] (C : Crypto H N G)

/-- Whether a set has the accumulator hash of a block's snapshot. -/
def setMatchesSnapshot (set : List H) (block : H) : Bool :=
  (MuHash.new.addAll C.mf set).finalize C.mf = (s.nullifierMuhashAt block).finalize C.mf

/-- The set of a pruning point, from the cache or recovered from a snapshot of the tip's set; with
the cache afterwards. -/
def pruningPointNullifierSet (D : BlockDag H) (s : ShieldedStores H G)
    (cache : Option (H × List H)) (snapshot : List H) (pp tip : H) :
    ImportResult (List H × Option (H × List H)) :=
  match cache.filter fun cached => cached.1 = pp with
  | some (_, set) => .ok (set, cache)
  | none =>
    let set := s.subtractNullifierDiffs snapshot (D.above pp tip)
    if s.setMatchesSnapshot C set pp then .ok (set, some (pp, set))
    else .error (.err "pruning-point nullifier set was captured mid-reorg; not serving it")

/-- The nullifiers of the blocks above an ancestor, by the stored diffs. -/
def spentAfter (D : BlockDag H) (s : ShieldedStores H G) (a b : H) : List H :=
  (D.above a b).flatMap s.nullifierDiffAt

omit [CommGroupWithZero G] in
/-- What is left are the nullifiers that no later block added. -/
theorem subtractNullifierDiffs_eq (set post_blocks : List H) :
    s.subtractNullifierDiffs set post_blocks =
      set.filter (· ∉ (post_blocks.flatMap s.nullifierDiffAt)) := by
  have hpost (acc : Finset H) : post_blocks.foldl
      (fun post block => post ∪ (s.nullifierDiffAt block).toFinset) acc =
        acc ∪ (post_blocks.flatMap s.nullifierDiffAt).toFinset := by
    induction post_blocks generalizing acc with
    | nil => simp
    | cons b bs ih =>
      rw [List.foldl_cons, ih, List.flatMap_cons, List.toFinset_append, Finset.union_assoc]
  unfold subtractNullifierDiffs
  rw [hpost, Finset.empty_union]
  simp only [List.mem_toFinset]
  split_ifs with hempty
  · rw [List.toFinset_eq_empty_iff] at hempty
    simp [hempty]
  · rfl

end ShieldedStores

/-! ## Chains above a base -/

section

variable [CommGroupWithZero G] (C : Crypto H N G) (D : BlockDag H) (P : SecurityParams)
variable (s : ShieldedStores H G)

/-- What is stored at a block above a base: a tree that loads, the accumulator of the nullifiers
spent up to it, as many notes, and no burns. -/
structure BaseFacts (base : List H) (start b : H) : Prop where
  tree : ∃ t, GlobalTree.fromState C.T (s.frontierAt b) = .ok t
  nodup : (base ++ s.spentAfter D start b).Nodup
  muhash : s.nullifierMuhashAt b = MuHash.new.addAll C.mf (base ++ s.spentAfter D start b)
  notes : (base ++ s.spentAfter D start b).length ≤ (s.frontierAt b).size
  burns : s.burnsAt b = []

/-- A block was validated with a verdict on the chain above a base, and its rows hold what was
computed. -/
def CommittedAbove (base : List H) (start b : H) : Prop :=
  ∃ v c, v.NoBurns ∧ v.SpendsNotes ∧ validate C { s with
      nullifiers := (base ++ s.spentAfter D start (D.parent b)).toFinset } (D.parent b) v = .ok c ∧
    ShieldedStores.RowsSpec C D P s b c v

/-- A node at a tip whose chain starts at a seeded base: the set is the base and the diffs above it,
and the rows above the base are those of validated blocks. -/
structure SeededChain (base : List H) (start tip : H) : Prop where
  start_mem : start ∈ D.path tip
  nullifiers : s.nullifiers = (base ++ s.spentAfter D start tip).toFinset
  seeded : BaseFacts C D s base start start
  committed : ∀ b ∈ D.above start tip, CommittedAbove C D P s base start b

end

section

variable [CommGroupWithZero G] {C : Crypto H N G} {D : BlockDag H} {P : SecurityParams}
  {s s' : ShieldedStores H G} {base : List H} {start tip : H}

omit [DecidableEq H] [CommGroupWithZero G] in
theorem ShieldedStores.spentAfter_append {a b c : H} (hab : a ∈ D.path b) (hbc : b ∈ D.path c) :
    s.spentAfter D a c = s.spentAfter D a b ++ s.spentAfter D b c := by
  rw [spentAfter, above_append hab hbc, List.flatMap_append]
  rfl

omit [DecidableEq H] [CommGroupWithZero G] in
theorem ShieldedStores.spentAfter_self (s : ShieldedStores H G) (b : H) :
    s.spentAfter D b b = [] := by
  rw [spentAfter, above, List.drop_length, List.flatMap_nil]

omit [DecidableEq H] [CommGroupWithZero G] in
theorem ShieldedStores.spentAfter_of_ne {b : H} (hb : b ≠ D.root)
    (h : start ∈ D.path (D.parent b)) :
    s.spentAfter D start b = s.spentAfter D start (D.parent b) ++ s.nullifierDiffAt b := by
  rw [spentAfter, above_of_ne hb h, List.flatMap_append, List.flatMap_singleton]
  rfl

/-- A block validated on a parent with the facts of the chain above a base has them. -/
theorem BaseFacts.step (hT : C.T.Spec) {b : H} (hb : b ≠ D.root)
    (hstart : start ∈ D.path (D.parent b)) (hp : BaseFacts C D s base start (D.parent b))
    (hc : CommittedAbove C D P s base start b) : BaseFacts C D s base start b := by
  obtain ⟨v, c, hburns, hspends, hvalid, hrows⟩ := hc
  have hspent : base ++ s.spentAfter D start b =
      (base ++ s.spentAfter D start (D.parent b)) ++ c.outcome.new_nullifiers := by
    rw [spentAfter_of_ne hb hstart, hrows.diff, List.append_assoc]
  have hfacts := ComputedFacts.of_validate hT hp.nodup hp.muhash hvalid
  have hnotes := validate_notes hT hvalid hspends
  have hadded : (s.frontierAt (D.parent b)).size + c.outcome.new_nullifiers.length ≤
      c.frontier_state.size := hnotes
  have hkept := validate_burns hvalid hburns
  refine ⟨?_, ?_, ?_, ?_, ?_⟩
  · rw [hrows.frontier]
    exact hfacts.tree
  · rw [hspent]
    exact hfacts.nodup
  · rw [hspent, hrows.muhash]
    exact hfacts.muhash
  · have hbefore := hp.notes
    rw [hspent, hrows.frontier, List.length_append]
    omega
  · rw [hrows.burns, hkept]
    exact hp.burns

/-- So every block of the chain above the base has them. -/
theorem SeededChain.baseFacts (hT : C.T.Spec) (h : SeededChain C D P s base start tip) {b : H}
    (hb : b ∈ D.path tip) (hstart : start ∈ D.path b) : BaseFacts C D s base start b := by
  refine mem_path_induction (P := fun b => b ∈ D.path tip → BaseFacts C D s base start b)
    (fun _ => h.seeded) (fun b hne hstart ih hb => ?_) hstart hb
  have hparent : D.parent b ∈ D.path tip := (path_isPrefix hb).subset (parent_mem_path hne)
  have habove : b ∈ D.above start tip := by
    refine (mem_above_iff h.start_mem).mpr ⟨hb, fun hbelow => ?_⟩
    exact not_mem_path_parent hne ((path_isPrefix hstart).subset hbelow)
  exact (ih hparent).step hT hne hstart (h.committed b habove)

/-! ## Where the invariant comes from -/

/-- The invariant of a node that validated from genesis, with an empty base. -/
theorem ProcessorInvariant.seededChain {V : H → BlockVerdict H N → Prop} {σ : ProcessorState H G}
    (hT : C.T.Spec) (h : ProcessorInvariant C D P V σ) (hburns : ∀ b v, V b v → v.NoBurns)
    (hnotes : ∀ b v, V b v → v.SpendsNotes) (hat : AtBlock D σ tip) :
    SeededChain C D P σ.stores [] D.root tip := by
  have hchain (b : H) : [] ++ σ.stores.spentAfter D D.root b = σ.stores.chainNullifiers D b := by
    rw [chainNullifiers, ← path_append_above (root_mem_path b),
      List.flatMap_append, path_root, List.flatMap_singleton, h.nullifierDiffAt_root]
    rfl
  refine ⟨root_mem_path tip, ?_, ?_, fun b hb => ?_⟩
  · rw [hchain]
    exact hat.nullifiers
  · have hfacts := h.chainFacts hT h.root_mem
    refine ⟨hfacts.tree, ?_, ?_, ?_, h.burnsAt_eq_nil hburns h.root_mem⟩
    · rw [hchain]
      exact hfacts.nodup
    · rw [hchain]
      exact hfacts.muhash
    · rw [hchain]
      exact h.length_chainNullifiers_le hT hnotes h.root_mem
  · obtain ⟨hmem, hnot⟩ := (mem_above_iff (root_mem_path tip)).mp hb
    have hne : b ≠ D.root := fun heq => hnot (heq ▸ self_mem_path b)
    obtain ⟨v, c, hv, hc⟩ := h.committed b (h.path_mem hat.valid hmem) hne
    refine ⟨v, c, hburns b v hv, hnotes b v hv, ?_, hc.rows⟩
    rw [hchain]
    exact hc.valid

/-- A run from genesis ends with the invariant at its tip. -/
theorem ProcessorState.run_seededChain (hT : C.T.Spec) (hE : C.mf.EmptyDistinct)
    {calls : List ((H → BlockVerdict H N) × H)}
    (hcalls : ∀ call ∈ calls, ∀ b, (call.1 b).NoBurns ∧ (call.1 b).SpendsNotes)
    {σ : ProcessorState H G}
    (hrun : run C D P (.genesis D) D.root calls = .ok (σ, tip)) :
    SeededChain C D P σ.stores [] D.root tip := by
  obtain ⟨hinv₀, hat₀⟩ := genesis_spec C D P
    fun (_ : H) (v : BlockVerdict H N) => v.NoBurns ∧ v.SpendsNotes
  obtain ⟨σ₁, tip₁, hrun₁, hinv, hat⟩ := run_spec hT hE hinv₀ hat₀ hcalls
  obtain ⟨rfl, rfl⟩ := Prod.mk.inj (Except.ok.inj (hrun₁.symm.trans hrun))
  exact hinv.seededChain hT (fun _ _ hv => hv.1) (fun _ _ hv => hv.2) hat

variable {md : PruningPointShieldedMetadata H G}

/-- Seeding the rows of a pruning point from metadata that passes the check starts a chain there. -/
theorem VerifySpec.seededChain (hmu : C.mf.Injective) {pp : H}
    {nullifiers : List H} {window : AnchorLog H}
    {proven : List (WindowEntry H × AnchorLog H)} (hnodup : nullifiers.Nodup)
    (hverify : VerifySpec C md nullifiers) (hseed : SeedSpec s s' pp md window proven nullifiers) :
    SeededChain C D P s' nullifiers pp pp := by
  have hspent : nullifiers ++ s'.spentAfter D pp pp = nullifiers := by
    rw [spentAfter_self, List.append_nil]
  refine ⟨self_mem_path pp, ?_, ⟨?_, ?_, ?_, ?_, ?_⟩, fun b hb => ?_⟩
  · rw [hspent]
    exact hseed.nullifiers
  · rw [hseed.frontier]
    exact hverify.tree
  · rwa [hspent]
  · rw [hspent, hseed.muhash]
    exact (eq_of_finalize hmu (addAll_denominator _ _ _) hverify.normalized
      hverify.muhash).symm
  · rw [hspent, hseed.frontier]
    exact hverify.notes
  · rw [hseed.burns]
    exact hverify.burns
  · rw [above, List.drop_length] at hb
    cases hb

/-! ## The recovered set -/

omit [CommGroupWithZero G] in
/-- Taking the later part out of an enumeration of a duplicate-free list leaves the earlier one. -/
theorem filter_perm {snapshot earlier later : List H} (hnodup : (earlier ++ later).Nodup)
    (hsnapshot : snapshot.Nodup) (hset : snapshot.toFinset = (earlier ++ later).toFinset) :
    (snapshot.filter (· ∉ later)).Perm earlier := by
  rw [List.nodup_append'] at hnodup
  obtain ⟨hearlier, -, hdisjoint⟩ := hnodup
  refine (List.perm_ext_iff_of_nodup (hsnapshot.filter _) hearlier).mpr fun nf => ?_
  have hmem : nf ∈ snapshot ↔ nf ∈ earlier ∨ nf ∈ later := by
    rw [← List.mem_toFinset, hset, List.mem_toFinset, List.mem_append]
  simp only [List.mem_filter, decide_eq_true_eq, hmem]
  constructor
  · rintro ⟨hnf | hnf, hnot⟩
    exacts [hnf, absurd hnf hnot]
  · exact fun hnf => ⟨.inl hnf, fun hlater => hdisjoint hnf hlater⟩

omit [CommGroupWithZero G] in
/-- Applying stored diffs again adds their nullifiers. -/
theorem ProcessorState.foldl_rejoin (σ : ProcessorState H G) (blocks : List H) :
    (blocks.foldl rejoin σ).stores = { σ.stores with
      nullifiers := σ.stores.nullifiers ∪ (blocks.flatMap σ.stores.nullifierDiffAt).toFinset } := by
  induction blocks generalizing σ with
  | nil => simp
  | cons b bs ih =>
    rw [List.foldl_cons, ih, rejoin_eq, List.flatMap_cons, List.toFinset_append,
      ← Finset.union_assoc]
    rfl

omit [DecidableEq H] in
/-- The metadata exported at a block with the facts of its chain meets the receiver's check with the
nullifiers of the chain in any order, whatever pairs and log within the ceilings are attached to
it. -/
theorem BaseFacts.verifySpec {pp : H} (h : BaseFacts C D s base start pp) {set : List H}
    (hperm : set.Perm (base ++ s.spentAfter D start pp))
    (hexport : s.exportPruningPointShielded C pp = .ok (some md))
    {anchors : List (H × H)} {scores : List (H × U64)} (entries : List (WindowEntry H))
    (log_before : AnchorLog H) (hanchors : anchors.length ≤ MAX_IMPORTED_IN_WINDOW_ANCHORS)
    (hscores : scores.length ≤ MAX_IMPORTED_IN_WINDOW_ANCHORS) :
    VerifySpec C { md with
      in_window_anchors := anchors, in_window_anchor_source_scores := scores
      window_entries := entries, window_prefix := log_before } set := by
  unfold exportPruningPointShielded at hexport
  simp only at hexport
  split_ifs at hexport with hzero
  · cases hexport
  · rw [Except.bind_eq_ok_iff] at hexport
    obtain ⟨root, hroot, hmd⟩ := hexport
    rw [Except.mapError_eq_ok] at hroot
    obtain rfl := Option.some.inj (Except.ok.inj hmd)
    refine ⟨?_, hanchors, hscores, h.burns, ?_, ?_, hroot⟩
    · rw [h.muhash, addAll_denominator]
      rfl
    · rw [h.muhash, addAll_perm C.mf _ hperm]
    · rw [hperm.length_eq]
      exact h.notes

omit [DecidableEq H] in
/-- There is metadata to export at a block with the facts of its chain, once the tree has a leaf. -/
theorem BaseFacts.exists_export {b : H} (h : BaseFacts C D s base start b)
    (hsize : (s.frontierAt b).size ≠ 0) :
      ∃ md, s.exportPruningPointShielded C b = .ok (some md) := by
  obtain ⟨tree, htree⟩ := h.tree
  unfold exportPruningPointShielded
  simp only [if_neg hsize, recomputeStateRoot, htree]
  exact ⟨_, rfl⟩

/-- The recovered set of a pruning point on the chain of a node. Whatever the order in which the
tip's set is read, it is the base with the diffs up to the pruning point, so its accumulator is the
snapshot there and it is served. There is metadata to export once the tree has a leaf, and the set
passes the receiver's check with it. Seeding an empty store with the set and applying the diffs
above the pruning point again gives the tip's set. -/
theorem pruningPointNullifierSet_exact [DecidableEq G] (hT : C.T.Spec)
    (h : SeededChain C D P s base start tip) {pp : H} (hpp : pp ∈ D.path tip)
    (hstart : start ∈ D.path pp) {snapshot : List H} (hnodup : snapshot.Nodup)
    (hsnapshot : snapshot.toFinset = s.nullifiers) :
    ∃ set, s.subtractNullifierDiffs snapshot (D.above pp tip) = set ∧
      set.Perm (base ++ s.spentAfter D start pp) ∧
      MuHash.new.addAll C.mf set = s.nullifierMuhashAt pp ∧
      s.pruningPointNullifierSet C D none snapshot pp tip = .ok (set, some (pp, set)) ∧
      ((s.frontierAt pp).size ≠ 0 → ∃ md, s.exportPruningPointShielded C pp = .ok (some md)) ∧
      (∀ md, s.exportPruningPointShielded C pp = .ok (some md) →
        ∀ (anchors : List (H × H)) (scores : List (H × U64)) (entries : List (WindowEntry H))
          (log_before : AnchorLog H), anchors.length ≤ MAX_IMPORTED_IN_WINDOW_ANCHORS →
          scores.length ≤ MAX_IMPORTED_IN_WINDOW_ANCHORS →
          verifyPruningPointShielded C { md with
            in_window_anchors := anchors, in_window_anchor_source_scores := scores
            window_entries := entries, window_prefix := log_before } set = .ok set.length ∧
          ∃ seeded, (ShieldedStores.empty : ShieldedStores H G).seedPruningPointShielded C pp
            { md with
              in_window_anchors := anchors, in_window_anchor_source_scores := scores
              window_entries := entries, window_prefix := log_before } set = .ok seeded ∧
            seeded.nullifiers = set.toFinset) ∧
      ∀ σ : ProcessorState H G, σ.stores.nullifiers = set.toFinset →
        (∀ b ∈ D.above pp tip, σ.stores.nullifierDiffAt b = s.nullifierDiffAt b) →
        ((D.above pp tip).foldl ProcessorState.rejoin σ).stores.nullifiers = s.nullifiers := by
  have hsplit : base ++ s.spentAfter D start tip =
      (base ++ s.spentAfter D start pp) ++ s.spentAfter D pp tip := by
    rw [spentAfter_append hstart hpp, List.append_assoc]
  have htip := h.baseFacts hT (self_mem_path tip) h.start_mem
  have hfacts := h.baseFacts hT hpp hstart
  -- The diffs are disjoint, so the later ones can be taken out.
  have hperm : (s.subtractNullifierDiffs snapshot (D.above pp tip)).Perm
      (base ++ s.spentAfter D start pp) := by
    rw [subtractNullifierDiffs_eq]
    have hall : ((base ++ s.spentAfter D start pp) ++ s.spentAfter D pp tip).Nodup := by
      rw [← hsplit]
      exact htip.nodup
    exact filter_perm hall hnodup (hsnapshot.trans (h.nullifiers.trans (congrArg _ hsplit)))
  refine ⟨_, rfl, hperm, ?_, ?_, hfacts.exists_export,
    fun md hexport anchors scores entries log_before hanchors hscores => ?_,
    fun σ hseeded hdiffs => ?_⟩
  · rw [addAll_perm C.mf _ hperm, hfacts.muhash]
  · have hmatches : s.setMatchesSnapshot C (s.subtractNullifierDiffs snapshot (D.above pp tip)) pp =
        true := by
      unfold setMatchesSnapshot
      rw [addAll_perm C.mf _ hperm, hfacts.muhash, decide_eq_true rfl]
    unfold pruningPointNullifierSet
    simp only [Option.filter_none, if_pos hmatches]
  · have hspec := hfacts.verifySpec hperm hexport entries log_before hanchors hscores
    obtain ⟨tree, htree⟩ := hspec.tree
    obtain ⟨seeded, hseed, hset⟩ := exists_seedPruningPointShielded .empty pp _ htree
    exact ⟨verifyPruningPointShielded_eq_ok.mpr ⟨rfl, hspec⟩, seeded, hseed,
      hset.trans (Finset.empty_union _)⟩
  · have hflat : (D.above pp tip).flatMap σ.stores.nullifierDiffAt = s.spentAfter D pp tip :=
      List.flatMap_congr hdiffs
    rw [foldl_rejoin, hflat, hseeded, h.nullifiers, hsplit, List.toFinset_append,
      List.toFinset_eq_of_perm _ _ hperm]

end

namespace Sample

open Symbolic

/-- Block four spends the note of block two. -/
def longVerdict (b : Term) : BlockVerdict Term ℕ :=
  if b = .atom 4 then
    { verdict b with
      shielded_txs := [{ nullifiers := [.atom 31], commitments := [7], fee := 0, anchor := .atom 0,
                         burn := none, anchor_block := none }] }
  else verdict b

theorem longVerdict_honest (b : Term) : (longVerdict b).NoBurns ∧ (longVerdict b).SpendsNotes := by
  unfold longVerdict verdict BlockVerdict.NoBurns BlockVerdict.SpendsNotes
  split_ifs <;> split <;> simp

/-- At block two the set recovered from the tip's is that of the first spend, and it passes the
check with the exported metadata. A node seeded with it has a base that is not empty, and recovers
it. -/
theorem pruningPointNullifierSet_two : ∃ σ md s',
    ProcessorState.run Crypto.sample dag params (.genesis dag) dag.root [(longVerdict, .atom 4)] =
      .ok (σ, .atom 4) ∧
    σ.stores.pruningPointNullifierSet Crypto.sample dag none [.atom 31, .atom 30] (.atom 2)
    (.atom 4) = .ok ([.atom 30], some (.atom 2, [.atom 30])) ∧
    σ.stores.exportPruningPointShielded Crypto.sample (.atom 2) = .ok (some md) ∧
    verifyPruningPointShielded Crypto.sample { md with
      in_window_anchors := [], in_window_anchor_source_scores := []
      window_entries := [], window_prefix := .default } [.atom 30] = .ok 1 ∧
    SeededChain Crypto.sample dag params s' [.atom 30] (.atom 2) (.atom 2) ∧
    s'.pruningPointNullifierSet Crypto.sample dag none [.atom 30] (.atom 2) (.atom 2) =
      .ok ([.atom 30], some (.atom 2, [.atom 30])) := by
  have hmu := MuHashFns.rational_injective
  have hcalls : ∀ call ∈ [(longVerdict, Term.atom 4)], ∀ b,
      (call.1 b).NoBurns ∧ (call.1 b).SpendsNotes := by
    intro call hcall b
    rw [List.mem_singleton.mp hcall]
    exact longVerdict_honest b
  have hread : (run Crypto.sample dag params (.genesis dag) dag.root
      [(longVerdict, .atom 4)]).toOption.map (fun r => (r.2, r.1.stores.nullifiers,
        r.1.stores.spentAfter dag dag.root (.atom 2), (r.1.stores.frontierAt (.atom 2)).size)) =
          some (.atom 4, {.atom 31, .atom 30}, [.atom 30], 2) := by
    decide +kernel
  obtain ⟨⟨σ, _⟩, hrun, hread⟩ := Option.map_eq_some_iff.mp hread
  obtain ⟨rfl, hread⟩ := Prod.mk.inj hread
  obtain ⟨hset, hread⟩ := Prod.mk.inj hread
  obtain ⟨hspent, hsize⟩ := Prod.mk.inj hread
  have hrun := Except.toOption_eq_some.mp hrun
  obtain ⟨set, -, hperm, -, hserved, hexport, hverify, -⟩ := pruningPointNullifierSet_exact
    NoteTree.natural_spec (run_seededChain NoteTree.natural_spec hmu.emptyDistinct hcalls hrun)
    (show Term.atom 2 ∈ dag.path (.atom 4) by decide) (by decide)
    (show [Term.atom 31, .atom 30].Nodup by decide) hset.symm
  rw [hspent] at hperm
  obtain rfl := List.perm_singleton.mp hperm
  obtain ⟨md, hmd⟩ := hexport (by rw [hsize]; decide)
  obtain ⟨hok, -⟩ := hverify md hmd [] [] [] .default (Nat.zero_le _) (Nat.zero_le _)
  obtain ⟨-, hspec⟩ := verifyPruningPointShielded_eq_ok.mp hok
  obtain ⟨tree, htree⟩ := hspec.tree
  obtain ⟨seeded, hseed, -⟩ := exists_seedPruningPointShielded
    (clearForPruningReimport .empty (.atom 2)) (.atom 2) [.atom 30] htree
  have hchain : SeededChain Crypto.sample dag params
      ((seeded.persistWindowOnly (.atom 2) .default).persistEntries []) [.atom 30]
      (.atom 2) (.atom 2) :=
    hspec.seededChain hmu (List.nodup_singleton _)
      (seed_spec hmu.emptyDistinct hspec.normalized hseed)
  obtain ⟨set', -, hperm', -, hserved', -⟩ := pruningPointNullifierSet_exact NoteTree.natural_spec
    hchain (self_mem_path _) (self_mem_path _) (List.nodup_singleton (Term.atom 30))
    (hchain.nullifiers.trans (by rw [spentAfter_self]; rfl)).symm
  obtain rfl := List.perm_singleton.mp hperm'
  exact ⟨σ, md, _, hrun, hserved, hmd, hok, hchain, hserved'⟩

end Sample

end Zkas
