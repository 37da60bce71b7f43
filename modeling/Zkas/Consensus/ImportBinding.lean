import Zkas.Consensus.HonestChain
import Zkas.Consensus.ImportSpec
import Zkas.Consensus.Reads
import Zkas.Consensus.Reorg

/-!
# What the committed root binds

An importing node compares one digest: the state root that the pruning point's child commits. Under
injective hashes that root determines everything the peer sent except for the frontier, of which it
binds the anchor only (`Bound`): empty leaves appended to a tree do not show in it. A frontier that
is not in normal form passes every check and moves all later notes to other positions. -/

namespace Zkas

open List Option Except ParentTree MuHash ProcessorState ShieldedStores AnchorLog GlobalTree

variable {H N G : Type} [DecidableEq H] [CommGroupWithZero G] {C : Crypto H N G} {D : BlockDag H}
  {P : SecurityParams}

theorem minerAccrualRef_inj {slot slot' : MinerAccrual}
    (h : minerAccrualRef slot = minerAccrualRef slot') : slot = slot' := by
  obtain ⟨⟨version', script'⟩, amount'⟩ := slot'
  obtain ⟨rfl, rfl, rfl⟩ := h
  rfl

theorem MinerAccrual.normalize_normalize (slot : MinerAccrual) :
    slot.normalize.normalize = slot.normalize := by
  unfold normalize
  split_ifs <;> rfl

/-- The root of a post-fork block other than the root, as the hash of what is read there. -/
theorem shieldedStateRootAt_eq_ok {s : ShieldedStores H G} {pp committed : H}
    (hpost : P.isPostSecurityFork D pp = true) (hne : pp ≠ D.root)
    (h : s.shieldedStateRootAt C D P pp = .ok committed) :
    ∃ tree window, fromState C.T (s.frontierAt pp) = .ok tree ∧ s.anchor_window pp = some window ∧
      shieldedStateRootV1 C.hf (shieldedStateRoot C.hf (C.T.toBytes (tree.anchor C.T))
        ((s.nullifierMuhashAt pp).finalize C.mf) (s.supplyTotalsAt pp).cumulative_coinbase
        (s.supplyTotalsAt pp).cumulative_fees ((s.loadBurns C pp).root C.hf)) (s.devAccruedAt pp)
        (window.commitment C.hf) (minerAccrualRef (s.minerAccrualAt pp)) = committed := by
  unfold shieldedStateRootAt stateRootV1At at h
  rw [if_pos hpost] at h
  simp only [bind_eq_ok_iff, mapError_eq_ok] at h
  obtain ⟨root0, hroot0, window, hwindow, heq⟩ := h
  unfold stateRootAt loadTree at hroot0
  simp only [bind_eq_ok_iff, mapError_eq_ok] at hroot0
  obtain ⟨tree, htree, hroot⟩ := hroot0
  obtain rfl := ok.inj hroot
  refine ⟨tree, window, htree, ?_, ok.inj heq⟩
  unfold committedWindow at hwindow
  cases hw : s.anchor_window pp with
  | some log =>
    rw [hw] at hwindow
    exact congrArg some (ok.inj hwindow)
  | none =>
    rw [hw] at hwindow
    simp only [hne, decide_false, Bool.false_eq_true, if_false] at hwindow
    cases hwindow

variable (C) in
/-- What the committed root of a node fixes in the metadata. -/
structure Bound (s : ShieldedStores H G) (pp : H) (md : PruningPointShieldedMetadata H G)
    (window : AnchorLog H) : Prop where
  dev : md.dev_accrued = s.devAccruedAt pp
  slot : md.miner_accrual = s.minerAccrualAt pp
  log : s.anchor_window pp = some window
  supply : md.supply = s.supplyTotalsAt pp
  muhash : md.nullifier_muhash.finalize C.mf = (s.nullifierMuhashAt pp).finalize C.mf
  anchor : ∃ tree tree', fromState C.T md.frontier = .ok tree ∧
    fromState C.T (s.frontierAt pp) = .ok tree' ∧ tree.anchor C.T = tree'.anchor C.T

/-- Metadata that passes both checks against the committed root of a node is bound to the node's
state. -/
theorem bound_of_committed (hT : C.T.Spec) (hroots : C.hf.StateRootInjective)
    (hlogs : C.hf.AnchorLogInjective) {s : ShieldedStores H G} {pp committed : H}
    (hpost : P.isPostSecurityFork D pp = true) (hne : pp ≠ D.root)
    (hcommitted : s.shieldedStateRootAt C D P pp = .ok committed)
    {md : PruningPointShieldedMetadata H G} {window : AnchorLog H} {nullifiers : List H}
    (hbinding : BindingSpec C D P pp md committed window) (hverify : VerifySpec C md nullifiers) :
    Bound C s pp md window := by
  obtain ⟨tree', window', htree', hwindow', hroot'⟩ :=
    shieldedStateRootAt_eq_ok hpost hne hcommitted
  have hparts := hverify.root
  unfold recomputeStateRoot at hparts
  rw [bind_eq_ok_iff] at hparts
  obtain ⟨tree, htree, hroot⟩ := hparts
  -- The post-fork root gives the balances and the log, and the inner root the rest.
  obtain ⟨hinner, hdev, hlog, hslot⟩ :=
    shieldedStateRootV1_inj hroots (hbinding.root.trans hroot'.symm)
  obtain ⟨hanchor, hmuhash, hcoinbase, hfees, -⟩ :=
    shieldedStateRoot_inj hroots ((ok.inj hroot).trans hinner)
  have hwindow : window = window' := commitment_inj hlogs hlog
  have hsupply : md.supply = s.supplyTotalsAt pp := by
    cases hs : s.supplyTotalsAt pp
    cases hmd : md.supply
    rw [hs, hmd] at hcoinbase hfees
    simp only at hcoinbase hfees
    rw [hcoinbase, hfees]
  have hnode : tree.anchor C.T = tree'.anchor C.T := by
    have hdecode := hT.fromBytes_toBytes (tree.anchor C.T)
    rw [hanchor, hT.fromBytes_toBytes] at hdecode
    exact (some.inj hdecode).symm
  exact ⟨hdev, minerAccrualRef_inj hslot, hwindow ▸ hwindow', hsupply, hmuhash, tree, tree', htree,
    htree', hnode⟩

/-! ## The seeded node and the validating node -/

section

variable {V : H → BlockVerdict H N → Prop} {σ : ProcessorState H G} {s s' : ShieldedStores H G}
  {pp : H} {md : PruningPointShieldedMetadata H G} {window : AnchorLog H}
  {proven : List (WindowEntry H × AnchorLog H)} {nullifiers : List H}

theorem streamed_eq_chain (hT : C.T.Spec) (hmu : C.mf.Injective)
    (hinv : ProcessorInvariant C D P V σ) (hpp : pp ∈ σ.utxo_diffs)
    (hbound : Bound C σ.stores pp md window) (hverify : VerifySpec C md nullifiers) :
    nullifiers.toFinset = (σ.stores.chainNullifiers D pp).toFinset := by
  have hsnapshot := (hinv.chainFacts hT hpp).muhash
  have hhash : (new.addAll C.mf nullifiers).finalize C.mf =
      (new.addAll C.mf (σ.stores.chainNullifiers D pp)).finalize C.mf := by
    rw [hverify.muhash, hbound.muhash, hsnapshot]
  have hequal := eq_of_finalize hmu (addAll_denominator _ _ _) (addAll_denominator _ _ _) hhash
  exact toFinset_eq_of_perm _ _ (perm_of_addAll hmu hequal)

/-- With the frontier of the validating node, the seeded node reads the same at the pruning point.
-/
theorem seeded_readsAgree (hT : C.T.Spec) (hmu : C.mf.Injective)
    (hinv : ProcessorInvariant C D P V σ) (hV : ∀ b v, V b v → v.NoBurns)
    (hpp : pp ∈ σ.utxo_diffs) (hne : pp ≠ D.root) (hbound : Bound C σ.stores pp md window)
    (hverify : VerifySpec C md nullifiers) (hseed : SeedSpec s s' pp md window proven nullifiers)
    (hfrontier : md.frontier = σ.stores.frontierAt pp) : ReadsAgree s' σ.stores pp := by
  have hsnapshot := (hinv.chainFacts hT hpp).muhash
  have hmuhash : md.nullifier_muhash = σ.stores.nullifierMuhashAt pp := by
    refine eq_of_finalize hmu hverify.normalized ?_ hbound.muhash
    rw [hsnapshot, addAll_denominator]
    rfl
  -- The slot of a committed block is stored in normal form.
  have hslot : (σ.stores.minerAccrualAt pp).normalize = σ.stores.minerAccrualAt pp := by
    obtain ⟨v, c, -, hc⟩ := hinv.committed pp hpp hne
    rw [hc.rows.slot, MinerAccrual.normalize_normalize]
  refine ⟨hseed.frontier.trans hfrontier, hseed.supply.trans hbound.supply,
    hseed.muhash.trans hmuhash, ?_, hseed.dev.trans hbound.dev, ?_, hseed.log.trans hbound.log.symm⟩
  · rw [hseed.burns, hverify.burns, hinv.burnsAt_eq_nil hV hpp]
  · rw [hseed.slot, hbound.slot, hslot]

theorem proven_subset_logEntries (hlogs : C.hf.AnchorLogInjective)
    (hinv : ProcessorInvariant C D P V σ) (hpp : pp ∈ σ.utxo_diffs)
    (hlog : σ.stores.anchor_window pp = some window)
    (hreplay : md.window_prefix.replay C.hf md.window_entries = .ok window) :
    ∃ front, σ.stores.logEntries D P pp = front ++ md.window_entries ∧
      AnchorLog.default.appendAll C.hf front = .ok md.window_prefix := by
  obtain ⟨log, hparent, hall⟩ := (hinv.logFacts hpp).log
  obtain rfl : window = log := by
    unfold parentWindow at hparent
    rw [hlog] at hparent
    exact ok.inj hparent
  exact appendAll_inj hlogs (replay_eq_ok.mp hreplay).2 hall

/-- The blocks above the pruning point are new to the seeded node if they were before. -/
theorem seeded_rows_above (hlogs : C.hf.AnchorLogInjective) (hinv : ProcessorInvariant C D P V σ)
    (hpp : pp ∈ σ.utxo_diffs) (hbound : Bound C σ.stores pp md window)
    (hreplay : md.window_prefix.replay C.hf md.window_entries = .ok window)
    (hproven : pairWithLogs C md.window_prefix md.window_entries = .ok proven)
    (hseed : SeedSpec s s' pp md window proven nullifiers) {b : H} (hb : b ∉ D.path pp)
    (hrows : s.rows b = .none) : s'.rows b = .none := by
  obtain ⟨front, hfront, -⟩ := proven_subset_logEntries hlogs hinv hpp hbound.log hreplay
  have hbne : b ≠ pp := fun h => hb (h ▸ self_mem_path b)
  rw [hseed.others b hbne fun p hp hblock => hb ?_]
  · exact hrows
  · have hentry : p.1 ∈ md.window_entries := by
      rw [← (pairWithLogs_eq_ok hproven).1]
      exact mem_map_of_mem hp
    have hlogged : p.1.block ∈ logBlocks D P pp := by
      rw [← (hinv.logFacts hpp).blocks, hfront]
      exact mem_map_of_mem (mem_append_right _ hentry)
    rw [← hblock]
    exact mem_path_of_mem_logBlocks hlogged

omit [CommGroupWithZero G] in
theorem walkDown_of_mem_path (τ : ProcessorState H G) {b : H} (h : pp ∈ D.path b) :
    τ.walkDown (· ∈ D.path b) (D.path pp).reverse [] = .ok (pp, []) := by
  obtain ⟨front, hfront⟩ := getLast?_eq_some_iff.mp (getLast?_path (T := D.toParentTree) pp)
  rw [hfront, reverse_append, reverse_singleton, singleton_append]
  exact if_pos (decide_eq_true h)

/-- A node that holds only the pruning point as a valid block and is at it follows the chain of the
validating node to each block above it. -/
theorem seeded_follows (hT : C.T.Spec) (hE : C.mf.EmptyDistinct)
    (hinv : ProcessorInvariant C D P V σ) (hpp : pp ∈ σ.utxo_diffs)
    (hat : Follows D s' σ.stores pp) {tip : H} (htip : tip ∈ σ.utxo_diffs)
    (hon : pp ∈ D.path tip) (hnew : ∀ b ∈ D.above pp tip, s'.rows b = .none)
    {verdict : H → BlockVerdict H N}
    (hcommitted : ∀ b ∈ D.above pp tip, ∃ c, Committed C D P σ.stores b (verdict b) c) {b : H}
    (hb : b ∈ D.above pp tip) :
    ∃ τ, calculateUtxoStateRelatively C D P verdict
        { stores := s', utxo_diffs := {pp}, disqualified := ∅ } pp b = .ok (τ, b) ∧
      Follows D τ.stores σ.stores b := by
  have hpb : pp ∈ D.path b := mem_path_of_mem_above hon hb
  have hsub : ∀ x ∈ D.above pp b, x ∈ D.above pp tip := fun x hx =>
    (above_isPrefix hon hb).subset hx
  have hvalid : ∀ x ∈ D.above pp b, x ∈ σ.utxo_diffs := fun x hx => by
    refine hinv.path_mem htip ?_
    rw [← path_append_above hon]
    exact mem_append_right _ (hsub x hx)
  have hnodup : (D.above pp b).Nodup := by
    have hpath := nodup_path (T := D.toParentTree) b
    rw [← path_append_above hpb] at hpath
    exact hpath.of_append_right
  have hfresh : ∀ x ∈ D.above pp b, s'.rows x = .none ∧ x ∉ ({pp} : Finset H) ∧
      x ∉ (∅ : Finset H) := by
    intro x hx
    refine ⟨hnew x (hsub x hx), fun hmem => ?_, Finset.notMem_empty x⟩
    rw [Finset.mem_singleton] at hmem
    exact not_mem_path_of_mem_above hpb hx (hmem ▸ self_mem_path x)
  obtain ⟨τ, last, hlast, hwalk, hfollows⟩ := walkUp_follows hT hE hinv hpp
    (isChain_above hpb) hnodup
    (fun x hx => ⟨hvalid x hx, hcommitted x (hsub x hx)⟩)
    (τ := { stores := s', utxo_diffs := {pp}, disqualified := ∅ }) hat hfresh
  rw [getLast?_cons_above hpb] at hlast
  obtain rfl := some.inj hlast
  refine ⟨τ, ?_, hfollows⟩
  unfold calculateUtxoStateRelatively
  rw [if_neg (Finset.notMem_empty b), walkDown_of_mem_path _ hpb]
  exact hwalk

end

/-! ## The import -/

/-- The note tree behaves as documented, and no hash has collisions. -/
structure Crypto.CollisionFree (C : Crypto H N G) : Prop where
  tree : C.T.Spec
  node : ∀ lvl, Function.Injective2 (C.T.combine lvl)
  state_roots : C.hf.StateRootInjective
  anchor_logs : C.hf.AnchorLogInjective
  muhash : C.mf.Injective

/-- After an import with the root a validating node computes at a post-fork chain block `pp`, the
importing node reads at `pp` what the validating node holds there, and computes the same root at
every later chain block, exactly when the transferred frontier is in normal form. -/
theorem import_agrees_iff [DecidableEq G] (hC : C.CollisionFree)
    {calls : List ((H → BlockVerdict H N) × H)}
    (hcalls : ∀ call ∈ calls, ∀ b, (call.1 b).NoBurns ∧ (call.1 b).RealNotes C.T)
    {σ : ProcessorState H G} {tip : H}
    (hrun : ProcessorState.run C D P (.genesis D) D.root calls = .ok (σ, tip)) {pp committed : H}
    (hon : pp ∈ D.path tip) (hne : pp ≠ D.root) (hpost : P.isPostSecurityFork D pp = true)
    (hcommitted : σ.stores.shieldedStateRootAt C D P pp = .ok committed) {W : WireFormat H G}
    {view : HeaderView H} {s s' : ShieldedStores H G}
    (hnew : ∀ b ∈ D.above pp tip, s.rows b = .none) {metadata : ShieldedExportMetadata}
    {batches : List (List H)}
    (himport : importPruningPointShielded C D P W view s pp metadata (some committed) batches =
      .ok s') :
    ∃ md, W.fromWireBytes metadata.data = .ok md ∧
      ((ReadsAgree s' σ.stores pp ∧ s'.nullifiers = (σ.stores.chainNullifiers D pp).toFinset ∧
          ∀ verdict : H → BlockVerdict H N,
            (∀ b ∈ D.above pp tip, ∃ c, Committed C D P σ.stores b (verdict b) c) →
            ∀ b ∈ D.above pp tip, ∃ τ, calculateUtxoStateRelatively C D P verdict
                { stores := s', utxo_diffs := {pp}, disqualified := ∅ } pp b = .ok (τ, b) ∧
              τ.stores.shieldedStateRootAt C D P b = σ.stores.shieldedStateRootAt C D P b) ↔
        md.frontier.Canonical C.T) := by
  have hE : C.mf.EmptyDistinct := hC.muhash.emptyDistinct
  -- The validating node: its invariant, and that it is at its tip.
  obtain ⟨hinv₀, hat₀⟩ := genesis_spec C D P
    fun (_ : H) (v : BlockVerdict H N) => v.NoBurns ∧ v.RealNotes C.T
  obtain ⟨σ₁, tip₁, hrun₁, hinv, hat⟩ := run_spec hC.tree hE hinv₀ hat₀ hcalls
  obtain ⟨rfl, rfl⟩ := Prod.mk.inj (ok.inj (hrun₁.symm.trans hrun))
  have hpp : pp ∈ σ₁.utxo_diffs := hinv.path_mem hat.valid hon
  have hburns : ∀ (b : H) (v : BlockVerdict H N), v.NoBurns ∧ v.RealNotes C.T → v.NoBurns :=
    fun _ _ h => h.1
  have hcanonical : (σ₁.stores.frontierAt pp).Canonical C.T :=
    hinv.frontierAt_canonical hC.tree (fun _ _ h => h.2) hpp
  -- The importing node: what the checks fixed and what was seeded.
  obtain ⟨md, window, proven, hmd, hbinding, hverify, hproven, hseed⟩ :=
    processorSeed_eq_ok hE hpost (importPruningPointShielded_eq_ok himport)
  have hbound := bound_of_committed hC.tree hC.state_roots hC.anchor_logs hpost hne hcommitted
    hbinding hverify
  refine ⟨md, hmd, fun hagree => ?_, fun hmdcanonical => ?_⟩
  · rw [← hseed.frontier, hagree.1.frontier]
    exact hcanonical
  · obtain ⟨tree, tree', htree, htree', hanchor⟩ := hbound.anchor
    have hfrontier : md.frontier = σ₁.stores.frontierAt pp := fromState_anchor_inj
      hC.tree hC.node htree htree' hmdcanonical hcanonical hanchor
    have hreads := seeded_readsAgree hC.tree hC.muhash hinv hburns hpp hne hbound hverify hseed
      hfrontier
    have hnullifiers : s'.nullifiers = (σ₁.stores.chainNullifiers D pp).toFinset :=
      hseed.nullifiers.trans (streamed_eq_chain hC.tree hC.muhash hinv hpp hbound hverify)
    refine ⟨hreads, hnullifiers, fun verdict hverdict b hb => ?_⟩
    have hrows : ∀ x ∈ D.above pp tip₁, s'.rows x = .none := fun x hx =>
      seeded_rows_above hC.anchor_logs hinv hpp hbound hbinding.replay hproven hseed
        (not_mem_path_of_mem_above hon hx) (hnew x hx)
    obtain ⟨τ, hwalk, hfollows⟩ := seeded_follows hC.tree hE hinv hpp ⟨hreads, hnullifiers⟩
      hat.valid hon hrows hverdict hb
    exact ⟨τ, hwalk, hfollows.reads.stateRoot⟩

/-! ## A padded frontier -/

namespace Sample

open Symbolic

/-- Every block mints one note and spends nothing. -/
def mintVerdict (_ : Term) : BlockVerdict Term ℕ where
  shielded_txs := []
  anchor_final _ := true
  coinbase := some { notes := [{ value := 100, commitment := 5 }] }
  other_rules := true
  dev_accrued := 0
  miner_accrual := .default

/-- To block two over block one. -/
def mintCalls : List ((Term → BlockVerdict Term ℕ) × Term) := [(mintVerdict, .atom 2)]

/-- The stores of a node that validated blocks one and two. -/
noncomputable def validated : ProcessorState Term ℚ :=
  match ProcessorState.run Crypto.sample dag params (.genesis dag) dag.root mintCalls with
  | .ok (σ, _) => σ
  | .error _ => .genesis dag

/-- The root it computes at block one. -/
noncomputable def committedRoot : Term :=
  match validated.stores.shieldedStateRootAt Crypto.sample dag params (.atom 1) with
  | .ok root => root
  | .error _ => .atom 0

/-- The metadata of block one with a given frontier. -/
noncomputable def metadataWith (frontier : FrontierState Term) :
    PruningPointShieldedMetadata Term ℚ where
  frontier
  supply := validated.stores.supplyTotalsAt (.atom 1)
  nullifier_muhash := .new
  burns := []
  state_root :=
    match validated.stores.stateRootAt Crypto.sample (.atom 1) with
    | .ok root => root
    | .error _ => .atom 0
  in_window_anchors := []
  dev_accrued := 0
  in_window_anchor_source_scores := []
  window_entries := ((validated.stores.anchorLogExport dag params (.atom 1)).getD ([], .default)).1
  miner_accrual := .default
  window_prefix := ((validated.stores.anchorLogExport dag params (.atom 1)).getD ([], .default)).2

/-- A wire format that decodes to given metadata. -/
def wireOf (md : PruningPointShieldedMetadata Term ℚ) : WireFormat Term ℚ where
  current _ := .ok md
  pre_window _ := none
  pre_anchor_scores _ := none
  legacy _ := none

/-- A node that knows no headers. -/
def blindView : HeaderView Term :=
    { blue_score := fun _ => none, is_chain_ancestor_of := fun _ _ => none }

/-- The import of block one with a given frontier and no nullifiers into an empty node. -/
noncomputable def importWith (frontier : FrontierState Term) :
    ImportResult (ShieldedStores Term ℚ) :=
  importPruningPointShielded Crypto.sample dag params (wireOf (metadataWith frontier)) blindView
    .empty (.atom 1) { data := [], nullifier_count := 0 } (some committedRoot) []

/-- The frontier of one note. -/
def oneNote : FrontierState Term := { size := 1, leaf := some (.atom 5), ommers := [] }

/-- The same note and an empty leaf after it. -/
def paddedNote : FrontierState Term := { size := 2, leaf := some (.atom 0), ommers := [.atom 5] }

theorem sample_collisionFree : Crypto.sample.CollisionFree where
  tree := NoteTree.natural_spec
  node := NoteTree.natural_combine_injective2
  state_roots := symbolic_stateRootInjective
  anchor_logs := symbolic_injective
  muhash := MuHashFns.rational_injective

theorem mintCalls_regular : ∀ call ∈ mintCalls, ∀ b,
    (call.1 b).NoBurns ∧ (call.1 b).RealNotes Crypto.sample.T := by
  intro call hcall b
  rw [mem_singleton.mp hcall]
  refine ⟨fun tx htx => absurd htx not_mem_nil, fun note hnote => ?_,
    fun tx htx => absurd htx not_mem_nil⟩
  rw [mem_singleton.mp hnote]
  decide

theorem run_mintCalls :
    ProcessorState.run Crypto.sample dag params (.genesis dag) dag.root mintCalls =
      .ok (validated, .atom 2) := by
  have htip : (ProcessorState.run Crypto.sample dag params (.genesis dag) dag.root
      mintCalls).toOption.map (·.2) = some (.atom 2) := by decide +kernel
  obtain ⟨⟨σ, _⟩, hrun, rfl⟩ := map_eq_some_iff.mp htip
  rw [validated, toOption_eq_some.mp hrun]

theorem root_committed : validated.stores.shieldedStateRootAt Crypto.sample dag params (.atom 1) =
      .ok committedRoot := by
  have hok : (validated.stores.shieldedStateRootAt Crypto.sample dag params
      (.atom 1)).toOption.isSome := by decide +kernel
  obtain ⟨root, hroot⟩ := isSome_iff_exists.mp hok
  rw [committedRoot, toOption_eq_some.mp hroot]

/-- The import of a frontier with an empty leaf appended passes every check: the importing node
reads another frontier at block one, and computes another root at block two. -/
theorem import_padded_frontier : Crypto.sample.CollisionFree ∧
      (∀ call ∈ mintCalls, ∀ b, (call.1 b).NoBurns ∧ (call.1 b).RealNotes Crypto.sample.T) ∧
      ProcessorState.run Crypto.sample dag params (.genesis dag) dag.root mintCalls =
        .ok (validated, .atom 2) ∧
      validated.stores.shieldedStateRootAt Crypto.sample dag params (.atom 1) = .ok committedRoot ∧
      ∃ s', importWith paddedNote = .ok s' ∧
        s'.frontierAt (.atom 1) ≠ validated.stores.frontierAt (.atom 1) ∧
        ∃ τ, calculateUtxoStateRelatively Crypto.sample dag params mintVerdict
            { stores := s', utxo_diffs := {.atom 1}, disqualified := ∅ } (.atom 1) (.atom 2) =
              .ok (τ, .atom 2) ∧
          τ.stores.shieldedStateRootAt Crypto.sample dag params (.atom 2) ≠
            validated.stores.shieldedStateRootAt Crypto.sample dag params (.atom 2) := by
  refine ⟨sample_collisionFree, mintCalls_regular, run_mintCalls, root_committed, ?_⟩
  · have hheld : validated.stores.frontierAt (.atom 1) = oneNote := by decide +kernel
    have hwalk : ((importWith paddedNote).toOption.bind fun s' =>
        (calculateUtxoStateRelatively Crypto.sample dag params mintVerdict
          { stores := s', utxo_diffs := {.atom 1}, disqualified := ∅ } (.atom 1)
          (.atom 2)).toOption.map fun r => (s'.frontierAt (.atom 1), r.2,
            decide (r.1.stores.shieldedStateRootAt Crypto.sample dag params (.atom 2) =
              validated.stores.shieldedStateRootAt Crypto.sample dag params (.atom 2)))) =
        some (paddedNote, .atom 2, false) := by decide +kernel
    obtain ⟨s', himport, hwalk⟩ := bind_eq_some_iff.mp hwalk
    obtain ⟨⟨τ, b⟩, hrun, hread⟩ := map_eq_some_iff.mp hwalk
    obtain ⟨hfrontier, hread⟩ := Prod.mk.inj hread
    obtain ⟨rfl, hroot⟩ := Prod.mk.inj hread
    refine ⟨s', toOption_eq_some.mp himport, ?_, τ, toOption_eq_some.mp hrun,
      of_decide_eq_false hroot⟩
    rw [hfrontier, hheld]
    decide

/-- The import of the honest frontier: the importing node reads at block one what the validating
node reads, and holds its nullifiers. -/
theorem import_agrees_iff_one_note :
    ∃ s', importWith oneNote = .ok s' ∧ ReadsAgree s' validated.stores (.atom 1) ∧
      s'.nullifiers = (validated.stores.chainNullifiers dag (.atom 1)).toFinset := by
  have hok : (importWith oneNote).toOption.isSome := by decide +kernel
  obtain ⟨s', hs'⟩ := isSome_iff_exists.mp hok
  have himport := toOption_eq_some.mp hs'
  obtain ⟨md, hmd, hiff⟩ := import_agrees_iff sample_collisionFree mintCalls_regular run_mintCalls
    (by decide) (by decide) (by decide) root_committed (fun _ _ => rfl) himport
  have hmd' : md = metadataWith oneNote := (ok.inj hmd).symm
  have hcanonical : md.frontier.Canonical Crypto.sample.T := by
    rw [hmd']
    refine ⟨fun hsize => absurd hsize (by decide), fun _ => ?_⟩
    decide
  exact ⟨s', himport, (hiff.mpr hcanonical).1, (hiff.mpr hcanonical).2.1⟩

end Sample

end Zkas
