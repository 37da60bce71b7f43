import Zkas.Consensus.BlockRows

/-!
# What validated blocks hold

A block is committed on top of its selected parent, when the nullifier set is the union of the
stored diffs along the parent's chain. `Committed` records this in terms of rows, which are written
once, so it stays true afterwards. From it the facts about a validated block follow by induction
along its chain (`chainFacts`). -/

namespace Zkas

open ShieldedStores ParentTree GlobalTree

variable {H N G : Type}

namespace ShieldedStores

/-- The nullifiers spent along the chain of a block, by the stored diffs. -/
def chainNullifiers (D : BlockDag H) (s : ShieldedStores H G) (b : H) : List H :=
  (D.path b).flatMap s.nullifierDiffAt

/-- The stores with the nullifier set of a block's chain. -/
def onChain [DecidableEq H] (D : BlockDag H) (s : ShieldedStores H G) (b : H) :
    ShieldedStores H G :=
  { s with nullifiers := (s.chainNullifiers D b).toFinset }

theorem chainNullifiers_of_ne {D : BlockDag H} (s : ShieldedStores H G) {b : H} (hb : b ≠ D.root) :
    s.chainNullifiers D b = s.chainNullifiers D (D.parent b) ++ s.nullifierDiffAt b := by
  rw [chainNullifiers, path_of_ne hb, List.flatMap_append, List.flatMap_singleton, chainNullifiers]

theorem chainNullifiers_congr {D : BlockDag H} {s s' : ShieldedStores H G} {b : H}
    (h : ∀ x ∈ D.path b, s.rows x = s'.rows x) :
    s.chainNullifiers D b = s'.chainNullifiers D b :=
  List.flatMap_congr fun x hx => nullifierDiffAt_congr (h x hx)

end ShieldedStores

section

variable [DecidableEq H] [CommGroupWithZero G] (C : Crypto H N G) (D : BlockDag H)
  (P : SecurityParams)

/-- A block was validated with a verdict on its parent's chain, and its rows hold what was
computed. -/
structure Committed (s : ShieldedStores H G) (b : H) (v : BlockVerdict H N)
    (c : ComputedBlockShielded H N G) : Prop where
  valid : (s.onChain D (D.parent b)).validate C (D.parent b) v = .ok c
  rows : RowsSpec C D P s b c v

/-- The facts about a validated block. -/
structure ChainFacts (s : ShieldedStores H G) (b : H) : Prop where
  tree : ∃ t, fromState C.T (s.frontierAt b) = .ok t
  nodup : (s.chainNullifiers D b).Nodup
  muhash : s.nullifierMuhashAt b = MuHash.new.addAll C.mf (s.chainNullifiers D b)
  log : ∀ log, s.anchor_window b = some log →
    log.isWellFormed ∧ log.count.toNat ≤ (D.blue_score b).toNat
  has_log : b ≠ D.root → P.isPostSecurityFork D b = true → (s.anchor_window b).isSome

variable {C D P} {s s' : ShieldedStores H G}
variable {c : ComputedBlockShielded H N G} {v : BlockVerdict H N} {p b : H}

theorem validate_onChain_congr (hrows : ∀ x ∈ D.path p, s.rows x = s'.rows x)
    (v : BlockVerdict H N) :
    (s.onChain D p).validate C p v = (s'.onChain D p).validate C p v := by
  have hnullifiers : (s.onChain D p).nullifiers = (s'.onChain D p).nullifiers :=
    congrArg List.toFinset (chainNullifiers_congr hrows)
  have hparent : (s.onChain D p).rows p = (s'.onChain D p).rows p := hrows p (self_mem_path p)
  exact validate_congr hnullifiers hparent v

theorem ShieldedStores.RowsSpec.congr (hself : s.rows b = s'.rows b)
    (hparent : s.rows (D.parent b) = s'.rows (D.parent b))
    (h : RowsSpec C D P s b c v) : RowsSpec C D P s' b c v := by
  obtain ⟨hf, hs, hd, hm, hbu, hdev, hslot, hlog, hno⟩ := h
  rw [frontierAt_congr hself] at hf
  rw [supplyTotalsAt_congr hself] at hs
  rw [nullifierDiffAt_congr hself] at hd
  rw [nullifierMuhashAt_congr hself] at hm
  rw [burnsAt_congr hself] at hbu
  rw [devAccruedAt_congr hself] at hdev
  rw [minerAccrualAt_congr hself] at hslot
  rw [parentWindow_congr hparent, window_congr hself, entry_congr hself] at hlog
  rw [window_congr hself, entry_congr hself] at hno
  exact ⟨hf, hs, hd, hm, hbu, hdev, hslot, hlog, hno⟩

theorem Committed.congr (hb : b ≠ D.root) (hrows : ∀ x ∈ D.path b, s.rows x = s'.rows x)
    (h : Committed C D P s b v c) : Committed C D P s' b v c := by
  have hself : s.rows b = s'.rows b := hrows b (self_mem_path b)
  have hpath : ∀ x ∈ D.path (D.parent b), s.rows x = s'.rows x := fun x hx =>
    hrows x ((mem_path_of_ne hb).mpr (.inl hx))
  have hparent : s.rows (D.parent b) = s'.rows (D.parent b) := hpath _ (self_mem_path _)
  exact ⟨(validate_onChain_congr hpath v).symm.trans h.valid, h.rows.congr hself hparent⟩

/-! ## One block -/

/-- What a block validated on its parent's chain computes: a tree that loads back, nullifiers that
are new on the chain, and the accumulator of all of them. -/
structure ComputedFacts (C : Crypto H N G) (chain : List H) (c : ComputedBlockShielded H N G) :
    Prop where
  tree : ∃ t, fromState C.T c.frontier_state = .ok t
  frontier : c.frontier_state.size = 0 → c.frontier_state = .default
  nodup : (chain ++ c.outcome.new_nullifiers).Nodup
  muhash : c.nullifier_muhash = MuHash.new.addAll C.mf (chain ++ c.outcome.new_nullifiers)

/-- A block validated on a parent whose tree loads and whose snapshot is the accumulator of the
spent nullifiers computes `ComputedFacts`. -/
theorem ComputedFacts.of_validate (hT : C.T.Spec) {chain : List H} (hnodup : chain.Nodup)
    (hmuhash : s.nullifierMuhashAt p = MuHash.new.addAll C.mf chain)
    (hvalid : validate C { s with nullifiers := chain.toFinset } p v = .ok c) :
    ComputedFacts C chain c := by
  obtain ⟨tree, tree', supply', hspec⟩ := compute_spec (validate_eq_ok hvalid)
  have hload : fromState C.T (s.frontierAt p) = .ok tree := Except.mapError_eq_ok.mp hspec.loaded
  have hsized : tree'.Sized := (fromState_sized hT hload).appendSubtree hT hspec.block.tree_eq
  refine ⟨⟨tree', ?_⟩, fun hzero => ?_, ?_, ?_⟩
  · rw [hspec.frontier]
    exact fromState_toState hT hsized
  · rw [hspec.frontier] at hzero ⊢
    exact toState_eq_default hsized hzero
  · refine hnodup.append hspec.block.nodup fun nf hnf hnew => ?_
    have hfresh := hspec.block.fresh nf hnew
    simp only [decide_eq_false_iff_not] at hfresh
    exact hfresh (List.mem_toFinset.mpr hnf)
  · have hsnapshot : c.nullifier_muhash =
        (s.nullifierMuhashAt p).addAll C.mf c.outcome.new_nullifiers := hspec.muhash
    rw [hsnapshot, hmuhash, MuHash.addAll_append]

theorem computedFacts (hT : C.T.Spec) (hp : ChainFacts C D P s p)
    (hvalid : (s.onChain D p).validate C p v = .ok c) :
    ComputedFacts C (s.chainNullifiers D p) c :=
  .of_validate hT hp.nodup hp.muhash hvalid

omit [DecidableEq H] in
theorem ComputedFacts.muhash_eq_new (hE : C.mf.EmptyDistinct) {chain : List H}
    (h : ComputedFacts C chain c)
    (hempty : c.nullifier_muhash.finalize C.mf = MuHash.EMPTY_MUHASH C.mf) :
    c.nullifier_muhash = .new := by
  refine MuHash.eq_new_of_finalize hE ?_ hempty
  rw [h.muhash, MuHash.addAll_denominator]
  rfl

/-- The log a block on a parent with `ChainFacts` extends: it is well formed and has room. -/
theorem ChainFacts.parentWindow (hp : ChainFacts C D P s p) :
    ∃ before, s.parentWindow D P p = .ok before ∧ before.isWellFormed ∧
      before.count.toNat ≤ (D.blue_score p).toNat := by
  unfold ShieldedStores.parentWindow
  cases hw : s.anchor_window p with
  | some log => exact ⟨log, rfl, hp.log log hw⟩
  | none =>
    have hstart : p = D.root ∨ (!P.isPostSecurityFork D p) = true := by
      by_contra hnot
      rw [not_or] at hnot
      have hsome := hp.has_log hnot.1 (by simpa using hnot.2)
      rw [hw] at hsome
      cases hsome
    refine ⟨.default, if_pos hstart, AnchorLog.default_isWellFormed, ?_⟩
    exact Nat.zero_le _

/-- A committed block on a parent with `ChainFacts` has them too. -/
theorem Committed.chainFacts (hT : C.T.Spec) (hb : b ≠ D.root) (h : Committed C D P s b v c)
    (hp : ChainFacts C D P s (D.parent b)) : ChainFacts C D P s b := by
  have hfacts := computedFacts hT hp h.valid
  have hchain : s.chainNullifiers D b =
      s.chainNullifiers D (D.parent b) ++ c.outcome.new_nullifiers := by
    rw [chainNullifiers_of_ne s hb, h.rows.diff]
  refine ⟨?_, ?_, ?_, fun log hlog => ?_, fun _ hpost => ?_⟩
  · rw [h.rows.frontier]
    exact hfacts.tree
  · rw [hchain]
    exact hfacts.nodup
  · rw [hchain, h.rows.muhash]
    exact hfacts.muhash
  · cases hpost : P.isPostSecurityFork D b with
    | false =>
      rw [(h.rows.no_log hpost).1] at hlog
      cases hlog
    | true =>
      -- The log is the parent's with one more entry, and the blue score grew by one at least.
      obtain ⟨before, window, hbefore, happend, hwindow, -⟩ := h.rows.log hpost
      obtain ⟨before', hbefore', -, hcount⟩ := hp.parentWindow
      obtain rfl : before = before' := Except.ok.inj (hbefore.symm.trans hbefore')
      obtain rfl : window = log := Option.mem_unique hwindow hlog
      obtain ⟨-, hwf, hsucc, -⟩ := AnchorLog.append_eq_ok happend
      have hgrows := D.blue_score_lt b hb
      exact ⟨hwf, by omega⟩
  · obtain ⟨before, window, -, -, hwindow, -⟩ := h.rows.log hpost
    rw [hwindow]
    rfl

/-! ## The invariant of the processor -/

variable (C D P) in
/-- The invariant of the stores: the validated blocks are closed under parents and committed with
verdicts that meet `V`, and only they have rows. -/
structure ProcessorInvariant (V : H → BlockVerdict H N → Prop) (σ : ProcessorState H G) : Prop where
  root_mem : D.root ∈ σ.utxo_diffs
  parent_mem : ∀ b ∈ σ.utxo_diffs, b ≠ D.root → D.parent b ∈ σ.utxo_diffs
  root_rows : σ.stores.rows D.root = .none
  fresh : ∀ b, b ∉ σ.utxo_diffs → σ.stores.rows b = .none
  committed : ∀ b ∈ σ.utxo_diffs, b ≠ D.root → ∃ v c, V b v ∧ Committed C D P σ.stores b v c

variable (D) in
/-- The nullifier set is the one of a validated block's chain. -/
structure AtBlock (σ : ProcessorState H G) (tip : H) : Prop where
  valid : tip ∈ σ.utxo_diffs
  nullifiers : σ.stores.nullifiers = (σ.stores.chainNullifiers D tip).toFinset

omit [CommGroupWithZero G] in
theorem AtBlock.onChain_eq {σ : ProcessorState H G} {tip : H} (h : AtBlock D σ tip) :
    σ.stores.onChain D tip = σ.stores := by
  rw [onChain, ← h.nullifiers]

namespace ProcessorInvariant

variable {V : H → BlockVerdict H N → Prop} {σ : ProcessorState H G}

section

variable (h : ProcessorInvariant C D P V σ)
include h

theorem path_mem {b x : H} (hb : b ∈ σ.utxo_diffs) (hx : x ∈ D.path b) : x ∈ σ.utxo_diffs :=
  forall_mem_path (fun b hne hb => h.parent_mem b hb hne) hb hx

/-- What holds of the root, and of each committed block whose parent has it, holds of every
validated block. -/
theorem induction {Q : H → Prop} (hroot : Q D.root)
    (hstep : ∀ b v c, b ≠ D.root → b ∈ σ.utxo_diffs → V b v → Committed C D P σ.stores b v c →
      Q (D.parent b) → Q b) {b : H} (hb : b ∈ σ.utxo_diffs) : Q b := by
  induction b using ParentTree.induction (T := D.toParentTree) with
  | hroot => exact hroot
  | hstep b hne ih =>
    obtain ⟨v, c, hv, hc⟩ := h.committed b hb hne
    exact hstep b v c hne hb hv hc (ih (h.parent_mem b hb hne))

theorem rows_root : σ.stores.rows D.root = (empty : ShieldedStores H G).rows D.root := h.root_rows

theorem nullifierDiffAt_root : σ.stores.nullifierDiffAt D.root = [] :=
  nullifierDiffAt_congr h.rows_root

theorem chainFacts_root : ChainFacts C D P σ.stores D.root := by
  have hchain : σ.stores.chainNullifiers D D.root = [] := by
    rw [chainNullifiers, path_root, List.flatMap_singleton, h.nullifierDiffAt_root]
  refine ⟨?_, ?_, ?_, fun log hlog => ?_, fun hne => absurd rfl hne⟩
  · rw [frontierAt_congr h.rows_root]
    exact ⟨.new C.T, if_pos rfl⟩
  · rw [hchain]
    exact List.nodup_nil
  · rw [hchain, nullifierMuhashAt_congr h.rows_root]
    rfl
  · rw [window_congr h.rows_root] at hlog
    cases hlog

end

theorem chainFacts (hT : C.T.Spec) (h : ProcessorInvariant C D P V σ) {b : H}
    (hb : b ∈ σ.utxo_diffs) : ChainFacts C D P σ.stores b :=
  h.induction h.chainFacts_root (fun _ _ _ hne _ _ hc ih => hc.chainFacts hT hne ih) hb

theorem congr {σ' : ProcessorState H G} (h : ProcessorInvariant C D P V σ)
    (hdiffs : σ.utxo_diffs = σ'.utxo_diffs) (hrows : ∀ b, σ.stores.rows b = σ'.stores.rows b) :
    ProcessorInvariant C D P V σ' := by
  obtain ⟨hroot, hparent, hrootRows, hfresh, hcommitted⟩ := h
  rw [hdiffs] at hroot hparent hfresh hcommitted
  refine ⟨hroot, hparent, (hrows _) ▸ hrootRows, fun b hb => (hrows b) ▸ hfresh b hb, ?_⟩
  intro b hb hne
  obtain ⟨v, c, hv, hc⟩ := hcommitted b hb hne
  exact ⟨v, c, hv, hc.congr hne fun x _ => hrows x⟩

end ProcessorInvariant

end

end Zkas
