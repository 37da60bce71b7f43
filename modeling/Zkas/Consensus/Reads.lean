import Zkas.Consensus.ChainLog
import Zkas.Consensus.Import

/-!
# Two nodes that read the same

What validation reads at a block is compared between two nodes that need not hold the same rows: an
imported zero is a row, a computed one is not. When all reads at a block agree (`ReadsAgree`), a
block on top of it is computed in the same way, and the reads agree there again
(`RowsSpec.readsAgree`). So a node that starts from the reads of another follows its chain
(`walkUp_follows`). -/

namespace Zkas

open ShieldedStores

variable {H N G : Type} [DecidableEq H] [CommGroupWithZero G] {C : Crypto H N G} {D : BlockDag H}
  {P : SecurityParams}

/-- Two nodes read the same values at a block. -/
structure ReadsAgree (s s' : ShieldedStores H G) (b : H) : Prop where
  frontier : s.frontierAt b = s'.frontierAt b
  supply : s.supplyTotalsAt b = s'.supplyTotalsAt b
  muhash : s.nullifierMuhashAt b = s'.nullifierMuhashAt b
  burns : s.burnsAt b = s'.burnsAt b
  dev : s.devAccruedAt b = s'.devAccruedAt b
  slot : s.minerAccrualAt b = s'.minerAccrualAt b
  log : s.anchor_window b = s'.anchor_window b

namespace ReadsAgree

variable {s s' : ShieldedStores H G} {b : H}

theorem stateRoot (h : ReadsAgree s s' b) :
    s.shieldedStateRootAt C D P b = s'.shieldedStateRootAt C D P b := by
  have hroot : s.stateRootAt C b = s'.stateRootAt C b := by
    unfold stateRootAt loadTree loadBurns
    rw [h.frontier, h.muhash, h.supply, h.burns]
  have hlog : ∀ is_genesis, s.committedWindow b is_genesis = s'.committedWindow b is_genesis := by
    intro is_genesis
    unfold committedWindow
    rw [h.log]
  unfold shieldedStateRootAt stateRootV1At
  rw [hroot, h.dev, h.slot, hlog]

theorem validate (h : ReadsAgree s s' b) (hnf : s.nullifiers = s'.nullifiers)
    (v : BlockVerdict H N) : s.validate C b v = s'.validate C b v := by
  have hcompute := compute_congr (C := C) hnf h.frontier h.supply h.muhash h.burns
  unfold ShieldedStores.validate
  rw [hcompute, keptOf_congr hnf]

theorem parentWindow (h : ReadsAgree s s' b) : s.parentWindow D P b = s'.parentWindow D P b := by
  unfold ShieldedStores.parentWindow
  rw [h.log]

end ReadsAgree

namespace ShieldedStores

/-- Two nodes that committed a block with one transition and one verdict, with the same log at its
parent, read the same at it. -/
theorem RowsSpec.readsAgree {s s' : ShieldedStores H G} {b : H} {c : ComputedBlockShielded H N G}
    {v : BlockVerdict H N} (h : RowsSpec C D P s b c v) (h' : RowsSpec C D P s' b c v)
    (hparent : s.parentWindow D P (D.parent b) = s'.parentWindow D P (D.parent b)) :
    ReadsAgree s s' b := by
  refine ⟨h.frontier.trans h'.frontier.symm, h.supply.trans h'.supply.symm,
    h.muhash.trans h'.muhash.symm, h.burns.trans h'.burns.symm, h.dev.trans h'.dev.symm,
    h.slot.trans h'.slot.symm, ?_⟩
  cases hpost : P.isPostSecurityFork D b with
  | false => rw [(h.no_log hpost).1, (h'.no_log hpost).1]
  | true =>
    -- Both append the block's entry to the one parent log.
    obtain ⟨before, window, hbefore, happend, hwindow, -⟩ := h.log hpost
    obtain ⟨before', window', hbefore', happend', hwindow', -⟩ := h'.log hpost
    obtain rfl : before = before' := by
      rw [hparent, hbefore'] at hbefore
      exact (Except.ok.inj hbefore).symm
    obtain rfl : window = window' := Except.ok.inj (happend.symm.trans happend')
    rw [hwindow, hwindow']

end ShieldedStores

/-! ## Following a chain -/

/-- A node that is at a block of another node's chain: it reads the same there and its nullifier set
is the one of the chain. -/
structure Follows (D : BlockDag H) (s : ShieldedStores H G) (chain : ShieldedStores H G) (b : H) :
    Prop where
  reads : ReadsAgree s chain b
  nullifiers : s.nullifiers = (chain.chainNullifiers D b).toFinset

variable {V : H → BlockVerdict H N → Prop} {σ τ : ProcessorState H G}
  {verdict : H → BlockVerdict H N}

/-- A step onto a child that the other node committed with the same verdict: it is validated and
committed, and the node is at the child. -/
theorem stepUp_follows (hT : C.T.Spec) (hE : C.mf.EmptyDistinct)
    (hinv : ProcessorInvariant C D P V σ) {b : H} (hb : b ≠ D.root)
    (hp : D.parent b ∈ σ.utxo_diffs) {c : ComputedBlockShielded H N G}
    (hc : Committed C D P σ.stores b (verdict b) c)
    (hat : Follows D τ.stores σ.stores (D.parent b)) (hrows : τ.stores.rows b = .none)
    (hdiff : b ∉ τ.utxo_diffs) (hdis : b ∉ τ.disqualified) :
    ∃ τ', τ.stepUp C D P verdict (D.parent b) (D.parent b) b = .ok (τ', b) ∧
      Follows D τ'.stores σ.stores b ∧ (∀ x, x ≠ b → τ'.stores.rows x = τ.stores.rows x) ∧
      τ'.utxo_diffs = insert b τ.utxo_diffs ∧ τ'.disqualified = τ.disqualified := by
  have hfacts := hinv.chainFacts hT hp
  have hvalid : τ.stores.validate C (D.parent b) (verdict b) = .ok c := by
    rw [← hc.valid]
    have hagree : ReadsAgree τ.stores (σ.stores.onChain D (D.parent b)) (D.parent b) :=
      ⟨hat.reads.frontier, hat.reads.supply, hat.reads.muhash, hat.reads.burns, hat.reads.dev,
        hat.reads.slot, hat.reads.log⟩
    exact hagree.validate hat.nullifiers (verdict b)
  have hcomputed := computedFacts hT hfacts hc.valid
  have hlog : ∃ before, τ.stores.parentWindow D P (D.parent b) = .ok before ∧
      before.isWellFormed ∧ before.count.toNat + 1 < 2 ^ 64 := by
    obtain ⟨before, hbefore, hwf, hcount⟩ := hfacts.parentWindow
    have hgrows := D.blue_score_lt b hb
    exact ⟨before, hat.reads.parentWindow.trans hbefore, hwf, by omega⟩
  obtain ⟨stores, hstores⟩ := commitUtxoState_isOk c (verdict b) fun _ => hlog
  have hne : D.parent b ≠ b := ParentTree.parent_ne hb
  obtain ⟨hspec, hnew⟩ := commitUtxoState_spec hstores hne hrows hcomputed.frontier
    (hcomputed.muhash_eq_new hE)
  refine ⟨{ τ with stores, utxo_diffs := insert b τ.utxo_diffs }, ?_, ⟨?_, ?_⟩, hspec.others, rfl,
    rfl⟩
  · unfold ProcessorState.stepUp
    rw [if_neg (not_not.mpr rfl), if_neg hdiff, if_neg hdis]
    simp only [hvalid, hstores]
    rfl
  · -- The parent's log was not touched by the commit.
    have hparent : stores.parentWindow D P (D.parent b) =
        σ.stores.parentWindow D P (D.parent b) := by
      rw [parentWindow_congr (hspec.others _ hne)]
      exact hat.reads.parentWindow
    exact hnew.readsAgree hc.rows hparent
  · change stores.nullifiers = _
    rw [hspec.nullifiers, hat.nullifiers, chainNullifiers_of_ne _ hb,
      List.toFinset_append, hc.rows.diff]

/-- A node at a block of another node's chain follows it over blocks that are new to it. -/
theorem walkUp_follows (hT : C.T.Spec) (hE : C.mf.EmptyDistinct)
    (hinv : ProcessorInvariant C D P V σ) {start : H} {blocks : List H}
    (hstart : start ∈ σ.utxo_diffs) (hchain : List.IsChain D.IsChild (start :: blocks))
    (hnodup : blocks.Nodup)
    (hcommitted : ∀ b ∈ blocks, b ∈ σ.utxo_diffs ∧ ∃ c, Committed C D P σ.stores b (verdict b) c)
    (hat : Follows D τ.stores σ.stores start)
    (hnew : ∀ b ∈ blocks, τ.stores.rows b = .none ∧ b ∉ τ.utxo_diffs ∧ b ∉ τ.disqualified) :
    ∃ τ' last, (start :: blocks).getLast? = some last ∧
      ProcessorState.walkUp C D P verdict τ start start blocks = .ok (τ', last) ∧
      Follows D τ'.stores σ.stores last := by
  induction blocks generalizing τ start with
  | nil => exact ⟨τ, start, rfl, rfl, hat⟩
  | cons b blocks ih =>
    rw [List.isChain_cons_cons] at hchain
    obtain ⟨⟨hb, rfl⟩, hrest⟩ := hchain
    rw [List.nodup_cons] at hnodup
    obtain ⟨hmem, c, hc⟩ := hcommitted b List.mem_cons_self
    obtain ⟨hrows, hdiff, hdis⟩ := hnew b List.mem_cons_self
    obtain ⟨τ₁, hstep, hat₁, hothers, hdiffs₁, hdis₁⟩ :=
      stepUp_follows hT hE hinv hb hstart hc hat hrows hdiff hdis
    have hnew₁ : ∀ x ∈ blocks,
        τ₁.stores.rows x = .none ∧ x ∉ τ₁.utxo_diffs ∧ x ∉ τ₁.disqualified := by
      intro x hx
      obtain ⟨hxrows, hxdiff, hxdis⟩ := hnew x (List.mem_cons_of_mem _ hx)
      have hxb : x ≠ b := fun h => hnodup.1 (h ▸ hx)
      rw [hothers x hxb, hdiffs₁, hdis₁, Finset.mem_insert, not_or]
      exact ⟨hxrows, ⟨hxb, hxdiff⟩, hxdis⟩
    obtain ⟨τ', last, hlast, hwalk, hat'⟩ := ih hmem hrest hnodup.2
      (fun x hx => hcommitted x (List.mem_cons_of_mem _ hx)) hat₁ hnew₁
    refine ⟨τ', last, ?_, ?_, hat'⟩
    · rw [List.getLast?_cons_cons]
      exact hlast
    · rw [ProcessorState.walkUp, hstep, Except.ok_bind]
      exact hwalk

end Zkas
