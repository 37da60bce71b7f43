import Zkas.Consensus.ChainInvariant

/-!
# Chains of blocks the code accepts

The virtual processor takes the verdict on a block as given. Here the verdicts are those of the
code's own validation: the transactions of the merged blocks burn nothing and create a note for each
one they spend (`noBurns_of_offered`), and the balances are those of the expected coinbase
(`devCarried_of_expected`). -/

namespace Zkas

open List ShieldedStores GlobalTree CoinbaseManager

variable {H N G : Type}

/-! ## Verdicts -/

namespace BlockVerdict

/-- No transaction burns. -/
def NoBurns (v : BlockVerdict H N) : Prop := ∀ tx ∈ v.shielded_txs, tx.burn = none

/-- Each transaction creates a note for each one it spends. -/
def SpendsNotes (v : BlockVerdict H N) : Prop :=
  ∀ tx ∈ v.shielded_txs, tx.nullifiers.length ≤ tx.commitments.length

/-- No note commitment is the empty leaf. -/
def RealNotes (T : NoteTree H N) (v : BlockVerdict H N) : Prop :=
  (∀ note ∈ mintNotes v.coinbase, note.commitment ≠ T.emptyLeaf) ∧
    ∀ tx ∈ v.shielded_txs, ∀ cmx ∈ tx.commitments, cmx ≠ T.emptyLeaf

/-- A dev balance is carried only between the start of the accrual and the end of the dev fee. -/
def DevCarried (D : BlockDag H) (P : SecurityParams) (b : H) (v : BlockVerdict H N) : Prop :=
  v.dev_accrued ≠ 0 → P.dev_fee_accrual_activation.isActive (D.daa_score b) = true ∧
    P.dev_fee_end_activation.isActive (D.daa_score b) = false

/-- What the merged blocks offer is lifted from bundles. -/
theorem noBurns_of_offered {T : NoteTree H N} {merged : List (MergedBlock H)} {v : BlockVerdict H N}
    (h : v.shielded_txs = offeredTxs T merged) : v.NoBurns ∧ v.SpendsNotes := by
  have hlifted : ∀ stx ∈ v.shielded_txs, ∃ bundle, ShieldedTx.fromBundle T bundle = .ok stx := by
    intro stx hstx
    rw [h] at hstx
    obtain ⟨b, -, hb⟩ := mem_flatMap.mp hstx
    obtain ⟨tx, -, htx⟩ := mem_flatMap.mp hb
    cases tx with
    | transparent fee => exact absurd htx not_mem_nil
    | shielded bundle _ => exact ⟨bundle, Except.toOption_eq_some.mp (Option.mem_toList.mp htx)⟩
  refine ⟨fun stx hstx => ?_, fun stx hstx => ?_⟩
  · obtain ⟨bundle, hbundle⟩ := hlifted stx hstx
    exact (ShieldedTx.fromBundle_eq_ok hbundle).2.1
  · obtain ⟨bundle, hbundle⟩ := hlifted stx hstx
    exact (ShieldedTx.fromBundle_eq_ok hbundle).2.2.le

/-- The dev balance of an expected coinbase is zero before the accrual starts, and from the end of
the dev fee on. -/
theorem devCarried_of_expected {D : BlockDag H} {P : SecurityParams} {b : H} {v : BlockVerdict H N}
    {m : CoinbaseManager} {input : CoinbaseInput H} {parent : CoinbaseParent}
    {t : CoinbaseTransactionTemplate H} (hok : m.expectedCoinbaseTransaction input parent = .ok t)
    (hdev : v.dev_accrued = t.dev_accrued) (hdaa : input.daa_score = D.daa_score b)
    (hstart : m.dev_fee_accrual_activation = P.dev_fee_accrual_activation)
    (hend : m.dev_fee_end_activation = P.dev_fee_end_activation) : v.DevCarried D P b := by
  obtain ⟨miner, hspec⟩ := expectedCoinbase_spec hok
  intro hne
  rw [hdev, hspec.dev_accrued, devFeeOf] at hne
  rw [← hstart, ← hend, ← hdaa]
  constructor
  · by_contra hnot
    exact hne (devFee_inactive (Bool.not_eq_true _ ▸ hnot))
  · by_contra hnot
    exact hne (devFee_ended (Bool.not_eq_false _ ▸ hnot))

end BlockVerdict

/-! ## Chains -/

section

variable [DecidableEq H] [CommGroupWithZero G] {C : Crypto H N G} {D : BlockDag H}
  {P : SecurityParams}
variable {s : ShieldedStores H G} {p : H} {v : BlockVerdict H N} {c : ComputedBlockShielded H N G}

/-- A validated block applies some of its transactions: what the transition accepts. -/
theorem exists_applied (h : s.validate C p v = .ok c) :
    ∃ (applied : List (ShieldedTx H N)) (tree tree' : GlobalTree C.T),
      (∀ tx ∈ applied, tx ∈ v.shielded_txs) ∧
      fromState C.T (s.frontierAt p) = .ok tree ∧
      c.outcome.new_nullifiers = applied.flatMap (·.nullifiers) ∧
      tree.appendSubtree C.T
        ((mintNotes v.coinbase).map (·.commitment) ++ applied.flatMap (·.commitments)) = .ok tree' ∧
      c.frontier_state = tree'.toState C.T ∧ c.outcome.anchor = tree'.anchor C.T ∧
      c.burns = s.burnsAt p ++ applied.flatMap (·.burn.toList) := by
  obtain ⟨tree, tree', supply', hspec⟩ := compute_spec (validate_eq_ok h)
  have happlied : s.resolved (s.keptOf v) = s.keptOf v :=
    acceptInOrder_keptTxs v.anchor_final (.new (· ∈ s.nullifiers)) v.shielded_txs
  have hblock := hspec.block
  rw [happlied] at hblock
  have htree := hblock.tree_eq
  rw [hblock.subtree] at htree
  refine ⟨s.keptOf v, tree, tree', fun tx htx => mem_of_mem_keptTxs htx,
    Except.mapError_eq_ok.mp hspec.loaded, hblock.new_nullifiers, htree, hspec.frontier,
    hblock.anchor, ?_⟩
  rw [hspec.burns, hblock.receipts]

theorem validate_burns (h : s.validate C p v = .ok c) (hv : v.NoBurns) : c.burns = s.burnsAt p := by
  obtain ⟨applied, -, -, hsub, -, -, -, -, -, hburns⟩ := exists_applied h
  have hnone : applied.flatMap (·.burn.toList) = [] := by
    rw [flatMap_eq_nil_iff]
    intro tx htx
    rw [hv tx (hsub tx htx)]
    rfl
  rw [hburns, hnone, append_nil]

/-- A block whose transactions create a note for each spent one adds at least as many notes as
nullifiers. -/
theorem validate_notes (hT : C.T.Spec) (h : s.validate C p v = .ok c) (hv : v.SpendsNotes) :
    (s.frontierAt p).size + c.outcome.new_nullifiers.length ≤ c.frontier_state.size := by
  obtain ⟨applied, tree, tree', hsub, hload, hnew, htree, hfrontier, -, -⟩ := exists_applied h
  have hsized := (fromState_sized hT hload).appendSubtree hT htree
  have hsize : tree.size = (s.frontierAt p).size := fromState_size hT hload
  have hspends : (applied.flatMap (·.nullifiers)).length ≤
      (applied.flatMap (·.commitments)).length := by
    rw [length_flatMap, length_flatMap]
    exact sum_le_sum fun tx htx => hv tx (hsub tx htx)
  rw [hnew, hfrontier, toState_size hsized, appendSubtree_size htree, hsize, length_append]
  omega

namespace ProcessorInvariant

variable {V : H → BlockVerdict H N → Prop} {σ : ProcessorState H G}

theorem burnsAt_eq_nil (h : ProcessorInvariant C D P V σ) (hV : ∀ b v, V b v → v.NoBurns) {b : H}
    (hb : b ∈ σ.utxo_diffs) : σ.stores.burnsAt b = [] := by
  refine h.induction (Q := fun b => σ.stores.burnsAt b = []) ?_ ?_ hb
  · exact burnsAt_congr h.rows_root
  · intro b v c _ _ hv hc ih
    have hparent : (σ.stores.onChain D (D.parent b)).burnsAt (D.parent b) = [] := ih
    rw [hc.rows.burns, validate_burns hc.valid (hV b v hv), hparent]

theorem frontierAt_canonical (hT : C.T.Spec) (h : ProcessorInvariant C D P V σ)
    (hV : ∀ b v, V b v → v.RealNotes C.T) {b : H} (hb : b ∈ σ.utxo_diffs) :
    (σ.stores.frontierAt b).Canonical C.T := by
  refine h.induction (Q := fun b => (σ.stores.frontierAt b).Canonical C.T) ?_ ?_ hb
  · rw [frontierAt_congr h.rows_root]
    exact ⟨fun _ => ⟨rfl, rfl⟩, fun hne => absurd rfl hne⟩
  · intro b v c _ _ hv hc ih
    obtain ⟨applied, tree, tree', hsub, hload, -, htree, hfrontier, -, -⟩ := exists_applied hc.valid
    obtain ⟨hmint, hcmxs⟩ := hV b v hv
    have hparent : fromState C.T (σ.stores.frontierAt (D.parent b)) = .ok tree := hload
    have hsized := fromState_sized hT hparent
    -- The loaded tree has the parent's frontier as its snapshot.
    have hstate : (tree.toState C.T).Canonical C.T := by rwa [toState_fromState hT hparent ih]
    rw [hc.rows.frontier, hfrontier]
    refine GlobalTree.Sized.appendSubtree_canonical hT hsized htree (fun cmx hcmx => ?_) hstate
    rcases mem_append.mp hcmx with hnote | htx
    · obtain ⟨note, hmem, rfl⟩ := mem_map.mp hnote
      exact hmint note hmem
    · obtain ⟨tx, htx, hmem⟩ := mem_flatMap.mp htx
      exact hcmxs tx (hsub tx htx) cmx hmem

/-- On a chain whose transactions create a note for each spent one, there are no more nullifiers
than notes. -/
theorem length_chainNullifiers_le (hT : C.T.Spec) (h : ProcessorInvariant C D P V σ)
    (hV : ∀ b v, V b v → v.SpendsNotes) {b : H} (hb : b ∈ σ.utxo_diffs) :
    (σ.stores.chainNullifiers D b).length ≤ (σ.stores.frontierAt b).size := by
  refine h.induction
    (Q := fun b => (σ.stores.chainNullifiers D b).length ≤ (σ.stores.frontierAt b).size) ?_ ?_ hb
  · rw [chainNullifiers, ParentTree.path_root, flatMap_singleton, h.nullifierDiffAt_root]
    exact Nat.zero_le _
  · intro b v c hne _ hv hc ih
    have hnotes := validate_notes hT hc.valid (hV b v hv)
    have hadded : (σ.stores.frontierAt (D.parent b)).size + c.outcome.new_nullifiers.length ≤
        c.frontier_state.size := hnotes
    rw [chainNullifiers_of_ne _ hne, length_append, hc.rows.diff, hc.rows.frontier]
    omega

end ProcessorInvariant

end

end Zkas
