import Zkas.Consensus.Reorg

/-!
# The stores simulate the state machine

`ShieldedState` keeps one state in memory and applies the blocks of one chain to it. The manager
keeps rows for every block of a tree of chains and one nullifier set, which a reorg moves between
branches with the stored diffs. Here the manager visits the blocks of a tree in any order that takes
a block after its selected parent, and every visit has the result that the state machine has at the
end of the block's chain. The relation between the two is `SimRows`. -/

namespace Zkas

open List ShieldedStores ParentTree Finset GlobalTree ProcessorState

variable {H N G : Type}

/-- The shielded data of the blocks of a tree, without burns. -/
structure ChainData (H N : Type) where
  coinbase : H → Option (CoinbaseMint N)
  txs : H → List (ShieldedTx H N)
  burn_free : ∀ b, ∀ tx ∈ txs b, tx.burn = none

section

variable [DecidableEq H] [CommGroupWithZero G] (C : Crypto H N G) (D : BlockDag H)
  (X : ChainData H N)

/-! ## The state machine along a chain -/

/-- One more block of a chain; a rejected one ends it. -/
def refStep (st : ShieldedState C.T) (b : H) : Option (ShieldedState C.T) :=
  match st.applyChainBlock C.hf C.T (X.coinbase b) (X.txs b) with
  | (st', .ok _) => some st'
  | (_, .error _) => none

/-- The state after the chain of a block, if all its blocks are accepted. -/
def refAt (b : H) : Option (ShieldedState C.T) := (D.path b).tail.foldlM (refStep C X) (.new C.T)

/-! ## The manager over a tree -/

/-- Move the nullifier set from the chain of one persisted block to that of another. -/
def ProcessorState.moveTo (σ : ProcessorState H G) (start target : H) :
    BlockProcessResult (ProcessorState H G) := do
  let (split_point, batch) ← σ.walkDown (· ∈ D.path target) (D.path start).reverse []
  return (D.above split_point target).foldl rejoin
    { σ with stores := σ.stores.writeNullifiers batch }

/-- The manager's result for a block: none if its selected parent was not accepted. -/
abbrev VisitResult (H N G : Type) :=
    Option (Except ShieldedStateError (ComputedBlockShielded H N G))

namespace ProcessorState

/-- Compute a block on top of its selected parent, and persist it if it is accepted. -/
def visit (σ : ProcessorState H G) (tip b : H) :
    BlockProcessResult (ProcessorState H G × H × VisitResult H N G) :=
  if D.parent b ∈ σ.utxo_diffs then do
    let σ ← σ.moveTo D tip (D.parent b)
    match σ.stores.compute C (D.parent b) (X.coinbase b) (X.txs b) with
    | .ok c => return ({ σ with stores := σ.stores.persist C b c
                                utxo_diffs := insert b σ.utxo_diffs }, b, some (.ok c))
    | .error (.err e) => return (σ, D.parent b, some (.error e))
    | .error .panic => .error .panic
  else return (σ, tip, none)

/-- Visit blocks in order, with the results. -/
def visitAll (σ : ProcessorState H G) (tip : H) :
    List H → BlockProcessResult (ProcessorState H G × H × List (H × VisitResult H N G))
  | [] => return (σ, tip, [])
  | b :: bs => do
    let (σ, tip, result) ← σ.visit C D X tip b
    let (σ, tip, results) ← visitAll σ tip bs
    return (σ, tip, (b, result) :: results)

end ProcessorState

/-- Blocks in an order that takes each once and after its selected parent; `done` came before. -/
def VisitOrder (done : List H) : List H → Prop
  | [] => True
  | b :: bs => b ≠ D.root ∧ b ∉ done ∧ (D.parent b = D.root ∨ D.parent b ∈ done) ∧
      VisitOrder (done ++ [b]) bs

end

section

variable [DecidableEq H] {C : Crypto H N G} {D : BlockDag H} {X : ChainData H N}

/-! ## The chain of the state machine -/

theorem refAt_root : refAt C D X D.root = some (.new C.T) := by
  rw [refAt, path_root]
  rfl

theorem refAt_of_ne {b : H} (hb : b ≠ D.root) :
    refAt C D X b = (refAt C D X (D.parent b)).bind (refStep C X · b) := by
  have hne : D.path (D.parent b) ≠ [] := ne_nil_of_mem (self_mem_path _)
  rw [refAt, path_of_ne hb, tail_append_of_ne_nil hne, foldlM_append]
  cases h : (D.path (D.parent b)).tail.foldlM (refStep C X) (.new C.T) with
  | none =>
    rw [refAt, h]
    rfl
  | some st =>
    rw [refAt, h]
    exact Option.bind_fun_some _

/-! ## The relation -/

variable (C D) in
/-- The rows of a block are the parts of a state. -/
structure SimRows (s : ShieldedStores H G) (b : H) (st : ShieldedState C.T) : Prop where
  frontier : s.frontierAt b = st.tree.toState C.T
  sized : st.tree.Sized
  supply : s.loadSupply b = st.supply
  burns : s.burnsAt b = [] ∧ st.burns = .new
  nullifiers : st.nullifiers = (s.chainNullifiers D b).toFinset
  nodup : (s.chainNullifiers D b).Nodup

theorem SimRows.congr {s s' : ShieldedStores H G} {b : H} {st : ShieldedState C.T}
    (h : SimRows C D s b st) (hrows : ∀ x ∈ D.path b, s'.rows x = s.rows x) :
    SimRows C D s' b st := by
  have hself := hrows b (self_mem_path b)
  have hchain := chainNullifiers_congr (D := D) hrows
  refine ⟨(frontierAt_congr hself).trans h.frontier, h.sized, ?_,
    ⟨(burnsAt_congr hself).trans h.burns.1, h.burns.2⟩, ?_, ?_⟩
  · rw [← h.supply, loadSupply, supplyTotalsAt_congr hself, loadSupply]
  · rw [hchain]
    exact h.nullifiers
  · rw [hchain]
    exact h.nodup

/-! ## The invariant -/

variable (C D X) in
/-- The invariant of the visits: what is persisted is closed under parents and simulates the state
machine, and the visited blocks are persisted exactly if the state machine accepts their chains. -/
structure SimInvariant (done : List H) (σ : ProcessorState H G) : Prop where
  root_mem : D.root ∈ σ.utxo_diffs
  parent_mem : ∀ b ∈ σ.utxo_diffs, b ≠ D.root → D.parent b ∈ σ.utxo_diffs
  visited : ∀ b ∈ σ.utxo_diffs, b ≠ D.root → b ∈ done
  fresh : ∀ b, b ∉ σ.utxo_diffs → σ.stores.rows b = .none
  rows : ∀ b ∈ σ.utxo_diffs, ∃ st, refAt C D X b = some st ∧ SimRows C D σ.stores b st
  rejected : ∀ b ∈ done, b ∉ σ.utxo_diffs → refAt C D X b = none

namespace SimInvariant

variable {done : List H} {σ σ' : ProcessorState H G}

theorem path_mem (h : SimInvariant C D X done σ) {b x : H} (hb : b ∈ σ.utxo_diffs)
    (hx : x ∈ D.path b) : x ∈ σ.utxo_diffs :=
  forall_mem_path (fun b hne hb => h.parent_mem b hb hne) hb hx

theorem congr (h : SimInvariant C D X done σ) (hdiffs : σ'.utxo_diffs = σ.utxo_diffs)
    (hrows : ∀ b, σ'.stores.rows b = σ.stores.rows b) : SimInvariant C D X done σ' := by
  refine ⟨hdiffs ▸ h.root_mem, hdiffs ▸ h.parent_mem, hdiffs ▸ h.visited, fun b hb => ?_,
    fun b hb => ?_, hdiffs ▸ h.rejected⟩
  · rw [hrows]
    exact h.fresh b (hdiffs ▸ hb)
  · obtain ⟨st, hst, hsim⟩ := h.rows b (hdiffs ▸ hb)
    exact ⟨st, hst, hsim.congr fun x _ => hrows x⟩

end SimInvariant

namespace ProcessorState

variable {done : List H} {σ : ProcessorState H G}

/-- Rejoining a chain of persisted children moves the nullifier set to its last block and leaves all
rows. -/
theorem foldl_rejoin_atBlock {start last : H} {blocks : List H}
    (hchain : List.IsChain D.IsChild (start :: blocks))
    (hlast : (start :: blocks).getLast? = some last) (hvalid : ∀ b ∈ blocks, b ∈ σ.utxo_diffs)
    (hat : AtBlock D σ start) :
    AtBlock D (blocks.foldl rejoin σ) last ∧ (blocks.foldl rejoin σ).utxo_diffs = σ.utxo_diffs ∧
      ∀ b, (blocks.foldl rejoin σ).stores.rows b = σ.stores.rows b := by
  induction blocks generalizing σ start with
  | nil =>
    obtain rfl : start = last := Option.some.inj hlast
    exact ⟨hat, rfl, fun _ => rfl⟩
  | cons b blocks ih =>
    obtain ⟨⟨hb, rfl⟩, hrest⟩ := isChain_cons_cons.mp hchain
    have hjoined := rejoin_atBlock hb (hvalid b mem_cons_self) hat
    have hdiffs : (σ.rejoin b).utxo_diffs = σ.utxo_diffs := by rw [rejoin_eq]
    have hrows : ∀ x, (σ.rejoin b).stores.rows x = σ.stores.rows x := fun x => by
      rw [rejoin_eq]
      rfl
    obtain ⟨hat', hdiffs', hrows'⟩ := ih hrest hlast (fun x hx => by
        exact hvalid x (mem_cons_of_mem _ hx)) hjoined
    exact ⟨hat', hdiffs'.trans hdiffs, fun x => (hrows' x).trans (hrows x)⟩

theorem moveTo_spec (h : SimInvariant C D X done σ) {tip : H} (hat : AtBlock D σ tip) {target : H}
    (htarget : target ∈ σ.utxo_diffs) :
    ∃ σ', σ.moveTo D tip target = .ok σ' ∧ SimInvariant C D X done σ' ∧ AtBlock D σ' target ∧
      σ'.utxo_diffs = σ.utxo_diffs := by
  obtain ⟨split_point, left, hpath, hsplit, hvalid, hdown⟩ :=
    exists_walkDown σ target fun x hx => h.path_mem hat.valid hx
  obtain ⟨st, -, hsim⟩ := h.rows tip hat.valid
  have hreverted := revert_atBlock hat hvalid hsim.nodup hpath
  have habove : ∀ b ∈ D.above split_point target, b ∈ σ.utxo_diffs := fun b hb =>
    h.path_mem htarget ((mem_above_iff hsplit).mp hb).1
  obtain ⟨hat', hdiffs, hrows⟩ := foldl_rejoin_atBlock (σ := { σ with
      stores := σ.stores.writeNullifiers
        ((left.reverse.flatMap σ.stores.nullifierDiffAt).map .delete) })
    (isChain_above hsplit) (getLast?_cons_above hsplit) habove hreverted
  refine ⟨_, ?_, h.congr hdiffs hrows, hat', hdiffs⟩
  unfold moveTo
  rw [hdown, Except.ok_bind]
  rfl

theorem genesis_simInvariant (hT : C.T.Spec) :
    SimInvariant C D X [] (genesis D : ProcessorState H G) := by
  have hroot : ∀ b ∈ (genesis D : ProcessorState H G).utxo_diffs, b = D.root := fun b hb =>
    Finset.mem_singleton.mp hb
  refine ⟨Finset.mem_singleton_self _, fun b hb hne => absurd (hroot b hb) hne,
    fun b hb hne => absurd (hroot b hb) hne, fun _ _ => rfl, fun b hb => ?_,
    fun b hb => absurd hb not_mem_nil⟩
  rw [hroot b hb]
  have hchain : (genesis D : ProcessorState H G).stores.chainNullifiers D D.root = [] := by
    rw [chainNullifiers, path_root]
    rfl
  have htree : (new C.T).toState C.T = .default := by
    refine toState_eq_default (new_sized hT) ?_
    exact (toState_size (new_sized hT)).trans rfl
  refine ⟨.new C.T, refAt_root, htree.symm, new_sized hT, rfl, ⟨rfl, rfl⟩, ?_, ?_⟩
  · rw [hchain]
    rfl
  · rw [hchain]
    exact nodup_nil

end ProcessorState

/-! ## The results -/

variable [CommGroupWithZero G]

/-- A computed block agrees with an outcome of the state machine and the state after it. -/
structure ComputedAgrees (c : ComputedBlockShielded H N G) (o : BlockShieldedOutcome H N)
    (st : ShieldedState C.T) : Prop where
  outcome : c.outcome = o
  frontier : c.frontier_state = st.tree.toState C.T
  coinbase : c.supply_totals.cumulative_coinbase = st.supply.cumulative_coinbase
  fees : c.supply_totals.cumulative_fees = st.supply.cumulative_fees

/-- On rows that simulate a state, with its nullifier set, `compute` does what the state machine
does. -/
theorem compute_simulates (hT : C.T.Spec) {s : ShieldedStores H G} {p : H}
    {st : ShieldedState C.T} (h : SimRows C D s p st) (hset : s.nullifiers = st.nullifiers)
    (coinbase : Option (CoinbaseMint N)) (txs : List (ShieldedTx H N)) :
    (∃ c st' o, s.compute C p coinbase txs = .ok c ∧
        st.applyChainBlock C.hf C.T coinbase txs = (st', .ok o) ∧ ComputedAgrees c o st' ∧
        applyChainBlockTo C.hf C.T (· ∈ st.nullifiers) st.tree st.supply coinbase txs st.burns =
          .ok (o, st'.tree, st'.supply, st'.burns) ∧
        st'.nullifiers = st.nullifiers ∪ o.new_nullifiers.toFinset ∧
        c.burns = st'.burns.receipts) ∨
      ∃ e, s.compute C p coinbase txs = .error (.err e) ∧
        st.applyChainBlock C.hf C.T coinbase txs = (st, .error e) := by
  have htree : s.loadTree C p = .ok st.tree := by
    unfold loadTree
    rw [h.frontier, fromState_toState hT h.sized]
    rfl
  have hburns : s.loadBurns C p = st.burns := by
    rw [loadBurns, h.burns.1, h.burns.2]
    rfl
  unfold compute ShieldedState.applyChainBlock
  rw [htree, Except.ok_bind, h.supply, hburns, hset]
  cases hblock : applyChainBlockTo C.hf C.T (· ∈ st.nullifiers) st.tree st.supply coinbase txs
      st.burns with
  | error e => exact .inr ⟨e, rfl, rfl⟩
  | ok r =>
    obtain ⟨o, tree, supply, burns⟩ := r
    exact .inl ⟨_, _, o, rfl, rfl, ⟨rfl, rfl, rfl, rfl⟩, rfl, rfl, rfl⟩

theorem fromTotals_eq {supply : SupplyLedger} (hburns : supply.cumulative_burns = 0)
    (hpegged : supply.cumulative_pegged_in = 0) :
    SupplyLedger.fromTotals supply.cumulative_coinbase supply.cumulative_fees = supply := by
  obtain ⟨coinbase, fees, burns, pegged⟩ := supply
  simp only at hburns hpegged
  rw [hburns, hpegged]
  rfl

/-- After the persist of an accepted block, its rows simulate the state after it. -/
theorem persist_simulates (hT : C.T.Spec) {s : ShieldedStores H G} {b : H} (hb : b ≠ D.root)
    (hrows : s.rows b = .none) {st st' : ShieldedState C.T} {o : BlockShieldedOutcome H N}
    {c : ComputedBlockShielded H N G} (h : SimRows C D s (D.parent b) st)
    (hblock : applyChainBlockTo C.hf C.T (· ∈ st.nullifiers) st.tree st.supply (X.coinbase b)
      (X.txs b) st.burns = .ok (o, st'.tree, st'.supply, st'.burns))
    (hset : st'.nullifiers = st.nullifiers ∪ o.new_nullifiers.toFinset)
    (hburns : c.burns = st'.burns.receipts) (hagrees : ComputedAgrees c o st') :
    SimRows C D (s.persist C b c) b st' := by
  obtain ⟨hspec, -, hpush⟩ := applyChainBlockTo_spec hblock
  simp only [rows, BlockRows.none, BlockRows.mk.injEq] at hrows
  obtain ⟨hdiff, htree, hsupply, -, -, -, hburn, -, -⟩ := hrows
  have hsized : st'.tree.Sized := GlobalTree.Sized.appendSubtree hT h.sized hspec.tree_eq
  -- Nothing is burned, so the ledger has no burns and the receipts stay empty.
  have hfree : ∀ tx ∈ acceptInOrder (.new (· ∈ st.nullifiers)) (X.txs b), tx.burn = none :=
    fun tx htx => X.burn_free b tx ((acceptInOrder_sublist _ _).subset htx)
  have hreceipts : o.burn_receipts = [] := by
    rw [hspec.receipts, flatMap_eq_nil_iff]
    intro tx htx
    rw [hfree tx htx]
    rfl
  have hledger : st.supply.cumulative_burns = 0 ∧ st.supply.cumulative_pegged_in = 0 := by
    rw [← h.supply]
    exact ⟨rfl, rfl⟩
  have hnoburns : st'.supply.cumulative_burns = 0 := by
    have hzero : ((acceptInOrder (.new (· ∈ st.nullifiers)) (X.txs b)).map
        (·.burnValue.toNat)).sum = 0 := by
      refine sum_eq_zero fun n hn => ?_
      obtain ⟨tx, htx, rfl⟩ := mem_map.mp hn
      rw [ShieldedTx.burnValue, hfree tx htx]
      rfl
    have heq := hspec.burns_eq
    rw [hzero, hledger.1] at heq
    exact BitVec.eq_of_toNat_eq heq
  have hnopeg : st'.supply.cumulative_pegged_in = 0 := hspec.pegged_eq.trans hledger.2
  have hchain : (s.persist C b c).chainNullifiers D b =
      s.chainNullifiers D (D.parent b) ++ o.new_nullifiers := by
    rw [chainNullifiers_of_ne _ hb, nullifierDiffAt_persist hdiff, hagrees.outcome]
    congr 1
    refine chainNullifiers_congr fun x hx => ?_
    refine rows_persist_of_ne c fun heq => ?_
    exact not_mem_path_parent hb (heq ▸ hx)
  refine ⟨?_, hsized, ?_, ⟨?_, ?_⟩, ?_, ?_⟩
  · rw [frontierAt_persist htree, hagrees.frontier]
    rw [hagrees.frontier]
    exact toState_eq_default hsized
  · rw [loadSupply, supplyTotalsAt_persist hsupply, hagrees.coinbase, hagrees.fees]
    exact fromTotals_eq hnoburns hnopeg
  · rw [burnsAt_persist hburn, hburns, hpush, hreceipts, h.burns.2]
    rfl
  · rw [hpush, hreceipts, h.burns.2]
    rfl
  · rw [hset, hchain, toFinset_append, h.nullifiers]
  · rw [hchain, nodup_append']
    refine ⟨h.nodup, hspec.nodup, fun nf hold hnew => ?_⟩
    have hfresh := hspec.fresh nf hnew
    rw [h.nullifiers] at hfresh
    exact of_decide_eq_false hfresh (mem_toFinset.mpr hold)

variable (C D X) in
/-- A result of the manager for a block is the one of the state machine at the end of its chain. -/
def ResultAgrees (b : H) : VisitResult H N G → Prop
  | none => refAt C D X (D.parent b) = none
  | some (.ok c) => ∃ st st' o, refAt C D X (D.parent b) = some st ∧
      st.applyChainBlock C.hf C.T (X.coinbase b) (X.txs b) = (st', .ok o) ∧ ComputedAgrees c o st'
  | some (.error e) => ∃ st, refAt C D X (D.parent b) = some st ∧
      (st.applyChainBlock C.hf C.T (X.coinbase b) (X.txs b)).2 = .error e

namespace ProcessorState

variable {done : List H} {σ : ProcessorState H G}

/-- A visit of a new block whose parent was visited agrees with the state machine and keeps the
invariant. -/
theorem visit_spec (hT : C.T.Spec) (h : SimInvariant C D X done σ) {tip b : H}
    (hat : AtBlock D σ tip) (hb : b ≠ D.root) (hnew : b ∉ done)
    (hparent : D.parent b = D.root ∨ D.parent b ∈ done) :
    ∃ σ' tip' result, σ.visit C D X tip b = .ok (σ', tip', result) ∧
      SimInvariant C D X (done ++ [b]) σ' ∧ AtBlock D σ' tip' ∧ ResultAgrees C D X b result := by
  have hfresh : b ∉ σ.utxo_diffs := fun hmem => hnew (h.visited b hmem hb)
  have hdone : ∀ {σ' : ProcessorState H G}, SimInvariant C D X done σ' → b ∉ σ'.utxo_diffs →
      refAt C D X b = none → SimInvariant C D X (done ++ [b]) σ' := fun h' hnot hnone =>
    { h' with
      visited := fun x hx hroot => mem_append_left _ (h'.visited x hx hroot)
      rejected := fun x hx hx' => by
        rcases mem_append.mp hx with hx | hx
        · exact h'.rejected x hx hx'
        · rwa [List.mem_singleton.mp hx] }
  unfold visit
  by_cases hmem : D.parent b ∈ σ.utxo_diffs
  · rw [if_pos hmem]
    obtain ⟨σ₁, hmove, h₁, hat₁, hdiffs⟩ := moveTo_spec h hat hmem
    have hfresh₁ : b ∉ σ₁.utxo_diffs := by rwa [hdiffs]
    obtain ⟨st, hst, hsim⟩ := h₁.rows _ hat₁.valid
    have hset : σ₁.stores.nullifiers = st.nullifiers := hat₁.nullifiers.trans hsim.nullifiers.symm
    rw [hmove, Except.ok_bind]
    rcases compute_simulates hT hsim hset (X.coinbase b) (X.txs b) with
      ⟨c, st', o, hcompute, hstep, hagrees, hblock, hnulls, hburns⟩ | ⟨e, hcompute, hstep⟩
    · -- The block is accepted on both sides.
      rw [hcompute]
      have href : refAt C D X b = some st' := by
        rw [refAt_of_ne hb, hst, Option.bind_some, refStep, hstep]
      have hself := persist_simulates hT hb (h₁.fresh b hfresh₁) hsim hblock hnulls hburns hagrees
      have hothers : ∀ x, x ≠ b → (σ₁.stores.persist C b c).rows x = σ₁.stores.rows x :=
        fun x hx => rows_persist_of_ne c hx
      refine ⟨_, _, _, rfl, ⟨?_, ?_, ?_, ?_, ?_, ?_⟩, ⟨mem_insert_self _ _, ?_⟩,
        st, st', o, hst, hstep, hagrees⟩
      · exact mem_insert_of_mem h₁.root_mem
      · intro x hx hroot
        rcases mem_insert.mp hx with rfl | hx
        · exact mem_insert_of_mem hat₁.valid
        · exact mem_insert_of_mem (h₁.parent_mem x hx hroot)
      · intro x hx hroot
        rcases mem_insert.mp hx with rfl | hx
        · exact mem_append_right _ mem_cons_self
        · exact mem_append_left _ (h₁.visited x hx hroot)
      · intro x hx
        rw [mem_insert, not_or] at hx
        exact (hothers x hx.1).trans (h₁.fresh x hx.2)
      · intro x hx
        rcases mem_insert.mp hx with rfl | hx
        · exact ⟨st', href, hself⟩
        · obtain ⟨st₀, hst₀, hsim₀⟩ := h₁.rows x hx
          refine ⟨st₀, hst₀, hsim₀.congr fun y hy => hothers y fun heq => ?_⟩
          exact hfresh₁ (heq ▸ h₁.path_mem hx hy)
      · intro x hx hnot
        rw [mem_insert, not_or] at hnot
        rcases mem_append.mp hx with hx | hx
        · exact h₁.rejected x hx hnot.2
        · exact absurd (List.mem_singleton.mp hx) hnot.1
      · change σ₁.stores.nullifiers ∪ c.outcome.new_nullifiers.toFinset = _
        rw [hset, hagrees.outcome, ← hnulls, hself.nullifiers]
    · -- The block is rejected on both sides.
      rw [hcompute]
      have href : refAt C D X b = none := by
        rw [refAt_of_ne hb, hst, Option.bind_some, refStep, hstep]
      refine ⟨_, _, _, rfl, hdone h₁ hfresh₁ href, hat₁, st, hst, ?_⟩
      rw [hstep]
  · rw [if_neg hmem]
    have hnone : refAt C D X (D.parent b) = none := by
      rcases hparent with hroot | hvisited
      · exact absurd (hroot ▸ h.root_mem) hmem
      · exact h.rejected _ hvisited hmem
    have href : refAt C D X b = none := by
      rw [refAt_of_ne hb, hnone]
      rfl
    exact ⟨_, _, _, rfl, hdone h hfresh href, hat, hnone⟩

theorem visitAll_spec (hT : C.T.Spec) {order : List H} (h : SimInvariant C D X done σ) {tip : H}
    (hat : AtBlock D σ tip) (horder : VisitOrder D done order) :
    ∃ σ' tip' results, σ.visitAll C D X tip order = .ok (σ', tip', results) ∧
      SimInvariant C D X (done ++ order) σ' ∧ results.map (·.1) = order ∧
      ∀ p ∈ results, ResultAgrees C D X p.1 p.2 := by
  induction order generalizing σ tip done with
  | nil =>
    refine ⟨σ, tip, [], rfl, ?_, rfl, fun p hp => absurd hp not_mem_nil⟩
    rwa [append_nil]
  | cons b order ih =>
    obtain ⟨hb, hnew, hparent, hrest⟩ := horder
    obtain ⟨σ₁, tip₁, result, hvisit, h₁, hat₁, hagrees⟩ := visit_spec hT h hat hb hnew hparent
    obtain ⟨σ', tip', results, hall, h', hmap, hresults⟩ := ih h₁ hat₁ hrest
    refine ⟨σ', tip', (b, result) :: results, ?_, ?_, ?_, fun p hp => ?_⟩
    · rw [visitAll, hvisit, Except.ok_bind]
      simp only
      rw [hall]
      rfl
    · rwa [append_assoc, singleton_append] at h'
    · rw [List.map_cons, hmap]
    · rcases mem_cons.mp hp with rfl | hp
      · exact hagrees
      · exact hresults p hp

/-- Over every tree of blocks without burns and every order of visits that takes a block after its
selected parent, the manager never panics, its result for each block is that of the state machine at
the end of the block's chain, and what is read back for a block afterwards is the state machine's.
-/
theorem visitAll_simulates (hT : C.T.Spec) {order : List H} (horder : VisitOrder D [] order) :
    ∃ (σ : ProcessorState H G) (tip : H) (results : List (H × VisitResult H N G)),
      (genesis D : ProcessorState H G).visitAll C D X D.root order = .ok (σ, tip, results) ∧
      results.map (·.1) = order ∧ (∀ p ∈ results, ResultAgrees C D X p.1 p.2) ∧
      ∀ b ∈ order, ∀ st, refAt C D X b = some st → σ.stores.frontierAt b = st.tree.toState C.T ∧
        (σ.stores.supplyTotalsAt b).cumulative_coinbase = st.supply.cumulative_coinbase ∧
        (σ.stores.supplyTotalsAt b).cumulative_fees = st.supply.cumulative_fees := by
  have hat : AtBlock D (genesis D : ProcessorState H G) D.root := by
    refine ⟨Finset.mem_singleton_self _, ?_⟩
    rw [chainNullifiers, path_root]
    rfl
  obtain ⟨σ, tip, results, hall, hinv, hmap, hresults⟩ :=
    visitAll_spec hT (genesis_simInvariant (X := X) hT) hat horder
  refine ⟨σ, tip, results, hall, hmap, hresults, fun b hb st hst => ?_⟩
  have hmem : b ∈ σ.utxo_diffs := by
    by_contra hnot
    have hnone := hinv.rejected b (mem_append_right _ hb) hnot
    rw [hst] at hnone
    cases hnone
  obtain ⟨st', hst', hsim⟩ := hinv.rows b hmem
  obtain rfl : st = st' := Option.mem_unique hst hst'
  refine ⟨hsim.frontier, ?_, ?_⟩
  · rw [← hsim.supply]
    rfl
  · rw [← hsim.supply]
    rfl

end ProcessorState

end

namespace Sample

open Symbolic

/-- Block one mints a note; all other blocks spend it. -/
def chainData : ChainData Term ℕ where
  coinbase b := (verdict b).coinbase
  txs b := (verdict b).shielded_txs
  burn_free b tx htx := by
    unfold verdict at htx
    split at htx
    · cases htx
    · rw [List.mem_singleton.mp htx]

/-- Both branches over block one are visited: each may spend the note, and a spend after it on one
branch does not count on the other. -/
theorem visitAll_simulates_branches : VisitOrder dag [] [.atom 1, .atom 2, .atom 3] ∧
      ∃ (σ : ProcessorState Term ℚ) (tip : Term) (results : List (Term × VisitResult Term ℕ ℚ)),
        (genesis dag).visitAll Crypto.sample dag chainData dag.root
          [.atom 1, .atom 2, .atom 3] = .ok (σ, tip, results) ∧
        results.map (·.1) = [.atom 1, .atom 2, .atom 3] ∧
        ∀ p ∈ results, ResultAgrees Crypto.sample dag chainData p.1 p.2 := by
  have horder : VisitOrder dag [] [.atom 1, .atom 2, .atom 3] :=
    ⟨by decide, by decide, by decide, by decide, by decide, by decide, by decide, by decide,
      by decide, trivial⟩
  obtain ⟨σ, tip, results, hall, hmap, hresults, -⟩ :=
    visitAll_simulates (C := Crypto.sample) (X := chainData) NoteTree.natural_spec horder
  exact ⟨horder, σ, tip, results, hall, hmap, hresults⟩

end Sample

end Zkas
