import Zkas.Consensus.AnchorResolution
import Zkas.Consensus.Reads

/-!
# Nodes agree on a block whatever way they came

A node that reorged and a node that never saw the abandoned branch must judge a block alike. What
two nodes committed is compared along a chain (`ProcessorInvariant.agree`). The reason for which a
block is disqualified is kept in terms of rows (`Rejected`), so no node disqualifies what another
committed. -/

namespace Zkas

open ShieldedStores ProcessorState Finset

variable {H N G : Type} [CommGroupWithZero G] {s s' : ShieldedStores H G} {b : H}

theorem ReadsAgree.of_rows (h : s.rows b = s'.rows b) : ReadsAgree s s' b :=
  ⟨frontierAt_congr h, supplyTotalsAt_congr h, nullifierMuhashAt_congr h, burnsAt_congr h,
    devAccruedAt_congr h, minerAccrualAt_congr h, window_congr h⟩

variable [DecidableEq H] {C : Crypto H N G} {D : BlockDag H} {P : SecurityParams}
  {verdict : H → BlockVerdict H N} {σ σ' : ProcessorState H G} {tip tip' : H}

theorem ReadsAgree.validate_onChain (h : ReadsAgree s s' b)
    (hchain : s.chainNullifiers D b = s'.chainNullifiers D b) (v : BlockVerdict H N) :
    (s.onChain D b).validate C b v = (s'.onChain D b).validate C b v := by
  have hreads : ReadsAgree (s.onChain D b) (s'.onChain D b) b :=
    ⟨h.frontier, h.supply, h.muhash, h.burns, h.dev, h.slot, h.log⟩
  exact hreads.validate (congrArg List.toFinset hchain) v

/-- What two nodes with one verdict for each block read at a block that both committed. -/
theorem ProcessorInvariant.agree (h : ProcessorInvariant C D P (Eq <| verdict ·) σ)
    (h' : ProcessorInvariant C D P (Eq <| verdict ·) σ') (hb : b ∈ σ.utxo_diffs) :
    b ∈ σ'.utxo_diffs → ReadsAgree σ.stores σ'.stores b ∧
      σ.stores.chainNullifiers D b = σ'.stores.chainNullifiers D b := by
  apply h.induction ?_ ?_ hb
  · intro _
    have hrows := h.root_rows.trans h'.root_rows.symm
    refine ⟨.of_rows hrows, chainNullifiers_congr fun x hx => ?_⟩
    rw [ParentTree.path_root, List.mem_singleton] at hx
    rwa [hx]
  · rintro b _ c hne - rfl hc ih hb'
    obtain ⟨hreads, hchain⟩ := ih (h'.parent_mem b hb' hne)
    obtain ⟨_, c', rfl, hc'⟩ := h'.committed b hb' hne
    -- Both computed the block from the same reads and the same nullifiers.
    have hvalid := hc.valid
    rw [hreads.validate_onChain hchain, hc'.valid] at hvalid
    obtain rfl := Except.ok.inj hvalid
    refine ⟨hc.rows.readsAgree hc'.rows hreads.parentWindow, ?_⟩
    rw [chainNullifiers_of_ne _ hne, chainNullifiers_of_ne _ hne, hchain, hc.rows.diff,
      hc'.rows.diff]

variable (C D P verdict)

/-- Why a block is disqualified: its parent is, or it is not valid on its parent's chain. -/
def Rejected (σ : ProcessorState H G) (b : H) : Prop :=
  b ≠ D.root ∧ (D.parent b ∈ σ.disqualified ∨ D.parent b ∈ σ.utxo_diffs ∧
    ∀ c, (σ.stores.onChain D (D.parent b)).validate C (D.parent b) (verdict b) ≠ .ok c)

/-- A node at a block, with a reason for each disqualified block. -/
structure Judged (σ : ProcessorState H G) (tip : H) : Prop where
  inv : ProcessorInvariant C D P (Eq <| verdict ·) σ
  at_tip : AtBlock D σ tip
  rejected : ∀ b ∈ σ.disqualified, Rejected C D verdict σ b

/-- The walk succeeds and ends at the block `b`, or with `b` disqualified. -/
def Judges (walk : BlockProcessResult (ProcessorState H G × H)) (b : H) : Prop :=
  ∃ σ tip, walk = .ok (σ, tip) ∧ Judged C D P verdict σ tip ∧ (b = tip ∨ b ∈ σ.disqualified)

variable {C D P verdict}

/-- A block that one node committed is not disqualified on another one. -/
theorem Judged.not_disqualified (h : Judged C D P verdict σ tip)
    (h' : Judged C D P verdict σ' tip') (hb : b ∈ σ.utxo_diffs) : b ∉ σ'.disqualified := by
  apply h.inv.induction ?_ ?_ hb
  · exact fun hroot => (h'.rejected _ hroot).1 rfl
  · rintro b _ c hne hb rfl hc ih hdis
    rcases (h'.rejected b hdis).2 with hp | ⟨hp, hinvalid⟩
    · exact ih hp
    · obtain ⟨hreads, hchain⟩ := h.inv.agree h'.inv (h.inv.parent_mem b hb hne) hp
      exact hinvalid c ((hreads.validate_onChain hchain _).symm.trans hc.valid)

section

variable (h : Judged C D P verdict σ tip)

include h

/-- A reason stays one when rows of further blocks are written. -/
theorem Judged.mono (hdiffs : σ.utxo_diffs ⊆ σ'.utxo_diffs)
    (hdis : σ.disqualified ⊆ σ'.disqualified)
    (hrows : ∀ x ∈ σ.utxo_diffs, σ.stores.rows x = σ'.stores.rows x)
    (hb : Rejected C D verdict σ b) : Rejected C D verdict σ' b := by
  refine ⟨hb.1, hb.2.imp (@hdis _) fun ⟨hp, hinvalid⟩ => ⟨hdiffs hp, ?_⟩⟩
  rwa [← validate_onChain_congr fun x hx => hrows x (h.inv.path_mem hp hx)]

theorem Judged.disqualify (hb : Rejected C D verdict σ b) :
    Judges C D P verdict (.ok (σ.disqualify b, tip)) b := by
  refine ⟨_, _, rfl, ⟨h.inv.congr rfl fun _ => rfl, ⟨h.at_tip.valid, h.at_tip.nullifiers⟩,
    fun x hx => h.mono subset_rfl (subset_insert _ _) (fun _ _ => rfl) ?_⟩,
    .inr (mem_insert_self _ _)⟩
  rcases mem_insert.mp hx with rfl | hx
  · exact hb
  · exact h.rejected x hx

variable (hT : C.T.Spec) (hE : C.mf.EmptyDistinct)

include hT hE

/-- A step of the up-walk judges the block it visits. -/
theorem stepUp_judges {selected_parent current : H} (hchild : D.IsChild selected_parent current)
    (hparent : selected_parent = tip ∨ selected_parent ∈ σ.disqualified) :
    Judges C D P verdict (σ.stepUp C D P verdict tip selected_parent current) current := by
  obtain ⟨σ', tip', hstep, hinv, hat⟩ :=
    stepUp_spec (V := (Eq <| verdict ·)) hT hE (fun _ => rfl) h.inv h.at_tip hchild
  obtain ⟨hroot, rfl⟩ := hchild
  unfold stepUp at hstep ⊢
  split_ifs at hstep ⊢ with hne hmem hdis
  · exact h.disqualify ⟨hroot, .inl (hparent.resolve_left hne)⟩
  · obtain ⟨rfl, rfl⟩ := Prod.mk.inj (Except.ok.inj hstep)
    refine ⟨_, _, rfl, ⟨hinv, hat, ?_⟩, .inl rfl⟩
    rw [rejoin_eq]
    exact h.rejected
  · exact ⟨_, _, rfl, h, .inr hdis⟩
  · obtain rfl : D.parent current = tip := not_not.mp hne
    cases hvalid : σ.stores.validate C (D.parent current) (verdict current) with
    | ok c =>
      simp only [hvalid, Except.bind_eq_ok_iff] at hstep ⊢
      obtain ⟨stores, hcommit, hstep⟩ := hstep
      obtain ⟨rfl, rfl⟩ := Prod.mk.inj (Except.ok.inj hstep)
      rw [hcommit]
      refine ⟨_, _, rfl, ⟨hinv, hat, fun x hx => h.mono (subset_insert _ _) subset_rfl
        (fun y hy => ?_) (h.rejected x hx)⟩, .inl rfl⟩
      exact ((commitUtxoState_log hcommit).2.1 y fun heq => hmem (heq ▸ hy)).symm
    | error e =>
      rw [hvalid] at hstep
      cases e with
      | panic => cases hstep
      | err e =>
        refine h.disqualify ⟨hroot, .inr ⟨h.at_tip.valid, fun c hc => ?_⟩⟩
        rw [h.at_tip.onChain_eq, hvalid] at hc
        cases hc

omit h in
theorem walkUp_judges {selected_parent last : H} {blocks : List H} (h : Judged C D P verdict σ tip)
    (hchain : List.IsChain D.IsChild (selected_parent :: blocks))
    (hlast : (selected_parent :: blocks).getLast? = some last)
    (hparent : selected_parent = tip ∨ selected_parent ∈ σ.disqualified) :
    Judges C D P verdict (walkUp C D P verdict σ tip selected_parent blocks) last := by
  induction blocks generalizing σ tip selected_parent with
  | nil =>
    obtain rfl := Option.some.inj hlast
    exact ⟨σ, tip, rfl, h, hparent⟩
  | cons current blocks ih =>
    rw [List.isChain_cons_cons] at hchain
    rw [List.getLast?_cons_cons] at hlast
    obtain ⟨σ₁, tip₁, hstep, h₁, hcurrent⟩ := stepUp_judges h hT hE hchain.1 hparent
    rw [walkUp, hstep]
    exact ih h₁ hchain.2 hlast hcurrent

/-- A call reaches its target or disqualifies it. -/
theorem calculateUtxoStateRelatively_judges (target : H) : Judges C D P verdict
    (σ.calculateUtxoStateRelatively C D P verdict tip target) target := by
  unfold calculateUtxoStateRelatively
  split_ifs with hdis
  · exact ⟨σ, tip, rfl, h, .inr hdis⟩
  · obtain ⟨split_point, left, hpath, hsplit, hvalid, hdown⟩ :=
      exists_walkDown σ target fun x hx => h.inv.path_mem h.at_tip.valid hx
    have hreverted :=
      revert_atBlock h.at_tip hvalid (h.inv.chainFacts hT h.at_tip.valid).nodup hpath
    rw [hdown]
    exact walkUp_judges hT hE ⟨h.inv.congr rfl fun _ => rfl, hreverted, h.rejected⟩
      (ParentTree.isChain_above hsplit) (ParentTree.getLast?_cons_above hsplit) (.inl rfl)

end

theorem run_judges (hT : C.T.Spec) (hE : C.mf.EmptyDistinct) {start : H}
    (h : Judged C D P verdict σ start) (targets : List H) (target : H) : Judges C D P verdict
      (run C D P σ start ((targets ++ [target]).map (verdict, ·))) target := by
  induction targets generalizing σ start with
  | nil =>
    obtain ⟨σ₁, tip₁, hcall, h₁⟩ := calculateUtxoStateRelatively_judges h hT hE target
    rw [List.nil_append, List.map_singleton, run, hcall]
    exact ⟨σ₁, tip₁, rfl, h₁⟩
  | cons first targets ih =>
    obtain ⟨σ₁, tip₁, hcall, h₁, -⟩ := calculateUtxoStateRelatively_judges h hT hE first
    rw [List.cons_append, List.map_cons, run, hcall]
    exact ih h₁

/-- Two nodes make any calls, over any branches, and at last one for the same block: both reach it
or neither does, and where it is reached both read the same there and have the same nullifier set.
The nodes judge the anchors of a block alike, since `verdict` gives their finality with the block.
-/
theorem runs_agree (hT : C.T.Spec) (hE : C.mf.EmptyDistinct) (targets targets' : List H)
    (target : H) : ∃ σ tip σ' tip',
      run C D P (genesis D) D.root ((targets ++ [target]).map (verdict, ·)) = .ok (σ, tip) ∧
      run C D P (genesis D) D.root ((targets' ++ [target]).map (verdict, ·)) = .ok (σ', tip') ∧
      (tip = target ↔ tip' = target) ∧
      (tip = target → ReadsAgree σ.stores σ'.stores target ∧
        σ.stores.nullifiers = σ'.stores.nullifiers) := by
  obtain ⟨hinv, hat⟩ := genesis_spec C D P (Eq <| verdict ·)
  have hgenesis : Judged C D P verdict (genesis D) D.root :=
    ⟨hinv, hat, fun b hb => absurd hb (notMem_empty b)⟩
  obtain ⟨σ, tip, hrun, h, htip⟩ := run_judges hT hE hgenesis targets target
  obtain ⟨σ', tip', hrun', h', htip'⟩ := run_judges hT hE hgenesis targets' target
  have hiff : tip = target ↔ tip' = target := by
    constructor
    · rintro rfl
      exact (htip'.resolve_right (h.not_disqualified h' h.at_tip.valid)).symm
    · rintro rfl
      exact (htip.resolve_right (h'.not_disqualified h h'.at_tip.valid)).symm
  refine ⟨σ, tip, σ', tip', hrun, hrun', hiff, fun htarget => ?_⟩
  obtain rfl := hiff.mp htarget
  subst htarget
  obtain ⟨hreads, hchain⟩ := h.inv.agree h'.inv h.at_tip.valid h'.at_tip.valid
  exact ⟨hreads, by rw [h.at_tip.nullifiers, h'.at_tip.nullifiers, hchain]⟩

open Sample in
/-- A node that first went to the sibling agrees with one that came straight. -/
theorem runs_agree_sibling : NoteTree.natural.Spec ∧ MuHashFns.rational.EmptyDistinct ∧
    ∃ σ tip σ' tip', run Crypto.sample dag params (genesis dag) dag.root
        [(Sample.verdict, .atom 2), (Sample.verdict, .atom 3)] = .ok (σ, tip) ∧
      run Crypto.sample dag params (genesis dag) dag.root
        [(Sample.verdict, .atom 3)] = .ok (σ', tip') ∧
      (tip = .atom 3 ↔ tip' = .atom 3) ∧
      (tip = .atom 3 → ReadsAgree σ.stores σ'.stores (.atom 3) ∧
        σ.stores.nullifiers = σ'.stores.nullifiers) :=
  ⟨NoteTree.natural_spec, MuHashFns.rational_injective.emptyDistinct,
    runs_agree (C := .sample) NoteTree.natural_spec MuHashFns.rational_injective.emptyDistinct
      [.atom 2] [] (.atom 3)⟩

end Zkas
