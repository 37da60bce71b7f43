import Zkas.Consensus.Export

/-!
# The finality of an anchor

Model of `resolve_shielded_anchor` and `judge_anchor_source` in
`pipeline/virtual_processor/processor.rs`. From the security fork on a spend names the block that
produced its anchor, and the verdict follows from that block's log entry, whether it is a chain
ancestor, and its age.

A node that validated the chain reads scores and ancestry from its own data; a node that imported
the state at a pruning point uses the scores of the proven log entries. Both judge by the age alone
(`JudgesByAge`), and may disagree on the root of the newest block only. -/

namespace Zkas

open Word Option Except ShieldedStores

variable {H N G : Type}

/-- The GHOSTDAG scores and the reachability data of a node; `none` is missing or pruned data. -/
structure GhostdagView (H : Type) where
  get_blue_score : H → Option U64
  try_is_chain_ancestor_of : H → H → Option Bool

/-- The outcome of an anchor-finality decision with its reasoning. -/
structure AnchorVerdict (H : Type) where
  is_final : Bool := false
  source : Option H := none
  source_blue_score : Option U64 := none
  is_chain_ancestor : Option Bool := none
  age : Option U64 := none
  reject_reason : Option String := none

/-- The parameters of anchor finality. -/
structure AnchorParams extends SecurityParams where
  shielded_anchor_multi_activation : ForkActivation

/-- A block's own log entry. -/
def ShieldedStores.windowEntry (s : ShieldedStores H G) (block : H) : Option (WindowEntry H) :=
  (s.anchor_entries block).map (·.1)

section

variable [DecidableEq H] (C : Crypto H N G) (P : AnchorParams) (view : GhostdagView H)
  (s : ShieldedStores H G)

/-- The verdict on a source with a known score: it must be a chain ancestor of the spending block
and lie inside the window of ages. An attested score implies the ancestry. -/
def judgeScoredSource (source selected_parent : H) (block_blue_score source_blue_score : U64)
    (attested : Bool) : AnchorVerdict H :=
  let age := saturatingSub block_blue_score source_blue_score
  if attested ∨ source = selected_parent ∨
      view.try_is_chain_ancestor_of source selected_parent = some true then
    let verdict := decide (P.shielded_anchor_depth.toNat ≤ age.toNat ∧
      age.toNat ≤ P.max_shielded_anchor_age.toNat)
    { is_final := verdict, source := some source, source_blue_score := some source_blue_score
      is_chain_ancestor := some true, age := some age
      reject_reason := if verdict then none else
        some "age outside [shielded_anchor_depth, max_shielded_anchor_age]" }
  else
    { source := some source, source_blue_score := some source_blue_score
      is_chain_ancestor := some false, age := some age
      reject_reason := some "source block is not on this block's selected chain" }

/-- Decide whether one candidate source block makes an anchor final. -/
def ShieldedStores.judgeAnchorSource (source selected_parent : H) (block_blue_score : U64) :
    AnchorVerdict H :=
  match view.get_blue_score source with
  | some score => judgeScoredSource P view source selected_parent block_blue_score score false
  | none =>
    -- Without own data the node falls back to the score its pruning-point peer attested.
    match s.anchor_source_scores source with
    | some score => judgeScoredSource P view source selected_parent block_blue_score score true
    | none =>
      { source := some source
        reject_reason := some "source ghostdag data pruned and no attested blue score" }

/-- The first final verdict among the producers of a root, or the last one. -/
def ShieldedStores.judgeProducers (selected_parent : H) (block_blue_score : U64) :
    AnchorVerdict H → List H → AnchorVerdict H
  | last, [] => last
  | _, source :: rest =>
    let v := s.judgeAnchorSource P view source selected_parent block_blue_score
    if v.is_final then v else judgeProducers selected_parent block_blue_score v rest

/-- Decide whether an anchor is final for a block on top of `selected_parent`. -/
def ShieldedStores.resolveShieldedAnchor (anchor : H) (anchor_block : Option H)
    (selected_parent : H)
    (block_blue_score block_daa_score : U64) : AnchorVerdict H :=
  if anchor = C.T.toBytes C.T.emptyTree then { is_final := true }
  else if P.security_fork_activation.isActive block_daa_score then
    match anchor_block with
    | none =>
      { reject_reason := some "after the security fork a spend must name a post-fork anchor block" }
    | some named =>
      match s.windowEntry named with
      | some entry =>
        if entry.root = anchor then
          s.judgeAnchorSource P view named selected_parent block_blue_score
        else
          { source := some named
            reject_reason := some "named anchor block did not produce this anchor" }
      | none =>
        { source := some named
          reject_reason :=
            some "named anchor block is not a post-fork chain block in the anchor log" }
  else if anchor_block.isSome then
    { reject_reason := some "anchor block field is not valid before the security fork" }
  else if P.shielded_anchor_multi_activation.isActive block_daa_score then
    match (s.anchor_producers anchor).getD [] with
    | [] => { reject_reason := some "anchor is not a known tree root" }
    | producers => s.judgeProducers P view selected_parent block_blue_score
        { reject_reason := some "no producer is a matured chain ancestor" } producers
  else
    match s.anchor_block anchor with
    | none => { reject_reason := some "anchor is not a known tree root" }
    | some source => s.judgeAnchorSource P view source selected_parent block_blue_score

end

/-! ## Verdicts -/

section

variable [DecidableEq H] {C : Crypto H N G} {D : BlockDag H} {P : AnchorParams}
  {view : GhostdagView H} {s : ShieldedStores H G}

/-- The age of a source below a block is inside the window. -/
def InAnchorWindow (D : BlockDag H) (P : SecurityParams) (block source : H) : Prop :=
  P.shielded_anchor_depth.toNat ≤ (D.blue_score block).toNat - (D.blue_score source).toNat ∧
    (D.blue_score block).toNat - (D.blue_score source).toNat ≤ P.max_shielded_anchor_age.toNat

variable {selected_parent block source : H}

/-- A source with a score is final exactly if its ancestry is known and its age is in the window. -/
theorem judgeScoredSource_isFinal_iff {block_score score : U64} {attested : Bool} :
    (judgeScoredSource P view source selected_parent block_score score attested).is_final = true ↔
      (attested = true ∨ source = selected_parent ∨
        view.try_is_chain_ancestor_of source selected_parent = some true) ∧
      P.shielded_anchor_depth.toNat ≤ block_score.toNat - score.toNat ∧
      block_score.toNat - score.toNat ≤ P.max_shielded_anchor_age.toNat := by
  unfold judgeScoredSource
  simp only [toNat_saturatingSub]
  by_cases hancestor : attested = true ∨ source = selected_parent ∨
      view.try_is_chain_ancestor_of source selected_parent = some true
  · rw [if_pos hancestor, and_iff_right hancestor]
    exact decide_eq_true_iff
  · rw [if_neg hancestor]
    exact ⟨fun h => absurd h Bool.false_ne_true, fun h => absurd h.1 hancestor⟩

/-- From the fork on, an anchor other than the empty one is final exactly if its named block logged
it and is a final source. -/
theorem resolveShieldedAnchor_isFinal_iff {anchor : H} {anchor_block : Option H}
    {block_score block_daa : U64} (hactive : P.security_fork_activation.isActive block_daa = true) :
    (s.resolveShieldedAnchor C P view anchor anchor_block selected_parent block_score
        block_daa).is_final = true ↔
      anchor = C.T.toBytes C.T.emptyTree ∨ ∃ named entry, anchor_block = some named ∧
        s.windowEntry named = some entry ∧ entry.root = anchor ∧
        (s.judgeAnchorSource P view named selected_parent block_score).is_final = true := by
  unfold resolveShieldedAnchor
  rw [if_pos hactive]
  by_cases hempty : anchor = C.T.toBytes C.T.emptyTree
  · rw [if_pos hempty]
    exact ⟨fun _ => .inl hempty, fun _ => rfl⟩
  · rw [if_neg hempty, or_iff_right hempty]
    cases anchor_block with
    | none => exact ⟨fun h => (Bool.false_ne_true h).elim, fun ⟨_, _, h, _⟩ => nomatch h⟩
    | some named =>
      simp only
      cases hentry : s.windowEntry named with
      | none =>
        refine ⟨fun h => (Bool.false_ne_true h).elim, fun ⟨b, e, hb, he, _⟩ => ?_⟩
        rw [← some.inj hb, hentry] at he
        cases he
      | some entry =>
        simp only
        constructor
        · intro h
          split_ifs at h with hroot
          exact ⟨named, entry, rfl, hentry, hroot, h⟩
        · rintro ⟨b, e, hb, he, hroot, hfinal⟩
          obtain rfl := some.inj hb
          obtain rfl := mem_unique hentry he
          rw [if_pos hroot]
          exact hfinal

/-- A node judges the sources it has entries of by their ages: a source is final exactly if it is on
the chain of the selected parent and in the window. -/
def JudgesByAge (D : BlockDag H) (P : AnchorParams) (view : GhostdagView H) (s : ShieldedStores H G)
    (block selected_parent : H) : Prop :=
  ∀ source entry, s.windowEntry source = some entry →
    ((s.judgeAnchorSource P view source selected_parent (D.blue_score block)).is_final = true ↔
      source ∈ D.path selected_parent ∧ InAnchorWindow D P.toSecurityParams block source)

/-- What a node that judges by age finds final: the empty anchor, and the roots of the usable
sources. -/
theorem JudgesByAge.isFinal_iff (h : JudgesByAge D P view s block selected_parent)
    (hpost : P.isPostSecurityFork D block = true) {anchor : H} {anchor_block : Option H} :
    (s.resolveShieldedAnchor C P view anchor anchor_block selected_parent (D.blue_score block)
        (D.daa_score block)).is_final = true ↔
      anchor = C.T.toBytes C.T.emptyTree ∨ ∃ named, anchor_block = some named ∧
        named ∈ D.path selected_parent ∧ InAnchorWindow D P.toSecurityParams block named ∧
        (s.windowEntry named).map (·.root) = some anchor := by
  rw [resolveShieldedAnchor_isFinal_iff hpost]
  refine or_congr_right ⟨?_, ?_⟩
  · rintro ⟨named, entry, hnamed, hentry, hroot, hfinal⟩
    obtain ⟨hon, hwindow⟩ := (h named entry hentry).mp hfinal
    exact ⟨named, hnamed, hon, hwindow, by rw [hentry, map_some, hroot]⟩
  · rintro ⟨named, hnamed, hon, hwindow, hroot⟩
    obtain ⟨entry, hentry, heq⟩ := map_eq_some_iff.mp hroot
    exact ⟨named, entry, hnamed, hentry, heq, (h named entry hentry).mpr ⟨hon, hwindow⟩⟩

/-- Two nodes that judge by age agree on an anchor exactly if it is the empty one or both or neither
logged it for the named source, if that is usable. -/
theorem JudgesByAge.agree_iff {view' : GhostdagView H} {s' : ShieldedStores H G}
    (h : JudgesByAge D P view s block selected_parent)
    (h' : JudgesByAge D P view' s' block selected_parent)
    (hpost : P.isPostSecurityFork D block = true) (anchor : H) (anchor_block : Option H) :
    (s.resolveShieldedAnchor C P view anchor anchor_block selected_parent (D.blue_score block)
        (D.daa_score block)).is_final =
      (s'.resolveShieldedAnchor C P view' anchor anchor_block selected_parent (D.blue_score block)
        (D.daa_score block)).is_final ↔
      anchor = C.T.toBytes C.T.emptyTree ∨ ∀ named, anchor_block = some named →
        named ∈ D.path selected_parent → InAnchorWindow D P.toSecurityParams block named →
          ((s.windowEntry named).map (·.root) = some anchor ↔
            (s'.windowEntry named).map (·.root) = some anchor) := by
  rw [Bool.eq_iff_iff, h.isFinal_iff hpost, h'.isFinal_iff hpost]
  constructor
  · intro hagree
    by_cases hempty : anchor = C.T.toBytes C.T.emptyTree
    · exact .inl hempty
    · rw [or_iff_right hempty, or_iff_right hempty] at hagree
      refine .inr fun named hnamed hon hwindow => ⟨fun hroot => ?_, fun hroot => ?_⟩
      · obtain ⟨b, hb, -, -, hroot'⟩ := hagree.mp ⟨named, hnamed, hon, hwindow, hroot⟩
        rwa [mem_unique hnamed hb]
      · obtain ⟨b, hb, -, -, hroot'⟩ := hagree.mpr ⟨named, hnamed, hon, hwindow, hroot⟩
        rwa [mem_unique hnamed hb]
  · rintro (hempty | hroots)
    · exact ⟨fun _ => .inl hempty, fun _ => .inl hempty⟩
    · refine or_congr_right (exists_congr fun named => ?_)
      refine and_congr_right fun hnamed => and_congr_right fun hon => and_congr_right fun hw => ?_
      exact hroots named hnamed hon hw

/-! ## What the nodes know -/

/-- The data a node has is right: the scores are those of the headers, and the ancestry is that of
the chain. -/
structure GhostdagView.Sound (D : BlockDag H) (selected_parent : H) (view : GhostdagView H) :
    Prop where
  score : ∀ b x, view.get_blue_score b = some x → x = D.blue_score b
  ancestor : ∀ b r, view.try_is_chain_ancestor_of b selected_parent = some r →
    r = decide (b ∈ D.path selected_parent)

/-- The node has the score and the ancestry of a block. -/
def GhostdagView.Has (selected_parent : H) (view : GhostdagView H) (b : H) : Prop :=
  (view.get_blue_score b).isSome ∧ (view.try_is_chain_ancestor_of b selected_parent).isSome

variable (hview : view.Sound D selected_parent)
include hview

theorem judge_own_isFinal_iff (hsome : (view.get_blue_score source).isSome)
    (hdata : source ∈ D.path selected_parent → InAnchorWindow D P.toSecurityParams block source →
        (view.try_is_chain_ancestor_of source selected_parent).isSome) :
    (s.judgeAnchorSource P view source selected_parent (D.blue_score block)).is_final = true ↔
      source ∈ D.path selected_parent ∧ InAnchorWindow D P.toSecurityParams block source := by
  obtain ⟨score, hscore⟩ := isSome_iff_exists.mp hsome
  obtain rfl := hview.score source score hscore
  unfold judgeAnchorSource
  simp only [hscore]
  rw [judgeScoredSource_isFinal_iff]
  constructor
  · rintro ⟨hancestor, hwindow⟩
    refine ⟨?_, hwindow⟩
    rcases hancestor with h | rfl | h
    · cases h
    · exact ParentTree.self_mem_path source
    · exact of_decide_eq_true (hview.ancestor source true h).symm
  · rintro ⟨hon, hwindow⟩
    obtain ⟨r, hr⟩ := isSome_iff_exists.mp (hdata hon hwindow)
    have htrue : r = true := (hview.ancestor source r hr).trans (decide_eq_true hon)
    exact ⟨.inr (.inr (htrue ▸ hr)), hwindow⟩

/-- The verdict on a source without an attested score, if the node has data for usable sources. -/
theorem judge_unattested_isFinal_iff (hscore : s.anchor_source_scores source = none)
    (hdata : source ∈ D.path selected_parent → InAnchorWindow D P.toSecurityParams block source →
      view.Has selected_parent source) :
    (s.judgeAnchorSource P view source selected_parent (D.blue_score block)).is_final = true ↔
      source ∈ D.path selected_parent ∧ InAnchorWindow D P.toSecurityParams block source := by
  by_cases hsome : (view.get_blue_score source).isSome
  · exact judge_own_isFinal_iff hview hsome fun hon hwindow => (hdata hon hwindow).2
  · -- Without a score the source is rejected, so it is not a usable one.
    have hnone : view.get_blue_score source = none := not_isSome_iff_eq_none.mp hsome
    unfold judgeAnchorSource
    simp only [hnone, hscore]
    exact ⟨fun h => absurd h Bool.false_ne_true,
      fun ⟨hon, hwindow⟩ => absurd (hdata hon hwindow).1 hsome⟩

/-- The verdict on a source of the chain with an attested score, if the node has both its score and
its ancestry or neither. -/
theorem judge_attested_isFinal_iff
    (hscore : s.anchor_source_scores source = some (D.blue_score source))
    (hon : source ∈ D.path selected_parent)
    (hboth : (view.get_blue_score source).isSome →
      (view.try_is_chain_ancestor_of source selected_parent).isSome) :
    (s.judgeAnchorSource P view source selected_parent (D.blue_score block)).is_final = true ↔
      source ∈ D.path selected_parent ∧ InAnchorWindow D P.toSecurityParams block source := by
  by_cases hsome : (view.get_blue_score source).isSome
  · exact judge_own_isFinal_iff hview hsome fun _ _ => hboth hsome
  · have hnone : view.get_blue_score source = none := not_isSome_iff_eq_none.mp hsome
    unfold judgeAnchorSource
    simp only [hnone, hscore]
    rw [judgeScoredSource_isFinal_iff]
    exact and_congr_left fun _ => ⟨fun _ => hon, fun _ => .inl rfl⟩

end

/-! ## The log rows of a walk -/

section

variable [DecidableEq H] [CommGroupWithZero G] {C : Crypto H N G} {D : BlockDag H}
  {P : SecurityParams}

variable (C) in
/-- The stores hold the log of a block as its entry appended to some log. -/
def Logged (s : ShieldedStores H G) (b : H) : Prop :=
  ∃ e before window, s.anchor_entries b = some (e, before) ∧ before.append C.hf e = .ok window ∧
    s.anchor_window b = some window

omit [DecidableEq H] [CommGroupWithZero G] in
theorem Logged.congr {s s' : ShieldedStores H G} {b : H} (h : Logged C s b)
    (hrows : s'.rows b = s.rows b) : Logged C s' b := by
  obtain ⟨e, before, window, hentry, happend, hwindow⟩ := h
  exact ⟨e, before, window, (entry_congr hrows).trans hentry, happend,
    (window_congr hrows).trans hwindow⟩

/-- Committing a block keeps the attested scores and the rows of the other blocks, and from the fork
on logs the block. -/
theorem commitUtxoState_log {s s' : ShieldedStores H G} {current : H}
    {c : ComputedBlockShielded H N G} {v : BlockVerdict H N}
    (h : s.commitUtxoState C D P current c v = .ok s') :
    s'.anchor_source_scores = s.anchor_source_scores ∧ (∀ b, b ≠ current → s'.rows b = s.rows b) ∧
      (P.isPostSecurityFork D current = true → Logged C s' current) := by
  unfold commitUtxoState at h
  rw [bind_eq_ok_iff] at h
  obtain ⟨s₁, hextend, h⟩ := h
  obtain rfl := ok.inj h
  rcases extendWindow_eq_ok hextend with
    ⟨hpre, rfl⟩ | ⟨-, before, window, -, happend, rfl⟩
  · refine ⟨rfl, fun b hb => ?_, fun hpost => absurd (hpre.symm.trans hpost) Bool.false_ne_true⟩
    rw [rows_persistBalances_of_ne _ _ hb, rows_persist_of_ne c hb]
  · refine ⟨rfl, fun b hb => ?_, fun _ => ?_⟩
    · rw [rows_persistBalances_of_ne _ _ hb,
        rows_persistWindow_of_ne _ _ _ hb, rows_persist_of_ne c hb]
    · exact ⟨_, before, window, Function.update_self _ _ _, happend, Function.update_self _ _ _⟩

namespace ProcessorState

variable {verdict : H → BlockVerdict H N} {τ τ' : ProcessorState H G}
variable {diff_point selected_parent reached : H} {blocks : List H}

/-- What one step of the up-walk does to the logs: a step that moves the valid block to a block not
validated before has logged it. -/
theorem stepUp_log {current : H}
    (h : τ.stepUp C D P verdict diff_point selected_parent current = .ok (τ', reached)) :
    τ'.stores.anchor_source_scores = τ.stores.anchor_source_scores ∧
      (∀ b, b ≠ current → τ'.stores.rows b = τ.stores.rows b) ∧
      τ'.utxo_diffs ⊆ insert current τ.utxo_diffs ∧
      (reached = diff_point ∨ reached = current ∧ (current ∉ τ.utxo_diffs →
        P.isPostSecurityFork D current = true → Logged C τ'.stores current)) := by
  have hkeep : τ.utxo_diffs ⊆ insert current τ.utxo_diffs := Finset.subset_insert _ _
  unfold stepUp at h
  split_ifs at h with hparent hvalid hdisq
  · obtain ⟨rfl, rfl⟩ := Prod.mk.inj (ok.inj h)
    exact ⟨rfl, fun _ _ => rfl, hkeep, .inl rfl⟩
  · obtain ⟨rfl, rfl⟩ := Prod.mk.inj (ok.inj h)
    rw [rejoin_eq]
    exact ⟨rfl, fun _ _ => rfl, hkeep, .inr ⟨rfl, fun hnew => absurd hvalid hnew⟩⟩
  · obtain ⟨rfl, rfl⟩ := Prod.mk.inj (ok.inj h)
    exact ⟨rfl, fun _ _ => rfl, hkeep, .inl rfl⟩
  · cases hvalidate : τ.stores.validate C selected_parent (verdict current) with
    | error e =>
      rw [hvalidate] at h
      cases e with
      | panic => cases h
      | err e =>
        obtain ⟨rfl, rfl⟩ := Prod.mk.inj (ok.inj h)
        exact ⟨rfl, fun _ _ => rfl, hkeep, .inl rfl⟩
    | ok c =>
      rw [hvalidate] at h
      simp only [bind_eq_ok_iff] at h
      obtain ⟨stores, hcommit, h⟩ := h
      obtain ⟨rfl, rfl⟩ := Prod.mk.inj (ok.inj h)
      obtain ⟨hscores, hothers, hlogged⟩ := commitUtxoState_log hcommit
      exact ⟨hscores, hothers, Finset.Subset.refl _, .inr ⟨rfl, fun _ => hlogged⟩⟩

/-- The up-walk keeps the attested scores and the rows of the blocks it does not visit. -/
theorem walkUp_frame
    (h : τ.walkUp C D P verdict diff_point selected_parent blocks = .ok (τ', reached)) :
    τ'.stores.anchor_source_scores = τ.stores.anchor_source_scores ∧
      ∀ b, b ∉ blocks → τ'.stores.rows b = τ.stores.rows b := by
  induction blocks generalizing τ diff_point selected_parent with
  | nil =>
    obtain ⟨rfl, rfl⟩ := Prod.mk.inj (ok.inj h)
    exact ⟨rfl, fun _ _ => rfl⟩
  | cons current rest ih =>
    rw [walkUp, bind_eq_ok_iff] at h
    obtain ⟨⟨τ₁, reached₁⟩, hstep, hrest⟩ := h
    obtain ⟨hscores, hothers, -, -⟩ := stepUp_log hstep
    obtain ⟨hscores', hothers'⟩ := ih hrest
    refine ⟨hscores'.trans hscores, fun b hb => ?_⟩
    rw [List.mem_cons, not_or] at hb
    obtain ⟨hne, hnot⟩ := hb
    exact (hothers' b hnot).trans (hothers b hne)

theorem walkUp_stuck (hnot : diff_point ∉ selected_parent :: blocks)
    (h : τ.walkUp C D P verdict diff_point selected_parent blocks = .ok (τ', reached)) :
    reached = diff_point := by
  induction blocks generalizing τ selected_parent with
  | nil => exact ((Prod.mk.inj (ok.inj h)).2).symm
  | cons current rest ih =>
    rw [List.mem_cons, not_or] at hnot
    obtain ⟨hne, htail⟩ := hnot
    rw [walkUp, stepUp, if_pos (Ne.symm hne)] at h
    exact ih htail h

/-- A walk over new blocks that reaches the last of them has logged each from the fork on. -/
theorem walkUp_logged {start last : H} (hnodup : (start :: blocks).Nodup)
    (hnew : ∀ b ∈ blocks, b ∉ τ.utxo_diffs) (hlast : (start :: blocks).getLast? = some last)
    (h : τ.walkUp C D P verdict start start blocks = .ok (τ', last)) {b : H} (hb : b ∈ blocks)
    (hpost : P.isPostSecurityFork D b = true) : Logged C τ'.stores b := by
  induction blocks generalizing τ start with
  | nil => cases hb
  | cons current rest ih =>
    rw [walkUp, bind_eq_ok_iff] at h
    obtain ⟨⟨τ₁, reached⟩, hstep, hrest⟩ := h
    obtain ⟨hstart, htail⟩ := List.nodup_cons.mp hnodup
    rw [List.getLast?_cons_cons] at hlast
    obtain ⟨-, -, hdiffs, hreached⟩ := stepUp_log hstep
    rcases hreached with rfl | ⟨rfl, hlogged⟩
    · -- The walk would never reach the last block.
      have hstuck := walkUp_stuck hstart hrest
      exact absurd (hstuck ▸ List.mem_of_getLast? hlast) hstart
    · have hcurrent := (List.nodup_cons.mp htail).1
      rcases List.mem_cons.mp hb with rfl | hb
      · have hsame := (walkUp_frame hrest).2 b hcurrent
        exact (hlogged (hnew b List.mem_cons_self) hpost).congr hsame
      · refine ih htail (fun x hx hmem => ?_) hlast hrest hb
        rcases Finset.mem_insert.mp (hdiffs hmem) with rfl | hold
        · exact hcurrent hx
        · exact hnew x (List.mem_cons_of_mem _ hx) hold

theorem run_scores {calls : List ((H → BlockVerdict H N) × H)} {start tip : H}
    (h : run C D P τ start calls = .ok (τ', tip)) :
    τ'.stores.anchor_source_scores = τ.stores.anchor_source_scores := by
  induction calls generalizing τ start with
  | nil =>
    obtain ⟨rfl, rfl⟩ := Prod.mk.inj (ok.inj h)
    rfl
  | cons call calls ih =>
    rw [run, bind_eq_ok_iff] at h
    obtain ⟨⟨τ₁, tip₁⟩, hcall, hrest⟩ := h
    refine (ih hrest).trans ?_
    unfold calculateUtxoStateRelatively at hcall
    split_ifs at hcall
    · obtain ⟨rfl, rfl⟩ := Prod.mk.inj (ok.inj hcall)
      rfl
    · rw [bind_eq_ok_iff] at hcall
      obtain ⟨⟨split_point, batch⟩, -, hwalk⟩ := hcall
      exact (walkUp_frame hwalk).1

end ProcessorState

end

end Zkas
