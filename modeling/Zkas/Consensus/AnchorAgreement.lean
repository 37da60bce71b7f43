import Zkas.Consensus.AnchorResolution

/-!
# Two nodes judge the same anchors

A node that validated the whole chain and a node that imported its state at a pruning point and then
validated the blocks above it. The proven entries cover every source that a later block can still
use, and the roots that the later blocks commit bind the entries above the pruning point, except for
the newest one. -/

namespace Zkas

open Word List Option ShieldedStores ParentTree ProcessorState AnchorLog

variable {H N G : Type} [DecidableEq H]

/-! ## Chains -/

variable {b a : H} {scores : List (H × U64)} {D : BlockDag H}

omit [DecidableEq H] in
theorem BlockDag.blue_score_le_of_mem_path (h : a ∈ D.path b) :
    (D.blue_score a).toNat ≤ (D.blue_score b).toNat :=
  mem_path_induction (P := fun b => (D.blue_score a).toNat ≤ (D.blue_score b).toNat)
    le_rfl (fun b hne _ ih => ih.trans (D.blue_score_lt b hne).le) h

/-- The DAA scores do not fall along a chain. -/
def BlockDag.DaaMonotone (D : BlockDag H) : Prop :=
  ∀ b, b ≠ D.root → (D.daa_score (D.parent b)).toNat ≤ (D.daa_score b).toNat

omit [DecidableEq H] in
theorem BlockDag.DaaMonotone.isPost {P : SecurityParams} (hdaa : D.DaaMonotone)
    (h : a ∈ D.path b) (hpost : P.isPostSecurityFork D a = true) :
    P.isPostSecurityFork D b = true :=
  mem_path_induction (P := fun b => P.isPostSecurityFork D b = true) hpost
    (fun b hne _ ih => ForkActivation.isActive_mono (hdaa b hne) ih) h

theorem BlockDag.DaaMonotone.mem_logBlocks {P : SecurityParams}
    (hdaa : D.DaaMonotone) (h : a ∈ D.path b) (hroot : a ≠ D.root)
    (hpost : P.isPostSecurityFork D a = true) : a ∈ logBlocks D P b := by
  refine mem_path_induction (P := fun b => a ∈ logBlocks D P b) ?_ (fun b hne hmem ih => ?_) h
  · rw [logBlocks_of_post hroot hpost]
    exact mem_append_right _ (mem_singleton_self a)
  · rw [logBlocks_of_post hne (hdaa.isPost ((mem_path_of_ne hne).mpr (.inl hmem)) hpost)]
    exact mem_append_left _ ih

/-! ## Attested scores -/

theorem foldl_addScore {entries : List (WindowEntry H)} (hnodup : (entries.map (·.block)).Nodup)
    (hnew : ∀ e ∈ entries, e.block ∉ scores.map (·.1)) :
    entries.foldl addScore scores = scores ++ entries.map fun e => (e.block, e.blue_score) := by
  induction entries generalizing scores with
  | nil => rw [foldl_nil, map_nil, append_nil]
  | cons e entries ih =>
    rw [map_cons, nodup_cons] at hnodup
    have hadd : addScore scores e = scores ++ [(e.block, e.blue_score)] :=
      if_neg (hnew e mem_cons_self)
    rw [foldl_cons, hadd, ih hnodup.2, append_assoc, map_cons]
    · rfl
    · intro e' he'
      rw [map_append, mem_append, not_or]
      refine ⟨hnew e' (mem_cons_of_mem _ he'), fun hmem => ?_⟩
      have heq : e'.block = e.block := mem_singleton.mp hmem
      exact hnodup.1 (heq ▸ mem_map_of_mem he')

theorem foldl_update_of_notMem (h : b ∉ scores.map (·.1)) (f : H → Option U64) : scores.foldl
      (fun f (source, blue_score) => Function.update f source (some blue_score)) f b = f b := by
  induction scores generalizing f with
  | nil => rfl
  | cons p scores ih =>
    rw [map_cons, mem_cons, not_or] at h
    exact (ih h.2 _).trans (Function.update_of_ne h.1 _ _)

theorem lastScore_of_notMem (h : b ∉ scores.map (·.1)) : lastScore scores b = none :=
  foldl_update_of_notMem h _

theorem lastScore_of_mem (hnodup : (scores.map (·.1)).Nodup)
    {score : U64} (h : (b, score) ∈ scores) : lastScore scores b = some score := by
  obtain ⟨front, back, rfl⟩ := append_of_mem h
  rw [map_append, map_cons] at hnodup
  have hback : b ∉ back.map (·.1) := (nodup_cons.mp hnodup.of_append_right).1
  unfold lastScore
  rw [foldl_append, foldl_cons]
  exact (foldl_update_of_notMem hback _).trans (Function.update_self _ _ _)

/-! ## The logs of the two nodes -/

section

variable [CommGroupWithZero G] {C : Crypto H N G} {D : BlockDag H} {P : SecurityParams}
  {V : H → BlockVerdict H N → Prop} {σ : ProcessorState H G}
variable {e : WindowEntry H}

theorem ProcessorInvariant.windowEntry_of_mem (hinv : ProcessorInvariant C D P V σ) {b : H}
    (hb : b ∈ σ.utxo_diffs) (he : e ∈ σ.stores.logEntries D P b) :
    σ.stores.windowEntry e.block = some e := by
  rw [← map_logPairs] at he
  obtain ⟨p, hp, rfl⟩ := mem_map.mp he
  unfold windowEntry
  rw [((hinv.logFacts hb).stored hp).1]
  rfl

theorem ProcessorInvariant.mem_logBlocks_of_entry (hinv : ProcessorInvariant C D P V σ)
    (hdaa : D.DaaMonotone) {pp b : H} (hpp : pp ∈ σ.utxo_diffs) (hb : b ∈ D.path pp)
    (he : σ.stores.windowEntry b = some e) : b ∈ logBlocks D P pp := by
  obtain ⟨p, hp, -⟩ := map_eq_some_iff.mp he
  have hroot : b ≠ D.root := by
    rintro rfl
    have hnone : σ.stores.anchor_entries D.root = none := congrArg BlockRows.entry hinv.root_rows
    rw [hnone] at hp
    cases hp
  have hpost : P.isPostSecurityFork D b = true := by
    obtain ⟨v, c, -, hc⟩ := hinv.committed b (hinv.path_mem hpp hb) hroot
    by_contra hpre
    have hnone := (hc.rows.no_log (Bool.eq_false_iff.mpr hpre)).2
    rw [hnone] at hp
    cases hp
  exact hdaa.mem_logBlocks hb hroot hpost

theorem ProcessorInvariant.windowEntry_of_append (hlogs : C.hf.AnchorLogInjective)
    (hinv : ProcessorInvariant C D P V σ) {b : H} (hb : b ∈ σ.utxo_diffs) (hne : b ≠ D.root)
    (hpost : P.isPostSecurityFork D b = true) {window before : AnchorLog H}
    (hwindow : σ.stores.anchor_window b = some window)
    (happend : before.append C.hf e = .ok window) : σ.stores.windowEntry b = some e := by
  have hfacts := hinv.logFacts hb
  have hone : before.appendAll C.hf ([] ++ [e]) = .ok window :=
    appendAll_concat_eq_ok.mpr ⟨before, rfl, happend⟩
  obtain ⟨log, hparent, hall⟩ := hfacts.log
  obtain rfl : window = log := by
    unfold parentWindow at hparent
    rw [hwindow] at hparent
    exact Except.ok.inj hparent
  obtain ⟨front, hentries, -⟩ := appendAll_inj hlogs hone hall
  -- The last block of the log is the block itself.
  have hblock : e.block = b := by
    have hblocks := hfacts.blocks
    rw [hentries, map_append, logBlocks_of_post hne hpost] at hblocks
    exact (cons.inj (append_inj' hblocks rfl).2).1
  have hmem : e ∈ σ.stores.logEntries D P b := by
    rw [hentries]
    exact mem_append_right _ mem_cons_self
  have hstored := hinv.windowEntry_of_mem hb hmem
  rwa [hblock] at hstored

variable {s s' : ShieldedStores H G} {pp : H} {md : PruningPointShieldedMetadata H G}
  {window : AnchorLog H} {proven : List (WindowEntry H × AnchorLog H)} {nullifiers : List H}

/-- What the import left of the log of the validating node. -/
structure SeededLog (D : BlockDag H) (P : SecurityParams) (σ : ProcessorState H G)
    (s s' : ShieldedStores H G) (pp : H) (proven : List (WindowEntry H × AnchorLog H)) : Prop where
  on_chain : ∀ p ∈ proven, p.1.block ∈ D.path pp
  validated : ∀ p ∈ proven, σ.stores.windowEntry p.1.block = some p.1
  seeded : ∀ p ∈ proven, s'.windowEntry p.1.block = some p.1
  attested : ∀ p ∈ proven, s'.anchor_source_scores p.1.block = some (D.blue_score p.1.block)
  others : ∀ b, (∀ p ∈ proven, p.1.block ≠ b) →
    s'.windowEntry b = s.windowEntry b ∧ s'.anchor_source_scores b = none
  covers : ∀ b ∈ logBlocks D P pp, (∀ p ∈ proven, p.1.block ≠ b) →
    (D.blue_score b).toNat < (P.oldestUsable D pp).toNat

/-- The import leaves the proven entries of the validating node's log, and they cover every source
from the oldest usable score on. -/
theorem seededLog (hlogs : C.hf.AnchorLogInjective) (hinv : ProcessorInvariant C D P V σ)
    (hpp : pp ∈ σ.utxo_diffs) (hbound : Bound C σ.stores pp md window) {committed : H}
    (hbinding : BindingSpec C D P pp md committed window)
    (hproven : pairWithLogs C md.window_prefix md.window_entries = .ok proven)
    (hseed : SeedSpec s s' pp md window proven nullifiers) : SeededLog D P σ s s' pp proven := by
  obtain ⟨front, hfront, hlog⟩ := proven_subset_logEntries hlogs hinv hpp hbound.log hbinding.replay
  have hfacts := hinv.logFacts hpp
  have hmap := (pairWithLogs_eq_ok hproven).1
  have hentry : ∀ p ∈ proven, p.1 ∈ σ.stores.logEntries D P pp := fun p hp => by
    rw [hfront, ← hmap]
    exact mem_append_right _ (mem_map_of_mem hp)
  have hnodup : ((proven.map (·.1)).map (·.block)).Nodup := by
    have hall := nodup_logBlocks (D := D) (P := P) pp
    rw [← hfacts.blocks, hfront, map_append] at hall
    rw [hmap]
    exact hall.of_append_right
  have hscores : s'.anchor_source_scores =
      lastScore ((proven.map (·.1)).map fun e => (e.block, e.blue_score)) := by
    rw [hseed.scores, foldl_addScore hnodup fun _ _ => not_mem_nil, nil_append]
  have hkeys : ((proven.map (·.1)).map fun e => (e.block, e.blue_score)).map (·.1) =
      (proven.map (·.1)).map (·.block) := by
    rw [List.map_map]
    rfl
  refine ⟨fun p hp => ?_, fun p hp => hinv.windowEntry_of_mem hpp (hentry p hp), fun p hp => ?_,
    fun p hp => ?_, fun b hb => ⟨?_, ?_⟩, fun b hb hnot => ?_⟩
  · refine mem_path_of_mem_logBlocks (P := P) ?_
    rw [← hfacts.blocks]
    exact mem_map_of_mem (hentry p hp)
  · rw [List.map_map] at hnodup
    unfold windowEntry
    rw [hseed.entries, persistEntries_of_mem hnodup hp]
    rfl
  · rw [hscores, ← hfacts.scores (hentry p hp)]
    refine lastScore_of_mem (by rwa [hkeys]) ?_
    exact mem_map_of_mem (mem_map_of_mem hp)
  · unfold windowEntry
    rw [hseed.entries, persistEntries_of_ne hb]
  · rw [hscores]
    refine lastScore_of_notMem fun hmem => ?_
    rw [hkeys, List.map_map] at hmem
    obtain ⟨p, hp, hblock⟩ := mem_map.mp hmem
    exact hb p hp hblock
  · -- An entry that was not sent stands before the first one sent, which is old enough.
    rw [← hfacts.blocks] at hb
    obtain ⟨e, he, rfl⟩ := mem_map.mp hb
    have hold : e ∈ front := by
      rw [hfront] at he
      refine (mem_append.mp he).resolve_right fun hsent => ?_
      rw [← hmap] at hsent
      obtain ⟨p, hp, rfl⟩ := mem_map.mp hsent
      exact hnot p hp rfl
    have hcount : md.window_prefix.count ≠ 0 := by
      intro hzero
      have hlength := (appendAll_eq_ok hlog).1
      rw [hzero] at hlength
      have hpos := length_pos_of_mem hold
      simp only [AnchorLog.default, BitVec.ofNat_eq_ofNat, BitVec.toNat_ofNat] at hlength
      omega
    cases hsent : md.window_entries with
    | nil =>
      have hlast := hbinding.last
      rw [hsent] at hlast
      cases hlast
    | cons first rest =>
      have hcover := hbinding.coverage hcount first (by rw [hsent]; rfl)
      obtain ⟨as, bs, rfl⟩ := append_of_mem hold
      have hfollows := hfacts.follows
      rw [hfront, hsent, append_assoc, cons_append] at hfollows
      have hlt := blue_score_lt_of_follows hfollows (mem_append_right bs mem_cons_self)
      rw [← hfacts.scores he]
      omega

end

/-! ## Agreement -/

section

variable {D : BlockDag H}

/-- A node with data for every usable source. -/
structure GhostdagView.Full (D : BlockDag H) (P : SecurityParams) (block selected_parent : H)
    (view : GhostdagView H) : Prop extends view.Sound D selected_parent where
  data : ∀ b ∈ D.path selected_parent, InAnchorWindow D P block b → view.Has selected_parent b

/-- A node with data for every usable source above a pruning point, and below it with both kinds of
data or neither. -/
structure GhostdagView.Pruned (D : BlockDag H) (P : SecurityParams) (pp block selected_parent : H)
    (view : GhostdagView H) : Prop extends view.Sound D selected_parent where
  above : ∀ b ∈ D.above pp selected_parent, InAnchorWindow D P block b → view.Has selected_parent b
  below : ∀ b ∈ D.path pp, (view.get_blue_score b).isSome ↔
    (view.try_is_chain_ancestor_of b selected_parent).isSome

variable [CommGroupWithZero G] {C : Crypto H N G} {P : SecurityParams}

variable (C) in
/-- The stores of a node that validated the blocks above a pruning point. -/
structure Extended (D : BlockDag H) (s' t : ShieldedStores H G) (pp tip : H) : Prop where
  scores : t.anchor_source_scores = s'.anchor_source_scores
  others : ∀ b, b ∉ D.above pp tip → t.rows b = s'.rows b
  logged : ∀ b ∈ D.above pp tip, Logged C t b

/-- A seeded node that reaches a block above the pruning point has logged the blocks up to it. -/
theorem extended_of_walk {s' : ShieldedStores H G} {pp tip : H} (hon : pp ∈ D.path tip)
    (hpost : ∀ b ∈ D.above pp tip, P.isPostSecurityFork D b = true)
    {verdict : H → BlockVerdict H N} {τ : ProcessorState H G}
    (h : calculateUtxoStateRelatively C D P verdict
      { stores := s', utxo_diffs := {pp}, disqualified := ∅ } pp tip = .ok (τ, tip)) :
    Extended C D s' τ.stores pp tip := by
  have hpath := nodup_path (T := D.toParentTree) tip
  obtain ⟨front, hfront⟩ := getLast?_eq_some_iff.mp (getLast?_path (T := D.toParentTree) pp)
  have hnodup : (pp :: D.above pp tip).Nodup := by
    rw [← path_append_above hon, hfront, append_assoc] at hpath
    exact hpath.of_append_right
  unfold calculateUtxoStateRelatively at h
  rw [if_neg (Finset.notMem_empty tip), walkDown_of_mem_path _ hon, Except.ok_bind] at h
  have hframe := walkUp_frame h
  refine ⟨hframe.1, hframe.2, fun b hb => ?_⟩
  refine walkUp_logged hnodup (fun x hx hmem => ?_) (getLast?_cons_above hon) h hb (hpost b hb)
  have heq : x = pp := Finset.mem_singleton.mp hmem
  exact (nodup_cons.mp hnodup).1 (heq ▸ hx)

variable {V : H → BlockVerdict H N → Prop} {σ : ProcessorState H G} {s s' t : ShieldedStores H G}
  {pp tip block : H} {proven : List (WindowEntry H × AnchorLog H)}

omit [DecidableEq H] [CommGroupWithZero G] in
theorem Extended.below (h : Extended C D s' t pp tip) (hon : pp ∈ D.path tip) {b : H}
    (hb : b ∈ D.path pp) : t.windowEntry b = s'.windowEntry b := by
  have hrows := h.others b fun habove => not_mem_path_of_mem_above hon habove hb
  unfold windowEntry
  rw [entry_congr hrows]

/-- A usable source below the pruning point that the validating node logged is a proven one. -/
theorem SeededLog.proven_of_usable (h : SeededLog D P σ s s' pp proven)
    (hinv : ProcessorInvariant C D P V σ) (hdaa : D.DaaMonotone) (hpp : pp ∈ σ.utxo_diffs)
    (hblock : pp ∈ D.path block) {b : H} (hb : b ∈ D.path pp) {e : WindowEntry H}
    (he : σ.stores.windowEntry b = some e) (hwindow : InAnchorWindow D P block b) :
    ∃ p ∈ proven, p.1.block = b := by
  by_contra hnone
  push Not at hnone
  have hold := h.covers b (hinv.mem_logBlocks_of_entry hdaa hpp hb he) hnone
  have hle := BlockDag.blue_score_le_of_mem_path hblock
  have holdest : (P.oldestUsable D pp).toNat =
      (D.blue_score pp).toNat - P.max_shielded_anchor_age.toNat := toNat_saturatingSub _ _
  have hage := hwindow.2
  omega

theorem SeededLog.agree_below (h : SeededLog D P σ s s' pp proven)
    (hinv : ProcessorInvariant C D P V σ) (hdaa : D.DaaMonotone) (hpp : pp ∈ σ.utxo_diffs)
    (hprior : ∀ b e, s.windowEntry b = some e → b ∈ D.path pp ∧ σ.stores.windowEntry b = some e)
    (hext : Extended C D s' t pp tip) (hon : pp ∈ D.path tip) (hblock : pp ∈ D.path block) {b : H}
    (hb : b ∈ D.path pp) (hwindow : InAnchorWindow D P block b) :
    t.windowEntry b = σ.stores.windowEntry b := by
  rw [hext.below hon hb]
  by_cases hproven : ∃ p ∈ proven, p.1.block = b
  · obtain ⟨p, hp, rfl⟩ := hproven
    rw [h.seeded p hp, h.validated p hp]
  · have hnot : ∀ p ∈ proven, p.1.block ≠ b := fun p hp heq => hproven ⟨p, hp, heq⟩
    rw [(h.others b hnot).1]
    cases hs : s.windowEntry b with
    | some e => exact ((hprior b e hs).2).symm
    | none =>
      cases hσ : σ.stores.windowEntry b with
      | none => rfl
      | some e => exact absurd (h.proven_of_usable hinv hdaa hpp hblock hb hσ hwindow) hproven

/-- The blocks that the node's later blocks commit to have the same entry on both nodes. -/
theorem Extended.agree_above (hroots : C.hf.StateRootInjective) (hlogs : C.hf.AnchorLogInjective)
    (hinv : ProcessorInvariant C D P V σ) (htip : tip ∈ σ.utxo_diffs)
    (hext : Extended C D s' t pp tip) (hon : pp ∈ D.path tip)
    (hpost : ∀ b ∈ D.above pp tip, P.isPostSecurityFork D b = true)
    (hvalid : ∀ c ∈ D.above pp tip, ∃ root, t.shieldedStateRootAt C D P (D.parent c) = .ok root ∧
        σ.stores.shieldedStateRootAt C D P (D.parent c) = .ok root) {b : H}
    (hb : b ∈ D.above pp tip) (hne : b ≠ tip) : t.windowEntry b = σ.stores.windowEntry b := by
  obtain ⟨hpath, hnot⟩ := (mem_above_iff hon).mp hb
  have hroot : b ≠ D.root := fun h => hnot (h ▸ root_mem_path pp)
  -- The next block of the chain commits the root at `b`, and with it the log.
  obtain ⟨c, hc, rfl⟩ := exists_child_above hpath hne
  have hcabove : c ∈ D.above pp tip := by
    obtain ⟨hcpath, hcnot⟩ := (mem_above_iff hpath).mp hc
    refine (mem_above_iff hon).mpr ⟨hcpath, fun hcpp => hnot ?_⟩
    exact (path_isPrefix hcpp).subset (mem_path_of_mem_above hpath hc)
  obtain ⟨root, ht, hσ⟩ := hvalid c hcabove
  obtain ⟨tree, log, -, hlog, hcommit⟩ := shieldedStateRootAt_eq_ok (hpost _ hb) hroot ht
  obtain ⟨tree', log', -, hlog', hcommit'⟩ := shieldedStateRootAt_eq_ok (hpost _ hb) hroot hσ
  obtain ⟨-, -, heq, -⟩ := shieldedStateRootV1_inj hroots (hcommit.trans hcommit'.symm)
  obtain rfl : log = log' := commitment_inj hlogs heq
  obtain ⟨e, before, window, hentry, happend, hwindow⟩ := hext.logged _ hb
  obtain rfl : log = window := mem_unique hlog hwindow
  have hstored := hinv.windowEntry_of_append hlogs (hinv.path_mem htip hpath) hroot (hpost _ hb)
    hlog' happend
  rw [hstored, windowEntry, hentry]
  rfl

theorem SeededLog.judgesByAge {P : AnchorParams}
    (h : SeededLog D P.toSecurityParams σ s s' pp proven)
    (hinv : ProcessorInvariant C D P.toSecurityParams V σ) (hdaa : D.DaaMonotone)
    (hpp : pp ∈ σ.utxo_diffs)
    (hprior : ∀ b e, s.windowEntry b = some e → b ∈ D.path pp ∧ σ.stores.windowEntry b = some e)
    (hext : Extended C D s' t pp tip) (hon : pp ∈ D.path tip) (hblock : pp ∈ D.path block)
    {view : GhostdagView H} (hview : view.Pruned D P.toSecurityParams pp block tip) :
    JudgesByAge D P view t block tip := by
  intro source entry hentry
  by_cases habove : source ∈ D.above pp tip
  · -- Above the pruning point the node has its own data.
    refine judge_unattested_isFinal_iff hview.toSound ?_ fun _ => hview.above source habove
    have hnot := not_mem_path_of_mem_above hon habove
    rw [hext.scores]
    exact (h.others source fun p hp heq => hnot (heq ▸ h.on_chain p hp)).2
  · have hseeded : s'.windowEntry source = some entry := by
      rw [← hentry, windowEntry, windowEntry, entry_congr (hext.others source habove)]
    by_cases hproven : ∃ p ∈ proven, p.1.block = source
    · obtain ⟨p, hp, rfl⟩ := hproven
      have hpath := h.on_chain p hp
      refine judge_attested_isFinal_iff hview.toSound ?_ ?_ (hview.below _ hpath).mp
      · rw [hext.scores]
        exact h.attested p hp
      · exact (path_isPrefix hon).subset hpath
    · -- An older entry of the node is of no use any more.
      have hnot : ∀ p ∈ proven, p.1.block ≠ source := fun p hp heq => hproven ⟨p, hp, heq⟩
      obtain ⟨hold, hnone⟩ := h.others source hnot
      obtain ⟨hpath, hσ⟩ := hprior source entry (hold ▸ hseeded)
      refine judge_unattested_isFinal_iff hview.toSound (by rw [hext.scores, hnone])
        fun _ hwindow => ?_
      exact absurd (h.proven_of_usable hinv hdaa hpp hblock hpath hσ hwindow) hproven

/-- A node that validated the chain and a node seeded at a post-fork block `pp` of it, which then
validated the blocks up to the selected parent of `block` (so both found in each coinbase the root
they compute at its parent), give the same verdict on every anchor exactly when the selected parent
is `pp` itself, not a usable source, or logged with the same root by both. -/
theorem resolve_agrees_iff [DecidableEq G] {P : AnchorParams} (hT : C.T.Spec)
    (hE : C.mf.EmptyDistinct) (hroots : C.hf.StateRootInjective) (hlogs : C.hf.AnchorLogInjective)
    (hdaa : D.DaaMonotone) {calls : List ((H → BlockVerdict H N) × H)} {last : H}
    (hrun : ProcessorState.run C D P.toSecurityParams (.genesis D) D.root calls = .ok (σ, last))
    (htip : tip ∈ D.path last) (hon : pp ∈ D.path tip) (hne : pp ≠ D.root)
    (hpost : P.isPostSecurityFork D pp = true) {committed : H}
    (hcommitted : σ.stores.shieldedStateRootAt C D P.toSecurityParams pp = .ok committed)
    {W : WireFormat H G} {headers : HeaderView H} {metadata : ShieldedExportMetadata}
    {nullifiers : List H}
    (hprior : ∀ b e, s.windowEntry b = some e → b ∈ D.path pp ∧ σ.stores.windowEntry b = some e)
    (hseed : s.processorSeed C D P.toSecurityParams W headers pp metadata (some committed)
      nullifiers = .ok s') {verdict : H → BlockVerdict H N} {τ : ProcessorState H G}
    (hwalk : ProcessorState.calculateUtxoStateRelatively C D P.toSecurityParams verdict
      { stores := s', utxo_diffs := {pp}, disqualified := ∅ } pp tip = .ok (τ, tip))
    (hvalid : ∀ c ∈ D.above pp tip, ∃ root,
      τ.stores.shieldedStateRootAt C D P.toSecurityParams (D.parent c) = .ok root ∧
        σ.stores.shieldedStateRootAt C D P.toSecurityParams (D.parent c) = .ok root)
    (hroot : block ≠ D.root) (hparent : D.parent block = tip) {full pruned : GhostdagView H}
    (hfull : full.Full D P.toSecurityParams block tip)
    (hpruned : pruned.Pruned D P.toSecurityParams pp block tip) :
    (∀ anchor anchor_block,
        (σ.stores.resolveShieldedAnchor C P full anchor anchor_block tip (D.blue_score block)
          (D.daa_score block)).is_final =
        (τ.stores.resolveShieldedAnchor C P pruned anchor anchor_block tip (D.blue_score block)
          (D.daa_score block)).is_final) ↔
      (tip ≠ pp → InAnchorWindow D P.toSecurityParams block tip →
        (σ.stores.windowEntry tip).map (·.root) = (τ.stores.windowEntry tip).map (·.root)) := by
  -- The validating node.
  obtain ⟨hinv₀, hat₀⟩ := genesis_spec C D P.toSecurityParams
    fun (_ : H) (_ : BlockVerdict H N) => True
  have hany : ∀ call ∈ calls, ∀ b, (fun (_ : H) (_ : BlockVerdict H N) => True) b (call.1 b) :=
    fun _ _ _ => trivial
  obtain ⟨σ₁, last₁, hrun₁, hinv, hat⟩ := run_spec hT hE hinv₀ hat₀ hany
  obtain ⟨rfl, rfl⟩ := Prod.mk.inj (Except.ok.inj (hrun₁.symm.trans hrun))
  have htipmem : tip ∈ σ₁.utxo_diffs := hinv.path_mem hat.valid htip
  have hpp : pp ∈ σ₁.utxo_diffs := hinv.path_mem htipmem hon
  have hscores : σ₁.stores.anchor_source_scores = fun _ => none := run_scores hrun
  have hF : JudgesByAge D P full σ₁.stores block tip := fun source entry _ =>
    judge_unattested_isFinal_iff hfull.toSound (by rw [hscores]) (hfull.data source)
  -- The seeded node.
  obtain ⟨md, window, proven, -, hbinding, hverify, hproven, hspec⟩ :=
    processorSeed_eq_ok hE hpost hseed
  have hbound := bound_of_committed hT hroots hlogs hpost hne hcommitted hbinding hverify
  have hlog := seededLog hlogs hinv hpp hbound hbinding hproven hspec
  have hposts : ∀ b ∈ D.above pp tip, P.isPostSecurityFork D b = true := fun b hb =>
    hdaa.isPost (mem_path_of_mem_above hon hb) hpost
  have hext := extended_of_walk hon hposts hwalk
  have hblock : pp ∈ D.path block := (mem_path_of_ne hroot).mpr (.inl (hparent.symm ▸ hon))
  have hS := hlog.judgesByAge hinv hdaa hpp hprior hext hon hblock hpruned
  have hbpost : P.isPostSecurityFork D block = true := hdaa.isPost hblock hpost
  have hiff := hF.agree_iff (C := C) hS hbpost
  constructor
  · intro h hne' hwindow
    have hself : tip ∈ D.path tip := self_mem_path tip
    have habove : tip ∈ D.above pp tip := (mem_above_iff hon).mpr
      ⟨hself, fun hmem => hne' (eq_of_mem_path hmem hon)⟩
    obtain ⟨e, he⟩ : ∃ e, σ₁.stores.windowEntry tip = some e := by
      have htiproot : tip ≠ D.root := fun h => hne' (eq_of_mem_path (T := D.toParentTree)
        (h ▸ root_mem_path pp) hon)
      obtain ⟨v, c, -, hc⟩ := hinv.committed tip htipmem htiproot
      obtain ⟨before, -, hentry, -⟩ := hc.entry (hposts tip habove)
      exact ⟨_, congrArg (Option.map Prod.fst) hentry⟩
    obtain ⟨e', he'⟩ : ∃ e', τ.stores.windowEntry tip = some e' := by
      obtain ⟨e', before, -, hentry, -⟩ := hext.logged tip habove
      exact ⟨e', congrArg (Option.map Prod.fst) hentry⟩
    -- Whichever root is not the empty anchor is final on one node, so it is logged on the other.
    have huse : ∀ root, root ≠ C.T.toBytes C.T.emptyTree →
        (e.root = root ↔ e'.root = root) := fun root hempty => by
      have hnamed := ((hiff root (some tip)).mp (h root (some tip))).resolve_left hempty tip rfl
        hself hwindow
      rw [he, he'] at hnamed
      simpa using hnamed
    rw [he, he']
    by_cases hempty : e.root = C.T.toBytes C.T.emptyTree
    · by_cases hempty' : e'.root = C.T.toBytes C.T.emptyTree
      · exact congrArg some (hempty.trans hempty'.symm)
      · exact congrArg some ((huse e'.root hempty').mpr rfl)
    · exact congrArg some ((huse e.root hempty).mp rfl).symm
  · intro h anchor anchor_block
    refine (hiff anchor anchor_block).mpr (.inr fun named _ hmem hwindow => ?_)
    suffices hsame : (σ₁.stores.windowEntry named).map (·.root) =
        (τ.stores.windowEntry named).map (·.root) by rw [hsame]
    by_cases hbelow : named ∈ D.path pp
    · rw [hlog.agree_below hinv hdaa hpp hprior hext hon hblock hbelow hwindow]
    · have habove : named ∈ D.above pp tip := (mem_above_iff hon).mpr ⟨hmem, hbelow⟩
      by_cases hlast : named = tip
      · subst hlast
        exact h (fun heq => hbelow (heq ▸ self_mem_path _)) hwindow
      · rw [hext.agree_above hroots hlogs hinv htipmem hon hposts hvalid habove hlast]

end

/-! ## The newest root after a padded import -/

namespace Sample

open Symbolic

/-- The sample parameters; a source is mature one block later. -/
def anchorParams : AnchorParams :=
  { toSecurityParams := params, shielded_anchor_multi_activation := ⟨0⟩ }

/-- A node that has all data. -/
def fullView : GhostdagView Term where
  get_blue_score b := some (dag.blue_score b)
  try_is_chain_ancestor_of a b := some (decide (a ∈ dag.path b))

/-- The seed of block one with a given frontier and no nullifiers in an empty node. -/
noncomputable def seedWith (frontier : FrontierState Term) : ImportResult (ShieldedStores Term ℚ) :=
  empty.processorSeed Crypto.sample dag params (wireOf (metadataWith frontier))
    blindView (.atom 1) { data := [], nullifier_count := 0 } (some committedRoot) []

/-- The walk of the seeded node to block two. -/
noncomputable def walkFrom (s' : ShieldedStores Term ℚ) :
    BlockProcessResult (ProcessorState Term ℚ × Term) :=
  calculateUtxoStateRelatively Crypto.sample dag params mintVerdict
    { stores := s', utxo_diffs := {.atom 1}, disqualified := ∅ } (.atom 1) (.atom 2)

/-- What the node reads after the seed and after the walk, if it gets to block two. -/
noncomputable def readAtTwo {α : Type} (frontier : FrontierState Term)
    (read : ShieldedStores Term ℚ → ShieldedStores Term ℚ → α) : Option (Term × α) :=
  (seedWith frontier).toOption.bind fun s' =>
    (walkFrom s').toOption.map fun r => (r.2, read s' r.1.stores)

/-- The states behind a read. At block one the node computes the same root before and after the
walk. -/
theorem exists_of_readAtTwo {α : Type} {frontier : FrontierState Term}
    {read : ShieldedStores Term ℚ → ShieldedStores Term ℚ → α} {a : α}
    (h : readAtTwo frontier read = some (.atom 2, a)) :
    ∃ s' τ, seedWith frontier = .ok s' ∧ walkFrom s' = .ok (τ, .atom 2) ∧ read s' τ.stores = a ∧
      τ.stores.shieldedStateRootAt Crypto.sample dag params (.atom 1) =
        s'.shieldedStateRootAt Crypto.sample dag params (.atom 1) := by
  obtain ⟨s', hs', h⟩ := bind_eq_some_iff.mp h
  obtain ⟨⟨τ, b⟩, hτ, hpair⟩ := map_eq_some_iff.mp h
  obtain ⟨rfl, hread⟩ := Prod.mk.inj hpair
  have hwalk := Except.toOption_eq_some.mp hτ
  have hext := extended_of_walk (by decide) (by decide) hwalk
  have hrows : τ.stores.rows (.atom 1) = s'.rows (.atom 1) := hext.others _ (by decide)
  have hreads : ReadsAgree τ.stores s' (.atom 1) :=
    ⟨frontierAt_congr hrows, supplyTotalsAt_congr hrows,
      nullifierMuhashAt_congr hrows, burnsAt_congr hrows,
      devAccruedAt_congr hrows, minerAccrualAt_congr hrows,
      window_congr hrows⟩
  exact ⟨s', τ, Except.toOption_eq_some.mp hs', hwalk, hread, hreads.stateRoot⟩

/-- The only block above block one is block two, whose parent's root both nodes compute alike. -/
theorem valid_of_root {t : ShieldedStores Term ℚ}
    (hroot : t.shieldedStateRootAt Crypto.sample dag params (.atom 1) = .ok committedRoot) :
    ∀ c ∈ dag.above (.atom 1) (.atom 2), ∃ root,
      t.shieldedStateRootAt Crypto.sample dag params (dag.parent c) = .ok root ∧
      validated.stores.shieldedStateRootAt Crypto.sample dag params (dag.parent c) = .ok root := by
  intro c hc
  have habove : dag.above (.atom 1) (.atom 2) = [.atom 2] := by decide
  rw [habove, mem_singleton] at hc
  rw [hc]
  exact ⟨committedRoot, hroot, root_committed⟩

/-- The root that the validating node logged for block two. -/
noncomputable def rootOfTwo : Term :=
  ((validated.stores.windowEntry (.atom 2)).map (·.root)).getD (.atom 0)

theorem dag_daaMonotone : dag.DaaMonotone := fun b hb => (dag.blue_score_lt b hb).le

theorem fullView_sound (tip : Term) : fullView.Sound dag tip where
  score _ _ h := (some.inj h).symm
  ancestor _ _ h := (some.inj h).symm

theorem fullView_full (P : SecurityParams) (block tip : Term) : fullView.Full dag P block tip :=
  { fullView_sound tip with data := fun _ _ _ => ⟨rfl, rfl⟩ }

theorem fullView_pruned (P : SecurityParams) (pp block tip : Term) :
    fullView.Pruned dag P pp block tip :=
  { fullView_sound tip with
    above := fun _ _ _ => ⟨rfl, rfl⟩
    below := fun _ _ => ⟨fun _ => rfl, fun _ => rfl⟩ }

/-- After the import of a frontier with an empty leaf appended, the node validates block two like
the validating node, but logs another root for it: for the next block the two nodes disagree on the
anchor of block two. -/
theorem resolve_padded_frontier : Crypto.sample.CollisionFree ∧ dag.DaaMonotone ∧
      ProcessorState.run Crypto.sample dag params (.genesis dag) dag.root mintCalls =
        .ok (validated, .atom 2) ∧
      validated.stores.shieldedStateRootAt Crypto.sample dag params (.atom 1) = .ok committedRoot ∧
      fullView.Full dag params (.atom 4) (.atom 2) ∧
      fullView.Pruned dag params (.atom 1) (.atom 4) (.atom 2) ∧
      ∃ s' τ, seedWith paddedNote = .ok s' ∧ walkFrom s' = .ok (τ, .atom 2) ∧
        (∀ c ∈ dag.above (.atom 1) (.atom 2), ∃ root,
          τ.stores.shieldedStateRootAt Crypto.sample dag params (dag.parent c) = .ok root ∧
          validated.stores.shieldedStateRootAt Crypto.sample dag params (dag.parent c) = .ok root) ∧
        ∃ anchor, (validated.stores.resolveShieldedAnchor Crypto.sample anchorParams fullView anchor
            (some (.atom 2)) (.atom 2) (dag.blue_score (.atom 4))
            (dag.daa_score (.atom 4))).is_final = true ∧
          (τ.stores.resolveShieldedAnchor Crypto.sample anchorParams fullView anchor
            (some (.atom 2)) (.atom 2) (dag.blue_score (.atom 4))
            (dag.daa_score (.atom 4))).is_final = false := by
  have hread : readAtTwo paddedNote (fun s' t =>
      (decide (s'.shieldedStateRootAt Crypto.sample dag params (.atom 1) = .ok committedRoot),
        (t.resolveShieldedAnchor Crypto.sample anchorParams fullView rootOfTwo (some (.atom 2))
          (.atom 2) (dag.blue_score (.atom 4)) (dag.daa_score (.atom 4))).is_final)) =
      some (.atom 2, true, false) := by decide +kernel
  have hfull : (validated.stores.resolveShieldedAnchor Crypto.sample anchorParams fullView rootOfTwo
      (some (.atom 2)) (.atom 2) (dag.blue_score (.atom 4))
      (dag.daa_score (.atom 4))).is_final = true := by decide +kernel
  obtain ⟨s', τ, hseed, hwalk, hpair, hsame⟩ := exists_of_readAtTwo hread
  obtain ⟨hroot, hfinal⟩ := Prod.mk.inj hpair
  exact ⟨sample_collisionFree, dag_daaMonotone, run_mintCalls, root_committed, fullView_full _ _ _,
    fullView_pruned _ _ _ _, s', τ, hseed, hwalk,
      valid_of_root (hsame.trans (of_decide_eq_true hroot)),
    rootOfTwo, hfull, hfinal⟩

/-- After the import of the honest frontier the two nodes agree on every anchor for block four. -/
theorem resolve_agrees_iff_one_note :
    ∃ s' τ, seedWith oneNote = .ok s' ∧ walkFrom s' = .ok (τ, .atom 2) ∧ ∀ anchor anchor_block,
        (validated.stores.resolveShieldedAnchor Crypto.sample anchorParams fullView anchor
          anchor_block (.atom 2) (dag.blue_score (.atom 4)) (dag.daa_score (.atom 4))).is_final =
        (τ.stores.resolveShieldedAnchor Crypto.sample anchorParams fullView anchor anchor_block
          (.atom 2) (dag.blue_score (.atom 4)) (dag.daa_score (.atom 4))).is_final := by
  have hread : readAtTwo oneNote (fun s' t =>
      (decide (s'.shieldedStateRootAt Crypto.sample dag params (.atom 1) = .ok committedRoot),
        decide ((validated.stores.windowEntry (.atom 2)).map (·.root) =
          (t.windowEntry (.atom 2)).map (·.root)))) = some (.atom 2, true, true) := by
            decide +kernel
  obtain ⟨s', τ, hseed, hwalk, hpair, hsame⟩ := exists_of_readAtTwo hread
  obtain ⟨hroot, hentry⟩ := Prod.mk.inj hpair
  have hprior : ∀ b e, (empty : ShieldedStores Term ℚ).windowEntry b = some e →
      b ∈ dag.path (.atom 1) ∧ validated.stores.windowEntry b = some e :=
    fun b e h => absurd h (some_ne_none e).symm
  have hiff := resolve_agrees_iff (P := anchorParams) sample_collisionFree.tree
    sample_collisionFree.muhash.emptyDistinct sample_collisionFree.state_roots
    sample_collisionFree.anchor_logs dag_daaMonotone run_mintCalls (self_mem_path _)
    (by decide) (by decide) (by decide) root_committed hprior hseed hwalk
    (valid_of_root (hsame.trans (of_decide_eq_true hroot))) (by decide) rfl
    (fullView_full params (.atom 4) (.atom 2))
    (fullView_pruned params (.atom 1) (.atom 4) (.atom 2))
  exact ⟨s', τ, hseed, hwalk, hiff.mpr fun _ _ => of_decide_eq_true hentry⟩

end Sample

end Zkas
