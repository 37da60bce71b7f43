import Zkas.Consensus.BlockRows
import Zkas.Consensus.Import

/-!
# What an import checks and writes

`BindingSpec` and `VerifySpec` say what the two checks of an import accept, and `seed_spec` what the
seeded stores hold. -/

namespace Zkas

open Function (update)
open Word List Except ShieldedStores

variable {H N G : Type} {C : Crypto H N G} {D : BlockDag H} {P : SecurityParams}
  {md : PruningPointShieldedMetadata H G} {pp : H} {log : AnchorLog H} {nullifiers : List H}
  {proven : List (WindowEntry H × AnchorLog H)}

/-! ## The proven entries and the batches -/

theorem pairWithLogs_eq_ok {entries : List (WindowEntry H)}
    (h : pairWithLogs C log entries = .ok proven) :
    proven.map (·.1) = entries ∧ ∀ front e before back, proven = front ++ (e, before) :: back →
        log.appendAll C.hf (front.map (·.1)) = .ok before := by
  induction entries generalizing log proven with
  | nil =>
    obtain rfl := ok.inj h
    exact ⟨rfl, fun front e before back hsplit => by simp at hsplit⟩
  | cons e entries ih =>
    unfold pairWithLogs at h
    simp only [bind_eq_ok_iff, mapError_eq_ok] at h
    obtain ⟨next, hnext, rest, hrest, heq⟩ := h
    obtain rfl := ok.inj heq
    obtain ⟨hentries, hlogs⟩ := ih hrest
    refine ⟨by rw [map_cons, hentries], fun front e' before back hsplit => ?_⟩
    cases front with
    | nil =>
      obtain ⟨hpair, -⟩ := cons.inj hsplit
      obtain ⟨-, rfl⟩ := Prod.mk.inj hpair
      rfl
    | cons p front =>
      obtain ⟨rfl, htail⟩ := cons.inj hsplit
      have hback := hlogs front e' before back htail
      rw [map_cons, AnchorLog.appendAll, foldlM_cons, hnext, ok_bind]
      exact hback

theorem exists_pairWithLogs {last : AnchorLog H} {entries : List (WindowEntry H)}
    (h : log.appendAll C.hf entries = .ok last) :
      ∃ proven, pairWithLogs C log entries = .ok proven := by
  induction entries generalizing log with
  | nil => exact ⟨[], rfl⟩
  | cons e entries ih =>
    rw [AnchorLog.appendAll, foldlM_cons, bind_eq_ok_iff] at h
    obtain ⟨next, hnext, htail⟩ := h
    obtain ⟨rest, hrest⟩ := ih htail
    refine ⟨(e, log) :: rest, ?_⟩
    unfold pairWithLogs
    rw [hnext, mapError_eq_ok.mpr rfl, ok_bind, hrest]
    rfl

theorem dev_check_iff {dev_accrued : U64} {accrual ended : Bool} :
    ¬(dev_accrued ≠ 0 ∧ (!accrual ∨ ended)) ↔
      (dev_accrued ≠ 0 → accrual = true ∧ ended = false) := by
  cases accrual <;> cases ended <;> simp

theorem collectBatches_eq_ok {count : ℕ} {acc : List H} {batches : List (List H)}
    (h : collectBatches count acc batches = .ok nullifiers) :
    nullifiers = acc ++ batches.flatten := by
  induction batches generalizing acc with
  | nil =>
    rw [← ok.inj h, flatten_nil, append_nil]
  | cons batch batches ih =>
    unfold collectBatches at h
    split_ifs at h
    rw [ih h, flatten_cons, append_assoc]

variable [DecidableEq H]

/-! ## The binding -/

variable (C D P) in
/-- What the binding of a post-fork pruning point accepts, with the replayed log. -/
structure BindingSpec (pp : H) (md : PruningPointShieldedMetadata H G) (committed : H)
    (window : AnchorLog H) : Prop where
  dev : md.dev_accrued ≠ 0 → P.dev_fee_accrual_activation.isActive (D.daa_score pp) = true ∧
    P.dev_fee_end_activation.isActive (D.daa_score pp) = false
  max_entries : md.window_entries.length ≤ P.anchorLogMaxEntries
  well_formed : md.window_prefix.isWellFormed
  replay : md.window_prefix.replay C.hf md.window_entries = .ok window
  last : md.window_entries.getLast?.map (·.block) = some pp
  coverage : md.window_prefix.count ≠ 0 → ∀ e ∈ md.window_entries.head?,
    e.blue_score.toNat ≤ (P.oldestUsable D pp).toNat
  root : shieldedStateRootV1 C.hf md.state_root md.dev_accrued (window.commitment C.hf)
    (minerAccrualRef md.miner_accrual) = committed

/-- The checks of a replayed log succeed exactly when the log ends at the pruning point, covers the
usable sources and has the committed root. -/
theorem verifyReplayedWindow_eq_ok {committed : H} {window : Option (AnchorLog H)} :
    verifyReplayedWindow C D P pp md committed log = .ok window ↔
      window = some log ∧ md.window_entries.getLast?.map (·.block) = some pp ∧
        ( md.window_prefix.count ≠ 0 → ∀ e ∈ md.window_entries.head?,
          e.blue_score.toNat ≤ (P.oldestUsable D pp).toNat) ∧
        shieldedStateRootV1 C.hf md.state_root md.dev_accrued (log.commitment C.hf)
          (minerAccrualRef md.miner_accrual) = committed := by
  unfold verifyReplayedWindow
  simp only
  constructor
  · intro h
    split_ifs at h with hlast hcover hroot
    refine ⟨(ok.inj h).symm, not_not.mp hlast, fun hcount e he => ?_, not_not.mp hroot⟩
    rw [not_and, not_lt] at hcover
    have hfirst := hcover hcount
    rwa [Option.mem_def.mp he] at hfirst
  · rintro ⟨rfl, hlast, hcoverage, hroot⟩
    have hcover : ¬( md.window_prefix.count ≠ 0 ∧ (P.oldestUsable D pp).toNat <
        md.window_entries.head?.elim (2 ^ 64 - 1) (·.blue_score.toNat)) := by
      rintro ⟨hcount, hlt⟩
      cases hhead : md.window_entries.head? with
      | none =>
        rw [head?_eq_none_iff.mp hhead] at hlast
        cases hlast
      | some e =>
        have hle := hcoverage hcount e hhead
        rw [hhead] at hlt
        exact absurd hlt (not_lt.mpr hle)
    rw [if_neg (not_not.mpr hlast), if_neg hcover, if_neg (not_not.mpr hroot)]

/-- The binding of a post-fork pruning point succeeds exactly when `BindingSpec` holds. -/
theorem verifyImportBindingVersioned_eq_ok (hpost : P.isPostSecurityFork D pp = true)
    {committed : H} {window : Option (AnchorLog H)} :
    verifyImportBindingVersioned C D P pp md committed = .ok window ↔
      ∃ log, window = some log ∧ BindingSpec C D P pp md committed log := by
  have hactive : P.security_fork_activation.isActive (D.daa_score pp) = true := hpost
  unfold verifyImportBindingVersioned
  simp only [hactive, Bool.not_true, Bool.false_eq_true, if_false]
  constructor
  · intro h
    split_ifs at h with hdev hmax hwf
    rw [bind_eq_ok_iff] at h
    obtain ⟨log, hreplay, h⟩ := h
    obtain ⟨hwindow, hlast, hcover, hroot⟩ := verifyReplayedWindow_eq_ok.mp h
    exact ⟨log, hwindow, dev_check_iff.mp hdev, Nat.le_of_not_lt hmax, by simpa using hwf,
      mapError_eq_ok.mp hreplay, hlast, hcover, hroot⟩
  · rintro ⟨log, hwindow, hspec⟩
    have hreplay : ( md.window_prefix.replay C.hf md.window_entries).mapError
        (Fault.map fun e => s!"pruning-point anchor log: {e}") = .ok log :=
      mapError_eq_ok.mpr hspec.replay
    rw [if_neg (dev_check_iff.mpr hspec.dev), if_neg (not_lt.mpr hspec.max_entries),
      if_neg (by simpa using hspec.well_formed), hreplay, ok_bind]
    exact verifyReplayedWindow_eq_ok.mpr ⟨hwindow, hspec.last, hspec.coverage, hspec.root⟩

theorem persistEntries_of_ne {s : ShieldedStores H G} {b : H} (hne : ∀ p ∈ proven, p.1.block ≠ b) :
    (s.persistEntries proven).anchor_entries b = s.anchor_entries b := by
  induction proven generalizing s with
  | nil => rfl
  | cons p proven ih =>
    have hp : b ≠ p.1.block := (hne p mem_cons_self).symm
    have hrest := ih (s := { s with
      anchor_entries := update s.anchor_entries p.1.block (some (p.1, p.2)) }) fun q hq =>
        hne q (mem_cons_of_mem _ hq)
    exact hrest.trans (Function.update_of_ne hp _ _)

theorem getD_update_some {ν : Type} (store : H → Option ν) (block : H) (v d : ν) :
    (update store block (some v) block).getD d = v := by
  rw [Function.update_self, Option.getD_some]

variable [CommGroupWithZero G]

/-! ## The check of the parts -/

variable (C) in
/-- What the check of the metadata against the streamed nullifiers accepts. -/
structure VerifySpec (md : PruningPointShieldedMetadata H G) (nullifiers : List H) : Prop where
  normalized : md.nullifier_muhash.denominator = 1
  anchors : md.in_window_anchors.length ≤ MAX_IMPORTED_IN_WINDOW_ANCHORS
  scores : md.in_window_anchor_source_scores.length ≤ MAX_IMPORTED_IN_WINDOW_ANCHORS
  burns : md.burns = []
  muhash : (MuHash.new.addAll C.mf nullifiers).finalize C.mf = md.nullifier_muhash.finalize C.mf
  notes : nullifiers.length ≤ md.frontier.size
  root : recomputeStateRoot C md.frontier md.supply md.nullifier_muhash md.burns = .ok md.state_root

theorem verifyPruningPointShielded_eq_ok [DecidableEq G] {n : ℕ} :
    verifyPruningPointShielded C md nullifiers = .ok n ↔
      n = nullifiers.length ∧ VerifySpec C md nullifiers := by
  unfold verifyPruningPointShielded
  simp only
  constructor
  · intro h
    split_ifs at h with hden hanchors hscores hburns hceiling hmuhash hnotes
    rw [bind_eq_ok_iff] at h
    obtain ⟨root, hroot, h⟩ := h
    split_ifs at h with heq
    obtain rfl := ok.inj h
    have hnoburns : md.burns = [] := by
      by_contra hne
      exact hburns ⟨hne, rfl⟩
    rw [mapError_eq_ok, not_not.mp heq] at hroot
    exact ⟨rfl, not_not.mp hden, Nat.le_of_not_lt hanchors, Nat.le_of_not_lt hscores, hnoburns,
      not_not.mp hmuhash, Nat.le_of_not_lt hnotes, hroot⟩
  · rintro ⟨rfl, hspec⟩
    have hceiling : ¬MAX_IMPORTED_BURN_RECEIPTS < md.burns.length := by
      rw [hspec.burns]
      exact Nat.not_lt_zero _
    rw [if_neg (not_not.mpr hspec.normalized), if_neg (not_lt.mpr hspec.anchors),
      if_neg (not_lt.mpr hspec.scores), if_neg (fun hb => hb.1 hspec.burns), if_neg hceiling,
      if_neg (not_not.mpr hspec.muhash), if_neg (not_lt.mpr hspec.notes), hspec.root]
    simp only [Except.mapError, ok_bind, ne_eq, not_true_eq_false, if_false]
    rfl

/-! ## The seeded stores -/

/-- What the stores hold after the seed of a post-fork pruning point. -/
structure SeedSpec (s s' : ShieldedStores H G) (pp : H) (md : PruningPointShieldedMetadata H G)
    (window : AnchorLog H) (proven : List (WindowEntry H × AnchorLog H)) (nullifiers : List H) :
    Prop where
  frontier : s'.frontierAt pp = md.frontier
  supply : s'.supplyTotalsAt pp = md.supply
  muhash : s'.nullifierMuhashAt pp = md.nullifier_muhash
  burns : s'.burnsAt pp = md.burns
  dev : s'.devAccruedAt pp = md.dev_accrued
  slot : s'.minerAccrualAt pp = md.miner_accrual.normalize
  log : s'.anchor_window pp = some window
  nullifiers : s'.nullifiers = nullifiers.toFinset
  entries : s'.anchor_entries = (s.persistEntries proven).anchor_entries
  scores : s'.anchor_source_scores = lastScore ((proven.map (·.1)).foldl addScore [])
  others : ∀ b, b ≠ pp → (∀ p ∈ proven, p.1.block ≠ b) → s'.rows b = s.rows b

/-- The stores after clearing, seeding and writing the log. -/
theorem seed_spec {s seeded : ShieldedStores H G} {window : AnchorLog H}
    (hE : C.mf.EmptyDistinct) (hden : md.nullifier_muhash.denominator = 1)
    (h : (s.clearForPruningReimport pp).seedPruningPointShielded C pp (addProvenEntries
      { md with in_window_anchors := [], in_window_anchor_source_scores := [] } proven) nullifiers =
        .ok seeded) :
    SeedSpec s ((seeded.persistWindowOnly pp window).persistEntries proven) pp md window proven
      nullifiers := by
  unfold seedPruningPointShielded at h
  rw [bind_eq_ok_iff] at h
  obtain ⟨tree, -, h⟩ := h
  obtain rfl := ok.inj h
  have hcleared : ∀ {ν : Type} (store : H → Option ν), update store pp none pp = none :=
    fun store => Function.update_self _ _ _
  refine ⟨?_, ?_, ?_, ?_, ?_, ?_, ?_, ?_, rfl, ?_, fun b hb hp => ?_⟩
  · exact getD_update_some _ pp md.frontier _
  · exact getD_update_self (hcleared _) fun hzero => SupplyTotals.eq_default_of_not_pos hzero
  · exact getD_update_self (hcleared _) fun hempty =>
      MuHash.eq_new_of_finalize hE hden (not_not.mp hempty)
  · exact getD_update_self (hcleared _) fun hempty => not_not.mp hempty
  · exact getD_update_some _ pp md.dev_accrued _
  · have hslot : ∀ store : H → Option MinerAccrual, (update store pp
        (if md.miner_accrual.isEmpty then none else some md.miner_accrual) pp).getD .default =
          md.miner_accrual.normalize := fun store => by
      rw [Function.update_self, MinerAccrual.normalize]
      split_ifs <;> rfl
    exact hslot _
  · exact Function.update_self _ _ _
  · exact Finset.empty_union _
  · funext source
    have hnone : ∀ o : Option U64, (o.orElse fun _ => none) = o := fun o => by cases o <;> rfl
    exact hnone _
  · have hentry : ((s.clearForPruningReimport pp).persistEntries proven).anchor_entries b =
        s.anchor_entries b := persistEntries_of_ne hp
    rw [BlockRows.mk.injEq]
    refine ⟨rfl, ?_, ?_, ?_, ?_, ?_, ?_, ?_, hentry⟩
    · exact (Function.update_of_ne hb _ _).trans (Function.update_of_ne hb _ _)
    · exact (update_of_ne hb).trans (Function.update_of_ne hb _ _)
    · exact (Function.update_of_ne hb _ _).trans (Function.update_of_ne hb _ _)
    · exact (Function.update_of_ne hb _ _).trans (Function.update_of_ne hb _ _)
    · exact (update_of_ne hb).trans (Function.update_of_ne hb _ _)
    · exact (update_of_ne hb).trans (Function.update_of_ne hb _ _)
    · exact (Function.update_of_ne hb _ _).trans (Function.update_of_ne hb _ _)

omit [DecidableEq H] in
theorem VerifySpec.tree (h : VerifySpec C md nullifiers) :
    ∃ tree, GlobalTree.fromState C.T md.frontier = .ok tree := by
  have hroot := h.root
  unfold recomputeStateRoot at hroot
  rw [bind_eq_ok_iff] at hroot
  obtain ⟨tree, htree, -⟩ := hroot
  exact ⟨tree, htree⟩

theorem exists_seedPruningPointShielded (s : ShieldedStores H G) (block : H) (nullifiers : List H)
    {tree : GlobalTree C.T}
    (htree : GlobalTree.fromState C.T md.frontier = .ok tree) :
    ∃ seeded, s.seedPruningPointShielded C block md nullifiers = .ok seeded ∧
      seeded.nullifiers = s.nullifiers ∪ nullifiers.toFinset := by
  unfold seedPruningPointShielded
  rw [htree]
  exact ⟨_, rfl, rfl⟩

/-! ## The seed of the processor and the import -/

section

variable [DecidableEq G] {W : WireFormat H G} {view : HeaderView H} {s s' : ShieldedStores H G}
  {metadata : ShieldedExportMetadata} {committed : H}

/-- A seed of a post-fork pruning point that succeeds: its metadata met both checks, and the stores
hold what `SeedSpec` says. -/
theorem processorSeed_eq_ok (hE : C.mf.EmptyDistinct) (hpost : P.isPostSecurityFork D pp = true)
    (h : s.processorSeed C D P W view pp metadata (some committed) nullifiers = .ok s') :
    ∃ md window proven, W.fromWireBytes metadata.data = .ok md ∧
      BindingSpec C D P pp md committed window ∧ VerifySpec C md nullifiers ∧
      pairWithLogs C md.window_prefix md.window_entries = .ok proven ∧
      SeedSpec s s' pp md window proven nullifiers := by
  unfold processorSeed at h
  simp only [bind_eq_ok_iff, mapError_eq_ok] at h
  obtain ⟨md, hmd, window, hbinding, n, hverify, ⟨md', proven⟩, hproven, h⟩ := h
  obtain ⟨window, rfl, hspec⟩ := (verifyImportBindingVersioned_eq_ok hpost).mp hbinding
  obtain ⟨-, hchecked⟩ := verifyPruningPointShielded_eq_ok.mp hverify
  split_ifs at h with hcount
  rw [bind_eq_ok_iff] at h
  obtain ⟨seeded, hseed, h⟩ := h
  obtain rfl := ok.inj h
  simp only [provenMetadata, bind_eq_ok_iff] at hproven
  obtain ⟨proven', hlogs, heq⟩ := hproven
  obtain ⟨rfl, rfl⟩ := Prod.mk.inj (ok.inj heq)
  exact ⟨md, window, proven', hmd, hspec, hchecked, hlogs, seed_spec hE hchecked.normalized hseed⟩

/-- A post-fork pruning point whose metadata meets both checks, with as many nullifiers as declared,
is seeded. -/
theorem exists_processorSeed (hpost : P.isPostSecurityFork D pp = true) {window : AnchorLog H}
    (hmd : W.fromWireBytes metadata.data = .ok md)
    (hbinding : BindingSpec C D P pp md committed window) (hverify : VerifySpec C md nullifiers)
    (hcount : nullifiers.length = metadata.nullifier_count.toNat) :
    ∃ s', s.processorSeed C D P W view pp metadata (some committed) nullifiers = .ok s' := by
  have happend := (AnchorLog.replay_eq_ok.mp hbinding.replay).2
  obtain ⟨proven, hproven⟩ := exists_pairWithLogs happend
  have hlogs : provenMetadata C (retainProvableWindowAnchors D P view pp md) (some window) =
      .ok (addProvenEntries { md with
        in_window_anchors := [], in_window_anchor_source_scores := [] } proven, proven) := by
    unfold provenMetadata
    have hsame : pairWithLogs C
        ( PruningPointShieldedMetadata.window_prefix (retainProvableWindowAnchors D P view pp md))
        (retainProvableWindowAnchors D P view pp md).window_entries = .ok proven := hproven
    simp only [hsame]
    rfl
  obtain ⟨tree, htree⟩ := hverify.tree
  unfold processorSeed
  rw [hmd, mapError_eq_ok.mpr rfl, ok_bind]
  simp only [(verifyImportBindingVersioned_eq_ok hpost).mpr ⟨window, rfl, hbinding⟩,
    verifyPruningPointShielded_eq_ok.mpr ⟨rfl, hverify⟩, hlogs, ok_bind, hcount, ne_eq,
    not_true_eq_false, if_false]
  have hload : GlobalTree.fromState C.T (addProvenEntries { md with
      in_window_anchors := [], in_window_anchor_source_scores := [] } proven).frontier = .ok tree :=
    htree
  obtain ⟨seeded, hseeded, -⟩ := exists_seedPruningPointShielded (s.clearForPruningReimport pp) pp
    nullifiers hload
  rw [hseeded]
  exact ⟨_, rfl⟩

/-- An import that succeeds is a seed with the committed root and the streamed nullifiers. -/
theorem importPruningPointShielded_eq_ok {expected : Option H} {batches : List (List H)}
    (h : importPruningPointShielded C D P W view s pp metadata expected batches = .ok s') :
    s.processorSeed C D P W view pp metadata expected batches.flatten = .ok s' := by
  unfold importPruningPointShielded at h
  simp only at h
  split_ifs at h
  rw [bind_eq_ok_iff] at h
  obtain ⟨md, -, h⟩ := h
  cases expected with
  | none => split at h <;> cases h
  | some committed =>
    split at h
    · cases h
    rw [bind_eq_ok_iff] at h
    obtain ⟨window, -, h⟩ := h
    split_ifs at h
    rw [bind_eq_ok_iff] at h
    obtain ⟨nullifiers, hcollect, hseed⟩ := h
    rwa [collectBatches_eq_ok hcollect, nil_append] at hseed

end

end Zkas
