import Zkas.Consensus.ImportBinding

/-!
# The export of an anchor log

A node serves the log entries of a pruning point down to the first one at or below the oldest usable
score, or to the start of the log (`exportFrom_eq`). On a validated chain this stretch meets every
check of the importer, and once it is seeded the same walk returns the same: an export reproduces
itself. -/

namespace Zkas

open Word List Option Except ShieldedStores AnchorLog

variable {H N G : Type}

/-! ## The walk -/

/-- The walk stops at an entry: the log starts with it, or its score is at or below the oldest
usable one. -/
def StopsAt (oldest_usable : U64) (p : WindowEntry H × AnchorLog H) : Prop :=
  p.2.count = 0 ∨ p.1.blue_score.toNat ≤ oldest_usable.toNat

instance decidableStopsAt (oldest_usable : U64) :
    DecidablePred (StopsAt (H := H) oldest_usable) :=
  fun p => inferInstanceAs (Decidable (p.2.count = 0 ∨ p.1.blue_score.toNat ≤ oldest_usable.toNat))

/-- The walk over a stored stretch of linked entries, newest first, of which only the last one stops
it. -/
theorem exportFrom_eq {s : ShieldedStores H G} {oldest_usable : U64}
    {newer : List (WindowEntry H × AnchorLog H)} {last : WindowEntry H × AnchorLog H}
    (hstored : ∀ p ∈ newer ++ [last], s.anchor_entries p.1.block = some p)
    (hlinks : List.IsChain (fun p q => p.1.parent = q.1.block) (newer ++ [last])) {cursor : H}
    (hcursor : ∀ p ∈ (newer ++ [last]).head?, p.1.block = cursor)
    (hgo : ∀ p ∈ newer, ¬StopsAt oldest_usable p) (hstop : StopsAt oldest_usable last)
    {remaining : ℕ} (hroom : newer.length ≤ remaining) (entries : List (WindowEntry H)) :
    s.exportFrom oldest_usable remaining cursor entries =
      some ((entries ++ (newer ++ [last]).map (·.1)).reverse, last.2) := by
  induction newer generalizing cursor remaining entries with
  | nil =>
    obtain rfl : last.1.block = cursor := hcursor last rfl
    have hread : s.anchor_entries last.1.block = some (last.1, last.2) :=
      hstored last (mem_singleton_self last)
    have hhere : last.2.count = 0 ∨ last.1.blue_score.toNat ≤ oldest_usable.toNat := hstop
    unfold exportFrom
    simp only [hread]
    rw [if_pos hhere]
    rfl
  | cons p newer ih =>
    obtain rfl : p.1.block = cursor := hcursor p rfl
    have hread : s.anchor_entries p.1.block = some (p.1, p.2) := hstored p mem_cons_self
    have hnot : ¬(p.2.count = 0 ∨ p.1.blue_score.toNat ≤ oldest_usable.toNat) := hgo p mem_cons_self
    rw [length_cons] at hroom
    obtain ⟨remaining, rfl⟩ : ∃ n, remaining = n + 1 := Nat.exists_eq_succ_of_ne_zero (by omega)
    have hroom' : newer.length ≤ remaining := by omega
    have hnext : ∀ q ∈ (newer ++ [last]).head?, q.1.block = p.1.parent := fun q hq =>
      ((isChain_cons.mp hlinks).1 q hq).symm
    have htail := ih (fun q hq => hstored q (mem_cons_of_mem _ hq))
      (isChain_cons.mp hlinks).2 hnext (fun q hq => hgo q (mem_cons_of_mem _ hq))
      hroom' (entries ++ [p.1])
    unfold exportFrom
    simp only [hread]
    rw [if_neg hnot, htail, append_assoc]
    rfl

theorem exists_last_of_mem {α : Type} {p : α → Prop} [DecidablePred p] {xs : List α} {x : α}
    (hx : x ∈ xs) (hp : p x) :
    ∃ front y back, xs = front ++ y :: back ∧ p y ∧ ∀ z ∈ back, ¬p z := by
  have hsome : (xs.reverse.find? fun z => decide (p z)).isSome := by
    rw [find?_isSome]
    exact ⟨x, mem_reverse.mpr hx, decide_eq_true hp⟩
  obtain ⟨y, hy⟩ := isSome_iff_exists.mp hsome
  obtain ⟨hpy, after, before, hsplit, hafter⟩ := find?_eq_some_iff_append.mp hy
  refine ⟨before.reverse, y, after.reverse, ?_, of_decide_eq_true hpy, fun z hz => ?_⟩
  · rw [← reverse_reverse xs, hsplit]
    simp
  · have hz' := hafter z (mem_reverse.mp hz)
    simpa using hz'

theorem blue_score_lt_of_follows {front back : List (WindowEntry H)} {e e' : WindowEntry H}
    (h : List.IsChain WindowEntry.Follows (front ++ e :: back)) (he' : e' ∈ back) :
    e.blue_score.toNat < e'.blue_score.toNat := by
  have hchain : List.IsChain (fun a b : WindowEntry H => a.blue_score.toNat < b.blue_score.toNat)
      (e :: back) := h.right_of_append.imp fun _ _ hab => hab.1
  have hpairwise := (isChain_iff_pairwise
    (R := fun a b : WindowEntry H => a.blue_score.toNat < b.blue_score.toNat)).mp hchain
  exact rel_of_pairwise_cons hpairwise he'

theorem blue_score_add_length_le {e last : WindowEntry H} {es : List (WindowEntry H)}
    (h : List.IsChain WindowEntry.Follows (e :: es)) (hlast : (e :: es).getLast? = some last) :
    e.blue_score.toNat + es.length ≤ last.blue_score.toNat := by
  induction es generalizing e with
  | nil =>
    obtain rfl : e = last := some.inj hlast
    exact le_rfl
  | cons e' es ih =>
    have hstep : e.blue_score.toNat < e'.blue_score.toNat := (isChain_cons_cons.mp h).1.1
    have htail := ih (isChain_cons_cons.mp h).2 hlast
    rw [length_cons]
    omega

theorem anchorLogMaxEntries_eq (P : SecurityParams) :
    P.anchorLogMaxEntries = min (P.max_shielded_anchor_age.toNat + 2) (2 ^ 64 - 1) := by
  have htwo : (2 : U64).toNat = 2 := rfl
  unfold SecurityParams.anchorLogMaxEntries
  by_cases hfits : P.max_shielded_anchor_age.toNat + (2 : U64).toNat < 2 ^ 64
  · rw [toNat_saturatingAdd_of_lt hfits, htwo]
    omega
  · rw [saturatingAdd, if_neg hfits, BitVec.toNat_allOnes]
    omega

/-! ## The stretch of a pruning point -/

variable [DecidableEq H]

section

variable {C : Crypto H N G} {D : BlockDag H} {P : SecurityParams}

/-- A block of the log belongs to the stretch an export of `pp` visits: every block of the log above
it has a score above the oldest usable one. -/
def InStretch (D : BlockDag H) (P : SecurityParams) (pp b : H) : Prop :=
  b ∈ logBlocks D P pp ∧ ∀ x ∈ logBlocks D P pp, (D.blue_score b).toNat < (D.blue_score x).toNat →
      (P.oldestUsable D pp).toNat < (D.blue_score x).toNat

variable (C D P) in
/-- The entries an export visits, oldest first, with the logs before them. -/
structure Stretch (σ : ProcessorState H G) (pp : H) (last : WindowEntry H × AnchorLog H)
    (newer : List (WindowEntry H × AnchorLog H)) : Prop where
  stops : StopsAt (P.oldestUsable D pp) last
  goes_on : ∀ p ∈ newer, ¬StopsAt (P.oldestUsable D pp) p
  stored : ∀ p ∈ last :: newer, σ.stores.anchor_entries p.1.block = some p
  within : ∀ p ∈ last :: newer, InStretch D P pp p.1.block
  follows : List.IsChain WindowEntry.Follows ((last :: newer).map (·.1))
  ends : ((last :: newer).map (·.1)).getLast?.map (·.block) = some pp
  scores : ∀ p ∈ last :: newer, p.1.blue_score = D.blue_score p.1.block ∧ p.1.block ≠ D.root
  start : ∃ front, AnchorLog.default.appendAll C.hf front = .ok last.2 ∧
    σ.stores.logEntries D P pp = front ++ (last :: newer).map (·.1)

namespace Stretch

variable {σ : ProcessorState H G} {pp : H} {last : WindowEntry H × AnchorLog H}
  {newer : List (WindowEntry H × AnchorLog H)} (h : Stretch C D P σ pp last newer)
include h

theorem getLast_score : ∃ e,
    ((last :: newer).map (·.1)).getLast? = some e ∧ e.blue_score = D.blue_score pp := by
  obtain ⟨e, he, hblock⟩ := map_eq_some_iff.mp h.ends
  obtain ⟨p, hp, rfl⟩ := mem_map.mp (mem_of_getLast? he)
  exact ⟨p.1, he, by rw [(h.scores p hp).1, hblock]⟩

/-- A stretch has no more entries than an import accepts: below the newest entry the scores drop by
one at least, down to above the oldest usable score and the start of the chain. -/
theorem length_le : (last :: newer).length ≤ P.anchorLogMaxEntries := by
  obtain ⟨e, hlast, hscore⟩ := h.getLast_score
  have holdest : (P.oldestUsable D pp).toNat =
      (D.blue_score pp).toNat - P.max_shielded_anchor_age.toNat := toNat_saturatingSub _ _
  rw [anchorLogMaxEntries_eq, length_cons]
  cases newer with
  | nil =>
    rw [length_nil]
    omega
  | cons q rest =>
    have hnot := h.goes_on q mem_cons_self
    unfold StopsAt at hnot
    have hpos : 0 < last.1.blue_score.toNat := by
      obtain ⟨hself, hroot⟩ := h.scores last mem_cons_self
      have hgrows := D.blue_score_lt last.1.block hroot
      rw [hself]
      omega
    have hall : last.1.blue_score.toNat + ((q :: rest).map (·.1)).length ≤ e.blue_score.toNat :=
      blue_score_add_length_le h.follows hlast
    have htail : q.1.blue_score.toNat + (rest.map (·.1)).length ≤ e.blue_score.toNat := by
      refine blue_score_add_length_le (isChain_cons_cons.mp h.follows).2 ?_
      rwa [map_cons, map_cons, getLast?_cons_cons] at hlast
    rw [hscore] at hall htail
    rw [length_map] at htail
    rw [length_map, length_cons] at hall
    rw [length_cons]
    omega

/-- A node that stores the entries of a stretch with some logs, of which only the oldest stops the
walk, exports the entries and the oldest log. -/
theorem export_eq {s : ShieldedStores H G} {last' : WindowEntry H × AnchorLog H}
    {newer' : List (WindowEntry H × AnchorLog H)}
    (hentries : (last' :: newer').map (·.1) = (last :: newer).map (·.1))
    (hstored : ∀ p ∈ last' :: newer', s.anchor_entries p.1.block = some p)
    (hstops : StopsAt (P.oldestUsable D pp) last')
    (hgo : ∀ p ∈ newer', ¬StopsAt (P.oldestUsable D pp) p) :
    s.anchorLogExport D P pp = some ((last :: newer).map (·.1), last'.2) := by
  have hreverse : newer'.reverse ++ [last'] = (last' :: newer').reverse := by rw [reverse_cons]
  have hlinks : List.IsChain (fun p q : WindowEntry H × AnchorLog H => p.1.parent = q.1.block)
      (newer'.reverse ++ [last']) := by
    have hfollows := h.follows
    rw [← hentries, isChain_map] at hfollows
    rw [hreverse, isChain_reverse]
    exact hfollows.imp fun _ _ hpq => hpq.2
  have hcursor : ∀ p ∈ (newer'.reverse ++ [last']).head?, p.1.block = pp := by
    intro p hp
    have hends := h.ends
    rw [hreverse, head?_reverse] at hp
    rw [← hentries, getLast?_map, mem_def.mp hp] at hends
    exact some.inj hends
  have hlen : newer'.length = newer.length := by simpa using congrArg length hentries
  have hroom : newer'.reverse.length ≤ P.anchorLogMaxEntries := by
    have hle := h.length_le
    rw [length_cons] at hle
    rw [length_reverse, hlen]
    omega
  have hwalk := exportFrom_eq (s := s) (fun p hp => hstored p (by
      rw [hreverse] at hp
      exact mem_reverse.mp hp)) hlinks hcursor
    (fun p hp => hgo p (mem_reverse.mp hp)) hstops hroom []
  unfold anchorLogExport
  rw [hwalk, nil_append, hreverse, ← map_reverse, reverse_reverse, hentries]

end Stretch

theorem persistEntries_of_mem {s : ShieldedStores H G}
    {proven : List (WindowEntry H × AnchorLog H)} (hnodup : (proven.map (·.1.block)).Nodup)
    {p : WindowEntry H × AnchorLog H} (hp : p ∈ proven) :
    (s.persistEntries proven).anchor_entries p.1.block = some p := by
  induction proven generalizing s with
  | nil => cases hp
  | cons q proven ih =>
    rw [map_cons, nodup_cons] at hnodup
    rcases mem_cons.mp hp with rfl | hp
    · have hlater : ∀ r ∈ proven, r.1.block ≠ p.1.block := fun r hr heq =>
        hnodup.1 (heq ▸ mem_map_of_mem hr)
      have hkept := persistEntries_of_ne (s := { s with
        anchor_entries := Function.update s.anchor_entries p.1.block (some (p.1, p.2)) }) hlater
      exact hkept.trans (Function.update_self _ _ _)
    · exact ih (s := { s with
        anchor_entries := Function.update s.anchor_entries q.1.block (some (q.1, q.2)) })
          hnodup.2 hp

variable [CommGroupWithZero G]

theorem ProcessorInvariant.exists_stretch {V : H → BlockVerdict H N → Prop}
    {σ : ProcessorState H G} (h : ProcessorInvariant C D P V σ) {pp : H} (hpp : pp ∈ σ.utxo_diffs)
    (hne : pp ≠ D.root) (hpost : P.isPostSecurityFork D pp = true) :
    ∃ last newer, Stretch C D P σ pp last newer := by
  have hlog := h.logFacts hpp
  have hnonempty : σ.stores.logPairs D P pp ≠ [] := by
    intro hnil
    have hblocks := hlog.blocks
    rw [← map_logPairs, hnil, logBlocks_of_post hne hpost] at hblocks
    simp at hblocks
  -- The first entry of the log always stops the walk.
  obtain ⟨first, rest, hfirst⟩ := exists_cons_of_ne_nil hnonempty
  have hstart : StopsAt (P.oldestUsable D pp) first := by
    have happend := hlog.logs [] first rest hfirst
    exact .inl (congrArg AnchorLog.count (ok.inj happend).symm)
  have hmemfirst : first ∈ σ.stores.logPairs D P pp := by
    rw [hfirst]
    exact mem_cons_self
  obtain ⟨front, last, newer, hsplit, hstops, hgo⟩ :=
    exists_last_of_mem (p := StopsAt (P.oldestUsable D pp)) hmemfirst hstart
  have hentries : σ.stores.logEntries D P pp = front.map (·.1) ++ (last :: newer).map (·.1) := by
    rw [← map_logPairs, hsplit, map_append]
  have hmem {p : WindowEntry H × AnchorLog H} (hp : p ∈ last :: newer) :=
    hlog.stored (p := p) (by rw [hsplit]; exact mem_append_right _ hp)
  have hall := hlog.follows
  rw [hentries] at hall
  refine ⟨last, newer, hstops, hgo, fun p hp => (hmem hp).1, fun p hp => ⟨(hmem hp).2.2, ?_⟩,
    hall.right_of_append, ?_, fun p hp => ⟨(hmem hp).2.1, ?_⟩, front.map (·.1),
    hlog.logs front last newer hsplit, hentries⟩
  · -- A block with a larger score is newer than the last entry, and does not stop the walk.
    intro x hx hlt
    obtain ⟨q, hqx, rfl, hscore⟩ := hlog.own x hx
    have hq : q ∈ σ.stores.logPairs D P pp := mem_filterMap.mpr ⟨_, hx, hqx⟩
    have hle : last.1.blue_score.toNat ≤ p.1.blue_score.toNat := by
      rcases mem_cons.mp hp with rfl | hp
      · exact le_rfl
      · exact (blue_score_lt_of_follows hall (mem_map_of_mem hp)).le
    rw [← hscore, ← (hmem hp).2.1] at hlt
    rw [← hscore]
    rw [hsplit] at hq
    rcases mem_append.mp hq with hold | hnew
    · exfalso
      obtain ⟨as, bs, rfl⟩ := append_of_mem hold
      rw [map_append, map_cons, append_assoc, cons_append] at hall
      have hbefore := blue_score_lt_of_follows hall
        (mem_append_right _ (mem_map_of_mem mem_cons_self))
      omega
    · rcases mem_cons.mp hnew with rfl | hnew
      · omega
      · have hnot := hgo q hnew
        unfold StopsAt at hnot
        omega
  · have hblocks := hlog.blocks
    rw [hentries, map_append, logBlocks_of_post hne hpost] at hblocks
    have hlast := congrArg getLast? hblocks
    rw [getLast?_concat, getLast?_append_of_ne_nil _ (by simp), getLast?_map] at hlast
    exact hlast
  · intro hroot
    have hin := (hmem hp).2.2
    rw [hroot] at hin
    have hkeep := mem_takeWhile_imp (mem_reverse.mp hin)
    simp at hkeep

/-! ## The exported metadata -/

variable (C) in
/-- Metadata that carries what a node reads at a pruning point, with an exported log. -/
structure ExportedWith (s : ShieldedStores H G) (pp : H) (md : PruningPointShieldedMetadata H G)
    (entries : List (WindowEntry H)) (log_before : AnchorLog H) : Prop where
  state_root : s.stateRootAt C pp = .ok md.state_root
  dev : md.dev_accrued = s.devAccruedAt pp
  slot : md.miner_accrual = s.minerAccrualAt pp
  entries : md.window_entries = entries
  log_before : md.window_prefix = log_before

variable (C) in
/-- Metadata that carries also the parts of the state, and no pairs of the peer's. -/
structure ExportedFrom (s : ShieldedStores H G) (pp : H) (md : PruningPointShieldedMetadata H G)
    (entries : List (WindowEntry H)) (log_before : AnchorLog H) : Prop
    extends ExportedWith C s pp md entries log_before where
  frontier : md.frontier = s.frontierAt pp
  supply : md.supply = s.supplyTotalsAt pp
  muhash : md.nullifier_muhash = s.nullifierMuhashAt pp
  burns : md.burns = s.burnsAt pp
  anchors : md.in_window_anchors = []
  scores : md.in_window_anchor_source_scores = []

section

variable {V : H → BlockVerdict H N → Prop} {σ : ProcessorState H G} {s : ShieldedStores H G}
  {pp : H} {last : WindowEntry H × AnchorLog H} {newer : List (WindowEntry H × AnchorLog H)}
  {md : PruningPointShieldedMetadata H G} {window : AnchorLog H}
  (hinv : ProcessorInvariant C D P V σ) (hpp : pp ∈ σ.utxo_diffs)
include hinv hpp

/-- The exported parts meet the check against the nullifiers of the chain, in any order. -/
theorem ExportedFrom.verifySpec {entries : List (WindowEntry H)} {log_before : AnchorLog H}
    (hmd : ExportedFrom C s pp md entries log_before) (hT : C.T.Spec)
    (hburns : ∀ b v, V b v → v.NoBurns) (hnotes : ∀ b v, V b v → v.SpendsNotes)
    (hreads : ReadsAgree s σ.stores pp) {nullifiers : List H}
    (hperm : nullifiers.Perm (σ.stores.chainNullifiers D pp)) : VerifySpec C md nullifiers where
  normalized := by
    rw [hmd.muhash, hreads.muhash, (hinv.chainFacts hT hpp).muhash, MuHash.addAll_denominator]
    rfl
  anchors := by
    rw [hmd.anchors]
    exact Nat.zero_le _
  scores := by
    rw [hmd.scores]
    exact Nat.zero_le _
  burns := by rw [hmd.burns, hreads.burns, hinv.burnsAt_eq_nil hburns hpp]
  muhash := by
    rw [hmd.muhash, hreads.muhash, (hinv.chainFacts hT hpp).muhash, MuHash.addAll_perm C.mf _ hperm]
  notes := by
    rw [hmd.frontier, hreads.frontier, hperm.length_eq]
    exact hinv.length_chainNullifiers_le hT hnotes hpp
  root := by
    have hroot := hmd.state_root
    unfold stateRootAt loadTree at hroot
    simp only [bind_eq_ok_iff, mapError_eq_ok] at hroot
    obtain ⟨tree, htree, heq⟩ := hroot
    unfold recomputeStateRoot
    rw [hmd.frontier, htree, hmd.supply, hmd.muhash, hmd.burns, ok_bind]
    exact congrArg ok (ok.inj heq)

section

variable (h : Stretch C D P σ pp last newer)
include h

theorem Stretch.replay (hwindow : σ.stores.anchor_window pp = some window) :
    last.2.replay C.hf ((last :: newer).map (·.1)) = .ok window := by
  obtain ⟨front, hfront, hentries⟩ := h.start
  obtain ⟨log, hparent, hall⟩ := (hinv.logFacts hpp).log
  obtain rfl : window = log := by
    unfold parentWindow at hparent
    rw [hwindow] at hparent
    exact ok.inj hparent
  rw [hentries] at hall
  obtain ⟨before, hbefore, hrest⟩ := appendAll_split hall
  obtain rfl : before = last.2 := ok.inj (hbefore.symm.trans hfront)
  exact replay_eq_ok.mpr ⟨h.follows, hrest⟩

theorem Stretch.bindingSpec (hV : ∀ b v, V b v → v.DevCarried D P b) (hne : pp ≠ D.root)
    (hwindow : σ.stores.anchor_window pp = some window) (hreads : ReadsAgree s σ.stores pp)
    (hmd : ExportedWith C s pp md ((last :: newer).map (·.1)) last.2) :
    BindingSpec C D P pp md (shieldedStateRootV1 C.hf md.state_root (s.devAccruedAt pp)
      (window.commitment C.hf) (minerAccrualRef (s.minerAccrualAt pp))) window where
  dev := by
    intro hdev
    obtain ⟨v, c, hv, hc⟩ := hinv.committed pp hpp hne
    rw [hmd.dev, hreads.dev, hc.rows.dev] at hdev
    exact hV pp v hv hdev
  max_entries := by
    rw [hmd.entries, length_map]
    exact h.length_le
  well_formed := by
    obtain ⟨front, hfront, -⟩ := h.start
    rw [hmd.log_before]
    exact (appendAll_eq_ok hfront).2 default_isWellFormed
  replay := by
    rw [hmd.entries, hmd.log_before]
    exact h.replay hinv hpp hwindow
  last := by
    rw [hmd.entries]
    exact h.ends
  coverage := by
    intro hcount e he
    rw [hmd.entries] at he
    obtain rfl : last.1 = e := some.inj he
    rw [hmd.log_before] at hcount
    exact h.stops.resolve_left hcount
  root := by rw [hmd.dev, hmd.slot]

theorem Stretch.nodup : (((last :: newer).map (·.1)).map (·.block)).Nodup := by
  obtain ⟨front, -, hentries⟩ := h.start
  have hblocks := (hinv.logFacts hpp).blocks
  have hnodup := nodup_logBlocks (D := D) (P := P) pp
  rw [hentries, map_append] at hblocks
  rw [← hblocks] at hnodup
  exact hnodup.of_append_right

theorem Stretch.reexport {s₀ s' : ShieldedStores H G}
    {proven : List (WindowEntry H × AnchorLog H)} {nullifiers : List H}
    (hproven : pairWithLogs C last.2 ((last :: newer).map (·.1)) = .ok proven)
    (hseed : SeedSpec s₀ s' pp md window proven nullifiers) :
    s'.anchorLogExport D P pp = some ((last :: newer).map (·.1), last.2) := by
  obtain ⟨hentries, hlogs⟩ := pairWithLogs_eq_ok hproven
  have hnonempty : proven ≠ [] := by
    rintro rfl
    cases hentries
  obtain ⟨last', newer', rfl⟩ := exists_cons_of_ne_nil hnonempty
  -- The oldest log is the prefix the entries were replayed onto.
  obtain ⟨hlast, hrest⟩ := cons.inj hentries
  change last'.1 = last.1 at hlast
  have hlog : last'.2 = last.2 := (ok.inj (hlogs [] last'.1 last'.2 newer' rfl)).symm
  have hstored : ∀ p ∈ last' :: newer', s'.anchor_entries p.1.block = some p := by
    intro p hp
    rw [hseed.entries]
    refine persistEntries_of_mem ?_ hp
    have hnodup := h.nodup hinv hpp
    rw [← hentries, List.map_map] at hnodup
    exact hnodup
  have hstops : StopsAt (P.oldestUsable D pp) last' := by
    have hstops := h.stops
    unfold StopsAt at hstops ⊢
    rw [hlog, hlast]
    exact hstops
  have hgo : ∀ p ∈ newer', ¬StopsAt (P.oldestUsable D pp) p := by
    intro p hp
    -- At least the oldest entry is in the log before it, and its score is above the oldest usable.
    obtain ⟨front, back, hsplit⟩ := append_of_mem hp
    have hbefore := hlogs (last' :: front) p.1 p.2 back (by rw [hsplit, cons_append])
    have hcount := (appendAll_eq_ok hbefore).1
    have hmem : p.1 ∈ newer.map (·.1) := by
      rw [← hrest]
      exact mem_map_of_mem hp
    obtain ⟨q, hq, hqp⟩ := mem_map.mp hmem
    have hnot := h.goes_on q hq
    unfold StopsAt at hnot ⊢
    rw [not_or] at hnot ⊢
    refine ⟨fun hzero => ?_, ?_⟩
    · rw [hzero] at hcount
      exact absurd hcount (Nat.succ_ne_zero _).symm
    · rw [← hqp]
      exact hnot.2
  rw [h.export_eq hentries hstored hstops hgo, hlog]

end

end

/-- On every chain of validated blocks an export reproduces itself. At a post-fork block `pp` of the
chain, a node that reads there what the chain holds and stores the entries of the stretch exports
it; with the state read at `pp` the exported log is bound to the root at `pp`, which gives the log
of `pp`; the state seeded from it exports the same log, and is seeded from the whole export with the
nullifiers of the chain. -/
theorem export_reproduces [DecidableEq G] (hT : C.T.Spec) (hE : C.mf.EmptyDistinct)
    {calls : List ((H → BlockVerdict H N) × H)}
    (hcalls : ∀ call ∈ calls, ∀ b,
      (call.1 b).NoBurns ∧ (call.1 b).SpendsNotes ∧ (call.1 b).DevCarried D P b)
    {σ : ProcessorState H G} {tip : H}
    (hrun : ProcessorState.run C D P (.genesis D) D.root calls = .ok (σ, tip)) {pp : H}
    (hon : pp ∈ D.path tip) (hne : pp ≠ D.root) (hpost : P.isPostSecurityFork D pp = true)
    {s : ShieldedStores H G} (hreads : ReadsAgree s σ.stores pp)
    (hheld : ∀ b, InStretch D P pp b → s.anchor_entries b = σ.stores.anchor_entries b) :
    ∃ entries log_before window committed, s.anchorLogExport D P pp = some (entries, log_before) ∧
      s.anchor_window pp = some window ∧ s.shieldedStateRootAt C D P pp = .ok committed ∧
      (∃ md, ExportedFrom C s pp md entries log_before) ∧
      ∀ md, ExportedWith C s pp md entries log_before →
        verifyImportBindingVersioned C D P pp md committed = .ok (some window) ∧
        ∀ (W : WireFormat H G) (view : HeaderView H) (s₀ : ShieldedStores H G)
          (metadata : ShieldedExportMetadata) (nullifiers : List H),
          W.fromWireBytes metadata.data = .ok md →
          (∀ s', s₀.processorSeed C D P W view pp metadata (some committed) nullifiers = .ok s' →
            s'.anchorLogExport D P pp = some (entries, log_before)) ∧
          (ExportedFrom C s pp md entries log_before →
            nullifiers.Perm (σ.stores.chainNullifiers D pp) →
            nullifiers.length = metadata.nullifier_count.toNat →
            ∃ s', s₀.processorSeed C D P W view pp metadata (some committed) nullifiers =
              .ok s') := by
  -- The chain: the invariant, the stretch of `pp`, and its log.
  obtain ⟨hinv₀, hat₀⟩ := ProcessorState.genesis_spec C D P
    fun (b : H) (v : BlockVerdict H N) => v.NoBurns ∧ v.SpendsNotes ∧ v.DevCarried D P b
  obtain ⟨σ₁, tip₁, hrun₁, hinv, hat⟩ := ProcessorState.run_spec hT hE hinv₀ hat₀ hcalls
  obtain ⟨rfl, rfl⟩ := Prod.mk.inj (ok.inj (hrun₁.symm.trans hrun))
  have hpp : pp ∈ σ₁.utxo_diffs := hinv.path_mem hat.valid hon
  have hfacts := hinv.chainFacts hT hpp
  obtain ⟨last, newer, hstretch⟩ := hinv.exists_stretch hpp hne hpost
  obtain ⟨window, hwindow⟩ := isSome_iff_exists.mp (hfacts.has_log hne hpost)
  have hstored : ∀ p ∈ last :: newer, s.anchor_entries p.1.block = some p := fun p hp =>
    (hheld _ (hstretch.within p hp)).trans (hstretch.stored p hp)
  have hexport := hstretch.export_eq (s := s) rfl hstored hstretch.stops hstretch.goes_on
  have hswindow : s.anchor_window pp = some window := hreads.log.trans hwindow
  -- The root that the node computes at `pp`.
  obtain ⟨tree, htree⟩ := hfacts.tree
  rw [← hreads.frontier] at htree
  obtain ⟨root0, hroot0⟩ : ∃ root0, s.stateRootAt C pp = .ok root0 := by
    unfold stateRootAt loadTree
    rw [htree]
    exact ⟨_, rfl⟩
  have hcommitted : s.shieldedStateRootAt C D P pp = .ok (shieldedStateRootV1 C.hf root0
      (s.devAccruedAt pp) (window.commitment C.hf) (minerAccrualRef (s.minerAccrualAt pp))) := by
    unfold shieldedStateRootAt stateRootV1At committedWindow
    rw [if_pos hpost, hroot0, hswindow]
    rfl
  refine ⟨_, _, window, _, hexport, hswindow, hcommitted, ?_, fun md hmd => ?_⟩
  · exact ⟨{ frontier := s.frontierAt pp, supply := s.supplyTotalsAt pp
             nullifier_muhash := s.nullifierMuhashAt pp, burns := s.burnsAt pp, state_root := root0
             in_window_anchors := [], dev_accrued := s.devAccruedAt pp
             in_window_anchor_source_scores := [], window_entries := (last :: newer).map (·.1)
             miner_accrual := s.minerAccrualAt pp, window_prefix := last.2 },
      ⟨hroot0, rfl, rfl, rfl, rfl⟩, rfl, rfl, rfl, rfl, rfl, rfl⟩
  · obtain rfl : root0 = md.state_root := ok.inj (hroot0.symm.trans hmd.state_root)
    have hbinding := hstretch.bindingSpec hinv hpp (fun b v h => h.2.2) hne hwindow hreads hmd
    refine ⟨(verifyImportBindingVersioned_eq_ok hpost).mpr ⟨window, rfl, hbinding⟩,
      fun W view s₀ metadata nullifiers hdecode =>
        ⟨fun s' hseed => ?_, fun hfrom hperm hcount => ?_⟩⟩
    · obtain ⟨md', window', proven, hdecode', -, -, hproven, hspec⟩ :=
        processorSeed_eq_ok hE hpost hseed
      obtain rfl : md = md' := ok.inj (hdecode.symm.trans hdecode')
      rw [hmd.entries, hmd.log_before] at hproven
      exact hstretch.reexport hinv hpp hproven hspec
    · exact exists_processorSeed hpost hdecode hbinding
        (hfrom.verifySpec hinv hpp hT (fun b v h => h.1) (fun b v h => h.2.1) hreads hperm) hcount

end

/-! ## The export of a validated chain -/

namespace Sample

open Symbolic

theorem mintVerdict_honest (b : Term) : (mintVerdict b).NoBurns ∧ (mintVerdict b).SpendsNotes ∧
      (mintVerdict b).DevCarried dag params b :=
  ⟨fun _ htx => absurd htx not_mem_nil, fun _ htx => absurd htx not_mem_nil,
    fun hdev => absurd rfl hdev⟩

/-- The export of block two has the entries of both blocks, and is bound to the root there. -/
theorem export_reproduces_two : ∃ entries log_before window committed,
      validated.stores.anchorLogExport dag params (.atom 2) = some (entries, log_before) ∧
        entries.length = 2 ∧
        validated.stores.anchor_window (.atom 2) = some window ∧
        ∃ md, ExportedFrom Crypto.sample validated.stores (.atom 2) md entries log_before ∧
          verifyImportBindingVersioned Crypto.sample dag params (.atom 2) md committed =
            .ok (some window) := by
  have hcalls : ∀ call ∈ mintCalls, ∀ b, (call.1 b).NoBurns ∧ (call.1 b).SpendsNotes ∧
      (call.1 b).DevCarried dag params b := by
    intro call hcall b
    rw [mem_singleton.mp hcall]
    exact mintVerdict_honest b
  have hcount : (validated.stores.anchorLogExport dag params (.atom 2)).map (·.1.length) =
      some 2 := by decide +kernel
  have hsame : ReadsAgree validated.stores validated.stores (.atom 2) :=
    ⟨rfl, rfl, rfl, rfl, rfl, rfl, rfl⟩
  obtain ⟨entries, log_before, window, committed, hexport, hwindow, -, ⟨md, hmd⟩, hall⟩ :=
    export_reproduces sample_collisionFree.tree sample_collisionFree.muhash.emptyDistinct hcalls
      run_mintCalls (by decide) (by decide) (by decide) hsame fun _ _ => rfl
  rw [hexport] at hcount
  exact ⟨entries, log_before, window, committed, hexport, some.inj hcount, hwindow, md, hmd,
    (hall md hmd.toExportedWith).1⟩

end Sample

end Zkas
