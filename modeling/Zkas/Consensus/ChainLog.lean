import Zkas.Consensus.ChainInvariant

/-!
# The anchor log along a chain

From the security fork on every chain block appends its entry to the log of its parent. `logBlocks`
are the blocks whose entries the log of a block holds. For a validated block the stored log is the
one of these blocks' entries, and they follow each other as the replay requires (`logFacts`). -/

namespace Zkas

open List ParentTree ShieldedStores

variable {H N G : Type} [DecidableEq H]

/-- The blocks whose entries the log of a block holds, oldest first. -/
def logBlocks (D : BlockDag H) (P : SecurityParams) (b : H) : List H :=
  ((D.path b).reverse.takeWhile fun x => decide (x ≠ D.root) && P.isPostSecurityFork D x).reverse

/-- The entries of these blocks. -/
def ShieldedStores.logEntries (D : BlockDag H) (P : SecurityParams) (s : ShieldedStores H G)
    (b : H) :
    List (WindowEntry H) :=
  (logBlocks D P b).filterMap fun x => (s.anchor_entries x).map (·.1)

/-- The log entries of a block's chain with the logs before them, oldest first. -/
def ShieldedStores.logPairs (D : BlockDag H) (P : SecurityParams) (s : ShieldedStores H G) (b : H) :
    List (WindowEntry H × AnchorLog H) :=
  (logBlocks D P b).filterMap s.anchor_entries

variable {C : Crypto H N G} {D : BlockDag H} {P : SecurityParams} {s : ShieldedStores H G} {b : H}

theorem map_logPairs : (s.logPairs D P b).map (·.1) = s.logEntries D P b := map_filterMap

theorem logBlocks_root : logBlocks D P D.root = [] := by
  unfold logBlocks
  rw [path_root, reverse_singleton, takeWhile_cons_of_neg (by simp)]
  rfl

theorem logBlocks_of_pre (hpre : P.isPostSecurityFork D b = false) : logBlocks D P b = [] := by
  by_cases hb : b = D.root
  · rw [hb, logBlocks_root]
  · unfold logBlocks
    rw [path_of_ne hb, reverse_append, reverse_singleton,
      singleton_append, takeWhile_cons_of_neg (by simp [hpre])]
    rfl

theorem logBlocks_of_post (hb : b ≠ D.root) (hpost : P.isPostSecurityFork D b = true) :
    logBlocks D P b = logBlocks D P (D.parent b) ++ [b] := by
  unfold logBlocks
  rw [path_of_ne hb, reverse_append, reverse_singleton, singleton_append,
    takeWhile_cons_of_pos (by simp [hb, hpost]), reverse_cons]

theorem mem_path_of_mem_logBlocks {x : H} (h : x ∈ logBlocks D P b) : x ∈ D.path b :=
  mem_reverse.mp ((takeWhile_subset _) (mem_reverse.mp h))

theorem nodup_logBlocks (b : H) : (logBlocks D P b).Nodup := by
  have hpath := nodup_path (T := D.toParentTree) b
  unfold logBlocks
  rw [nodup_reverse]
  exact (nodup_reverse.mpr hpath).sublist (takeWhile_sublist _)

theorem eq_of_mem_getLast?_logBlocks {x : H} (h : x ∈ (logBlocks D P b).getLast?) : x = b := by
  by_cases hb : b = D.root
  · rw [hb, logBlocks_root] at h
    cases h
  · cases hpost : P.isPostSecurityFork D b with
    | false =>
      rw [logBlocks_of_pre hpost] at h
      cases h
    | true =>
      rw [logBlocks_of_post hb hpost, getLast?_concat] at h
      exact (Option.some.inj h).symm

variable (C D P) in
/-- The log of a validated block: its blocks have entries of their own, which follow each other,
next to each stands the log of the entries before it, and the stored log is that of all of them. -/
structure LogFacts (s : ShieldedStores H G) (b : H) : Prop where
  log : ∃ log, s.parentWindow D P b = .ok log ∧
    AnchorLog.default.appendAll C.hf (s.logEntries D P b) = .ok log
  own : ∀ x ∈ logBlocks D P b, ∃ p, s.anchor_entries x = some p ∧ p.1.block = x ∧
    p.1.blue_score = D.blue_score x
  logs : ∀ front p back, s.logPairs D P b = front ++ p :: back →
    AnchorLog.default.appendAll C.hf (front.map (·.1)) = .ok p.2
  follows : List.IsChain WindowEntry.Follows (s.logEntries D P b)

theorem LogFacts.of_empty (hblocks : logBlocks D P b = [])
    (hstart : s.parentWindow D P b = .ok .default) : LogFacts C D P s b := by
  have hpairs : s.logPairs D P b = [] := by rw [logPairs, hblocks, filterMap_nil]
  refine ⟨⟨.default, hstart, ?_⟩, fun x hx => ?_, fun front p back hsplit => ?_, ?_⟩
  · rw [← map_logPairs, hpairs]
    rfl
  · rw [hblocks] at hx
    cases hx
  · rw [hpairs] at hsplit
    simp at hsplit
  · rw [← map_logPairs, hpairs]
    exact isChain_nil

namespace LogFacts

variable (h : LogFacts C D P s b)
include h

theorem stored {p : WindowEntry H × AnchorLog H} (hp : p ∈ s.logPairs D P b) :
    s.anchor_entries p.1.block = some p ∧ p.1.blue_score = D.blue_score p.1.block ∧
      p.1.block ∈ logBlocks D P b := by
  obtain ⟨x, hx, hpx⟩ := mem_filterMap.mp hp
  obtain ⟨q, hq, rfl, hscore⟩ := h.own x hx
  obtain rfl := Option.mem_unique hq hpx
  exact ⟨hq, hscore, hx⟩

theorem scores {e : WindowEntry H} (he : e ∈ s.logEntries D P b) :
    e.blue_score = D.blue_score e.block := by
  rw [← map_logPairs] at he
  obtain ⟨p, hp, rfl⟩ := mem_map.mp he
  exact (h.stored hp).2.1

theorem blocks : (s.logEntries D P b).map (·.block) = logBlocks D P b := by
  rw [logEntries, map_filterMap]
  refine (filterMap_congr fun x hx => ?_).trans filterMap_some
  obtain ⟨p, hp, hblock, -⟩ := h.own x hx
  rw [hp]
  exact congrArg some hblock

end LogFacts

section

variable [CommGroupWithZero G]

theorem Committed.entry {v : BlockVerdict H N} {c : ComputedBlockShielded H N G}
    (h : Committed C D P s b v c) (hpost : P.isPostSecurityFork D b = true) :
    ∃ before window, s.anchor_entries b = some (entryOf C D b c, before) ∧
      s.parentWindow D P (D.parent b) = .ok before ∧ s.anchor_window b = some window ∧
      before.append C.hf (entryOf C D b c) = .ok window := by
  obtain ⟨before, window, hbefore, happend, hwindow, hentry⟩ := h.rows.log hpost
  exact ⟨before, window, hentry, hbefore, hwindow, happend⟩

/-- A committed block extends the log of its parent. -/
theorem Committed.logFacts (hb : b ≠ D.root) {v : BlockVerdict H N}
    {c : ComputedBlockShielded H N G} (h : Committed C D P s b v c)
    (hp : LogFacts C D P s (D.parent b)) : LogFacts C D P s b := by
  cases hpost : P.isPostSecurityFork D b with
  | false =>
    refine .of_empty (logBlocks_of_pre hpost) ?_
    have hnone := (h.rows.no_log hpost).1
    unfold parentWindow
    rw [hnone]
    exact if_pos (.inr (by rw [hpost]; rfl))
  | true =>
    obtain ⟨before, window, hentry, hbefore, hwindow, happend⟩ := h.entry hpost
    obtain ⟨log, hlog, hall⟩ := hp.log
    obtain rfl : before = log := Except.ok.inj (hbefore.symm.trans hlog)
    have hpairs : s.logPairs D P b =
        s.logPairs D P (D.parent b) ++ [(entryOf C D b c, before)] := by
      rw [logPairs, logBlocks_of_post hb hpost, filterMap_append,
        filterMap_cons, hentry]
      rfl
    have hentries : s.logEntries D P b = s.logEntries D P (D.parent b) ++ [entryOf C D b c] := by
      rw [← map_logPairs, hpairs, map_append, map_logPairs]
      rfl
    refine ⟨⟨window, ?_, ?_⟩, fun x hx => ?_, fun front p back hsplit => ?_, ?_⟩
    · unfold parentWindow
      rw [hwindow]
    · rw [hentries]
      exact AnchorLog.appendAll_concat_eq_ok.mpr ⟨before, hall, happend⟩
    · rw [logBlocks_of_post hb hpost] at hx
      rcases mem_append.mp hx with hx | hx
      · exact hp.own x hx
      · rw [mem_singleton.mp hx]
        exact ⟨_, hentry, rfl, rfl⟩
    · -- The pair is the block's own, or one of its parent's chain.
      rw [hpairs] at hsplit
      rcases eq_nil_or_concat back with rfl | ⟨back', q, rfl⟩
      · obtain ⟨hfront, hp⟩ := append_inj' hsplit rfl
        rw [← (cons.inj hp).1, ← hfront, map_logPairs]
        exact hall
      · rw [concat_eq_append, ← cons_append, ← append_assoc] at hsplit
        exact hp.logs front p back' (append_inj' hsplit rfl).1
    · -- The last entry of the parent's log is the parent's own, whose score is smaller.
      rw [hentries]
      refine hp.follows.append (isChain_singleton _) fun prev hprev e he => ?_
      obtain rfl : entryOf C D b c = e := by simpa using he
      have hblock : prev.block = D.parent b := by
        refine eq_of_mem_getLast?_logBlocks (D := D) (P := P) ?_
        rw [← hp.blocks, getLast?_map, Option.mem_def.mp hprev]
        rfl
      refine ⟨?_, hblock.symm⟩
      rw [hp.scores (mem_of_getLast? hprev), hblock]
      exact D.blue_score_lt b hb

/-- The log of every validated block. -/
theorem ProcessorInvariant.logFacts {V : H → BlockVerdict H N → Prop} {σ : ProcessorState H G}
    (h : ProcessorInvariant C D P V σ) (hb : b ∈ σ.utxo_diffs) :
    LogFacts C D P σ.stores b := by
  refine h.induction (Q := LogFacts C D P σ.stores) ?_ ?_ hb
  · refine .of_empty logBlocks_root ?_
    rw [parentWindow_congr h.rows_root]
    exact if_pos (.inl rfl)
  · intro b v c hne _ _ hc ih
    exact hc.logFacts hne ih

end

end Zkas
