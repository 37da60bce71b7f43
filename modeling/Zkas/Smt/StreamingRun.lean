import Zkas.Smt.StreamingSpec

/-!
# Runs of the streaming builder

Each part of the machine keeps what the stack and the sink stand for: `chain_up` moves the current
entry up past empty siblings, `merge_pair` joins it with its left sibling, and `seal_up_to` does
both until a depth is reached (`sealUpTo_eq`). So it is after each leaf (`Fed.feed`), and the last
leaf completes the tree. -/

namespace Zkas.Smt

open BitPath SparseTree List Option Except Set StreamingSmtBuilder

namespace StreamingSmtBuilder

variable {S ε D : Type} {H : SmtHasher D} {sink : MergeSink S ε D}
  {R : S → Set (NodeWrite D) → Set Key → Prop} {fed fed' : Key → Option (D × ℕ)} {c : Key}
  {d e t : ℕ} {s : Sealing S D} {W : Set (NodeWrite D)} {K : Set Key}

/-- The lanes that are sealed: that of the current entry once it is merged. -/
def sealedWith (kind : EntryKind D) (c : Key) (K : Set Key) : Set Key :=
  match kind with
  | .collapsed _ => K
  | .internal => insert c K

/-- The current entry stands for the node at depth `e` on the path of `c`. -/
structure SealAt (H : SmtHasher D) (fed : Key → Option (D × ℕ)) (c : Key) (e : ℕ)
    (s : Sealing S D) : Prop where
  le : e ≤ 256
  rep : Represents H fed e c s.current
  depth : s.current.depth = match s.current.kind with
    | .collapsed _ => 256
    | .internal => e
  root_written : s.root_written = decide (e = 0)

theorem lane_key_eq (hlast : IsLast fed c) (he : e ≤ 256) {k : Key} {v : D}
    (h : nodeAt H (leafMap fed) e c = .collapsed k v) : k = c := by
  by_contra hne
  have hnone := ((nodeAt_eq_collapsed_iff he).mp h).2.2 c (.refl e c) (Ne.symm hne)
  exact hlast.mem (leafMap_eq_none.mp hnone)

theorem chainUp_eq (hsink : sink.Lawful H R) (hlast : IsLast fed c) (hat : SealAt H fed c e s)
    (ht : t < e) (hnone : ∀ u, t < u → u < e → ¬HasLeft H fed c u)
    (hR : R s.sink (W ∪ innerWrites H fed e c) (sealedWith s.current.kind c K)) :
    ∃ s', chainUp sink t s = .ok s' ∧ Represents H fed (t + 1) c s'.current ∧
      s'.current.depth = t ∧ s'.root_written = s.root_written ∧
      R s'.sink (W ∪ innerWrites H fed (t + 1) c) (insert c K) := by
  obtain ⟨n, rfl⟩ : ∃ n, e = t + 1 + n := Nat.exists_eq_add_of_lt ht |>.imp fun n hn => by omega
  have hle := hat.le
  have hnode := hat.rep.node
  have hdepth := hat.depth
  have hdeep : ¬s.current.depth ≤ t := by
    rw [hdepth]
    cases s.current.kind <;> dsimp only <;> omega
  unfold chainUp
  rw [if_neg hdeep]
  cases hkind : s.current.kind with
  | collapsed leaf =>
    rw [hkind] at hnode hR
    obtain ⟨hup, hscore⟩ := collapsed_up hlast hle (fun u hu hu' => hnone u (by omega) hu') hnode
      hat.rep.score
    have hkey : leaf.lane_key = c := lane_key_eq hlast hle hnode
    refine ⟨_, rfl, ⟨hat.rep.agree.mono (by omega), ?_, ?_, hscore⟩, rfl, rfl, ?_⟩
    · dsimp only
      rw [hup, hkind]
    · have hhash := hat.rep.hash
      rw [hnode] at hhash
      rw [hup]
      exact hhash
    · have hbefore : innerWrites H fed (t + 1 + n) c = ∅ :=
        innerWrites_of_ne fun hash heq => by rw [hnode] at heq; cases heq
      have hafter : innerWrites H fed (t + 1) c = ∅ :=
        innerWrites_of_ne fun hash heq => by rw [hup] at heq; cases heq
      rw [hbefore] at hR
      rw [hafter]
      rw [hkey]
      exact hsink.record c (min (t + 1) (DEPTH - 1)) hR
  | internal =>
    rw [hkind] at hnode hdepth hR
    dsimp only at hnode hdepth
    obtain ⟨hup, hwrites, hscore⟩ := chain_eq hlast hle (fun u hu hu' => hnone u (by omega) hu')
      hat.rep.agree hnode hat.rep.score
    obtain ⟨sink', hchain, hR'⟩ := hsink.chain s.current.hash n (t + 1)
      s.current.representative_key s.current.max_blue_score hR
    -- A chain of no steps is not asked for.
    have hchain' : ∃ sink', (if t + 1 < s.current.depth then
          (sink.mergeChainWithEmpty s.current.hash s.current.depth (t + 1)
            s.current.representative_key s.current.max_blue_score s.sink).mapError
              (fun e => Fault.err (StreamError.sink e))
        else .ok (s.current.hash, s.sink)) =
          .ok (chainHash H s.current.representative_key (t + 1) n s.current.hash, sink') ∧
        R sink' (W ∪ innerWrites H fed (t + 1) c) (insert c K) := by
      cases n with
      | zero =>
        refine ⟨s.sink, ?_, hR⟩
        rw [if_neg (by omega)]
        rfl
      | succ n =>
        refine ⟨sink', ?_, by rw [hwrites, ← union_assoc]; exact hR'⟩
        rw [if_pos (by omega), hdepth, hchain]
        rfl
    obtain ⟨sink'', hok, hR''⟩ := hchain'
    dsimp only
    rw [hok, ok_bind]
    refine ⟨_, rfl, ⟨hat.rep.agree.mono (by omega), ?_, ?_, hscore⟩, rfl, rfl, hR''⟩
    · dsimp only
      rw [hup, hkind]
    · rw [hup]
      rfl

theorem innerWrites_union_childInfo {entry : StackEntry D} {k : Key} (ht : t < 256)
    (h : Represents H fed (t + 1) k entry) :
    innerWrites H fed (t + 1) k ∪
      (if t < DEPTH - 1 then entry.childInfo (t + 1) else .internal).writes =
        subtreeWrites H fed (t + 1) k := by
  have hnode := h.node
  cases hkind : entry.kind with
  | collapsed leaf =>
    rw [hkind] at hnode
    have hinner : innerWrites H fed (t + 1) k = ∅ :=
      innerWrites_of_ne fun hash heq => by rw [hnode] at heq; cases heq
    rw [hinner, empty_union]
    by_cases hdeep : t < DEPTH - 1
    · have hname : BranchKey.new (t + 1) entry.representative_key = .new (t + 1) k :=
        (BranchKey.new_eq_iff (by omega)).mpr h.agree.symm
      rw [if_pos hdeep, StackEntry.childInfo, hkind,
        subtreeWrites_of_collapsed (by unfold DEPTH at hdeep; omega) hnode h.score, ← hname]
      rfl
    · -- There are no nodes at the depth of the leaves.
      rw [if_neg hdeep]
      refine (eq_empty_of_forall_notMem fun w hw => ?_).symm
      obtain ⟨d, x, hle, hd, -⟩ := hw
      unfold DEPTH at hdeep
      omega
  | internal =>
    rw [hkind] at hnode
    have hinfo : entry.childInfo (t + 1) = .internal := by rw [StackEntry.childInfo, hkind]
    rw [hinfo, ite_self, innerWrites_of_internal hnode]
    exact union_empty _

theorem mergePair_eq (hsink : sink.Lawful H R) {left : StackEntry D} (hdepth : left.depth = t)
    (ht : t < 256) (hbit : c.getMsbD t = true)
    (hleft : Represents H fed (t + 1) (withBit c t false) left)
    (hright : Represents H fed (t + 1) c s.current) (hwritten : s.root_written = false)
    (hR : R s.sink (W ∪ innerWrites H fed (t + 1) (withBit c t false) ∪
      innerWrites H fed (t + 1) c) K) :
    ∃ s', mergePair sink left s = .ok s' ∧ SealAt H fed c t s' ∧ s'.current.kind = .internal ∧
      R s'.sink (W ∪ innerWrites H fed t c) K := by
  -- The node above the two sides.
  have hself : Agree (t + 1) (withBit c t true) c := hbit ▸ agree_withBit_self ht
  have hnonempty {entry : StackEntry D} {k : Key} (h : Represents H fed (t + 1) k entry) :
      nodeAt H (leafMap fed) (t + 1) k ≠ .empty := by
    rw [h.node]
    cases entry.kind <;> exact fun heq => by cases heq
  have hnode : nodeAt H (leafMap fed) t c = .internal (H.node left.hash s.current.hash) := by
    rw [nodeAt_of_lt ht, nodeAt_agree ht hself, Summary.merge_of_ne (hnonempty hleft)
      (hnonempty hright), hleft.hash, hright.hash, Nat.sub_sub]
  have hagree : Agree t c left.representative_key :=
    (agree_withBit ht).symm.trans (hleft.agree.mono (Nat.le_succ t))
  have hscore : IsMaxScore fed t c (max left.max_blue_score s.current.max_blue_score) :=
    hleft.score.sides ht (hright.score.congr hself.symm fun _ _ => rfl)
  have hname : BranchKey.new t left.representative_key = .new t c :=
    (BranchKey.new_eq_iff ht.le).mpr hagree.symm
  -- What is written.
  obtain ⟨⟨li, ri⟩, hinfos⟩ : ∃ infos, infos = if t < DEPTH - 1 then
      (left.childInfo (t + 1), s.current.childInfo (t + 1)) else (.internal, .internal) := ⟨_, rfl⟩
  have hli : li = if t < DEPTH - 1 then left.childInfo (t + 1) else .internal := by
    split_ifs at hinfos ⊢ <;> exact (Prod.mk.inj hinfos).1
  have hri : ri = if t < DEPTH - 1 then s.current.childInfo (t + 1) else .internal := by
    split_ifs at hinfos ⊢ <;> exact (Prod.mk.inj hinfos).2
  obtain ⟨sink', hmerge, hR'⟩ := hsink.merge left.hash s.current.hash
    (.new t left.representative_key) li ri (max left.max_blue_score s.current.max_blue_score) hR
  have hok : mergePair sink left s = .ok
      { current := { depth := t, hash := H.node left.hash s.current.hash
                     representative_key := left.representative_key, kind := .internal
                     max_blue_score := max left.max_blue_score s.current.max_blue_score }
        root_written := s.root_written || t = 0
        sink := sink' } := by
    unfold mergePair
    dsimp only
    rw [hdepth, ← hinfos]
    rw [hmerge]
    rfl
  refine ⟨_, hok, ⟨ht.le, ⟨hagree, hnode, ?_, hscore⟩, rfl, ?_⟩, rfl, ?_⟩
  · rw [hnode]
    rfl
  · rw [hwritten, Bool.false_or]
  · have hleftw := innerWrites_union_childInfo ht hleft
    have hrightw := innerWrites_union_childInfo ht hright
    rw [← hli] at hleftw
    rw [← hri] at hrightw
    have hsides : W ∪ innerWrites H fed t c =
        insert (.new t left.representative_key, .internal (H.node left.hash s.current.hash),
          max left.max_blue_score s.current.max_blue_score)
        (W ∪ innerWrites H fed (t + 1) (withBit c t false) ∪ innerWrites H fed (t + 1) c ∪
          li.writes ∪ ri.writes) := by
      rw [innerWrites_of_internal hnode, subtreeWrites_of_internal ht hnode hscore, hname, ← hleftw,
        subtreeWrites_congr hself fun _ _ => rfl, ← hrightw]
      ext w
      simp only [mem_union, mem_insert_iff]
      tauto
    rw [hsides]
    exact hR'

theorem SealAt.lt_depth (h : SealAt H fed c e s) (ht : t < e) : t < s.current.depth := by
  have hle := h.le
  rw [h.depth]
  cases s.current.kind <;> dsimp only <;> omega

theorem sealLoop_eq (hsink : sink.Lawful H R) (hlast : IsLast fed c) {target : ℕ}
    {stack : List (StackEntry D)} (hat : SealAt H fed c e s) (hstack : StackOk H fed c e stack)
    (htarget : target ≤ e)
    (hR : R s.sink (stackWrites H fed c e ∪ innerWrites H fed e c)
      (sealedWith s.current.kind c K)) :
    ∃ stack' s' e', sealLoop sink target stack s = .ok (stack', s') ∧ SealAt H fed c e' s' ∧
      StackOk H fed c e' stack' ∧ target ≤ e' ∧
      (e' = e ∧ s'.current.kind = s.current.kind ∨
        HasLeft H fed c e' ∧ s'.current.kind = .internal) ∧
      (∀ t, target ≤ t → t < e' → ¬HasLeft H fed c t) ∧
      R s'.sink (stackWrites H fed c e' ∪ innerWrites H fed e' c)
        (sealedWith s'.current.kind c K) := by
  induction stack generalizing e s with
  | nil =>
    exact ⟨[], s, e, rfl, hat, hstack, htarget, .inl ⟨rfl, rfl⟩,
      fun t _ ht => hstack.of_nil t ht, hR⟩
  | cons left stack ih =>
    obtain ⟨hlt, hleft, hrep, hrest, hnone⟩ := hstack.of_cons
    have hle := hat.le
    by_cases hdeep : target ≤ left.depth
    · -- What was written for the left sibling is on top.
      have hwrites : stackWrites H fed c e = stackWrites H fed c left.depth ∪
          innerWrites H fed (left.depth + 1) (withBit c left.depth false) := by
        rw [stackWrites_eq hlt hle fun t ht => hnone t ht, stackWrites]
        simp only [hleft.1, true_and, ofPred_mem_eq]
      rw [hwrites] at hR
      obtain ⟨s₁, hchain, hrep₁, -, hwritten₁, hR₁⟩ := chainUp_eq hsink hlast hat hlt hnone hR
      have hwritten : s₁.root_written = false := by
        rw [hwritten₁, hat.root_written, decide_eq_false (by omega)]
      obtain ⟨s₂, hmerge, hat₂, hkind₂, hR₂⟩ :=
        mergePair_eq hsink rfl (by omega) hleft.1 hrep hrep₁ hwritten hR₁
      obtain ⟨stack', s', e', hloop, hat', hstack', htarget', hmoved, hnone', hR'⟩ :=
        ih hat₂ hrest hdeep (by rw [hkind₂]; exact hR₂)
      refine ⟨stack', s', e', ?_, hat', hstack', htarget', .inr ?_, hnone', hR'⟩
      · rw [sealLoop, if_pos hdeep, if_pos (hat.lt_depth hlt), hchain, ok_bind, hmerge, ok_bind]
        exact hloop
      · rcases hmoved with ⟨rfl, hsame⟩ | hmoved
        · exact ⟨hleft, hsame.trans hkind₂⟩
        · exact hmoved
    · exact ⟨left :: stack, s, e, by rw [sealLoop, if_neg hdeep], hat, hstack, htarget,
        .inl ⟨rfl, rfl⟩, fun t ht ht' => hnone t (by omega) ht', hR⟩

/-- `seal_up_to` with a leaf that was just fed. -/
theorem sealUpTo_eq (hsink : sink.Lawful H R) (hlast : IsLast fed c) {target : ℕ}
    {stack : List (StackEntry D)} (hat : SealAt H fed c 256 s) (hstack : StackOk H fed c 256 stack)
    (htarget : target < 256) {leaf : CollapsedLeaf D} (hkind : s.current.kind = .collapsed leaf)
    (hR : R s.sink (stackWrites H fed c 256) K) :
    ∃ stack' s' e', sealUpTo sink target stack s = .ok (stack', s') ∧ s'.current.depth = target ∧
      Represents H fed e' c s'.current ∧ StackOk H fed c target stack' ∧
      R s'.sink (stackWrites H fed c target ∪ innerWrites H fed e' c) (insert c K) ∧
      ((e' = target + 1 ∧ ¬HasLeft H fed c target ∧ s'.root_written = false) ∨
        (e' = target ∧ HasLeft H fed c target ∧ s'.current.kind = .internal ∧
          s'.root_written = decide (target = 0))) := by
  have hempty : innerWrites H fed 256 c = ∅ := by
    refine innerWrites_of_ne fun hash heq => ?_
    have hnode := hat.rep.node
    rw [hkind, heq] at hnode
    cases hnode
  obtain ⟨stack₁, s₁, e₁, hloop, hat₁, hstack₁, htarget₁, hmoved, hnone, hR₁⟩ :=
    sealLoop_eq hsink hlast hat hstack htarget.le (by
      rw [hempty, union_empty, hkind]
      exact hR)
  have hle := hat₁.le
  have hstack' := (stackOk_iff htarget₁ hnone).mp hstack₁
  rw [stackWrites_eq htarget₁ hle hnone] at hR₁
  rcases htarget₁.eq_or_lt with rfl | hlt
  · -- The last merge was at the target.
    have hinner := hmoved.resolve_left fun h => htarget.ne h.1
    have hdepth : s₁.current.depth = target := by rw [hat₁.depth, hinner.2]
    refine ⟨stack₁, s₁, target, ?_, hdepth, hat₁.rep, hstack', ?_,
      .inr ⟨rfl, hinner.1, hinner.2, hat₁.root_written⟩⟩
    · rw [sealUpTo, hloop, ok_bind]
      dsimp only
      rw [if_neg (by omega)]
      rfl
    · rw [hinner.2] at hR₁
      exact hR₁
  · obtain ⟨s₂, hchain, hrep₂, hdepth₂, hwritten₂, hR₂⟩ := chainUp_eq hsink hlast hat₁ hlt
      (fun u hu hu' => hnone u (by omega) hu') hR₁
    refine ⟨stack₁, s₂, target + 1, ?_, hdepth₂, hrep₂, hstack', hR₂,
      .inl ⟨rfl, hnone target le_rfl hlt, ?_⟩⟩
    · rw [sealUpTo, hloop, ok_bind]
      dsimp only
      rw [if_pos (hat₁.lt_depth hlt), hchain]
      rfl
    · rw [hwritten₂, hat₁.root_written, decide_eq_false (by omega)]

/-! ## Leaves -/

/-- The entry of a leaf that is fed. -/
def leafEntry (H : SmtHasher D) (c : Key) (v : D × ℕ) : StackEntry D where
  depth := DEPTH
  hash := H.leaf c v.1
  representative_key := c
  kind := .collapsed { lane_key := c, leaf_hash := v.1 }
  max_blue_score := v.2

theorem sealAt_leafEntry {v : D × ℕ} (hv : fed c = some v) (sink : S) :
    SealAt H fed c 256 { current := leafEntry H c v, root_written := false, sink } := by
  have hnode : nodeAt H (leafMap fed) 256 c = .collapsed c v.1 := by
    rw [nodeAt_bottom, leafMap, hv]
    rfl
  refine ⟨le_rfl, ⟨.refl 256 c, hnode, by rw [hnode]; rfl, ⟨c, v, .refl 256 c, hv, rfl⟩, ?_⟩,
    rfl, rfl⟩
  intro y v' hy hv'
  obtain rfl := hy.eq
  rw [hv] at hv'
  exact (some.inj hv' ▸ le_rfl)

theorem finalize_eq (hsink : sink.Lawful H R) (hlast : IsLast fed c) {v : D × ℕ}
    (hv : fed c = some v)
    {b : StreamingSmtBuilder S D} (hcurrent : b.current = some (leafEntry H c v))
    (hwritten : b.root_written = false) (hstack : StackOk H fed c 256 b.stack)
    (hR : R b.sink (stackWrites H fed c 256) K) :
    ∃ b', finalize H sink b = .ok b' ∧ b'.root = some (SparseTree.root H (leafMap fed)) ∧
      R b'.sink (subtreeWrites H fed 0 0) (insert c K) := by
  obtain ⟨stack', s', e', hseal, hdepth, hrep, -, hR', hcase⟩ := sealUpTo_eq hsink hlast
    (sealAt_leafEntry hv b.sink) hstack (by omega : 0 < 256) rfl hR
  have hroot : SparseTree.root H (leafMap fed) = (nodeAt H (leafMap fed) 0 c).digest H 256 := by
    rw [SparseTree.root, nodeAt_agree (Nat.zero_le _) (agree_zero 0 c)]
  have hall : subtreeWrites H fed 0 0 = subtreeWrites H fed 0 c :=
    subtreeWrites_congr (agree_zero 0 c) fun _ _ => rfl
  rw [stackWrites, empty_union] at hR'
  rw [hroot, hall]
  unfold finalize
  rw [hcurrent]
  dsimp only
  rw [hwritten, hseal, ok_bind]
  rw [if_neg (by rw [hdepth]; exact fun h => h rfl)]
  rcases hcase with ⟨rfl, hnot, hnotwritten⟩ | ⟨rfl, -, hkind, hrootwritten⟩
  · have hsibling := hlast.sibling_eq_empty (by omega) hnot
    have hnode := hrep.node
    cases hkind : s'.current.kind with
    | collapsed leaf =>
      rw [hkind] at hnode
      have hat : nodeAt H (leafMap fed) 0 c = .collapsed leaf.lane_key leaf.leaf_hash := by
        rw [nodeAt_of_sibling (by omega) hsibling, hnode]
      have hinner : innerWrites H fed (0 + 1) c = ∅ :=
        innerWrites_of_ne fun hash heq => by rw [hnode] at heq; cases heq
      obtain ⟨sink', hwrite, hR''⟩ := hsink.collapsed (.new 0 s'.current.representative_key) leaf
        s'.current.max_blue_score hR'
      dsimp only
      rw [hwrite]
      refine ⟨_, rfl, by rw [hat]; rfl, ?_⟩
      rw [subtreeWrites_of_collapsed (by omega) hat (hrep.score.of_sibling (by omega) hsibling),
        BranchKey.new_zero c s'.current.representative_key]
      rw [hinner, insert_empty_eq] at hR''
      exact hR''
    | internal =>
      rw [hkind] at hnode
      obtain ⟨hat, hwrites, -⟩ := chain_eq hlast (n := 1) (a := 0) (by omega)
        (fun t _ ht => (show t = 0 by omega) ▸ hnot) hrep.agree hnode hrep.score
      obtain ⟨sink', hchain, hR''⟩ := hsink.chain s'.current.hash 1 0
        s'.current.representative_key s'.current.max_blue_score hR'
      rw [hnotwritten, if_neg Bool.false_ne_true, hchain]
      refine ⟨_, rfl, by rw [hat]; rfl, ?_⟩
      rw [← innerWrites_of_internal hat, hwrites]
      exact hR''
  · have hnode := hrep.node
    rw [hkind] at hnode ⊢
    rw [hrootwritten, if_pos (decide_eq_true rfl)]
    refine ⟨_, rfl, by rw [hnode]; rfl, ?_⟩
    rw [← innerWrites_of_internal hnode]
    exact hR'

end StreamingSmtBuilder

theorem divergenceDepth_spec {a b : Key} (hne : a ≠ b) :
    divergenceDepth a b < 256 ∧ Agree (divergenceDepth a b) a b ∧
      a.getMsbD (divergenceDepth a b) ≠ b.getMsbD (divergenceDepth a b) := by
  have hxor (d : ℕ) : (a ^^^ b).getMsbD d = true ↔ a.getMsbD d ≠ b.getMsbD d := by
    rw [BitVec.getMsbD_xor]
    cases a.getMsbD d <;> cases b.getMsbD d <;> simp
  unfold divergenceDepth
  cases hfind : (range 256).find? fun d => (a ^^^ b).getMsbD d with
  | none =>
    refine absurd (Agree.eq fun d hd => ?_) hne
    by_contra hdiff
    exact find?_eq_none.mp hfind d (mem_range.mpr hd) ((hxor d).mpr hdiff)
  | some d =>
    obtain ⟨hdiff, hmem, hfirst⟩ := find?_range_eq_some.mp hfind
    refine ⟨mem_range.mp hmem, fun i hi => ?_, (hxor d).mp hdiff⟩
    by_contra hne
    have hsame := hfirst i hi
    rw [(hxor i).mpr hne] at hsame
    cases hsame

theorem divergenceDepth_of_lt {a b : Key} (h : a < b) :
    divergenceDepth a b < 256 ∧ Agree (divergenceDepth a b) a b ∧
      a.getMsbD (divergenceDepth a b) = false ∧ b.getMsbD (divergenceDepth a b) = true := by
  obtain ⟨hlt, hagree, hdiff⟩ := divergenceDepth_spec (ne_of_lt h)
  cases ha : a.getMsbD (divergenceDepth a b) <;> cases hb : b.getMsbD (divergenceDepth a b)
  · exact absurd (ha.trans hb.symm) hdiff
  · exact ⟨hlt, hagree, rfl, rfl⟩
  · exact absurd (lt_of_agree hlt hagree.symm hb ha) (not_lt.mpr h.le)
  · exact absurd (ha.trans hb.symm) hdiff

namespace StreamingSmtBuilder

variable {S ε D : Type} {H : SmtHasher D} {sink : MergeSink S ε D}
  {R : S → Set (NodeWrite D) → Set Key → Prop} {fed fed' : Key → Option (D × ℕ)} {c c' : Key}
  {K : Set Key}

/-- The next leaf. -/
structure IsNext (fed fed' : Key → Option (D × ℕ)) (c' : Key) (v : D × ℕ) : Prop where
  lt : ∀ y, fed y ≠ none → y < c'
  self : fed' c' = some v
  rest : ∀ y, y ≠ c' → fed y = fed' y

theorem IsNext.isLast {v : D × ℕ} (h : IsNext fed fed' c' v) : IsLast fed' c' := by
  refine ⟨by rw [h.self]; exact some_ne_none _, fun y hy => ?_⟩
  by_cases heq : y = c'
  · exact heq.le
  · exact (h.lt y (by rwa [h.rest y heq])).le

theorem stackOk_next (hlast : IsLast fed c) {v : D × ℕ} (hnext : IsNext fed fed' c' v)
    {entry : StackEntry D} {stack : List (StackEntry D)}
    (hdepth : entry.depth = divergenceDepth c c')
    (hrep : Represents H fed (divergenceDepth c c' + 1) c entry)
    (hstack : StackOk H fed c (divergenceDepth c c') stack) :
    StackOk H fed' c' 256 (entry :: stack) ∧ stackWrites H fed' c' 256 =
      stackWrites H fed c (divergenceDepth c c') ∪ innerWrites H fed
      (divergenceDepth c c' + 1) c := by
  obtain ⟨hlt, hagree, hbit, hbit'⟩ := divergenceDepth_of_lt (hnext.lt c hlast.mem)
  set d := divergenceDepth c c' with hd
  -- Nothing was fed to the right of the last leaf.
  have hnone : ∀ t, d + 1 ≤ t → t < 256 → ¬HasLeft H fed' c' t := by
    rintro t ht ht' ⟨hone, hne⟩
    refine hne ((nodeAt_eq_empty_iff (by omega)).mpr fun y hy => leafMap_eq_none.mpr ?_)
    obtain ⟨hy, hzero⟩ := (agree_withBit_iff ht').mp hy
    by_contra hfed
    have hyc : y ≠ c' := fun heq => by
      rw [heq, hone] at hzero
      cases hzero
    have hle := hlast.le y (by rwa [hnext.rest y hyc])
    have hyd : y.getMsbD d = true := by rw [← hy d (by omega), hbit']
    exact absurd (lt_of_agree hlt (hagree.trans (hy.mono (by omega))) hbit hyd) (not_lt.mpr hle)
  -- What was fed before is the same above the point where the keys part.
  have hsame : SameLeft fed fed' c c' d := by
    refine ⟨hagree, fun t ht hone y hy => hnext.rest y fun heq => ?_⟩
    have hzero := ((agree_withBit_iff (by omega)).mp hy).2
    rw [heq, ← hagree t ht, hone] at hzero
    cases hzero
  have hleft : Agree (d + 1) c (withBit c' d false) :=
    agree_succ.mpr ⟨hagree.trans (agree_withBit hlt).symm, by rw [hbit, getMsbD_withBit_self hlt]⟩
  have hfed (y : Key) (hy : Agree (d + 1) c y) : fed y = fed' y := by
    refine hnext.rest y fun heq => ?_
    have hyd := hy d (Nat.lt_succ_self d)
    rw [heq, hbit, hbit'] at hyd
    cases hyd
  have hrep' := hrep.congr hlt hleft hfed
  have hhas : HasLeft H fed' c' d := by
    refine ⟨hbit', ?_⟩
    rw [hrep'.node]
    cases entry.kind <;> exact fun heq => by cases heq
  constructor
  · rw [stackOk_iff hlt hnone]
    exact .inl ⟨hhas, entry, stack, rfl, hdepth, hrep', hstack.congr hsame hlt.le⟩
  · rw [stackWrites_eq hlt le_rfl hnone, stackWrites, ← stackWrites_congr hsame hlt.le,
      innerWrites_congr hlt hleft hfed]
    simp only [hbit', true_and, ofPred_mem_eq]

/-! ## Runs -/

/-- The leaves of a list, by key. -/
def laneMap (leaves : List (Key × D × ℕ)) : Key → Option (D × ℕ) := fun k => leaves.lookup k

variable {front : List (Key × D × ℕ)} {n : ℕ} {b : StreamingSmtBuilder S D} {x : Key × D × ℕ}

theorem laneMap_append
    (hlt : ∀ y ∈ front, y.1 < x.1) : IsNext (laneMap front) (laneMap (front ++ [x])) x.1 x.2 := by
  have hmem {k : Key} (hk : laneMap front k ≠ none) : k < x.1 := by
    by_contra hnot
    refine hk (lookup_eq_none_iff.mpr fun y hy => ?_)
    refine bne_iff_ne.mpr fun heq => hnot ?_
    rw [heq]
    exact hlt y hy
  refine ⟨fun y hy => hmem hy, ?_, fun y hy => ?_⟩
  · have hnone : front.lookup x.1 = none := by
      by_contra hne
      exact lt_irrefl _ (hmem hne)
    rw [laneMap, lookup_append, hnone, none_or, lookup_cons, BEq.rfl]
  · rw [laneMap, laneMap, lookup_append, lookup_cons, beq_false_of_ne hy, lookup_nil, or_none]

/-- A builder that was fed some leaves and waits for more, or is complete. -/
inductive Fed (H : SmtHasher D) (R : S → Set (NodeWrite D) → Set Key → Prop) :
    List (Key × D × ℕ) → ℕ → StreamingSmtBuilder S D → Set Key → Prop
  | start {n : ℕ} {b : StreamingSmtBuilder S D} {K : Set Key} (hcurrent : b.current = none)
      (hstack : b.stack = []) (hroot : b.root = none) (hwritten : b.root_written = false)
      (hremaining : b.remaining = n + 1) (hR : R b.sink ∅ K) : Fed H R [] (n + 1) b K
  | building {front : List (Key × D × ℕ)} {x : Key × D × ℕ} {n : ℕ} {b : StreamingSmtBuilder S D}
      {K : Set Key} (hlast : IsLast (laneMap (front ++ [x])) x.1)
      (hself : laneMap (front ++ [x]) x.1 = some x.2)
      (hcurrent : b.current = some (leafEntry H x.1 x.2))
      (hstack : StackOk H (laneMap (front ++ [x])) x.1 256 b.stack) (hroot : b.root = none)
      (hwritten : b.root_written = false) (hremaining : b.remaining = n + 1)
      (hR : R b.sink (stackWrites H (laneMap (front ++ [x])) x.1 256) K) :
      Fed H R (front ++ [x]) (n + 1) b K
  | complete {leaves : List (Key × D × ℕ)} {b : StreamingSmtBuilder S D} {K : Set Key}
      (hroot : b.root = some (SparseTree.root H (leafMap (laneMap leaves))))
      (hR : R b.sink (subtreeWrites H (laneMap leaves) 0 0) K) : Fed H R leaves 0 b K

/-- The lanes that are known as sealed after one more leaf: the one before it, and the last one at
the end. -/
def sealedAfter (front : List (Key × D × ℕ)) (x : Key × D × ℕ) (n : ℕ) (K : Set Key) : Set Key :=
  {k | k ∈ K ∨ (∃ y ∈ front.getLast?, k = y.1) ∨ (n = 0 ∧ k = x.1)}

theorem Fed.place (hsink : sink.Lawful H R)
    (hnext : IsNext (laneMap front) (laneMap (front ++ [x])) x.1 x.2)
    (hstack : StackOk H (laneMap (front ++ [x])) x.1 256 b.stack) (hroot : b.root = none)
    (hwritten : b.root_written = false) (hremaining : b.remaining = n + 1)
    (hR : R b.sink (stackWrites H (laneMap (front ++ [x])) x.1 256) K) :
    ∃ b' K', (if b.remaining = 0 then .error .panic
        else
          let b := { b with remaining := b.remaining - 1, current := some (leafEntry H x.1 x.2) }
          if b.remaining = 0 then finalize H sink b else .ok b) = .ok b' ∧
      Fed H R (front ++ [x]) n b' K' ∧ K' = {k | k ∈ K ∨ (n = 0 ∧ k = x.1)} := by
  have hlast := hnext.isLast
  rw [hremaining, Nat.add_sub_cancel]
  cases n with
  | zero =>
    obtain ⟨b', hok, hroot', hR'⟩ := finalize_eq hsink hlast hnext.self
      (b := { b with remaining := 0, current := some (leafEntry H x.1 x.2) }) rfl hwritten hstack hR
    refine ⟨b', insert x.1 K, hok, .complete hroot' hR', ext fun k => ?_⟩
    rw [mem_insert_iff]
    change _ ↔ k ∈ K ∨ (0 = 0 ∧ k = x.1)
    tauto
  | succ n =>
    refine ⟨_, K, rfl, .building hlast hnext.self rfl hstack hroot hwritten rfl hR, ext fun k => ?_⟩
    simp

/-- One more leaf. -/
theorem Fed.feed (hsink : sink.Lawful H R)
    (hlt : ∀ y ∈ front, y.1 < x.1) (h : Fed H R front (n + 1) b K) :
    ∃ b', StreamingSmtBuilder.feed H sink b x.1 x.2.1 x.2.2 = .ok b' ∧
      Fed H R (front ++ [x]) n b' (sealedAfter front x n K) := by
  have hnext := laneMap_append hlt
  cases h with
  | start hcurrent hstack hroot hwritten hremaining hR =>
    have hnone : ∀ t, 0 ≤ t → t < 256 → ¬HasLeft H (laneMap ([] ++ [x])) x.1 t := by
      rintro t - ht ⟨hbit, hne⟩
      refine hne ((nodeAt_eq_empty_iff (by omega)).mpr fun y hy => leafMap_eq_none.mpr ?_)
      obtain ⟨-, hzero⟩ := (agree_withBit_iff ht).mp hy
      rw [← hnext.rest y fun heq => by rw [heq, hbit] at hzero; cases hzero]
      rfl
    obtain ⟨b', K', hok, hfed, rfl⟩ := Fed.place hsink hnext
      ((stackOk_iff (Nat.zero_le _) hnone).mpr hstack) hroot hwritten hremaining
      (by rw [stackWrites_eq (Nat.zero_le _) le_rfl hnone]; exact hR)
    refine ⟨b', ?_, ?_⟩
    · unfold feed
      rw [hroot, hcurrent]
      exact hok
    · convert hfed using 1
      simp [sealedAfter]
  | building hlast hself hcurrent hstack hroot hwritten hremaining hR =>
    rename_i front y
    have hyx : y.1 < x.1 := hlt y (mem_append_right _ (mem_singleton_self y))
    obtain ⟨hdiv, -, hbit, -⟩ := divergenceDepth_of_lt hyx
    obtain ⟨stack', s', e', hseal, hdepth, hrep, hstack', hR', hcase⟩ := sealUpTo_eq hsink hlast
      (sealAt_leafEntry hself b.sink) hstack hdiv rfl hR
    -- The path goes to the left there, so there is no left sibling.
    rcases hcase with ⟨rfl, -, hwritten'⟩ | ⟨-, hleft, -⟩
    · obtain ⟨hstack'', hwrites⟩ := stackOk_next hlast hnext hdepth hrep hstack'
      obtain ⟨b', K', hok, hfed, rfl⟩ := Fed.place hsink hnext
        (b := { b with stack := s'.current :: stack', root_written := s'.root_written,
                       sink := s'.sink }) hstack'' hroot hwritten' hremaining
                         (by rw [hwrites]; exact hR')
      refine ⟨b', ?_, ?_⟩
      · unfold feed
        rw [hroot, hcurrent]
        dsimp only [leafEntry]
        rw [if_neg (by simp), if_neg (not_le.mpr hyx), hwritten]
        dsimp only [leafEntry] at hseal
        rw [hseal]
        rw [hroot] at hok
        exact hok
      · convert hfed using 1
        ext k
        simp only [sealedAfter, getLast?_append, getLast?_singleton, some_or,
          mem_def, some.injEq, exists_eq_left', mem_insert_iff, mem_ofPred_eq]
        tauto
    · rw [hleft.1] at hbit
      cases hbit

theorem fed_new {sink₀ : S} (hR : R sink₀ ∅ K) :
    Fed H R [] n (StreamingSmtBuilder.new H n sink₀) K := by
  cases n with
  | zero =>
    have hempty : nodeAt H (leafMap (laneMap [])) 0 0 = .empty :=
      (nodeAt_eq_empty_iff (Nat.zero_le _)).mpr fun y _ => rfl
    refine .complete ?_ (by rw [subtreeWrites_of_empty (Nat.zero_le _) hempty]; exact hR)
    rw [SparseTree.root, hempty]
    rfl
  | succ n => exact .start rfl rfl rfl rfl rfl hR

theorem Fed.finish {leaves : List (Key × D × ℕ)} (h : Fed H R leaves 0 b K) :
    finish (ε := ε) b = .ok (SparseTree.root H (leafMap (laneMap leaves)), b.sink) ∧
      R b.sink (subtreeWrites H (laneMap leaves) 0 0) K := by
  cases h with
  | complete hroot hR => exact ⟨by rw [StreamingSmtBuilder.finish, hroot], hR⟩

/-- What the sink of a builder has may be changed as far as the lanes are concerned. -/
theorem Fed.exists_writes (h : Fed H R front n b K) : ∃ W, R b.sink W K ∧ ∀ sink' K', R sink' W K' →
      Fed H R front n { b with sink := sink' } K' := by
  cases h with
  | start hcurrent hstack hroot hwritten hremaining hR =>
    exact ⟨_, hR, fun _ _ hR' => .start hcurrent hstack hroot hwritten hremaining hR'⟩
  | building hlast hself hcurrent hstack hroot hwritten hremaining hR =>
    exact ⟨_, hR, fun _ _ hR' =>
      .building hlast hself hcurrent hstack hroot hwritten hremaining hR'⟩
  | complete hroot hR => exact ⟨_, hR, fun _ _ hR' => .complete hroot hR'⟩

/-- Lanes that were sealed, and the last one, which is sealed with the next one or at the end. -/
def SealedUpTo (front : List (Key × D × ℕ)) (n : ℕ) (K keys : Set Key) : Prop :=
  ∀ k ∈ keys, k ∈ K ∨ (n ≠ 0 ∧ ∃ y ∈ front.getLast?, k = y.1)

theorem Fed.feedMany (hsink : sink.Lawful H R) {rest : List (Key × D × ℕ)} {keys : Set Key}
    (hsorted : (front ++ rest).Pairwise fun x y => x.1 < y.1)
    (h : Fed H R front (rest.length + n) b K)
    (hsealed : SealedUpTo front (rest.length + n) K keys) :
    ∃ b' K', rest.foldlM (fun b x => StreamingSmtBuilder.feed H sink b x.1 x.2.1 x.2.2) b = .ok b' ∧
      Fed H R (front ++ rest) n b' K' ∧
      SealedUpTo (front ++ rest) n K' {k | k ∈ keys ∨ k ∈ rest.map Prod.fst} := by
  induction rest generalizing front b K keys with
  | nil =>
    rw [length_nil, zero_add] at h hsealed
    rw [append_nil]
    exact ⟨b, K, rfl, h, fun k hk => hsealed k (hk.resolve_right not_mem_nil)⟩
  | cons x rest ih =>
    have hlt : ∀ y ∈ front, y.1 < x.1 := fun y hy =>
      (pairwise_append.mp hsorted).2.2 y hy x mem_cons_self
    have hlength : (x :: rest).length + n = rest.length + n + 1 := by
      rw [length_cons]
      omega
    rw [hlength] at h hsealed
    obtain ⟨b₁, hok, h₁⟩ := h.feed hsink hlt
    rw [append_cons] at hsorted ⊢
    -- The lane before is sealed now, and the new one is the last.
    have hsealed₁ : SealedUpTo (front ++ [x]) (rest.length + n)
        (sealedAfter front x (rest.length + n) K) {k | k ∈ keys ∨ k = x.1} := by
      rintro k (hk | rfl)
      · rcases hsealed k hk with hk | ⟨-, hk⟩
        · exact .inl (.inl hk)
        · exact .inl (.inr (.inl hk))
      · by_cases hend : rest.length + n = 0
        · exact .inl (.inr (.inr ⟨hend, rfl⟩))
        · exact .inr ⟨hend, x, by rw [getLast?_concat]; rfl, rfl⟩
    obtain ⟨b', K', hrest, h', hsealed'⟩ := ih hsorted h₁ hsealed₁
    refine ⟨b', K', ?_, h', fun k hk => hsealed' k ?_⟩
    · rw [foldlM_cons, hok]
      exact hrest
    · rcases hk with hk | hk
      · exact .inl (.inl hk)
      · rcases mem_cons.mp hk with hk | hk
        · exact .inl (.inr hk)
        · exact .inr hk

end StreamingSmtBuilder

theorem streamLeaves_eq {S ε D : Type} {H : SmtHasher D} {sink : MergeSink S ε D}
    {R : S → Set (NodeWrite D) → Set Key → Prop} (hsink : sink.Lawful H R) {s : S}
    (hR : R s ∅ ∅) {leaves : List (Key × D × ℕ)}
    (hsorted : leaves.Pairwise fun x y => x.1 < y.1) :
    ∃ sink' K, streamLeaves H sink s leaves = .ok (root H (leafMap (laneMap leaves)), sink') ∧
      R sink' (subtreeWrites H (laneMap leaves) 0 0) K := by
  have hnew : StreamingSmtBuilder.Fed H R [] (leaves.length + 0) (.new H (leaves.length + 0) s) ∅ :=
    fed_new hR
  have hsealed : SealedUpTo ([] : List (Key × D × ℕ)) (leaves.length + 0) ∅ ∅ :=
    fun k hk => absurd hk (notMem_empty k)
  rw [← nil_append leaves] at hsorted
  obtain ⟨b, K, hok, hfed, -⟩ := hnew.feedMany hsink hsorted hsealed
  rw [add_zero] at hok
  obtain ⟨hfinish, hR'⟩ := StreamingSmtBuilder.Fed.finish (ε := ε) hfed
  refine ⟨b.sink, K, ?_, hR'⟩
  unfold streamLeaves
  rw [hok]
  exact hfinish

end Zkas.Smt
