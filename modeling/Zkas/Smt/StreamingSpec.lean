import Zkas.Smt.Streaming

/-!
# What the streaming builder computes

When the leaves up to a key have been fed, the stack holds the left siblings along the path of that
key, those that have leaves (`StackOk`), and the nodes that were handed to the sink are those of the
subtrees on the stack that are inner nodes (`stackWrites`). A sink is described by a relation to
what was written and to the lanes that were sealed (`MergeSink.Lawful`). -/

namespace Zkas.Smt

open BitPath SparseTree Set

/-- A node that is written: its name, the node and its score. -/
abbrev NodeWrite (D : Type) := BranchKey × Node D × ℕ

variable {D : Type}

/-- The leaves of a map of leaves with scores. -/
def leafMap (fed : Key → Option (D × ℕ)) : Key → Option D := fun k => (fed k).map Prod.fst

theorem leafMap_eq_none {fed : Key → Option (D × ℕ)} {k : Key} :
    leafMap fed k = none ↔ fed k = none :=
  Option.map_eq_none_iff

/-- The highest score of the leaves below a node. -/
structure IsMaxScore (fed : Key → Option (D × ℕ)) (d : ℕ) (x : Key) (s : ℕ) : Prop where
  attained : ∃ y v, Agree d x y ∧ fed y = some v ∧ v.2 = s
  le : ∀ y v, Agree d x y → fed y = some v → v.2 ≤ s

/-- The nodes of the subtree at depth `e` on the path of `k`, with their scores. -/
def subtreeWrites (H : SmtHasher D) (fed : Key → Option (D × ℕ)) (e : ℕ) (k : Key) :
    Set (NodeWrite D) :=
  {w | ∃ d x, e ≤ d ∧ d < 256 ∧ Agree e k x ∧ w.1 = .new d x ∧
    stored H (leafMap fed) x e (d - e) = some w.2.1 ∧ IsMaxScore fed d x w.2.2}

/-- The nodes of a subtree with more than one leaf. A single leaf is written later, where it meets
another one. -/
def innerWrites (H : SmtHasher D) (fed : Key → Option (D × ℕ)) (e : ℕ) (k : Key) :
    Set (NodeWrite D) :=
  {w | w ∈ subtreeWrites H fed e k ∧ ∃ hash, nodeAt H (leafMap fed) e k = .internal hash}

section

variable {H : SmtHasher D} {fed fed' : Key → Option (D × ℕ)} {d e : ℕ} {k k' x : Key} {s s' : ℕ}

theorem nodeAt_leafMap (he : e ≤ 256) (hk : Agree e k k')
    (hfed : ∀ y, Agree e k y → fed y = fed' y) :
    nodeAt H (leafMap fed) e k = nodeAt H (leafMap fed') e k' :=
  nodeAt_congr he hk fun y hy => by rw [leafMap, leafMap, hfed y hy]

theorem IsMaxScore.unique (h : IsMaxScore fed d x s) (h' : IsMaxScore fed d x s') : s = s' := by
  obtain ⟨y, v, hy, hv, rfl⟩ := h.attained
  obtain ⟨y', v', hy', hv', rfl⟩ := h'.attained
  exact le_antisymm (h'.le y v hy hv) (h.le y' v' hy' hv')

theorem IsMaxScore.congr (h : IsMaxScore fed d k s) (hk : Agree d k k')
    (hfed : ∀ y, Agree d k y → fed y = fed' y) : IsMaxScore fed' d k' s := by
  obtain ⟨y, v, hy, hv, hs⟩ := h.attained
  refine ⟨⟨y, v, hk.symm.trans hy, by rw [← hfed y hy, hv], hs⟩, fun y v hy hv => ?_⟩
  have hy' := hk.trans hy
  exact h.le y v hy' (by rw [hfed y hy', hv])

theorem IsMaxScore.sides (hd : d < 256) (hleft : IsMaxScore fed (d + 1) (withBit x d false) s)
    (hright : IsMaxScore fed (d + 1) (withBit x d true) s') : IsMaxScore fed d x (max s s') := by
  constructor
  · rcases le_total s s' with hle | hle
    · obtain ⟨y, v, hy, hv, hs⟩ := hright.attained
      exact ⟨y, v, ((agree_withBit_iff hd).mp hy).1, hv, hs.trans (max_eq_right hle).symm⟩
    · obtain ⟨y, v, hy, hv, hs⟩ := hleft.attained
      exact ⟨y, v, ((agree_withBit_iff hd).mp hy).1, hv, hs.trans (max_eq_left hle).symm⟩
  · intro y v hy hv
    cases hbit : y.getMsbD d with
    | false =>
      exact (hleft.le y v ((agree_withBit_iff hd).mpr ⟨hy, hbit⟩) hv).trans (le_max_left _ _)
    | true =>
      exact (hright.le y v ((agree_withBit_iff hd).mpr ⟨hy, hbit⟩) hv).trans (le_max_right _ _)

theorem subtreeWrites_congr (hk : Agree e k k') (hfed : ∀ y, Agree e k y → fed y = fed' y) :
    subtreeWrites H fed e k = subtreeWrites H fed' e k' := by
  have hsub {fed fed' : Key → Option (D × ℕ)} {k k' : Key} (hk : Agree e k k')
      (hfed : ∀ y, Agree e k y → fed y = fed' y) :
      subtreeWrites H fed e k ⊆ subtreeWrites H fed' e k' := by
    rintro w ⟨d, x, hle, hd, hx, hbk, hnode, hscore⟩
    refine ⟨d, x, hle, hd, hk.symm.trans hx, hbk, ?_, hscore.congr (.refl d x) fun y hy => ?_⟩
    · rw [← hnode]
      refine stored_congr (by omega) fun y hy => ?_
      rw [leafMap, leafMap, hfed y (hx.trans hy)]
    · exact hfed y (hx.trans (hy.mono hle))
  exact (hsub hk hfed).antisymm (hsub hk.symm fun y hy => (hfed y (hk.trans hy)).symm)

theorem innerWrites_congr (he : e ≤ 256) (hk : Agree e k k')
    (hfed : ∀ y, Agree e k y → fed y = fed' y) :
    innerWrites H fed e k = innerWrites H fed' e k' := by
  have hnode := nodeAt_leafMap (H := H) he hk hfed
  unfold innerWrites
  rw [subtreeWrites_congr hk hfed, hnode]

theorem subtreeWrites_of_empty (he : e ≤ 256) (h : nodeAt H (leafMap fed) e k = .empty) :
    subtreeWrites H fed e k = ∅ := by
  refine eq_empty_of_forall_notMem fun w hw => ?_
  obtain ⟨d, x, hle, hd, hx, -, -, hscore⟩ := hw
  obtain ⟨y, v, hy, hv, -⟩ := hscore.attained
  have hnone := (nodeAt_eq_empty_iff he).mp h y (hx.trans (hy.mono hle))
  rw [leafMap_eq_none, hv] at hnone
  cases hnone

theorem innerWrites_of_ne (h : ∀ hash, nodeAt H (leafMap fed) e k ≠ .internal hash) :
    innerWrites H fed e k = ∅ :=
  eq_empty_of_forall_notMem fun _ hw => hw.2.elim h

theorem innerWrites_of_internal {hash : D} (h : nodeAt H (leafMap fed) e k = .internal hash) :
    innerWrites H fed e k = subtreeWrites H fed e k :=
  ext fun _ => ⟨fun hw => hw.1, fun hw => ⟨hw, hash, h⟩⟩

theorem subtreeWrites_of_collapsed (he : e < 256) {leaf : CollapsedLeaf D}
    (h : nodeAt H (leafMap fed) e k = .collapsed leaf.lane_key leaf.leaf_hash)
    (hs : IsMaxScore fed e k s) :
    subtreeWrites H fed e k = {(.new e k, .collapsed leaf, s)} := by
  ext ⟨bk, node, t⟩
  rw [mem_singleton_iff]
  constructor
  · rintro ⟨d, x, hle, hd, hx, hbk, hnode, hscore⟩
    have hat : nodeAt H (leafMap fed) e x = .collapsed leaf.lane_key leaf.leaf_hash := by
      rw [← nodeAt_agree he.le hx, h]
    obtain ⟨n, rfl⟩ := Nat.exists_eq_add_of_le hle
    rw [Nat.add_sub_cancel_left] at hnode
    cases n with
    | zero =>
      rw [stored, hat] at hnode
      have hbk' : bk = .new e k := hbk.trans ((BranchKey.new_eq_iff he.le).mpr hx.symm)
      have hscore' : t = s := (hscore.congr hx.symm fun _ _ => rfl).unique hs
      have hnode' : node = .collapsed leaf := (Option.some.inj hnode).symm
      rw [hbk', hscore', hnode']
    | succ n =>
      rw [stored_succ_of_ne fun hash => by rw [hat]; exact fun heq => by cases heq] at hnode
      cases hnode
  · intro hw
    obtain ⟨rfl, hrest⟩ := Prod.mk.inj hw
    obtain ⟨rfl, rfl⟩ := Prod.mk.inj hrest
    refine ⟨e, k, le_rfl, he, .refl e k, rfl, ?_, hs⟩
    rw [Nat.sub_self, stored, h]
    rfl

theorem subtreeWrites_of_internal (he : e < 256) {hash : D}
    (h : nodeAt H (leafMap fed) e k = .internal hash) (hs : IsMaxScore fed e k s) :
    subtreeWrites H fed e k = insert (.new e k, .internal hash, s)
      (subtreeWrites H fed (e + 1) (withBit k e false) ∪
        subtreeWrites H fed (e + 1) (withBit k e true)) := by
  have hside {d : ℕ} {x : Key} (hx : Agree e k x) (hle : e + 1 ≤ d) :
      stored H (leafMap fed) x e (d - e) = stored H (leafMap fed) x (e + 1) (d - (e + 1)) := by
    have hat : nodeAt H (leafMap fed) e x = .internal hash := by rw [← nodeAt_agree he.le hx, h]
    rw [show d - e = d - (e + 1) + 1 by omega, stored_succ_of_internal hat]
  ext ⟨bk, node, t⟩
  constructor
  · rintro ⟨d, x, hle, hd, hx, hbk, hnode, hscore⟩
    rcases hle.eq_or_lt with rfl | hlt
    · rw [Nat.sub_self, stored, ← nodeAt_agree he.le hx, h] at hnode
      have hbk' : bk = .new e k := hbk.trans ((BranchKey.new_eq_iff he.le).mpr hx.symm)
      have hscore' : t = s := (hscore.congr hx.symm fun _ _ => rfl).unique hs
      have hnode' : node = .internal hash := (Option.some.inj hnode).symm
      rw [hbk', hscore', hnode']
      exact .inl rfl
    · rw [hside hx hlt] at hnode
      cases hbit : x.getMsbD e with
      | false =>
        exact .inr (.inl ⟨d, x, hlt, hd, (agree_withBit_iff he).mpr ⟨hx, hbit⟩, hbk, hnode, hscore⟩)
      | true =>
        exact .inr (.inr ⟨d, x, hlt, hd, (agree_withBit_iff he).mpr ⟨hx, hbit⟩, hbk, hnode, hscore⟩)
  · rintro (hw | ⟨d, x, hle, hd, hx, hbk, hnode, hscore⟩ | ⟨d, x, hle, hd, hx, hbk, hnode, hscore⟩)
    · obtain ⟨rfl, hrest⟩ := Prod.mk.inj hw
      obtain ⟨rfl, rfl⟩ := Prod.mk.inj hrest
      refine ⟨e, k, le_rfl, he, .refl e k, rfl, ?_, hs⟩
      rw [Nat.sub_self, stored, h]
      rfl
    · have hx' := ((agree_withBit_iff he).mp hx).1
      exact ⟨d, x, by omega, hd, hx', hbk, by rw [hside hx' hle, hnode], hscore⟩
    · have hx' := ((agree_withBit_iff he).mp hx).1
      exact ⟨d, x, by omega, hd, hx', hbk, by rw [hside hx' hle, hnode], hscore⟩

end

/-! ## Entries -/

/-- An entry stands for the subtree at depth `e` on the path of `k`. -/
structure Represents (H : SmtHasher D) (fed : Key → Option (D × ℕ)) (e : ℕ) (k : Key)
    (entry : StackEntry D) : Prop where
  agree : Agree e k entry.representative_key
  node : nodeAt H (leafMap fed) e k = match entry.kind with
    | .collapsed leaf => .collapsed leaf.lane_key leaf.leaf_hash
    | .internal => .internal entry.hash
  hash : entry.hash = (nodeAt H (leafMap fed) e k).digest H (256 - e)
  score : IsMaxScore fed e k entry.max_blue_score

/-- The path of `c` has leaves on its left at depth `t`. -/
def HasLeft (H : SmtHasher D) (fed : Key → Option (D × ℕ)) (c : Key) (t : ℕ) : Prop :=
  c.getMsbD t = true ∧ nodeAt H (leafMap fed) (t + 1) (withBit c t false) ≠ .empty

/-- The stack holds the left siblings of the path of `c` above depth `e`. -/
def StackOk (H : SmtHasher D) (fed : Key → Option (D × ℕ)) (c : Key) :
    ℕ → List (StackEntry D) → Prop
  | 0, stack => stack = []
  | t + 1, stack =>
    (HasLeft H fed c t ∧ ∃ left rest, stack = left :: rest ∧ left.depth = t ∧
      Represents H fed (t + 1) (withBit c t false) left ∧ StackOk H fed c t rest) ∨
    (¬HasLeft H fed c t ∧ StackOk H fed c t stack)

/-- What was written for the left siblings of the path of `c` above depth `e`. -/
def stackWrites (H : SmtHasher D) (fed : Key → Option (D × ℕ)) (c : Key) : ℕ → Set (NodeWrite D)
  | 0 => ∅
  | t + 1 => stackWrites H fed c t ∪
      {w | c.getMsbD t = true ∧ w ∈ innerWrites H fed (t + 1) (withBit c t false)}

section

variable {H : SmtHasher D} {fed fed' : Key → Option (D × ℕ)} {c c' k k' : Key} {d e t : ℕ}
  {entry left : StackEntry D} {stack rest : List (StackEntry D)}

theorem Represents.congr (he : e ≤ 256) (h : Represents H fed e k entry) (hk : Agree e k k')
    (hfed : ∀ y, Agree e k y → fed y = fed' y) : Represents H fed' e k' entry := by
  have hnode := nodeAt_leafMap (H := H) he hk hfed
  exact ⟨hk.symm.trans h.agree, hnode ▸ h.node, hnode ▸ h.hash, h.score.congr hk hfed⟩

theorem StackOk.of_nil (h : StackOk H fed c e []) : ∀ t < e, ¬HasLeft H fed c t := by
  induction e with
  | zero => exact fun t ht => absurd ht (Nat.not_lt_zero t)
  | succ e ih =>
    rcases h with ⟨-, left, rest, hcons, -⟩ | ⟨hnot, h⟩
    · cases hcons
    · intro t ht
      rcases Nat.lt_succ_iff_lt_or_eq.mp ht with ht | rfl
      · exact ih h t ht
      · exact hnot

theorem StackOk.of_cons (h : StackOk H fed c e (left :: rest)) :
    left.depth < e ∧ HasLeft H fed c left.depth ∧
      Represents H fed (left.depth + 1) (withBit c left.depth false) left ∧
      StackOk H fed c left.depth rest ∧ ∀ t, left.depth < t → t < e → ¬HasLeft H fed c t := by
  induction e with
  | zero => cases h
  | succ e ih =>
    rcases h with ⟨hleft, left', rest', hcons, rfl, hrep, hrest⟩ | ⟨hnot, h⟩
    · obtain ⟨rfl, rfl⟩ := List.cons.inj hcons
      exact ⟨Nat.lt_succ_self _, hleft, hrep, hrest, fun t ht ht' => by omega⟩
    · obtain ⟨hlt, hleft, hrep, hrest, hnone⟩ := ih h
      refine ⟨hlt.trans (Nat.lt_succ_self e), hleft, hrep, hrest, fun t ht ht' => ?_⟩
      rcases Nat.lt_succ_iff_lt_or_eq.mp ht' with ht' | rfl
      · exact hnone t ht ht'
      · exact hnot

theorem stackOk_iff (hle : d ≤ e) (hnone : ∀ t, d ≤ t → t < e → ¬HasLeft H fed c t) :
    StackOk H fed c e stack ↔ StackOk H fed c d stack := by
  induction e, hle using Nat.le_induction with
  | base => exact Iff.rfl
  | succ e hle ih =>
    have hnot := hnone e hle (Nat.lt_succ_self e)
    rw [← ih fun t ht ht' => hnone t ht (ht'.trans (Nat.lt_succ_self e)), StackOk]
    constructor
    · rintro (⟨hleft, -⟩ | ⟨-, h⟩)
      · exact absurd hleft hnot
      · exact h
    · exact fun h => .inr ⟨hnot, h⟩

theorem stackWrites_eq (hle : d ≤ e) (he : e ≤ 256)
    (hnone : ∀ t, d ≤ t → t < e → ¬HasLeft H fed c t) :
    stackWrites H fed c e = stackWrites H fed c d := by
  induction e, hle using Nat.le_induction with
  | base => rfl
  | succ e hle ih =>
    have hempty :
      {w | c.getMsbD e = true ∧ w ∈ innerWrites H fed (e + 1) (withBit c e false)} = ∅ := by
      refine eq_empty_of_forall_notMem fun w hw => ?_
      refine hnone e hle (Nat.lt_succ_self e) ⟨hw.1, fun hnode => ?_⟩
      have hw' := hw.2.1
      rw [subtreeWrites_of_empty he hnode] at hw'
      exact hw'
    rw [stackWrites, hempty, union_empty,
      ih (by omega) fun t ht ht' => hnone t ht (ht'.trans (Nat.lt_succ_self e))]

/-- Paths that are the same above depth `e`, with the same leaves on their left. -/
structure SameLeft (fed fed' : Key → Option (D × ℕ)) (c c' : Key) (e : ℕ) : Prop where
  agree : Agree e c c'
  fed : ∀ t < e, c.getMsbD t = true → ∀ y, Agree (t + 1) (withBit c t false) y → fed y = fed' y

theorem SameLeft.mono (h : SameLeft fed fed' c c' e) (hle : d ≤ e) : SameLeft fed fed' c c' d :=
  ⟨h.agree.mono hle, fun t ht => h.fed t (ht.trans_le hle)⟩

theorem SameLeft.agree_left (he : t < 256) (h : Agree (t + 1) c c') :
    Agree (t + 1) (withBit c t false) (withBit c' t false) := by
  refine (agree_withBit_iff he).mpr ⟨?_, getMsbD_withBit_self he⟩
  exact (h.mono (Nat.le_succ t)).trans (agree_withBit he).symm

variable (h : SameLeft fed fed' c c' e)
include h

theorem SameLeft.hasLeft_iff (he : e ≤ 256) (ht : t < e) :
    HasLeft H fed c t ↔ HasLeft H fed' c' t := by
  have hbit := h.agree t ht
  unfold HasLeft
  rw [← hbit]
  refine and_congr_right fun hc => ?_
  have hnode := nodeAt_leafMap (H := H) (by omega)
    (SameLeft.agree_left (t := t) (by omega) (h.agree.mono ht)) (h.fed t ht hc)
  rw [hnode]

theorem StackOk.congr (he : e ≤ 256)
    (hstack : StackOk H fed c e stack) : StackOk H fed' c' e stack := by
  induction e generalizing stack with
  | zero => exact hstack
  | succ e ih =>
    rcases hstack with ⟨hleft, left, rest, rfl, hdepth, hrep, hrest⟩ | ⟨hnot, hstack⟩
    · refine .inl ⟨(h.hasLeft_iff he (Nat.lt_succ_self e)).mp hleft, left, rest, rfl, hdepth, ?_,
        ih (h.mono (Nat.le_succ e)) (by omega) hrest⟩
      exact hrep.congr he (SameLeft.agree_left (by omega) h.agree)
        (h.fed e (Nat.lt_succ_self e) hleft.1)
    · exact .inr ⟨fun hleft => hnot ((h.hasLeft_iff he (Nat.lt_succ_self e)).mpr hleft),
        ih (h.mono (Nat.le_succ e)) (by omega) hstack⟩

theorem stackWrites_congr (he : e ≤ 256) :
    stackWrites H fed c e = stackWrites H fed' c' e := by
  induction e with
  | zero => rfl
  | succ e ih =>
    rw [stackWrites, stackWrites, ih (h.mono (Nat.le_succ e)) (by omega),
      ← h.agree e (Nat.lt_succ_self e)]
    refine congrArg _ (ext fun w => and_congr_right fun hc => ?_)
    rw [innerWrites_congr he (SameLeft.agree_left (by omega) h.agree)
      (h.fed e (Nat.lt_succ_self e) hc)]

end

/-! ## Sinks -/

/-- What a merge writes for a child. -/
def ChildInfo.writes : ChildInfo D → Set (NodeWrite D)
  | .collapsed branch_key leaf blue_score => {(branch_key, .collapsed leaf, blue_score)}
  | _ => ∅

/-- The digest at the end of a chain. -/
def chainHash (H : SmtHasher D) (rep : Key) (to_depth : ℕ) : ℕ → D → D
  | 0, hash => hash
  | n + 1, hash => chainHash H rep to_depth n (chainNode H rep (to_depth + n) hash)

/-- The nodes of a chain. -/
def chainWrites (H : SmtHasher D) (rep : Key) (score to_depth : ℕ) : ℕ → D → Set (NodeWrite D)
  | 0, _ => ∅
  | n + 1, hash =>
    let hash := chainNode H rep (to_depth + n) hash
    insert (.new (to_depth + n) rep, .internal hash, score)
    (chainWrites H rep score to_depth n hash)

/-- A sink that computes the digests and does not fail. The relation tells what it has written and
which lanes it knows as sealed. -/
structure MergeSink.Lawful {S ε : Type} (H : SmtHasher D) (sink : MergeSink S ε D)
    (R : S → Set (NodeWrite D) → Set Key → Prop) : Prop where
  merge : ∀ {s W K} (l r : D) (bk : BranchKey) (li ri : ChildInfo D) (score : ℕ), R s W K →
    ∃ s', sink.merge l r bk li ri score s = .ok (H.node l r, s') ∧
      R s' (insert (bk, .internal (H.node l r), score) (W ∪ li.writes ∪ ri.writes)) K
  chain : ∀ {s W K} (hash : D) (n to_depth : ℕ) (rep : Key) (score : ℕ), R s W K →
    ∃ s', sink.mergeChainWithEmpty hash (to_depth + n) to_depth rep score s =
        .ok (chainHash H rep to_depth n hash, s') ∧
      R s' (W ∪ chainWrites H rep score to_depth n hash) K
  collapsed : ∀ {s W K} (bk : BranchKey) (leaf : CollapsedLeaf D) (score : ℕ), R s W K →
    ∃ s', sink.writeCollapsed bk leaf score s = .ok s' ∧
      R s' (insert (bk, .collapsed leaf, score) W) K
  record : ∀ {s W K} (k : Key) (d : ℕ), R s W K → R (sink.recordSeal k d s) W (insert k K)

section

variable {S ε : Type} {H : SmtHasher D}

theorem chainLoop_eq {R : S → Set (NodeWrite D) → Set Key → Prop} (rep : Key) (score : ℕ)
    (step : ℕ → D → S → Except ε (D × S))
    (hstep : ∀ d hash s W K, R s W K → ∃ s', step d hash s = .ok (chainNode H rep d hash, s') ∧
      R s' (insert (.new d rep, .internal (chainNode H rep d hash), score) W) K)
    (n to_depth : ℕ) (hash : D) {s : S} {W : Set (NodeWrite D)} {K : Set Key} (h : R s W K) :
    ∃ s', chainLoop step to_depth n hash s = .ok (chainHash H rep to_depth n hash, s') ∧
      R s' (W ∪ chainWrites H rep score to_depth n hash) K := by
  induction n generalizing hash s W with
  | zero => exact ⟨s, rfl, by rw [chainWrites, union_empty]; exact h⟩
  | succ n ih =>
    obtain ⟨s₁, hok, h₁⟩ := hstep (to_depth + n) hash s W K h
    obtain ⟨s₂, hloop, h₂⟩ := ih (chainNode H rep (to_depth + n) hash) h₁
    refine ⟨s₂, ?_, ?_⟩
    · rw [chainLoop, hok, Except.ok_bind]
      exact hloop
    · rw [chainWrites, union_insert, ← insert_union]
      exact h₂

theorem rootOnlyMergeSink_lawful (H : SmtHasher D) :
    (RootOnlyMergeSink H).Lawful H fun _ _ _ => True where
  merge _ _ _ _ _ _ _ := ⟨(), rfl, trivial⟩
  chain hash n to_depth rep score _ := by
    have hstep : ∀ (d : ℕ) (hash : D) (s : Unit) (W : Set (NodeWrite D)) (K : Set Key), True →
        ∃ s', (.ok (chainNode H rep d hash, s) : Except Empty (D × Unit)) =
          .ok (chainNode H rep d hash, s') ∧ True := fun d hash s W K _ => ⟨s, rfl, trivial⟩
    obtain ⟨s', hok, -⟩ := chainLoop_eq (R := fun _ _ _ => True) rep score
      (fun d hash s => .ok (chainNode H rep d hash, s)) hstep n to_depth hash (s := ()) (W := ∅)
      (K := ∅) trivial
    refine ⟨s', ?_, trivial⟩
    rw [← hok]
    unfold RootOnlyMergeSink
    dsimp only
    rw [Nat.add_sub_cancel_left]
  collapsed _ _ _ _ := ⟨(), rfl, trivial⟩
  record _ _ _ := trivial

end

/-! ## Sealing -/

section

variable {H : SmtHasher D} {fed : Key → Option (D × ℕ)} {c : Key} {d e t : ℕ}

/-- The key is the last one that was fed. -/
structure IsLast (fed : Key → Option (D × ℕ)) (c : Key) : Prop where
  mem : fed c ≠ none
  le : ∀ y, fed y ≠ none → y ≤ c

/-- The path of the last key has no leaves on its right, so one without leaves on its left is alone.
-/
theorem IsLast.sibling_eq_empty (h : IsLast fed c) (ht : t < 256) (hleft : ¬HasLeft H fed c t) :
    nodeAt H (leafMap fed) (t + 1) (withBit c t (!c.getMsbD t)) = .empty := by
  cases hbit : c.getMsbD t with
  | true =>
    by_contra hne
    exact hleft ⟨hbit, hne⟩
  | false =>
    refine (nodeAt_eq_empty_iff (by omega)).mpr fun y hy => ?_
    obtain ⟨hagree, hy⟩ := (agree_withBit_iff ht).mp hy
    rw [leafMap_eq_none]
    by_contra hne
    exact absurd (h.le y hne) (not_le.mpr (lt_of_agree ht hagree hbit hy))

theorem nodeAt_of_sibling (ht : t < 256)
    (h : nodeAt H (leafMap fed) (t + 1) (withBit c t (!c.getMsbD t)) = .empty) :
    nodeAt H (leafMap fed) t c = match nodeAt H (leafMap fed) (t + 1) c with
      | .empty => .empty
      | .collapsed k v => .collapsed k v
      | .internal hash => .internal (chainNode H c t hash) := by
  have hheight : 256 - t - 1 = DEPTH - 1 - t := by
    unfold DEPTH
    omega
  rw [nodeAt_split ht, hheight]
  unfold chainNode bitAt
  cases hbit : c.getMsbD t with
  | true =>
    rw [hbit, Bool.not_true] at h
    rw [if_pos rfl, h]
    cases nodeAt H (leafMap fed) (t + 1) c <;> rfl
  | false =>
    rw [hbit, Bool.not_false] at h
    rw [if_neg Bool.false_ne_true, h]
    cases nodeAt H (leafMap fed) (t + 1) c <;> rfl

theorem IsMaxScore.of_sibling (ht : t < 256)
    (h : nodeAt H (leafMap fed) (t + 1) (withBit c t (!c.getMsbD t)) = .empty) {s : ℕ}
    (hs : IsMaxScore fed (t + 1) c s) : IsMaxScore fed t c s := by
  obtain ⟨y, v, hy, hv, rfl⟩ := hs.attained
  refine ⟨⟨y, v, hy.mono (Nat.le_succ t), hv, rfl⟩, fun y' v' hy' hv' => ?_⟩
  by_cases hbit : c.getMsbD t = y'.getMsbD t
  · exact hs.le y' v' (agree_succ.mpr ⟨hy', hbit⟩) hv'
  · have hnone := (nodeAt_eq_empty_iff (by omega)).mp h y'
      ((agree_withBit_iff ht).mpr ⟨hy', by cases hb : c.getMsbD t <;> simp_all⟩)
    rw [leafMap_eq_none, hv'] at hnone
    cases hnone

theorem innerWrites_of_sibling (ht : t < 256)
    (h : nodeAt H (leafMap fed) (t + 1) (withBit c t (!c.getMsbD t)) = .empty) {hash : D} {s : ℕ}
    (hnode : nodeAt H (leafMap fed) (t + 1) c = .internal hash) (hs : IsMaxScore fed (t + 1) c s) :
    innerWrites H fed t c =
      insert (.new t c, .internal (chainNode H c t hash), s) (innerWrites H fed (t + 1) c) := by
  have hat : nodeAt H (leafMap fed) t c = .internal (chainNode H c t hash) := by
    rw [nodeAt_of_sibling ht h, hnode]
  have hself : subtreeWrites H fed (t + 1) (withBit c t (c.getMsbD t)) =
      innerWrites H fed (t + 1) c := by
    rw [innerWrites_of_internal hnode]
    exact subtreeWrites_congr (agree_withBit_self ht) fun _ _ => rfl
  have hother := subtreeWrites_of_empty (by omega) h
  rw [innerWrites_of_internal hat, subtreeWrites_of_internal ht hat (hs.of_sibling ht h)]
  cases hbit : c.getMsbD t with
  | true =>
    rw [hbit] at hself hother
    rw [hself, show subtreeWrites H fed (t + 1) (withBit c t false) = ∅ from hother, empty_union]
  | false =>
    rw [hbit] at hself hother
    rw [hself, show subtreeWrites H fed (t + 1) (withBit c t true) = ∅ from hother, union_empty]

theorem chainNode_congr {rep : Key} (h : Agree (t + 1) c rep) (hash : D) :
    chainNode H rep t hash = chainNode H c t hash := by
  unfold chainNode bitAt
  rw [h t (Nat.lt_succ_self t)]

theorem chain_eq (hlast : IsLast fed c) {n a s : ℕ} {hash : D} {rep : Key} (han : a + n ≤ 256)
    (hnone : ∀ t, a ≤ t → t < a + n → ¬HasLeft H fed c t) (hrep : Agree (a + n) c rep)
    (hnode : nodeAt H (leafMap fed) (a + n) c = .internal hash) (hs : IsMaxScore fed (a + n) c s) :
    nodeAt H (leafMap fed) a c = .internal (chainHash H rep a n hash) ∧
      innerWrites H fed a c = innerWrites H fed (a + n) c ∪ chainWrites H rep s a n hash ∧
      IsMaxScore fed a c s := by
  induction n generalizing hash with
  | zero => exact ⟨hnode, by rw [chainWrites, union_empty]; rfl, hs⟩
  | succ n ih =>
    have hsibling := hlast.sibling_eq_empty (H := H) (t := a + n) (by omega)
      (hnone (a + n) (by omega) (by omega))
    have hchain : chainNode H rep (a + n) hash = chainNode H c (a + n) hash :=
      chainNode_congr hrep hash
    have hname : BranchKey.new (a + n) rep = .new (a + n) c :=
      (BranchKey.new_eq_iff (by omega)).mpr (hrep.symm.mono (by omega))
    have hat : nodeAt H (leafMap fed) (a + n) c = .internal (chainNode H rep (a + n) hash) := by
      rw [hchain, nodeAt_of_sibling (by omega) hsibling,
        show a + n + 1 = a + (n + 1) from rfl, hnode]
    obtain ⟨hroot, hwrites, hscore⟩ := ih (by omega) (fun t ht ht' => hnone t ht (by omega))
      (hrep.mono (by omega)) hat (hs.of_sibling (by omega) hsibling)
    refine ⟨hroot, ?_, hscore⟩
    rw [hwrites, chainWrites, innerWrites_of_sibling (by omega) hsibling hnode hs, hname, hchain,
      insert_union, union_insert]
    rfl

theorem collapsed_up (hlast : IsLast fed c) {a n s : ℕ} {v : D} (han : a + n ≤ 256)
    (hnone : ∀ t, a ≤ t → t < a + n → ¬HasLeft H fed c t) {k : Key}
    (hnode : nodeAt H (leafMap fed) (a + n) c = .collapsed k v) (hs : IsMaxScore fed (a + n) c s) :
    nodeAt H (leafMap fed) a c = .collapsed k v ∧ IsMaxScore fed a c s := by
  induction n with
  | zero => exact ⟨hnode, hs⟩
  | succ n ih =>
    have hsibling := hlast.sibling_eq_empty (H := H) (t := a + n) (by omega)
      (hnone (a + n) (by omega) (by omega))
    refine ih (by omega) (fun t ht ht' => hnone t ht (by omega)) ?_
      (hs.of_sibling (by omega) hsibling)
    rw [nodeAt_of_sibling (by omega) hsibling, show a + n + 1 = a + (n + 1) from rfl, hnode]

end

end Zkas.Smt
