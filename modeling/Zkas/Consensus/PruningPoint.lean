import Mathlib

/-!
# The pruning point

Model of `expected_header_pruning_point` and `next_pruning_points` in
`consensus/src/processes/pruning.rs`. The chain is cut into epochs of the finality depth by the blue
score, and the first chain block of an epoch is a sample. A block stores the latest sample below it,
so the samples are linked, and the pruning point of a block is looked for along these links. The
`unwrap` of a missing entry is `none`, as is a loop that does not end.

A blue score is a `u64`, and a natural number here. All that is added is a depth to the score of a
block at or below the one that is asked about, or a depth to a depth, so nothing wraps as long as
that score, the pruning depth and the finality depth add up to less than `2 ^ 64`. -/

namespace Zkas.Pruning

open List Option

variable {H : Type}

/-- What is read of a header. -/
structure Header (H : Type) where
  blue_score : ℕ
  pruning_point : H

/-- The stores that are read. -/
structure Stores (H : Type) where
  header : H → Option (Header H)
  /-- `pruning_sample_from_pov`. -/
  sample : H → Option H

/-- What is read of `CompactGhostdagData`. -/
structure CompactGhostdagData (H : Type) where
  blue_score : ℕ
  selected_parent : H

/-- `PruningPointReply`. -/
structure PruningPointReply (H : Type) where
  pruning_sample : H
  pruning_point : H
  deriving DecidableEq

/-- The parameters of `PruningPointManager`. -/
structure PruningPointManager (H : Type) where
  pruning_depth : ℕ
  finality_depth : ℕ
  genesis_hash : H
  /-- `blockhash::ORIGIN`. -/
  origin : H

/-- `finality_score`. -/
def finalityScore (blue_score finality_depth : ℕ) : ℕ := blue_score / finality_depth

/-- `is_pruning_sample`. -/
def isPruningSample (self_blue_score epoch_chain_ancestor_blue_score finality_depth : ℕ) : Bool :=
  finalityScore epoch_chain_ancestor_blue_score finality_depth <
    finalityScore self_blue_score finality_depth

namespace PruningPointManager

variable [DecidableEq H] (M : PruningPointManager H) (s : Stores H)

/-- `pruning_samples_steps`. -/
def pruningSamplesSteps : ℕ := (M.pruning_depth + M.finality_depth - 1) / M.finality_depth

/-- The two clamping branches of the loop, for the count of steps and the current sample. -/
def clamps (is_self_pruning_sample : Bool) (selected_parent_pruning_point : H) (steps : ℕ)
    (current : H) : Bool :=
  (is_self_pruning_sample && decide (steps = M.pruningSamplesSteps)) ||
    decide (current = selected_parent_pruning_point)

/-- The loop for the pruning point. -/
def pruningPointLoop (blue_score : ℕ) (clamp : ℕ → H → Bool) : ℕ → ℕ → H → Option H
  | 0, _, _ => none
  | fuel + 1, steps, current =>
    if current = M.genesis_hash then some current
    else do
      let header ← s.header current
      if header.blue_score + M.pruning_depth ≤ blue_score then return current
      if clamp steps current then return current
      pruningPointLoop blue_score clamp fuel (steps + 1) (← s.sample current)

/-- The latest sample below a block with the given selected parent. -/
def pruningSample (selected_parent : H) (selected_parent_blue_score : ℕ) : Option H :=
  if selected_parent = M.genesis_hash then some M.genesis_hash
  else do
    let sample ← s.sample selected_parent
    let header ← s.header sample
    return if isPruningSample selected_parent_blue_score header.blue_score M.finality_depth then
      selected_parent else sample

/-- `expected_header_pruning_point`, with given clamping branches. -/
def expectedWith (clamps : Bool → H → ℕ → H → Bool) (data : CompactGhostdagData H) :
    Option (PruningPointReply H) := do
  let parent ← s.header data.selected_parent
  let pruning_sample ← M.pruningSample s data.selected_parent parent.blue_score
  let is_self_pruning_sample := isPruningSample data.blue_score parent.blue_score M.finality_depth
  let pruning_point ← M.pruningPointLoop s data.blue_score
    (clamps is_self_pruning_sample parent.pruning_point) (data.blue_score + 1) 1 pruning_sample
  return ⟨pruning_sample, pruning_point⟩

/-- `expected_header_pruning_point`. -/
def expectedHeaderPruningPoint (data : CompactGhostdagData H) : Option (PruningPointReply H) :=
  M.expectedWith s M.clamps data

/-- The loop of `next_pruning_points`. -/
def nextLoop (current_pruning_point : H) : ℕ → H → List H → Option (List H)
  | 0, _, _ => none
  | fuel + 1, current, deque =>
    if current = current_pruning_point then some deque
    else do nextLoop current_pruning_point fuel (← s.sample current) (current :: deque)

/-- `next_pruning_points`. -/
def nextPruningPoints (sink : CompactGhostdagData H) (current_pruning_point : H) :
    Option (List H) :=
  if sink.selected_parent = M.origin then some []
  else do
    let current ← s.header current_pruning_point
    if current.blue_score + M.pruning_depth > sink.blue_score then return []
    let reply ← M.expectedHeaderPruningPoint s sink
    let point ← s.header reply.pruning_point
    if point.blue_score ≤ current.blue_score then return []
    nextLoop s current_pruning_point (sink.blue_score + 1) reply.pruning_point []

end PruningPointManager

/-! ## The samples of a chain -/

variable [DecidableEq H] {M : PruningPointManager H} {s : Stores H} {k n i j m : ℕ}

/-- A chain from the genesis on, whose blue score rises by at most `k + 1` from block to block and
whose blocks store what is computed for them. -/
structure Chain (M : PruningPointManager H) (s : Stores H) (k n : ℕ) where
  block : ℕ → H
  score : ℕ → ℕ
  lt : ∀ i < n, score i < score (i + 1)
  le : ∀ i < n, score (i + 1) ≤ score i + k + 1
  genesis : block 0 = M.genesis_hash
  injective : ∀ i ≤ n, ∀ j ≤ n, block i = block j → i = j
  ne_origin : ∀ i ≤ n, block i ≠ M.origin
  header : ∀ i ≤ n, ∃ point, s.header (block i) = some ⟨score i, point⟩
  reply : ∀ i < n, ∀ r, M.expectedHeaderPruningPoint s ⟨score (i + 1), block i⟩ = some r →
    s.sample (block (i + 1)) = some r.pruning_sample ∧
      s.header (block (i + 1)) = some ⟨score (i + 1), r.pruning_point⟩

namespace Chain

variable (c : Chain M s k n)

/-- The epoch of a chain block. -/
def epoch (i : ℕ) : ℕ := finalityScore (c.score i) M.finality_depth

/-- The first chain block of its epoch. -/
def IsFirst (i : ℕ) : Prop := i = 0 ∨ c.epoch (i - 1) < c.epoch i

instance : DecidablePred c.IsFirst := fun _ => inferInstanceAs (Decidable (_ ∨ _))

/-- The latest first block below a chain block. -/
def sampleOf (i : ℕ) : ℕ := Nat.findGreatest c.IsFirst (i - 1)

/-- The latest first block at the pruning depth below a chain block, or the genesis. -/
def pointOf (i : ℕ) : ℕ :=
  Nat.findGreatest (fun j => c.IsFirst j ∧ c.score j + M.pruning_depth ≤ c.score i) (i - 1)

/-- The first blocks above one block up to another, from the lowest on. -/
def samples (j m : ℕ) : List ℕ := (range (m + 1)).filter fun x => j < x ∧ c.IsFirst x

theorem isFirst_sampleOf : c.IsFirst (c.sampleOf i) :=
  Nat.findGreatest_spec (P := c.IsFirst) (Nat.zero_le _) (.inl rfl)

theorem sampleOf_le : c.sampleOf (i + 1) ≤ i := Nat.findGreatest_le _

theorem sampleOf_succ : c.sampleOf (i + 1) = if c.IsFirst i then i else c.sampleOf i := by
  cases i with
  | zero => simp [sampleOf, IsFirst]
  | succ i => exact Nat.findGreatest_succ _

theorem findGreatest_sampleOf {Q : ℕ → Prop} [DecidablePred Q] (hQ : ∀ j, Q j → c.IsFirst j) :
    Nat.findGreatest Q (c.sampleOf (i + 1)) = Nat.findGreatest Q i := by
  induction i with
  | zero => rfl
  | succ i ih =>
    rw [sampleOf_succ]
    split_ifs with hfirst
    · rfl
    · rw [ih, Nat.findGreatest_of_not fun hq => hfirst (hQ _ hq)]

theorem samples_self : c.samples m m = [] := by
  refine filter_eq_nil_iff.mpr fun x hx => ?_
  have hlt := mem_range.mp hx
  simp [show ¬m < x by omega]

theorem samples_sampleOf (hj : c.IsFirst j) (hle : j ≤ i) :
    c.samples j (c.sampleOf (i + 1)) = c.samples j i := by
  induction i, hle using Nat.le_induction with
  | base => rw [sampleOf_succ, if_pos hj]
  | succ i _ ih =>
    rw [sampleOf_succ]
    split_ifs with hfirst
    · rfl
    · rw [ih, samples, samples, range_succ (n := i + 1), filter_append]
      simp [hfirst]

theorem score_mono (hij : i ≤ j) (hj : j ≤ n) : c.score i ≤ c.score j := by
  induction j, hij using Nat.le_induction with
  | base => exact le_rfl
  | succ j _ ih => exact (ih (by omega)).trans (c.lt j (by omega)).le

theorem index_le (hi : i ≤ n) : i ≤ c.score i := by
  induction i with
  | zero => exact Nat.zero_le _
  | succ i ih => exact Nat.succ_le_of_lt (lt_of_le_of_lt (ih (by omega)) (c.lt i (by omega)))

theorem ne_genesis (hpos : 0 < i) (hi : i ≤ n) : c.block i ≠ M.genesis_hash := fun heq =>
  hpos.ne' (c.injective i hi 0 (Nat.zero_le _) (heq.trans c.genesis.symm))

theorem epoch_sampleOf (hi : i ≤ n) : c.epoch (c.sampleOf (i + 1)) = c.epoch i := by
  induction i with
  | zero => rfl
  | succ i ih =>
    rw [sampleOf_succ]
    split_ifs with hfirst
    · rfl
    · rw [ih (by omega)]
      exact le_antisymm (Nat.div_le_div_right (c.lt i (by omega)).le)
        (not_lt.mp fun hlt => hfirst (.inr hlt))

/-- The first block of an epoch is at most `k` above its start, one epoch above the block below. -/
theorem first_spec (hF : k + 1 < M.finality_depth) (hfirst : c.IsFirst (i + 1)) (hi : i < n) :
    c.epoch (i + 1) = c.epoch i + 1 ∧ c.score (i + 1) ≤ M.finality_depth * c.epoch (i + 1) + k := by
  have hlt : c.epoch i < c.epoch (i + 1) := hfirst.resolve_left (Nat.succ_ne_zero i)
  have hle := c.le i hi
  have hup : c.score i < M.finality_depth * (c.epoch i + 1) := Nat.lt_mul_div_succ _ (by omega)
  have hnext : c.epoch (i + 1) < c.epoch i + 2 := by
    refine (Nat.div_lt_iff_lt_mul (by omega)).mpr ?_
    linarith
  have heq : c.epoch (i + 1) = c.epoch i + 1 := by omega
  exact ⟨heq, heq ▸ by omega⟩

/-! ## The replies along a chain -/

/-- The blocks up to an index store their latest samples and their pruning points. -/
def Stored (i : ℕ) : Prop := ∀ j < i,
  s.sample (c.block (j + 1)) = some (c.block (c.sampleOf (j + 1))) ∧
    s.header (c.block (j + 1)) = some ⟨c.score (j + 1), c.block (c.pointOf (j + 1))⟩

variable (hF : k + 1 < M.finality_depth)
include hF

/-- The loop stops at the latest sample at the pruning depth, if it is not clamped before. -/
theorem pruningPointLoop_eq (hi : i ≤ n) (hstored : c.Stored i) {blue_score : ℕ}
    {clamp : ℕ → H → Bool} (hclamp : ∀ j < i, ∀ steps, c.IsFirst (j + 1) →
      steps + c.epoch (j + 1) = c.epoch i + 1 → clamp steps (c.block (j + 1)) = true →
      c.score (j + 1) + M.pruning_depth ≤ blue_score)
    {fuel steps : ℕ} (hj : j ≤ i) (hfirst : c.IsFirst j)
      (hsteps : steps + c.epoch j = c.epoch i + 1)
    (hfuel : j < fuel) : M.pruningPointLoop s blue_score clamp fuel steps (c.block j) =
      some (c.block (Nat.findGreatest (fun m => c.IsFirst m ∧
        c.score m + M.pruning_depth ≤ blue_score) j)) := by
  induction fuel generalizing j steps with
  | zero => exact absurd hfuel (Nat.not_lt_zero _)
  | succ fuel ih =>
    rw [PruningPointManager.pruningPointLoop]
    cases j with
    | zero => rw [if_pos c.genesis, Nat.findGreatest_zero]
    | succ j =>
      rw [if_neg (c.ne_genesis (Nat.succ_pos j) (hj.trans hi)), (hstored j hj).1, (hstored j hj).2]
      dsimp only [bind_eq_bind, bind_some]
      split_ifs with hdeep hstop
      · rw [Nat.findGreatest_eq ⟨hfirst, hdeep⟩]
        rfl
      · exact absurd (hclamp j hj steps hfirst hsteps hstop) hdeep
      · have hle := c.sampleOf_le (i := j)
        have hepoch := c.epoch_sampleOf (i := j) (by omega)
        have hnext := (c.first_spec hF hfirst (by omega)).1
        rw [ih (by omega) c.isFirst_sampleOf (by omega) (by omega), Nat.findGreatest_of_not
          fun hboth => hdeep hboth.2, c.findGreatest_sampleOf fun _ hboth => hboth.1]

omit hF in
theorem pruningSample_eq (hi : i ≤ n) (hstored : c.Stored i) :
    M.pruningSample s (c.block i) (c.score i) = some (c.block (c.sampleOf (i + 1))) := by
  unfold PruningPointManager.pruningSample
  cases i with
  | zero => rw [if_pos c.genesis, ← c.genesis]; rfl
  | succ i =>
    obtain ⟨point, hheader⟩ := c.header (c.sampleOf (i + 1)) (c.sampleOf_le.trans (by omega))
    have hiff : isPruningSample (c.score (i + 1)) (c.score (c.sampleOf (i + 1))) M.finality_depth =
        true ↔ c.IsFirst (i + 1) := by
      have hepoch := c.epoch_sampleOf (i := i) (by omega)
      unfold epoch at hepoch
      simp [isPruningSample, hepoch, IsFirst, epoch]
    rw [if_neg (c.ne_genesis (Nat.succ_pos i) hi), (hstored i (Nat.lt_succ_self i)).1]
    dsimp only [bind_eq_bind, bind_some]
    rw [hheader, c.sampleOf_succ (i := i + 1)]
    simp only [bind_some, hiff, apply_ite c.block]
    rfl

variable (hlow : k < M.pruning_depth % M.finality_depth)
  (hhigh : M.pruning_depth % M.finality_depth < M.finality_depth - k)
include hlow hhigh

/-- The clamping branches only stop at the pruning depth: a sample that is `P / F + 1` epochs below
the sample it is looked for is deep enough, and so is the pruning point of the selected parent. -/
theorem clamps_deep (hi : i < n) (hstored : c.Stored i) {point : H}
    (hheader : s.header (c.block i) = some ⟨c.score i, point⟩) {steps : ℕ} (hj : j < i)
    (hfirst : c.IsFirst (j + 1)) (hsteps : steps + c.epoch (j + 1) = c.epoch i + 1)
    (hclamp : M.clamps (isPruningSample (c.score (i + 1)) (c.score i) M.finality_depth) point steps
      (c.block (j + 1)) = true) : c.score (j + 1) + M.pruning_depth ≤ c.score (i + 1) := by
  simp only [PruningPointManager.clamps, Bool.or_eq_true, Bool.and_eq_true,
    decide_eq_true_eq] at hclamp
  rcases hclamp with ⟨hself, hcount⟩ | heq
  · have hself : c.epoch i < c.epoch (i + 1) := of_decide_eq_true hself
    have hdiv := Nat.div_add_mod M.pruning_depth M.finality_depth
    have hceil : M.pruningSamplesSteps = M.pruning_depth / M.finality_depth + 1 := by
      refine Nat.div_eq_of_lt_le ?_ ?_
      · rw [add_mul, mul_comm]
        omega
      · rw [add_mul, add_mul, mul_comm]
        omega
    have hupper := (c.first_spec hF hfirst (by omega)).2
    have hmul : M.finality_depth * c.epoch (i + 1) ≤ c.score (i + 1) := Nat.mul_div_le _ _
    have hscaled := Nat.mul_le_mul_left M.finality_depth (show
      c.epoch (j + 1) + (M.pruning_depth / M.finality_depth + 1) ≤ c.epoch (i + 1) by omega)
    rw [mul_add, mul_add, mul_one] at hscaled
    omega
  · obtain ⟨i, rfl⟩ : ∃ m, i = m + 1 := ⟨i - 1, by omega⟩
    rw [(hstored i (Nat.lt_succ_self i)).2, some.injEq, Header.mk.injEq] at hheader
    have hle : c.pointOf (i + 1) ≤ i := Nat.findGreatest_le _
    have hindex := c.injective (j + 1) (by omega) _ (by omega) (heq.trans hheader.2.symm)
    have hdeep := (Nat.findGreatest_of_ne_zero hindex.symm (Nat.succ_ne_zero j)).2
    exact hdeep.trans (c.lt _ hi).le

theorem expectedWith_eq (hi : i < n) (hstored : c.Stored i) {clamps : Bool → H → ℕ → H → Bool}
    (hclamps : clamps = M.clamps ∨ clamps = fun _ _ _ _ => false) :
    M.expectedWith s clamps ⟨c.score (i + 1), c.block i⟩ =
      some ⟨c.block (c.sampleOf (i + 1)), c.block (c.pointOf (i + 1))⟩ := by
  obtain ⟨point, hheader⟩ := c.header i hi.le
  have hclamp (j : ℕ) (hj : j < i) (steps : ℕ) (hfirst : c.IsFirst (j + 1))
      (hsteps : steps + c.epoch (j + 1) = c.epoch i + 1)
      (hstop : clamps (isPruningSample (c.score (i + 1)) (c.score i) M.finality_depth) point steps
        (c.block (j + 1)) = true) : c.score (j + 1) + M.pruning_depth ≤ c.score (i + 1) := by
    rcases hclamps with rfl | rfl
    · exact c.clamps_deep hF hlow hhigh hi hstored hheader hj hfirst hsteps hstop
    · exact absurd hstop Bool.false_ne_true
  have hle := c.sampleOf_le (i := i)
  have hepoch := c.epoch_sampleOf hi.le
  have hfuel := c.index_le (show i + 1 ≤ n by omega)
  unfold PruningPointManager.expectedWith
  rw [hheader]
  dsimp only [bind_eq_bind, bind_some]
  rw [c.pruningSample_eq hi.le hstored, bind_some, c.pruningPointLoop_eq hF hi.le hstored
    hclamp hle c.isFirst_sampleOf (by omega) (by omega),
    c.findGreatest_sampleOf fun _ hboth => hboth.1]
  rfl

theorem stored (hi : i ≤ n) : c.Stored i := by
  induction i with
  | zero => exact fun j hj => absurd hj (Nat.not_lt_zero j)
  | succ i ih =>
    intro j hj
    rcases Nat.lt_succ_iff_lt_or_eq.mp hj with hj | rfl
    · exact ih (by omega) j hj
    · exact c.reply j hi _ (c.expectedWith_eq hF hlow hhigh hi (ih (by omega)) (.inl rfl))

theorem nextLoop_eq (hj : c.IsFirst j) {fuel : ℕ} (hjm : j ≤ m) (hm : m ≤ n) (hfirst : c.IsFirst m)
    (hfuel : m < fuel) (deque : List H) : PruningPointManager.nextLoop s (c.block j) fuel
      (c.block m)
      deque = some ((c.samples j m).map c.block ++ deque) := by
  induction fuel generalizing m deque with
  | zero => exact absurd hfuel (Nat.not_lt_zero _)
  | succ fuel ih =>
    rw [PruningPointManager.nextLoop]
    split_ifs with heq
    · obtain rfl := c.injective m hm j (hjm.trans hm) heq
      rw [samples_self]
      rfl
    · have hlt : j < m := lt_of_le_of_ne hjm fun hjm => heq (hjm ▸ rfl)
      obtain ⟨m, rfl⟩ : ∃ m', m = m' + 1 := ⟨m - 1, by omega⟩
      have hle := c.sampleOf_le (i := m)
      have hlower : j ≤ c.sampleOf (m + 1) := Nat.le_findGreatest (Nat.le_of_lt_succ hlt) hj
      have hsucc : c.samples j (m + 1) = c.samples j m ++ [m + 1] := by
        rw [samples, range_succ, filter_append, filter_singleton]
        simp [hlt, hfirst, samples]
      rw [(c.stored hF hlow hhigh hm m (Nat.lt_succ_self m)).1, bind_eq_bind, bind_some,
        ih hlower (by omega) c.isFirst_sampleOf (by omega),
        c.samples_sampleOf hj (by omega), hsucc, map_append, append_assoc]
      rfl

end Chain

/-- **Pruning points along a chain.** The sample that is computed for a block is the latest first
block of an epoch below it, and the pruning point is the latest one at the pruning depth, or the
genesis; it never goes back, and the clamping branches change nothing. From a sample on the chain of
the sink, the next pruning points are the samples above it up to the pruning point of the sink. -/
theorem pruningPoints_correct (hF : k + 1 < M.finality_depth)
    (hlow : k < M.pruning_depth % M.finality_depth)
    (hhigh : M.pruning_depth % M.finality_depth < M.finality_depth - k) (c : Chain M s k n) :
    (∀ i < n, M.expectedHeaderPruningPoint s ⟨c.score (i + 1), c.block i⟩ =
        some ⟨c.block (c.sampleOf (i + 1)), c.block (c.pointOf (i + 1))⟩ ∧
      M.expectedWith s (fun _ _ _ _ => false) ⟨c.score (i + 1), c.block i⟩ =
        M.expectedHeaderPruningPoint s ⟨c.score (i + 1), c.block i⟩) ∧
    (∀ i j, i ≤ j → j ≤ n → c.pointOf i ≤ c.pointOf j) ∧
    (∀ current, M.nextPruningPoints s ⟨0, M.origin⟩ current = some []) ∧
    ∀ i < n, ∀ j ≤ i + 1, c.IsFirst j →
      M.nextPruningPoints s ⟨c.score (i + 1), c.block i⟩ (c.block j) =
        some (if c.score (i + 1) < c.score j + M.pruning_depth then []
          else (c.samples j (c.pointOf (i + 1))).map c.block) := by
  have hstored {i : ℕ} (hi : i ≤ n) := c.stored hF hlow hhigh hi
  have hexpected {i : ℕ} (hi : i < n) {clamps : Bool → H → ℕ → H → Bool}
      (hclamps : clamps = M.clamps ∨ clamps = fun _ _ _ _ => false) :=
    c.expectedWith_eq hF hlow hhigh hi (hstored hi.le) hclamps
  refine ⟨fun i hi => ⟨hexpected hi (.inl rfl), ?_⟩, fun i j hij hj => ?_, fun _ => if_pos rfl,
    fun i hi j hj hfirst => ?_⟩
  · exact (hexpected hi (.inr rfl)).trans (hexpected hi (.inl rfl)).symm
  · refine Nat.findGreatest_mono (fun m hm => ⟨hm.1, hm.2.trans (c.score_mono hij hj)⟩) (by omega)
  · obtain ⟨point, hheader⟩ := c.header j (by omega)
    have hle : c.pointOf (i + 1) ≤ i := Nat.findGreatest_le _
    obtain ⟨point', hheader'⟩ := c.header (c.pointOf (i + 1)) (by omega)
    unfold PruningPointManager.nextPruningPoints PruningPointManager.expectedHeaderPruningPoint
    rw [if_neg (c.ne_origin i hi.le), hheader, hexpected hi (.inl rfl)]
    dsimp only [bind_eq_bind, bind_some]
    split_ifs with hshallow
    · rfl
    rw [hheader', bind_some]
    -- A sample at the pruning depth is the pruning point or below it.
    have hdeep : c.IsFirst j ∧ c.score j + M.pruning_depth ≤ c.score (i + 1) :=
      ⟨hfirst, not_lt.mp hshallow⟩
    have hji : j ≤ i := by
      by_contra hlt
      obtain rfl : j = i + 1 := by omega
      have hpos := Nat.mod_le M.pruning_depth M.finality_depth
      omega
    have hjp : j ≤ c.pointOf (i + 1) := Nat.le_findGreatest hji hdeep
    have hpoint : c.IsFirst (c.pointOf (i + 1)) := (Nat.findGreatest_spec (P := fun m =>
      c.IsFirst m ∧ c.score m + M.pruning_depth ≤ c.score (i + 1)) hji hdeep).1
    have hloop := c.nextLoop_eq hF hlow hhigh hfirst hjp (by omega) hpoint
      (Nat.lt_succ_of_le ((hle.trans (Nat.le_succ i)).trans (c.index_le hi))) []
    rw [append_nil] at hloop
    split_ifs with hsame
    · rcases hjp.eq_or_lt with heq | hlt
      · rw [← heq, c.samples_self]
        rfl
      · have hmono := c.score_mono (Nat.succ_le_of_lt hlt) (by omega)
        exact absurd (lt_of_lt_of_le (c.lt j (by omega)) hmono) (not_lt.mpr hsame)
    · exact hloop

namespace Sample

/-- Epochs of two, and a pruning depth of three. -/
def manager : PruningPointManager ℕ := ⟨3, 2, 0, 9⟩

/-- What the blocks of a chain without merges store. -/
def stores : Stores ℕ := ⟨fun i => some ⟨i, (i - 3) / 2 * 2⟩, fun i => some ((i - 1) / 2 * 2)⟩

theorem expectedHeaderPruningPoint_stores : ∀ i < 8, manager.expectedHeaderPruningPoint stores
    ⟨i + 1, i⟩ = some ⟨i / 2 * 2, (i + 1 - 3) / 2 * 2⟩ := by
  decide

/-- Nine blocks, each one blue score above the one before. -/
def chain : Chain manager stores 0 8 where
  block := id
  score := id
  lt i _ := Nat.lt_succ_self i
  le _ _ := le_rfl
  genesis := rfl
  injective _ _ _ _ heq := heq
  ne_origin i hi := (Nat.lt_succ_of_le hi).ne
  header i _ := ⟨_, rfl⟩
  reply i hi r hr := by
    obtain rfl := mem_unique (expectedHeaderPruningPoint_stores i hi) hr
    exact ⟨rfl, rfl⟩

/-- From the genesis on, the last block prunes to both samples at its pruning depth. -/
theorem pruningPoints_chain : manager.nextPruningPoints stores ⟨8, 7⟩ 0 = some [2, 4] :=
  ((pruningPoints_correct (by decide) (by decide) (by decide) chain).2.2.2 7 (by decide) 0
    (by decide)
    (.inl rfl)).trans (by decide)

end Sample

end Zkas.Pruning
