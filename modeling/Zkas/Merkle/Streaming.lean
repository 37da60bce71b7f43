import Zkas.Merkle.Tree

/-!
# The streaming Merkle builder

`StreamingMerkleBuilder` of `crypto/merkle/src/streaming.rs` adds the leaves one at a time and keeps
a stack of the nodes whose leaves are all there (`stackAt`): one for each bit of the number of
leaves. `finalize` closes the stack from the top with fillers on the right. -/

namespace Zkas.Merkle

open List LevelTree

open LevelTree (levelUp level node partner path fold)

variable {α : Type*} (H : α → α → α) (zero : α)

/-- `MAX_STACK`. -/
def MAX_STACK : ℕ := 32

/-- `StreamingMerkleBuilder`. The stack is a list with its top first. -/
structure StreamingMerkleBuilder (α : Type*) where
  stack : List (ℕ × α)
  leaf_count : ℕ

namespace StreamingMerkleBuilder

/-- `new`. -/
def new : StreamingMerkleBuilder α := ⟨[], 0⟩

/-- The loop of `add_leaf`: what is left of the stack, and the node that is pushed on it. -/
def addLeafLoop : List (ℕ × α) → ℕ → α → List (ℕ × α) × ℕ × α
  | [], level, current => ([], level, current)
  | (top_level, top_hash) :: stack, level, current =>
    if top_level ≠ level then ((top_level, top_hash) :: stack, level, current)
    else addLeafLoop stack (level + 1) (H top_hash current)

/-- `add_leaf`. `none` is a panic: no room on the stack, or a count that does not fit in a `u32`. -/
def addLeaf (b : StreamingMerkleBuilder α) (hash : α) : Option (StreamingMerkleBuilder α) :=
  let (stack, level, current) := addLeafLoop H b.stack 0 hash
  if stack.length < MAX_STACK ∧ b.leaf_count + 1 < 2 ^ 32 then
    some ⟨(level, current) :: stack, b.leaf_count + 1⟩
  else none

/-- The padding loop of `finalize`, for a number of levels. -/
def pad : ℕ → α → α
  | 0, result_hash => result_hash
  | n + 1, result_hash => pad n (H result_hash zero)

/-- The loop of `finalize` after its first round. -/
def finalizeLoop : List (ℕ × α) → ℕ → α → α
  | [], _, result_hash => result_hash
  | (level, hash) :: stack, result_level, result_hash =>
    finalizeLoop stack (max result_level level + 1)
      (H hash (pad H zero (level - result_level) result_hash))

/-- `finalize`. -/
def finalize (b : StreamingMerkleBuilder α) : α :=
  if b.leaf_count = 0 then zero
  else if b.leaf_count = 1 then (b.stack.getLast?.map Prod.snd).getD zero
  else match b.stack with
    | [] => zero
    | (level, hash) :: stack => finalizeLoop H zero stack level hash

/-- The root that the builder gives for a list of leaves. `none` is a panic. -/
def rootOf (hashes : List α) : Option α := (hashes.foldlM (addLeaf H) new).map (finalize H zero)

/-! ## The stack -/

/-- The complete nodes from a level up, when there are `m` of them on that level: one for each bit
of `m`, the smallest first. -/
def stackAt (N : ℕ → ℕ → α) (l m : ℕ) : List (ℕ × α) :=
  if m = 0 then []
  else if m % 2 = 1 then (l, N l (m - 1)) :: stackAt N (l + 1) (m / 2)
  else stackAt N (l + 1) (m / 2)
termination_by m
decreasing_by all_goals omega

variable {H zero} {N : ℕ → ℕ → α} {L : List α}

@[simp] theorem stackAt_zero (l : ℕ) : stackAt N l 0 = [] := by
  rw [stackAt, if_pos rfl]

variable {l m : ℕ}

theorem stackAt_odd (h : m % 2 = 1) :
    stackAt N l m = (l, N l (m - 1)) :: stackAt N (l + 1) (m / 2) := by
  rw [stackAt, if_neg (by omega), if_pos h]

theorem stackAt_even (h : m % 2 = 0) : stackAt N l m = stackAt N (l + 1) (m / 2) := by
  by_cases hm : m = 0
  · subst hm
    rw [stackAt_zero, stackAt_zero]
  · rw [stackAt, if_neg hm, if_neg (by omega)]

theorem le_of_mem_stackAt {e : ℕ × α} (he : e ∈ stackAt N l m) : l ≤ e.1 := by
  induction l, m using stackAt.induct with
  | case1 l =>
    rw [stackAt_zero] at he
    exact absurd he not_mem_nil
  | case2 l m _ hodd ih =>
    rw [stackAt_odd hodd, mem_cons] at he
    obtain rfl | he := he
    · exact le_refl _
    · exact (Nat.le_succ l).trans (ih he)
  | case3 l m _ heven ih =>
    rw [stackAt_even (by omega)] at he
    exact (Nat.le_succ l).trans (ih he)

theorem length_stackAt_le {k : ℕ} (l : ℕ) {m : ℕ} (hm : m < 2 ^ k) :
    (stackAt N l m).length ≤ k := by
  induction k generalizing l m with
  | zero =>
    obtain rfl : m = 0 := by omega
    rw [stackAt_zero]
    rfl
  | succ k ih =>
    have hhalf : m / 2 < 2 ^ k := by omega
    rcases Nat.mod_two_eq_zero_or_one m with heven | hodd
    · rw [stackAt_even heven]
      exact (ih _ hhalf).trans (Nat.le_succ k)
    · rw [stackAt_odd hodd, length_cons]
      exact Nat.succ_le_succ (ih _ hhalf)

/-- The nodes of the tree over a list. -/
abbrev treeNode (H : α → α → α) (zero : α) (L : List α) : ℕ → ℕ → α := node H (fun _ => zero) L

theorem half_mul_lt {n l m : ℕ} (hm : m * 2 ^ l < n) : m / 2 * 2 ^ (l + 1) < n := by
  calc m / 2 * 2 ^ (l + 1) = m / 2 * 2 * 2 ^ l := by ring
    _ ≤ m * 2 ^ l := Nat.mul_le_mul_right _ (Nat.div_mul_le_self _ _)
    _ < n := hm

theorem join_odd (H : α → α → α) (zero : α) (hm : m * 2 ^ l < L.length) (hodd : m % 2 = 1) :
    H (treeNode H zero L l (m - 1)) (treeNode H zero L l m) =
      treeNode H zero L (l + 1) (m / 2) := by
  rw [treeNode, node_succ (half_mul_lt hm), show 2 * (m / 2) = m - 1 by omega,
    show m - 1 + 1 = m by omega]

theorem addLeafLoop_stackAt (zero : α) (hm : m * 2 ^ l < L.length) :
    ∃ stack level current,
      addLeafLoop H (stackAt (treeNode H zero L) l m) l (treeNode H zero L l m) =
        (stack, level, current) ∧
      (level, current) :: stack = stackAt (treeNode H zero L) l (m + 1) := by
  induction l, m using stackAt.induct with
  | case1 l =>
    refine ⟨[], l, _, by rw [stackAt_zero, addLeafLoop], ?_⟩
    rw [stackAt_odd rfl, stackAt_zero]
  | case2 l m _ hodd ih =>
    rw [stackAt_odd hodd, addLeafLoop, if_neg (by simp), join_odd H zero hm hodd,
      stackAt_even (m := m + 1) (by omega), show (m + 1) / 2 = m / 2 + 1 by omega]
    exact ih (half_mul_lt hm)
  | case3 l m hm' heven ih =>
    refine ⟨stackAt (treeNode H zero L) l m, l, treeNode H zero L l m, ?_, ?_⟩
    · -- The top of the stack is on a higher level.
      rcases hstack : stackAt (treeNode H zero L) l m with _ | ⟨⟨top_level, top_hash⟩, stack⟩
      · rfl
      · have hle : l + 1 ≤ top_level := by
          have hmem : (top_level, top_hash) ∈ stackAt (treeNode H zero L) (l + 1) (m / 2) := by
            rw [← stackAt_even (by omega), hstack]
            exact mem_cons_self
          exact le_of_mem_stackAt hmem
        rw [addLeafLoop, if_pos (by omega)]
    · rw [stackAt_odd (m := m + 1) (by omega), show (m + 1) / 2 = m / 2 by omega,
        ← stackAt_even (by omega)]
      rfl

theorem foldlM_addLeaf (zero : α) (hL : L.length < 2 ^ 32) (n : ℕ) (hn : n ≤ L.length) :
    (L.take n).foldlM (addLeaf H) new = some ⟨stackAt (treeNode H zero L) 0 n, n⟩ := by
  induction n with
  | zero => rw [stackAt_zero]; rfl
  | succ n ih =>
    have hlt : n < L.length := hn
    obtain ⟨stack, l, current, hloop, hstack⟩ :=
      addLeafLoop_stackAt (H := H) (L := L) (l := 0) (m := n) zero (by simpa using hlt)
    have hroom : stack.length < MAX_STACK := by
      have hle : (stackAt (treeNode H zero L) 0 (n + 1)).length ≤ MAX_STACK :=
        length_stackAt_le 0 (by unfold MAX_STACK; omega)
      rwa [← hstack, length_cons] at hle
    rw [treeNode, node_zero hlt] at hloop
    rw [take_succ_eq_append_getElem hlt, foldlM_append, ih hlt.le, Option.bind_eq_bind,
      Option.bind_some, foldlM_cons, addLeaf, hloop]
    dsimp only
    rw [if_pos ⟨hroom, by omega⟩, hstack]
    rfl

/-! ## Closing the stack -/

theorem pad_last {l k q : ℕ} (hlt : q * 2 ^ k * 2 ^ l < L.length)
    (hlast : L.length ≤ (q * 2 ^ k + 1) * 2 ^ l) :
    pad H zero k (treeNode H zero L l (q * 2 ^ k)) = treeNode H zero L (l + k) q := by
  induction k generalizing l with
  | zero => rw [pad, pow_zero, mul_one, add_zero]
  | succ k ih =>
    have hdouble : q * 2 ^ (k + 1) = 2 * (q * 2 ^ k) := by ring
    have hlt' : q * 2 ^ k * 2 ^ (l + 1) < L.length := by
      calc q * 2 ^ k * 2 ^ (l + 1) = q * 2 ^ (k + 1) * 2 ^ l := by ring
        _ < L.length := hlt
    have hlast' : L.length ≤ (q * 2 ^ k + 1) * 2 ^ (l + 1) := by
      calc L.length ≤ (q * 2 ^ (k + 1) + 1) * 2 ^ l := hlast
        _ ≤ (q * 2 ^ (k + 1) + 2) * 2 ^ l := Nat.mul_le_mul_right _ (by omega)
        _ = (q * 2 ^ k + 1) * 2 ^ (l + 1) := by ring
    -- There is no node to the right.
    have hjoin : H (treeNode H zero L l (q * 2 ^ (k + 1))) zero =
        treeNode H zero L (l + 1) (q * 2 ^ k) := by
      rw [hdouble] at hlast ⊢
      rw [treeNode, node_succ hlt', node_of_le hlast]
    rw [pad, hjoin, ih hlt' hlast', add_assoc, add_comm 1]

/-- The loop closes the stack to the root, if its result is the last node of a level and the nodes
on the stack are those before it. -/
theorem finalizeLoop_stackAt (zero : α) {l m result_level : ℕ} (hle : result_level ≤ l)
    (hlast : (L.length - 1) / 2 ^ result_level = m * 2 ^ (l - result_level))
    (hlevel : 2 ^ result_level < 2 * L.length) :
    finalizeLoop H zero (stackAt (treeNode H zero L) l m) result_level
        (treeNode H zero L result_level (m * 2 ^ (l - result_level))) = root H zero L := by
  have hpos : 0 < L.length := by
    have := Nat.two_pow_pos result_level
    omega
  induction l, m using stackAt.induct generalizing result_level with
  | case1 l =>
    rw [Nat.zero_mul, Nat.div_eq_zero_iff_lt (Nat.two_pow_pos _)] at hlast
    rw [stackAt_zero, finalizeLoop, Nat.zero_mul, root, LevelTree.root,
      eq_clog (show L.length ≤ 2 ^ result_level by omega) hlevel]
  | case2 l m _ hodd ih =>
    have hl : 2 ^ l = 2 ^ result_level * 2 ^ (l - result_level) := by
      rw [← pow_add, Nat.add_sub_cancel' hle]
    have hdiv : (L.length - 1) / 2 ^ l = m := by
      rw [hl, ← Nat.div_div_eq_div_mul, hlast, Nat.mul_div_cancel _ (Nat.two_pow_pos _)]
    have hlt : m * 2 ^ (l - result_level) * 2 ^ result_level < L.length := by
      rw [← hlast]
      exact (Nat.div_mul_le_self _ _).trans_lt (Nat.sub_lt hpos one_pos)
    have hlast' : L.length ≤ (m * 2 ^ (l - result_level) + 1) * 2 ^ result_level := by
      have := Nat.lt_mul_div_succ (L.length - 1) (Nat.two_pow_pos result_level)
      rw [hlast, mul_comm] at this
      omega
    have hm : m * 2 ^ l < L.length := by
      rw [← hdiv]
      exact (Nat.div_mul_le_self _ _).trans_lt (Nat.sub_lt hpos one_pos)
    have hlevel' : 2 ^ (l + 1) < 2 * L.length := by
      have := Nat.le_mul_of_pos_left (2 ^ l) (show 0 < m by omega)
      omega
    have hlast'' : (L.length - 1) / 2 ^ (l + 1) = m / 2 * 2 ^ (l + 1 - (l + 1)) := by
      rw [Nat.sub_self, Nat.pow_zero, Nat.mul_one, Nat.pow_succ, ← Nat.div_div_eq_div_mul, hdiv]
    have hnext := ih (le_refl (l + 1)) hlast'' hlevel'
    rw [Nat.sub_self, Nat.pow_zero, Nat.mul_one] at hnext
    rw [stackAt_odd hodd, finalizeLoop, pad_last hlt hlast', Nat.add_sub_cancel' hle,
      join_odd H zero hm hodd, max_eq_right hle, hnext]
  | case3 l m _ heven ih =>
    have hdouble : m * 2 ^ (l - result_level) = m / 2 * 2 ^ (l + 1 - result_level) := by
      rw [Nat.succ_sub hle, pow_succ, mul_comm (2 ^ _) 2, ← mul_assoc, show m / 2 * 2 = m by omega]
    rw [stackAt_even (by omega), hdouble]
    exact ih (hle.trans (Nat.le_succ l)) (hlast.trans hdouble) hlevel

theorem finalize_stackAt (zero : α) (hm : 0 < m) (hlen : L.length = m * 2 ^ l) :
    ∃ level hash stack, stackAt (treeNode H zero L) l m = (level, hash) :: stack ∧
      finalizeLoop H zero stack level hash = root H zero L := by
  induction l, m using stackAt.induct with
  | case1 l => exact absurd hm (lt_irrefl 0)
  | case2 l m _ hodd ih =>
    refine ⟨l, _, _, stackAt_odd hodd, ?_⟩
    have hpos := Nat.two_pow_pos l
    have hle := Nat.le_mul_of_pos_left (2 ^ l) hm
    have hdiv : (L.length - 1) / 2 ^ l = m / 2 * 2 ^ (l + 1 - l) := by
      rw [Nat.add_sub_cancel_left, Nat.pow_one, show m / 2 * 2 = m - 1 by omega]
      refine Nat.div_eq_of_lt_le ?_ ?_
      · rw [Nat.sub_mul, Nat.one_mul]
        omega
      · rw [Nat.sub_add_cancel hm]
        omega
    have hclose :=
      finalizeLoop_stackAt (H := H) (L := L) zero (show l ≤ l + 1 by omega) hdiv (by omega)
    rwa [Nat.add_sub_cancel_left, Nat.pow_one, show m / 2 * 2 = m - 1 by omega] at hclose
  | case3 l m _ heven ih =>
    rw [stackAt_even (by omega)]
    refine ih (by omega) ?_
    rw [hlen, pow_succ, mul_comm (2 ^ l) 2, ← mul_assoc, show m / 2 * 2 = m by omega]

theorem rootOf_eq (hL : L.length < 2 ^ 32) : rootOf H zero L = some (root H zero L) := by
  have hrun := foldlM_addLeaf (H := H) (L := L) zero hL L.length (le_refl _)
  rw [take_length] at hrun
  rw [rootOf, hrun, Option.map_some, finalize]
  dsimp only
  split_ifs with hzero hone
  · rw [length_eq_zero_iff.mp hzero]
    rfl
  · obtain ⟨leaf, rfl⟩ := length_eq_one_iff.mp hone
    rw [length_singleton, stackAt_odd rfl, stackAt_zero]
    rfl
  · obtain ⟨l, hash, stack, hstack, hroot⟩ :=
      finalize_stackAt (H := H) (L := L) (l := 0) (m := L.length) zero (by omega) (by simp)
    rw [hstack]
    exact congrArg some hroot

end StreamingMerkleBuilder

/-! ## Roots and witnesses bind the leaves -/

/-- A hash that is neither the filler nor the hash of a pair. -/
def IsLeaf (H : α → α → α) (zero x : α) : Prop := x ≠ zero ∧ ∀ a b, H a b ≠ x

section

variable {H} {zero} (hH : Function.Injective2 H) (hzero : ∀ a b, H a b ≠ zero)

include hzero in
theorem fold_ne_zero {x : α} (hx : IsLeaf H zero x) (i : ℕ) (b : List α) : fold H x i b ≠ zero := by
  rcases eq_nil_or_concat b with rfl | ⟨b, s, rfl⟩
  · exact hx.1
  · rw [concat_eq_append, fold_concat]
    split_ifs
    · exact hzero _ _
    · exact hzero _ _

include hzero in
theorem root_ne_zero {L : List α} (hL : ∀ x ∈ L, IsLeaf H zero x) (hne : L ≠ []) :
    root H zero L ≠ zero := by
  have hpos := length_pos_iff.mpr hne
  rw [root, ← fold_path_root hpos]
  exact fold_ne_zero hzero (hL _ (getElem_mem hpos)) _ _

include hH hzero in
theorem root_injective {L L' : List α} (hL : ∀ x ∈ L, IsLeaf H zero x)
    (hL' : ∀ x ∈ L', IsLeaf H zero x) (h : root H zero L = root H zero L') : L = L' := by
  by_cases hne : L = []
  · subst hne
    by_contra hne'
    exact root_ne_zero hzero hL' (Ne.symm hne') h.symm
  by_cases hne' : L' = []
  · subst hne'
    exact absurd h (root_ne_zero hzero hL hne)
  refine root_inj hH (fun y hy => ?_) hne hne' h
  have hleaf : IsLeaf H zero y := (mem_append.mp hy).elim (hL y) (hL' y)
  exact ⟨hleaf.2, fun i b _ => fold_ne_zero hzero hleaf i b⟩

include hH hzero in
theorem eq_witness_of_fold {L : List α} (hL : ∀ x ∈ L, IsLeaf H zero x) {x : α}
    (hx : IsLeaf H zero x) {i : ℕ} {b : List α} (h : fold H x i b = root H zero L) :
    i % 2 ^ b.length < L.length ∧ L[i % 2 ^ b.length]? = some x ∧
      b = createMerkleWitness H zero L (i % 2 ^ b.length) := by
  have hne : L ≠ [] := fun hnil => fold_ne_zero hzero hx i b (by rw [h, hnil]; rfl)
  obtain ⟨hget, hb⟩ := eq_path_of_fold_root hH (fun y hy => (hL y hy).2) hx.2
    (fun b _ => fold_ne_zero hzero hx i b) hne h
  obtain ⟨hlt, -⟩ := List.getElem?_eq_some_iff.mp hget
  refine ⟨hlt, hget, ?_⟩
  rwa [createMerkleWitness_eq hlt]

/-- The root is injective on lists of leaves, and the streaming builder gives the same. The witness
of an index has one sibling a level, is that of the first leaf for index zero, and is accepted; what
is accepted for a leaf is the witness of the index that is read, and the leaf is there. -/
theorem merkle_binding [DecidableEq α] (H : α → α → α) (zero : α) (hH : Function.Injective2 H)
    (hzero : ∀ a b, H a b ≠ zero) :
    (∀ L L' : List α, (∀ x ∈ L, IsLeaf H zero x) → (∀ x ∈ L', IsLeaf H zero x) →
      calcMerkleRootWithHasher H zero L = calcMerkleRootWithHasher H zero L' → L = L') ∧
    (∀ L : List α, L.length < 2 ^ 32 → (calcMerkleRootWithHasher H zero L).isSome ∧
        StreamingMerkleBuilder.rootOf H zero L = calcMerkleRootWithHasher H zero L) ∧
    (∀ (L : List α) (i : ℕ) (hi : i < L.length),
      (createMerkleWitness H zero L i).length = Nat.clog 2 L.length ∧
      (i = 0 → createMerkleWitness H zero L i = createFirstLeafMerkleWitness H zero L) ∧
      ∃ root, calcMerkleRootWithHasher H zero L = some root ∧
        verifyMerkleWitness H L[i] i (createMerkleWitness H zero L i) root = true) ∧
    (∀ (L : List α) (x root : α) (i : ℕ) (b : List α), (∀ x ∈ L, IsLeaf H zero x) →
      IsLeaf H zero x → calcMerkleRootWithHasher H zero L = some root →
      verifyMerkleWitness H x i b root = true →
      i % 2 ^ b.length < L.length ∧ L[i % 2 ^ b.length]? = some x ∧
        b = createMerkleWitness H zero L (i % 2 ^ b.length)) := by
  refine ⟨fun L L' hL hL' h => ?_, fun L hlen => ?_, fun L i hi => ?_,
    fun L x root i b hL hx hroot h => ?_⟩
  · rw [calcMerkleRootWithHasher_eq, calcMerkleRootWithHasher_eq] at h
    exact root_injective hH hzero hL hL' (Option.some.inj h)
  · rw [StreamingMerkleBuilder.rootOf_eq hlen, calcMerkleRootWithHasher_eq]
    exact ⟨rfl, rfl⟩
  · refine ⟨?_, ?_, root H zero L, calcMerkleRootWithHasher_eq L, ?_⟩
    · rw [createMerkleWitness_eq hi, length_path]
    · rintro rfl
      exact (createFirstLeafMerkleWitness_eq L).symm
    · rw [verifyMerkleWitness_eq, decide_eq_true_eq, createMerkleWitness_eq hi]
      exact fold_path_root hi
  · rw [calcMerkleRootWithHasher_eq] at hroot
    rw [verifyMerkleWitness_eq, decide_eq_true_eq, ← Option.some.inj hroot] at h
    exact eq_witness_of_fold hH hzero hL hx h

end

namespace Sample

/-- Hashes as terms. -/
inductive Digest where
  | zero
  | leaf (n : ℕ)
  | pair (a b : Digest)
  deriving DecidableEq

/-- Three leaves are one list of leaves, and the second has a witness of two siblings. -/
theorem merkle_binding_three : createMerkleWitness .pair .zero [.leaf 0, .leaf 1, .leaf 2] 1 =
        [.leaf 0, Digest.pair (.leaf 2) .zero] ∧
      verifyMerkleWitness Digest.pair (.leaf 1) 5 [.leaf 0, .pair (.leaf 2) .zero]
        (.pair (.pair (.leaf 0) (.leaf 1)) (.pair (.leaf 2) .zero)) = true ∧
      [.leaf 0, Digest.pair (.leaf 2) .zero] =
        createMerkleWitness .pair .zero [.leaf 0, .leaf 1, .leaf 2] 1 := by
  have hinj : Function.Injective2 Digest.pair := fun _ _ _ _ h => Digest.pair.inj h
  have hleaf : ∀ x ∈ [Digest.leaf 0, .leaf 1, .leaf 2], IsLeaf .pair .zero x := by simp [IsLeaf]
  have hverify : verifyMerkleWitness Digest.pair (.leaf 1) 5 [.leaf 0, .pair (.leaf 2) .zero]
      (.pair (.pair (.leaf 0) (.leaf 1)) (.pair (.leaf 2) .zero)) = true := by decide +kernel
  have hbind := (merkle_binding Digest.pair .zero hinj (fun _ _ h => nomatch h)).2.2.2
    [.leaf 0, .leaf 1, .leaf 2] (.leaf 1) _ 5 _ hleaf (by simp [IsLeaf]) (by decide +kernel) hverify
  exact ⟨hbind.2.2.symm, hverify, hbind.2.2⟩

end Sample

end Zkas.Merkle
