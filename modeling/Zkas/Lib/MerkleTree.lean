import Zkas.Lib.MountainRange

/-!
# Hash trees over a stream of leaves

A stream of leaves fills a binary hash tree from the left. `node leaf l i` is the `i`-th node of
level `l`, over a function that gives every leaf; the leaves past the end of the stream are empty.
The ommers of a position are the nodes to the left of its path, and the siblings of the path fold to
the root. With the first of those on the right known and the others empty, `authPath` puts the path
together. -/

namespace MerkleTree

open MountainRange

variable {α : Type*} (combine : ℕ → α → α → α) (e : α) (leaf : ℕ → α)

/-- The nodes of the tree over the leaves `leaf 0`, `leaf 1`, and so on. -/
def node : ℕ → ℕ → α
  | 0, i => leaf i
  | l + 1, i => combine l (node l (2 * i)) (node l (2 * i + 1))

/-- The leaves of a stream, with empty leaves past its end. -/
def padded (xs : List α) (i : ℕ) : α := xs.getD i e

variable {combine e leaf} {leaf' : ℕ → α}

theorem node_congr {l i : ℕ} (h : ∀ j, i * 2 ^ l ≤ j → j < (i + 1) * 2 ^ l → leaf j = leaf' j) :
    node combine leaf l i = node combine leaf' l i := by
  induction l generalizing i with
  | zero => exact h i (by omega) (by omega)
  | succ l ih =>
    have hpow : 2 ^ (l + 1) = 2 * 2 ^ l := by rw [pow_succ, mul_comm]
    have hleft : node combine leaf l (2 * i) = node combine leaf' l (2 * i) :=
      ih fun j hlow hhigh => h j (by nlinarith) (by nlinarith)
    have hright : node combine leaf l (2 * i + 1) = node combine leaf' l (2 * i + 1) :=
      ih fun j hlow hhigh => h j (by nlinarith) (by nlinarith)
    rw [node, node, hleft, hright]

theorem node_eq_emptyRoot {l i : ℕ} (h : ∀ j, i * 2 ^ l ≤ j → leaf j = e) :
    node combine leaf l i = emptyRoot combine e l := by
  induction l generalizing i with
  | zero => exact h i (by omega)
  | succ l ih =>
    have hpow : 2 ^ (l + 1) = 2 * 2 ^ l := by rw [pow_succ, mul_comm]
    rw [hpow] at h
    have hleft : node combine leaf l (2 * i) = emptyRoot combine e l :=
      ih fun j hlow => h j (by nlinarith)
    have hright : node combine leaf l (2 * i + 1) = emptyRoot combine e l :=
      ih fun j hlow => h j (by nlinarith)
    rw [node, hleft, hright, emptyRoot]

/-! ## Paths -/

variable (combine leaf) in
/-- The siblings of the path from the `i`-th node of a level over the next `h` levels. -/
def siblings : ℕ → ℕ → ℕ → List α
  | 0, _, _ => []
  | h + 1, l, i =>
    node combine leaf l (if i % 2 = 1 then i - 1 else i + 1) :: siblings h (l + 1) (i / 2)

variable (combine) in
/-- The root that a path from a node at position `i` of level `l` reaches. -/
def foldPath : ℕ → ℕ → α → List α → α
  | _, _, d, [] => d
  | l, i, d, s :: ss =>
    foldPath (l + 1) (i / 2) (if i % 2 = 1 then combine l s d else combine l d s) ss

@[simp] theorem length_siblings (h l i : ℕ) : (siblings combine leaf h l i).length = h := by
  induction h generalizing l i with
  | zero => rfl
  | succ h ih => rw [siblings, List.length_cons, ih]

theorem node_div_two (l i : ℕ) :
    (if i % 2 = 1 then combine l (node combine leaf l (i - 1)) (node combine leaf l i)
      else combine l (node combine leaf l i) (node combine leaf l (i + 1))) =
        node combine leaf (l + 1) (i / 2) := by
  rw [node]
  split_ifs with hodd
  · rw [show 2 * (i / 2) = i - 1 by omega, show i - 1 + 1 = i by omega]
  · rw [show 2 * (i / 2) = i by omega]

/-- The siblings of a path fold to the node above it. -/
theorem foldPath_siblings (h l i : ℕ) :
    foldPath combine l i (node combine leaf l i) (siblings combine leaf h l i) =
      node combine leaf (l + h) (i / 2 ^ h) := by
  induction h generalizing l i with
  | zero => simp [siblings, foldPath]
  | succ h ih =>
    have hparent : (if i % 2 = 1
        then combine l (node combine leaf l (if i % 2 = 1 then i - 1 else i + 1))
          (node combine leaf l i)
        else combine l (node combine leaf l i)
          (node combine leaf l (if i % 2 = 1 then i - 1 else i + 1))) =
        node combine leaf (l + 1) (i / 2) := by
      rw [← node_div_two]
      split_ifs <;> rfl
    rw [siblings, foldPath, hparent, ih, Nat.div_div_eq_div_mul, ← pow_succ',
      show l + 1 + h = l + (h + 1) by omega]

/-- Under an injective node hash a root is reached from one node over one path. -/
theorem foldPath_inj (hinj : ∀ l, Function.Injective2 (combine l)) {l i : ℕ} {x y : α}
    {ss ts : List α} (hlen : ss.length = ts.length)
    (h : foldPath combine l i x ss = foldPath combine l i y ts) : x = y ∧ ss = ts := by
  induction ss generalizing l i x y ts with
  | nil =>
    obtain rfl := List.length_eq_zero_iff.mp hlen.symm
    exact ⟨h, rfl⟩
  | cons s ss ih =>
    obtain ⟨t, ts, rfl⟩ := List.exists_cons_of_length_eq_add_one hlen.symm
    obtain ⟨hnode, rfl⟩ := ih (Nat.succ.inj hlen) h
    split_ifs at hnode with hodd
    · obtain ⟨rfl, rfl⟩ := hinj l hnode
      exact ⟨rfl, rfl⟩
    · obtain ⟨rfl, rfl⟩ := hinj l hnode
      exact ⟨rfl, rfl⟩

/-! ## Frontiers -/

variable (combine leaf) in
/-- The nodes to the left of the path from the `p`-th node of a level, lowest first. -/
def ommers : ℕ → ℕ → ℕ → List α
  | 0, _, _ => []
  | h + 1, l, p =>
    if p % 2 = 1 then node combine leaf l (p - 1) :: ommers h (l + 1) (p / 2)
    else ommers h (l + 1) (p / 2)

theorem ommers_congr {h l p : ℕ} (hleaf : ∀ j, j < p * 2 ^ l → leaf j = leaf' j) :
    ommers combine leaf h l p = ommers combine leaf' h l p := by
  induction h generalizing l p with
  | zero => rfl
  | succ h ih =>
    have habove : ommers combine leaf h (l + 1) (p / 2) =
        ommers combine leaf' h (l + 1) (p / 2) := by
      refine ih fun j hj => hleaf j (lt_of_lt_of_le hj ?_)
      calc p / 2 * 2 ^ (l + 1) = 2 * (p / 2) * 2 ^ l := by rw [pow_succ]; ring
        _ ≤ p * 2 ^ l := Nat.mul_le_mul_right _ (Nat.mul_div_le p 2)
    rw [ommers, ommers, habove]
    split_ifs with hodd
    · congr 1
      refine node_congr fun j _ hj => hleaf j ?_
      rwa [show p - 1 + 1 = p by omega] at hj
    · rfl

/-- A frontier whose later nodes are empty folds to the root. -/
theorem rootFrom_ommers {h l p : ℕ} (hempty : ∀ j, p < j → node combine leaf l j =
    emptyRoot combine e l) :
    rootFrom combine e h l p (node combine leaf l p) (ommers combine leaf h l p) =
      some (node combine leaf (l + h) (p / 2 ^ h)) := by
  induction h generalizing l p with
  | zero => simp [rootFrom]
  | succ h ih =>
    have habove : ∀ j, p / 2 < j → node combine leaf (l + 1) j = emptyRoot combine e (l + 1) :=
      fun j hj => by rw [node, hempty (2 * j) (by omega), hempty (2 * j + 1) (by omega), emptyRoot]
    have hparent : (if p % 2 = 1
        then combine l (node combine leaf l (p - 1)) (node combine leaf l p)
        else combine l (node combine leaf l p) (node combine leaf l (p + 1))) =
          node combine leaf (l + 1) (p / 2) := node_div_two l p
    have hstep := ih habove
    rw [Nat.div_div_eq_div_mul, ← pow_succ', show l + 1 + h = l + (h + 1) by omega] at hstep
    by_cases hodd : p % 2 = 1
    · rw [if_pos hodd] at hparent
      rw [ommers, if_pos hodd, rootFrom_of_odd hodd, hparent, hstep]
    · rw [if_neg hodd, hempty (p + 1) (by omega)] at hparent
      rw [ommers, if_neg hodd, rootFrom_of_even hodd, hparent, hstep]

/-! ## The path of a leaf -/

variable (combine e) in
/-- The path of position `p` from its ommers and the known right siblings, empty where these end.
There is no result when a set bit has no ommer. -/
def authPath : ℕ → ℕ → ℕ → List α → List α → Option (List α)
  | 0, _, _, _, _ => some []
  | h + 1, l, p, oms, filled =>
    if p % 2 = 1 then
      match oms with
      | [] => none
      | o :: os => (authPath h (l + 1) (p / 2) os filled).map (o :: ·)
    else
      match filled with
      | [] => (authPath h (l + 1) (p / 2) oms []).map (emptyRoot combine e l :: ·)
      | f :: fs => (authPath h (l + 1) (p / 2) oms fs).map (f :: ·)

theorem length_of_authPath {h l p : ℕ} {oms filled path : List α}
    (hpath : authPath combine e h l p oms filled = some path) : path.length = h := by
  induction h generalizing l p oms filled path with
  | zero => rw [← Option.some.inj hpath]; rfl
  | succ h ih =>
    unfold authPath at hpath
    split at hpath <;> split at hpath
    · cases hpath
    all_goals
      obtain ⟨rest, hrest, rfl⟩ := Option.map_eq_some_iff.mp hpath
      rw [List.length_cons, ih hrest]

end MerkleTree
