import Zkas.Lib.BitPath

/-!
# Sparse Merkle trees with collapsed leaves

The tree over a map from keys of `w` bits to leaves. A subtree without leaves is empty, one with a
single leaf is that leaf, kept whole (collapsed), and any other is an inner node with the digests of
its two sides. `nodeAt m d k` is the node at depth `d` on the path of the key `k`. `climb` folds
siblings onto a seed along a path, as a verifier does; with an injective hash it reaches the digest
of the tree from the digest further down and from nothing else (`climb_honest`, `climb_sound`). -/

namespace SparseTree

open BitPath List

variable {w : ℕ} {V D : Type}

/-- What a subtree comes to. -/
inductive Summary (w : ℕ) (V D : Type) where
  | empty
  | collapsed (key : BitVec w) (leaf : V)
  | internal (hash : D)
  deriving DecidableEq

/-- The hash of inner nodes, that of collapsed leaves, and the digests of empty subtrees by height.
-/
structure Hashing (w : ℕ) (V D : Type) where
  node : D → D → D
  leaf : BitVec w → V → D
  empty : ℕ → D

namespace Summary

/-- The digest of a subtree of the given height. -/
def digest (H : Hashing w V D) (height : ℕ) : Summary w V D → D
  | empty => H.empty height
  | collapsed k v => H.leaf k v
  | internal hash => hash

/-- Two sides of the given height under one node. -/
def merge (H : Hashing w V D) (height : ℕ) : Summary w V D → Summary w V D → Summary w V D
  | empty, empty => empty
  | collapsed k v, empty => collapsed k v
  | empty, collapsed k v => collapsed k v
  | l, r => internal (H.node (l.digest H height) (r.digest H height))

variable {H : Hashing w V D} {height : ℕ} {l r : Summary w V D}

theorem merge_eq_empty_iff : merge H height l r = empty ↔ l = empty ∧ r = empty := by
  cases l <;> cases r <;> simp [merge]

theorem merge_eq_collapsed_iff {k : BitVec w} {v : V} : merge H height l r = collapsed k v ↔
    (l = collapsed k v ∧ r = empty) ∨ (l = empty ∧ r = collapsed k v) := by
  cases l <;> cases r <;> simp [merge]

theorem merge_of_ne (hl : l ≠ empty) (hr : r ≠ empty) :
    merge H height l r = internal (H.node (l.digest H height) (r.digest H height)) := by
  cases l with
  | empty => exact absurd rfl hl
  | collapsed k v => cases r <;> first | exact absurd rfl hr | rfl
  | internal hash => cases r <;> rfl

theorem merge_eq_internal {hash : D} (h : merge H height l r = internal hash) :
    hash = H.node (l.digest H height) (r.digest H height) := by
  cases l <;> cases r <;> simp_all [merge]

end Summary

/-- Empty digests follow the node hash. -/
def Hashing.EmptyFollows (H : Hashing w V D) : Prop :=
  ∀ h, H.empty (h + 1) = H.node (H.empty h) (H.empty h)

/-- Collision-free hashes: no two inputs, of the same kind or not, have one digest, and the empty
leaf is no digest. -/
structure Hashing.Injective (H : Hashing w V D) : Prop where
  node_inj : Function.Injective2 H.node
  leaf_inj : Function.Injective2 H.leaf
  node_ne_leaf : ∀ l r k v, H.node l r ≠ H.leaf k v
  node_ne_empty : ∀ l r, H.node l r ≠ H.empty 0
  leaf_ne_empty : ∀ k v, H.leaf k v ≠ H.empty 0

/-! ## The tree of a map -/

section

variable (H : Hashing w V D) (m : BitVec w → Option V)

/-- The subtree of the given height on the path of a key. -/
def subtree : ℕ → BitVec w → Summary w V D
  | 0, k => (m k).elim .empty (.collapsed k)
  | h + 1, k => .merge H h (subtree h (withBit k (w - (h + 1)) false))
      (subtree h (withBit k (w - (h + 1)) true))

/-- The node at a depth on the path of a key. -/
def nodeAt (d : ℕ) (k : BitVec w) : Summary w V D := subtree H m (w - d) k

/-- The digest of the whole tree. -/
def root : D := (nodeAt H m 0 0).digest H w

end

variable {H : Hashing w V D} {m m' : BitVec w → Option V} {d : ℕ} {k k' : BitVec w}

theorem nodeAt_bottom : nodeAt H m w k = (m k).elim .empty (.collapsed k) := by
  rw [nodeAt, Nat.sub_self, subtree]

theorem nodeAt_of_lt (hd : d < w) : nodeAt H m d k =
    .merge H (w - d - 1) (nodeAt H m (d + 1) (withBit k d false))
      (nodeAt H m (d + 1) (withBit k d true)) := by
  obtain ⟨h, hh⟩ : ∃ h, w - d = h + 1 := ⟨w - d - 1, by omega⟩
  have hdepth : w - (h + 1) = d := by omega
  have hchild : w - (d + 1) = h := by omega
  rw [nodeAt, nodeAt, nodeAt, hh, hchild, subtree, hdepth, Nat.add_sub_cancel]

/-- A node depends on its position and on the leaves below it. -/
theorem nodeAt_congr (hd : d ≤ w) (hk : Agree d k k') (hm : ∀ x, Agree d k x → m x = m' x) :
    nodeAt H m d k = nodeAt H m' d k' := by
  induction hd using Nat.decreasingInduction generalizing k k' with
  | self =>
    obtain rfl := hk.eq
    rw [nodeAt_bottom, nodeAt_bottom, hm k (.refl w k)]
  | of_succ d hlt ih =>
    have hside (b : Bool) : nodeAt H m (d + 1) (withBit k d b) =
        nodeAt H m' (d + 1) (withBit k' d b) := by
      refine ih ((agree_withBit_iff hlt).mpr ⟨?_, getMsbD_withBit_self hlt⟩) fun x hx => ?_
      · exact hk.trans (agree_withBit hlt).symm
      · exact hm x ((agree_withBit_iff hlt).mp hx).1
    rw [nodeAt_of_lt hlt, nodeAt_of_lt hlt, hside, hside]

theorem nodeAt_agree (hd : d ≤ w) (hk : Agree d k k') : nodeAt H m d k = nodeAt H m d k' :=
  nodeAt_congr hd hk fun _ _ => rfl

/-- The node on the path of a key, by the side the key goes to and the other side. -/
theorem nodeAt_split (hd : d < w) : nodeAt H m d k = if k.getMsbD d then
      .merge H (w - d - 1) (nodeAt H m (d + 1) (withBit k d false)) (nodeAt H m (d + 1) k)
    else .merge H (w - d - 1) (nodeAt H m (d + 1) k) (nodeAt H m (d + 1) (withBit k d true)) := by
  have hself := nodeAt_agree (H := H) (m := m) hd (agree_withBit_self (k := k) hd)
  rw [nodeAt_of_lt hd]
  cases hbit : k.getMsbD d with
  | true => rw [hbit] at hself; rw [if_pos rfl, hself]
  | false => rw [hbit] at hself; rw [if_neg Bool.false_ne_true, hself]

/-- A node is empty when there is no leaf below it. -/
theorem nodeAt_eq_empty_iff (hd : d ≤ w) :
    nodeAt H m d k = .empty ↔ ∀ x, Agree d k x → m x = none := by
  induction hd using Nat.decreasingInduction generalizing k with
  | self =>
    rw [nodeAt_bottom]
    constructor
    · intro h x hx
      obtain rfl := hx.eq
      cases hm : m k with
      | none => rfl
      | some v => rw [hm] at h; cases h
    · intro h
      rw [h k (.refl w k)]
      rfl
  | of_succ d hlt ih =>
    rw [nodeAt_of_lt hlt, Summary.merge_eq_empty_iff, ih, ih]
    constructor
    · rintro ⟨hleft, hright⟩ x hx
      cases hbit : x.getMsbD d with
      | false => exact hleft x ((agree_withBit_iff hlt).mpr ⟨hx, hbit⟩)
      | true => exact hright x ((agree_withBit_iff hlt).mpr ⟨hx, hbit⟩)
    · intro h
      exact ⟨fun x hx => h x ((agree_withBit_iff hlt).mp hx).1,
        fun x hx => h x ((agree_withBit_iff hlt).mp hx).1⟩

/-- A node is collapsed when there is one leaf below it. -/
theorem nodeAt_eq_collapsed_iff (hd : d ≤ w) {x : BitVec w} {v : V} :
    nodeAt H m d k = .collapsed x v ↔
      Agree d k x ∧ m x = some v ∧ ∀ y, Agree d k y → y ≠ x → m y = none := by
  induction hd using Nat.decreasingInduction generalizing k with
  | self =>
    rw [nodeAt_bottom]
    constructor
    · intro h
      cases hm : m k with
      | none => rw [hm] at h; cases h
      | some v' =>
        rw [hm] at h
        obtain ⟨rfl, rfl⟩ := Summary.collapsed.inj h
        exact ⟨.refl w k, hm, fun y hy hne => absurd hy.eq.symm hne⟩
    · rintro ⟨hk, hm, -⟩
      obtain rfl := hk.eq
      rw [hm]
      rfl
  | of_succ d hlt ih =>
    have hside (b : Bool) : nodeAt H m (d + 1) (withBit k d b) = .empty ↔
        ∀ y, Agree d k y → y.getMsbD d = b → m y = none := by
      rw [nodeAt_eq_empty_iff hlt]
      simp only [agree_withBit_iff hlt, and_imp]
    rw [nodeAt_of_lt hlt, Summary.merge_eq_collapsed_iff, ih, ih, hside, hside]
    simp only [agree_withBit_iff hlt, and_imp]
    constructor
    · rintro (⟨⟨⟨hx, hbit⟩, hm, hleft⟩, hright⟩ | ⟨hleft, ⟨hx, hbit⟩, hm, hright⟩)
      · refine ⟨hx, hm, fun y hy hne => ?_⟩
        cases hb : y.getMsbD d with
        | false => exact hleft y hy hb hne
        | true => exact hright y hy hb
      · refine ⟨hx, hm, fun y hy hne => ?_⟩
        cases hb : y.getMsbD d with
        | false => exact hleft y hy hb
        | true => exact hright y hy hb hne
    · rintro ⟨hx, hm, hother⟩
      cases hbit : x.getMsbD d with
      | false =>
        refine .inl ⟨⟨⟨hx, rfl⟩, hm, fun y hy _ hne => hother y hy hne⟩, fun y hy hb => ?_⟩
        exact hother y hy fun heq => by rw [heq, hbit] at hb; cases hb
      | true =>
        refine .inr ⟨fun y hy hb => ?_, ⟨hx, rfl⟩, hm, fun y hy _ hne => hother y hy hne⟩
        exact hother y hy fun heq => by rw [heq, hbit] at hb; cases hb

/-! ## Digests -/

theorem exists_node_of_internal (hd : d ≤ w) {hash : D} (h : nodeAt H m d k = .internal hash) :
    ∃ l r, hash = H.node l r := by
  rcases hd.eq_or_lt with rfl | hlt
  · rw [nodeAt_bottom] at h
    cases hm : m k <;> rw [hm] at h <;> cases h
  · rw [nodeAt_of_lt hlt] at h
    exact ⟨_, _, Summary.merge_eq_internal h⟩

theorem nodeAt_digest (hempty : H.EmptyFollows) (hd : d < w)
    (hnode : ∀ x v, nodeAt H m d k ≠ .collapsed x v) :
    (nodeAt H m d k).digest H (w - d) =
      H.node ((nodeAt H m (d + 1) (withBit k d false)).digest H (w - (d + 1)))
        ((nodeAt H m (d + 1) (withBit k d true)).digest H (w - (d + 1))) := by
  have hchild : w - d = w - (d + 1) + 1 := by omega
  have hmerge := nodeAt_of_lt (H := H) (m := m) (k := k) hd
  cases hself : nodeAt H m d k with
  | collapsed x v => exact absurd hself (hnode x v)
  | internal hash => exact Summary.merge_eq_internal (hmerge.symm.trans hself)
  | empty =>
    obtain ⟨hleft, hright⟩ := Summary.merge_eq_empty_iff.mp (hmerge.symm.trans hself)
    rw [hleft, hright, hchild]
    exact hempty _

theorem nodeAt_digest_split (hempty : H.EmptyFollows) (hd : d < w)
    (hnode : ∀ x v, nodeAt H m d k ≠ .collapsed x v) :
    (nodeAt H m d k).digest H (w - d) = if k.getMsbD d then
        H.node ((nodeAt H m (d + 1) (withBit k d false)).digest H (w - (d + 1)))
          ((nodeAt H m (d + 1) k).digest H (w - (d + 1)))
      else H.node ((nodeAt H m (d + 1) k).digest H (w - (d + 1)))
        ((nodeAt H m (d + 1) (withBit k d true)).digest H (w - (d + 1))) := by
  have hself := nodeAt_agree (H := H) (m := m) hd (agree_withBit_self (k := k) hd)
  rw [nodeAt_digest hempty hd hnode]
  cases hbit : k.getMsbD d with
  | true => rw [hbit] at hself; rw [if_pos rfl, hself]
  | false => rw [hbit] at hself; rw [if_neg Bool.false_ne_true, hself]

section

variable (hH : H.Injective) (hempty : H.EmptyFollows)
include hH hempty

theorem eq_collapsed_of_digest (hd : d ≤ w) {x : BitVec w} {v : V}
    (h : (nodeAt H m d k).digest H (w - d) = H.leaf x v) : nodeAt H m d k = .collapsed x v := by
  cases hnode : nodeAt H m d k with
  | collapsed y u =>
    rw [hnode] at h
    obtain ⟨rfl, rfl⟩ := hH.leaf_inj h
    rfl
  | empty =>
    rw [hnode, Summary.digest] at h
    cases hheight : w - d with
    | zero => rw [hheight] at h; exact absurd h.symm (hH.leaf_ne_empty x v)
    | succ n => rw [hheight, hempty n] at h; exact absurd h (hH.node_ne_leaf _ _ x v)
  | internal hash =>
    obtain ⟨l, r, rfl⟩ := exists_node_of_internal hd hnode
    rw [hnode] at h
    exact absurd h (hH.node_ne_leaf l r x v)

omit hempty in
theorem eq_empty_of_digest (hd : d ≤ w) (h : (nodeAt H m d k).digest H (w - d) = H.empty 0) :
    nodeAt H m d k = .empty := by
  cases hnode : nodeAt H m d k with
  | empty => rfl
  | collapsed y u => rw [hnode] at h; exact absurd h (hH.leaf_ne_empty y u)
  | internal hash =>
    obtain ⟨l, r, rfl⟩ := exists_node_of_internal hd hnode
    rw [hnode] at h
    exact absurd h (hH.node_ne_empty l r)

/-- Only a node that is not a single leaf has the digest of an inner node, that of its sides. -/
theorem sides_of_digest (hd : d < w) {l r : D}
    (h : (nodeAt H m d k).digest H (w - d) = H.node l r) :
    l = (nodeAt H m (d + 1) (withBit k d false)).digest H (w - (d + 1)) ∧
      r = (nodeAt H m (d + 1) (withBit k d true)).digest H (w - (d + 1)) := by
  have hne : ∀ y u, nodeAt H m d k ≠ .collapsed y u := by
    intro y u hnode
    rw [hnode] at h
    exact hH.node_ne_leaf l r y u h.symm
  rw [nodeAt_digest hempty hd hne] at h
  obtain ⟨hl, hr⟩ := hH.node_inj h
  exact ⟨hl.symm, hr.symm⟩

/-- The digest of a node determines the leaves below it. -/
theorem nodeAt_digest_inj (hd : d ≤ w)
    (h : (nodeAt H m d k).digest H (w - d) = (nodeAt H m' d k).digest H (w - d)) {x : BitVec w}
    (hx : Agree d k x) : m x = m' x := by
  induction hd using Nat.decreasingInduction generalizing k with
  | self =>
    obtain rfl := hx.eq
    have hmap {n : BitVec w → Option V} {o : Option V} (hn : nodeAt H n w k =
        o.elim .empty (.collapsed k)) : n k = o := by
      rw [nodeAt_bottom] at hn
      cases ho : o <;> cases hnk : n k <;> rw [ho, hnk] at hn
      · cases hn
      · cases hn
      · obtain ⟨-, rfl⟩ := Summary.collapsed.inj hn
        rfl
    apply hmap
    cases hm' : m' k with
    | none =>
      rw [nodeAt_bottom (m := m'), hm', Nat.sub_self] at h
      exact eq_empty_of_digest hH le_rfl (by rw [Nat.sub_self]; exact h)
    | some v =>
      rw [nodeAt_bottom (m := m'), hm'] at h
      exact eq_collapsed_of_digest hH hempty le_rfl h
  | of_succ d hlt ih =>
    have hside := (agree_withBit_iff (b := x.getMsbD d) hlt).mpr ⟨hx, rfl⟩
    by_cases hsingle : ∃ y u, nodeAt H m' d k = .collapsed y u
    · obtain ⟨y, u, hy⟩ := hsingle
      rw [hy] at h
      have hy' := eq_collapsed_of_digest hH hempty hlt.le h
      obtain ⟨-, hm, hother⟩ := (nodeAt_eq_collapsed_iff hlt.le).mp hy'
      obtain ⟨-, hm', hother'⟩ := (nodeAt_eq_collapsed_iff hlt.le).mp hy
      by_cases hxy : x = y
      · rw [hxy, hm, hm']
      · rw [hother x hx hxy, hother' x hx hxy]
    · push Not at hsingle
      rw [nodeAt_digest hempty hlt hsingle] at h
      obtain ⟨hl, hr⟩ := sides_of_digest hH hempty hlt h
      cases hbit : x.getMsbD d with
      | false => rw [hbit] at hside; exact ih hl.symm hside
      | true => rw [hbit] at hside; exact ih hr.symm hside

end

/-! ## Climbing a path -/

/-- The node above two sides at depth `d`: that of the key and its sibling. -/
def join (H : Hashing w V D) (k : BitVec w) (d : ℕ) (sibling own : D) : D :=
  if k.getMsbD d then H.node sibling own else H.node own sibling

/-- Fold siblings onto a seed along the path of a key; the first sibling is that at depth `d`. -/
def climb (H : Hashing w V D) (k : BitVec w) : ℕ → List D → D → D
  | _, [], seed => seed
  | d, s :: siblings, seed => join H k d s (climb H k (d + 1) siblings seed)

theorem climb_concat (d : ℕ) (siblings : List D) (s seed : D) : climb H k d (siblings ++ [s]) seed =
      climb H k d siblings (join H k (d + siblings.length) s seed) := by
  induction siblings generalizing d with
  | nil => rfl
  | cons t siblings ih =>
    have hlen : d + 1 + siblings.length = d + (t :: siblings).length := by
      rw [length_cons]
      omega
    rw [cons_append, climb, climb, ih, hlen]

/-- A seed that climbs to the digest of a node is the digest of the node where it starts. -/
theorem climb_sound (hH : H.Injective) (hempty : H.EmptyFollows) {siblings : List D} {seed : D}
    (hlen : d + siblings.length ≤ w)
    (h : climb H k d siblings seed = (nodeAt H m d k).digest H (w - d)) :
    seed = (nodeAt H m (d + siblings.length) k).digest H (w - (d + siblings.length)) := by
  induction siblings generalizing d with
  | nil => exact h
  | cons s siblings ih =>
    have hlen' : d + 1 + siblings.length = d + (s :: siblings).length := by
      rw [length_cons]
      omega
    have hd : d < w := by omega
    have hself := nodeAt_agree (H := H) (m := m) hd (agree_withBit_self (k := k) hd)
    have hbelow : climb H k (d + 1) siblings seed =
        (nodeAt H m (d + 1) k).digest H (w - (d + 1)) := by
      rw [climb, join] at h
      cases hbit : k.getMsbD d with
      | true =>
        rw [hbit] at h hself
        rw [← hself]
        exact (sides_of_digest hH hempty hd h.symm).2
      | false =>
        rw [hbit] at h hself
        rw [← hself]
        exact (sides_of_digest hH hempty hd h.symm).1
    have hres := ih (hlen'.trans_le hlen) hbelow
    rwa [hlen'] at hres

/-- The digest of the other side at a depth. -/
def siblingAt (H : Hashing w V D) (m : BitVec w → Option V) (d : ℕ) (k : BitVec w) : D :=
  (nodeAt H m (d + 1) (withBit k d !k.getMsbD d)).digest H (w - (d + 1))

/-- Honest siblings lead from the digest of a node to that of the node above, as long as no node on
the way is a single leaf. -/
theorem climb_honest (hempty : H.EmptyFollows) {d' : ℕ} (hle : d ≤ d') (hd : d' ≤ w)
    (hway : ∀ e, d ≤ e → e < d' → ∀ x v, nodeAt H m e k ≠ .collapsed x v) :
    climb H k d ((range' d (d' - d)).map (siblingAt H m · k))
        ((nodeAt H m d' k).digest H (w - d')) =
      (nodeAt H m d k).digest H (w - d) := by
  induction hle using Nat.decreasingInduction with
  | self => rw [Nat.sub_self, range'_zero, map_nil, climb]
  | of_succ d hlt ih =>
    have hlt' : d < w := hlt.trans_le hd
    have hrange : range' d (d' - d) = d :: range' (d + 1) (d' - (d + 1)) := by
      rw [show d' - d = d' - (d + 1) + 1 by omega, range'_succ]
    have hbelow := ih fun e he he' => hway e (by omega) he'
    rw [hrange, map_cons, climb, hbelow, join, nodeAt_digest_split hempty hlt' (hway d le_rfl hlt)]
    cases hbit : k.getMsbD d <;> simp [siblingAt, hbit]

/-! ## Digests as terms

A free model of the hashes. Empty subtrees have their own terms, so that terms stay small. -/

/-- A digest that records what was hashed. -/
inductive Term (w : ℕ) where
  /-- A value that is not one of the digests below. -/
  | atom (n : ℕ)
  | empty (height : ℕ)
  | node (l r : Term w)
  | leaf (key : BitVec w) (value : Term w)
  /-- The digest of a value and a number under some other hash. -/
  | tagged (value : Term w) (n : ℕ)
  deriving DecidableEq

/-- The hash of two terms; two empty subtrees of one height make the next one. -/
def Term.hashNode : Term w → Term w → Term w
  | .empty a, .empty b => if a = b then .empty (a + 1) else .node (.empty a) (.empty b)
  | l, r => .node l r

theorem Term.hashNode_cases (l r : Term w) :
    (∃ h, l = .empty h ∧ r = .empty h ∧ hashNode l r = .empty (h + 1)) ∨
      hashNode l r = .node l r := by
  rcases l with _ | a | _ | _ | _ <;> rcases r with _ | b | _ | _ | _
  case empty.empty =>
    by_cases h : a = b
    · exact .inl ⟨a, rfl, by rw [h], by rw [hashNode, if_pos h]⟩
    · exact .inr (by rw [hashNode, if_neg h])
  all_goals exact .inr rfl

/-- The free hashes. -/
def Term.hashing (w : ℕ) : Hashing w (Term w) (Term w) where
  node := Term.hashNode
  leaf := .leaf
  empty := .empty

theorem Term.hashing_emptyFollows (w : ℕ) : (Term.hashing w).EmptyFollows := by
  intro h
  exact (if_pos rfl).symm

theorem Term.hashing_injective (w : ℕ) : (Term.hashing w).Injective where
  node_inj := by
    intro l l' r r' h
    change hashNode l r = hashNode l' r' at h
    rcases hashNode_cases l r with ⟨a, rfl, rfl, ha⟩ | hnode <;>
      rcases hashNode_cases l' r' with ⟨b, rfl, rfl, hb⟩ | hnode'
    · rw [ha, hb] at h
      obtain rfl : a = b := Nat.succ.inj (Term.empty.inj h)
      exact ⟨rfl, rfl⟩
    · rw [ha, hnode'] at h
      cases h
    · rw [hb, hnode] at h
      cases h
    · rw [hnode, hnode'] at h
      exact Term.node.inj h
  leaf_inj := fun _ _ _ _ h => Term.leaf.inj h
  node_ne_leaf := by
    intro l r k v h
    rcases hashNode_cases l r with ⟨a, rfl, rfl, ha⟩ | hnode
    · cases ha.symm.trans h
    · cases hnode.symm.trans h
  node_ne_empty := by
    intro l r h
    rcases hashNode_cases l r with ⟨a, rfl, rfl, ha⟩ | hnode
    · cases ha.symm.trans h
    · cases hnode.symm.trans h
  leaf_ne_empty := fun _ _ h => by cases h

end SparseTree
