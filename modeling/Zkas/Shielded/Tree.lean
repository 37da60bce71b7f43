import Zkas.Lib.Checked
import Zkas.Lib.MountainRange

/-!
# The global note-commitment tree

Model of `shielded-core/src/tree.rs`. The Orchard node hash, the encoding of nodes and the
append-only `Frontier` come from the crates `orchard` and `incrementalmerkletree`; they are the
operations of a `NoteTree` record, and `NoteTree.Spec` states the documented behaviour that the
results rely on. A frontier is the last leaf and the ommers to its left, that is the mountain range
of the earlier leaves. `GlobalTree` pairs the frontier with the leaf count, and `FrontierState` is
its persisted snapshot. -/

namespace Zkas

open MountainRange List Option Except

/-- Depth of the Orchard note-commitment tree. -/
def TREE_DEPTH : ℕ := 32

/-- The note-tree operations of the crates `orchard` and `incrementalmerkletree`, over tree nodes
`N` with encodings in the 32-byte values `H`. -/
structure NoteTree (H N : Type) where
  /-- The append-only frontier. -/
  Frontier : Type
  /-- `MerkleHashOrchard::to_bytes`. -/
  toBytes : N → H
  /-- `MerkleHashOrchard::from_bytes`, which rejects a non-canonical encoding. -/
  fromBytes : H → Option N
  /-- The hash of two nodes at a level, `MerkleHashOrchard::combine`. -/
  combine : ℕ → N → N → N
  /-- The value of an empty leaf, `MerkleHashOrchard::empty_leaf`. -/
  emptyLeaf : N
  /-- The root of the empty tree, `Anchor::empty_tree`. -/
  emptyTree : N
  /-- `Frontier::empty`. -/
  empty : Frontier
  /-- `Frontier::append`: the frontier after the leaf, or nothing when the tree is full. -/
  append : Frontier → N → Option Frontier
  /-- `Frontier::value`: position, last leaf and ommers of a non-empty frontier. -/
  value : Frontier → Option (ℕ × N × List N)
  /-- `Frontier::from_parts`, which rejects inconsistent parts. -/
  fromParts : ℕ → N → List N → Option Frontier
  /-- `Frontier::root`. -/
  root : Frontier → N

variable {H N : Type} (T : NoteTree H N)

/-- The documented behaviour of the frontier. -/
structure NoteTree.FrontierSpec : Prop where
  /-- The empty tree's anchor is the root of the empty subtree of full height. -/
  emptyTree_eq : T.emptyTree = emptyRoot T.combine T.emptyLeaf TREE_DEPTH
  /-- A frontier is the data of its value. -/
  value_inj : ∀ {f g}, T.value f = T.value g → f = g
  /-- The empty frontier holds nothing. -/
  value_empty : T.value T.empty = none
  /-- A non-empty frontier has an ommer per set bit of its position, and the position fits. -/
  value_wf : ∀ {f p l oms}, T.value f = some (p, l, oms) →
    p < 2 ^ TREE_DEPTH ∧ oms.length = popcount p
  /-- The first leaf stands at position zero. -/
  append_first : ∀ {f} (leaf), T.value f = none →
    ∃ f', T.append f leaf = some f' ∧ T.value f' = some (0, leaf, [])
  /-- A further leaf stands at the next position, and the old leaf is carried into the ommers. -/
  append_next : ∀ {f p l oms} (leaf), T.value f = some (p, l, oms) → p + 1 < 2 ^ TREE_DEPTH →
    ∃ f' oms', T.append f leaf = some f' ∧ carry T.combine 0 p l oms = some oms' ∧
      T.value f' = some (p + 1, leaf, oms')
  /-- The frontier made of parts has these parts. -/
  value_fromParts : ∀ {p l oms f}, T.fromParts p l oms = some f → T.value f = some (p, l, oms)
  /-- The root is the fold of the frontier against empty subtrees. -/
  root_eq : ∀ {f p l oms}, T.value f = some (p, l, oms) →
    rootFrom T.combine T.emptyLeaf TREE_DEPTH 0 p l oms = some (T.root f)

/-- The documented behaviour of the note-tree operations. -/
structure NoteTree.Spec : Prop extends T.FrontierSpec where
  /-- An encoded node decodes to itself. -/
  fromBytes_toBytes : ∀ n, T.fromBytes (T.toBytes n) = some n
  /-- Only the canonical encoding of a node decodes to it. -/
  toBytes_of_fromBytes : ∀ {b n}, T.fromBytes b = some n → T.toBytes n = b
  /-- A full tree takes no leaf. -/
  append_full : ∀ {f p l oms} (leaf), T.value f = some (p, l, oms) → 2 ^ TREE_DEPTH ≤ p + 1 →
    T.append f leaf = none
  /-- Parts that fit make the frontier with these parts. -/
  fromParts_some : ∀ {p oms} (l), p < 2 ^ TREE_DEPTH → oms.length = popcount p →
    ∃ f, T.fromParts p l oms = some f

/-- Error returned when appending to a full tree. -/
inductive TreeFull where
  | mk
  deriving DecidableEq, Repr

/-- The global note-commitment tree: its frontier and its number of leaves. -/
structure GlobalTree where
  /-- The append-only frontier. -/
  frontier : T.Frontier
  /-- Number of leaves appended so far. -/
  size : ℕ

/-- A persisted snapshot of a tree. -/
structure FrontierState (H : Type) where
  /-- Number of leaves appended so far. -/
  size : ℕ
  /-- The most recently appended leaf, if the tree is non-empty. -/
  leaf : Option H
  /-- The frontier ommers, lowest first. -/
  ommers : List H
  deriving DecidableEq

/-- The snapshot the store reads back when it holds none. -/
def FrontierState.default : FrontierState H := { size := 0, leaf := none, ommers := [] }

/-- A snapshot in normal form: nothing is left in an empty one, and the last leaf of a non-empty
one is not the empty leaf. -/
def FrontierState.Canonical (st : FrontierState H) : Prop :=
  (st.size = 0 → st.leaf = none ∧ st.ommers = []) ∧
    (st.size ≠ 0 → st.leaf ≠ some (T.toBytes T.emptyLeaf))

/-- Error rebuilding a tree from a snapshot. -/
inductive TreeStateError where
  /-- A stored node was not a canonical encoding. -/
  | NonCanonicalNode
  /-- The stored parts were inconsistent. -/
  | Inconsistent
  deriving DecidableEq, Repr

namespace GlobalTree

variable (T : NoteTree H N)

/-- A fresh, empty tree. -/
def new : GlobalTree T := { frontier := T.empty, size := 0 }

variable (t : GlobalTree T)

/-- Append a note commitment as the next leaf. -/
def append (cmx : N) : Except TreeFull (GlobalTree T) :=
  match T.append t.frontier cmx with
  | some frontier => .ok { frontier, size := t.size + 1 }
  | none => .error .mk

/-- Append a chain block's commitments in order. -/
def appendSubtree (commitments : List N) : Except TreeFull (GlobalTree T) :=
  commitments.foldlM (append T) t

/-- The current anchor of the tree. -/
def anchor : N :=
  match T.value t.frontier with
  | none => T.emptyTree
  | some _ => T.root t.frontier

/-- Export a persistable snapshot. -/
def toState : FrontierState H :=
  match T.value t.frontier with
  | none => { size := 0, leaf := none, ommers := [] }
  | some (_, leaf, ommers) =>
    { size := t.size, leaf := some (T.toBytes leaf), ommers := ommers.map T.toBytes }

/-- Decode a stored node. -/
def nodeFromBytes (b : H) : Except TreeStateError N := (T.fromBytes b).okOr .NonCanonicalNode

/-- Rebuild a tree from a snapshot. -/
def fromState (state : FrontierState H) : Except TreeStateError (GlobalTree T) :=
  if state.size = 0 then .ok (new T)
  else do
    let leafBytes ← state.leaf.okOr .Inconsistent
    let leaf ← nodeFromBytes T leafBytes
    let ommers ← state.ommers.mapM (nodeFromBytes T)
    let frontier ← (T.fromParts (state.size - 1) leaf ommers).okOr .Inconsistent
    return { frontier, size := state.size }

/-! ## The count follows the frontier -/

/-- The leaf count is zero for an empty frontier and one past the position otherwise. -/
def Sized : Prop :=
  t.size = match T.value t.frontier with
    | none => 0
    | some (p, _, _) => p + 1

variable {T} {t t' : GlobalTree T} {st : FrontierState H} {oms cmxs : List N} {cmx l : N} {p : ℕ}

theorem Sized.size_of_value (ht : t.Sized) (hv : T.value t.frontier = some (p, l, oms)) :
    t.size = p + 1 := by
  rw [Sized, hv] at ht
  exact ht

theorem Sized.size_of_empty (ht : t.Sized) (hv : T.value t.frontier = none) : t.size = 0 := by
  rw [Sized, hv] at ht
  exact ht

theorem append_size (h : t.append T cmx = .ok t') : t'.size = t.size + 1 := by
  unfold append at h
  split at h
  · obtain rfl := ok.inj h; rfl
  · cases h

theorem appendSubtree_size (h : t.appendSubtree T cmxs = .ok t') :
    t'.size = t.size + cmxs.length := by
  simpa using foldlM_sum size (fun _ => 1) append_size h

theorem appendSubtree_append (xs ys : List N) :
    t.appendSubtree T (xs ++ ys) = (t.appendSubtree T xs >>= fun t' => t'.appendSubtree T ys) := by
  unfold appendSubtree
  rw [foldlM_append]

theorem appendSubtree_singleton (x : N) : t.appendSubtree T [x] = t.append T x := by
  cases happ : t.append T x with
  | error e => simp [appendSubtree, happ]
  | ok t' => simp [appendSubtree, happ]

variable (hT : T.Spec)
include hT

theorem new_sized : (new T).Sized := by
  unfold Sized new
  rw [hT.value_empty]

section

variable (ht : t.Sized)
include ht

theorem Sized.eq_of_value (ht' : t'.Sized)
    (hvalue : T.value t.frontier = T.value t'.frontier) : t = t' := by
  have hsize : t.size = t'.size := by rw [ht, ht', hvalue]
  obtain ⟨f, size⟩ := t
  obtain ⟨f', size'⟩ := t'
  simp only at hsize hvalue
  rw [hsize, hT.value_inj hvalue]

/-- An append keeps the count in step with the frontier, and its leaf is the new last leaf. -/
theorem Sized.append (h : t.append T cmx = .ok t') :
    t'.Sized ∧ ∃ p oms, T.value t'.frontier = some (p, cmx, oms) := by
  unfold Sized at ht ⊢
  unfold GlobalTree.append at h
  split at h
  · rename_i f hf
    obtain rfl := ok.inj h
    rcases hv : T.value t.frontier with _ | ⟨p, l, oms⟩
    · obtain ⟨f', hf', hval⟩ := hT.append_first cmx hv
      obtain rfl : f = f' := mem_unique hf hf'
      rw [hv] at ht
      simp only [hval, ht]
      exact ⟨trivial, 0, [], rfl⟩
    · by_cases hfull : p + 1 < 2 ^ TREE_DEPTH
      · obtain ⟨f', oms', hf', -, hval⟩ := hT.append_next cmx hv hfull
        obtain rfl : f = f' := mem_unique hf hf'
        rw [hv] at ht
        simp only [hval, ht]
        exact ⟨trivial, p + 1, oms', rfl⟩
      · rw [hT.append_full cmx hv (by omega)] at hf
        cases hf
  · cases h

theorem Sized.appendSubtree (h : t.appendSubtree T cmxs = .ok t') : t'.Sized :=
  foldlM_inv (Sized T) (fun _ happ hs => (Sized.append hT hs happ).1) h ht

omit hT in
theorem toState_eq_default (hzero : (t.toState T).size = 0) : t.toState T = .default := by
  unfold toState at hzero ⊢
  rcases hv : T.value t.frontier with _ | ⟨p, l, oms⟩
  · rfl
  · rw [hv] at hzero
    have hsize := ht.size_of_value hv
    simp only at hzero
    omega

omit hT in
theorem toState_size : (t.toState T).size = t.size := by
  unfold toState
  rcases hv : T.value t.frontier with _ | ⟨p, l, oms⟩
  · exact (ht.size_of_empty hv).symm
  · rfl

/-- A tree after an append has a snapshot in normal form unless the leaf is the empty leaf. -/
theorem Sized.append_canonical
    (h : t.append T cmx = .ok t') (hcmx : cmx ≠ T.emptyLeaf) : (t'.toState T).Canonical T := by
  obtain ⟨hsized, p, oms, hv⟩ := Sized.append hT ht h
  have hsize := hsized.size_of_value hv
  have hleaf : (t'.toState T).leaf = some (T.toBytes cmx) := by
    unfold toState
    rw [hv]
  refine ⟨fun hzero => ?_, fun _ hempty => hcmx ?_⟩
  · rw [toState_size hsized] at hzero
    omega
  · rw [hleaf] at hempty
    have hdecode := hT.fromBytes_toBytes cmx
    rw [some.inj hempty, hT.fromBytes_toBytes] at hdecode
    exact (some.inj hdecode).symm

theorem Sized.appendSubtree_canonical
    (h : t.appendSubtree T cmxs = .ok t') (hcmxs : ∀ cmx ∈ cmxs, cmx ≠ T.emptyLeaf)
    (hcanonical : (t.toState T).Canonical T) : (t'.toState T).Canonical T := by
  refine (foldlM_inv (fun u : GlobalTree T => u.Sized ∧ (u.toState T).Canonical T)
    (fun hmem happ hu => ?_) h ⟨ht, hcanonical⟩).2
  exact ⟨(Sized.append hT hu.1 happ).1, Sized.append_canonical hT hu.1 happ (hcmxs _ hmem)⟩

end

theorem nodeFromBytes_toBytes (n : N) : nodeFromBytes T (T.toBytes n) = .ok n := by
  rw [nodeFromBytes, hT.fromBytes_toBytes, okOr]

theorem mapM_nodeFromBytes_toBytes (oms : List N) :
    (oms.map T.toBytes).mapM (nodeFromBytes T) = .ok oms := by
  rw [mapM_eq_ok_iff, forall₂_map_left_iff, forall₂_same]
  exact fun o _ => nodeFromBytes_toBytes hT o

theorem map_toBytes_of_mapM {bs : List H}
    (h : bs.mapM (nodeFromBytes T) = .ok oms) : oms.map T.toBytes = bs := by
  have hnodes : List.Forall₂ (fun n b => T.toBytes n = b) oms bs :=
    (mapM_eq_ok_iff.mp h).flip.imp fun n b hn => hT.toBytes_of_fromBytes (okOr_eq_ok.mp hn)
  rwa [← forall₂_map_left_iff, forall₂_eq_eq_eq] at hnodes

/-- A snapshot of a sized tree loads back to the tree. -/
theorem fromState_toState (ht : t.Sized) : fromState T (t.toState T) = .ok t := by
  obtain ⟨f, size⟩ := t
  rcases hv : T.value f with _ | ⟨p, l, oms⟩
  · have hsize : size = 0 := ht.size_of_empty hv
    have hempty : f = T.empty := hT.value_inj (by rw [hv, hT.value_empty])
    subst hempty hsize
    simp [toState, fromState, hv, new]
  · have hsize : size = p + 1 := ht.size_of_value hv
    obtain ⟨hp, hlen⟩ := hT.value_wf hv
    obtain ⟨g, hg⟩ := hT.fromParts_some l hp hlen
    have hgf : g = f := hT.value_inj (by rw [hT.value_fromParts hg, hv])
    have homs := mapM_nodeFromBytes_toBytes hT oms
    subst hgf hsize
    simp [toState, fromState, hv, nodeFromBytes_toBytes hT, okOr, hg, homs]

/-! ## A snapshot is determined by its anchor -/

section

variable (h : fromState T st = .ok t)
include h

theorem fromState_succ (hsize : st.size ≠ 0) :
    ∃ l oms, st.leaf = some (T.toBytes l) ∧ st.ommers = oms.map T.toBytes ∧ t.size = st.size ∧
      T.value t.frontier = some (st.size - 1, l, oms) := by
  unfold fromState at h
  rw [if_neg hsize] at h
  simp only [bind_eq_ok_iff, okOr_eq_ok] at h
  obtain ⟨b, hb, l, hl, oms, homs, f, hf, heq⟩ := h
  obtain rfl := ok.inj heq
  refine ⟨l, oms, ?_, (map_toBytes_of_mapM hT homs).symm, rfl, hT.value_fromParts hf⟩
  rw [hb, hT.toBytes_of_fromBytes (okOr_eq_ok.mp hl)]

omit hT in
theorem fromState_zero (hsize : st.size = 0) : t = new T := by
  rw [fromState, if_pos hsize] at h
  exact (ok.inj h).symm

theorem fromState_sized : t.Sized := by
  by_cases hsize : st.size = 0
  · rw [fromState_zero h hsize]
    exact new_sized hT
  · obtain ⟨l, oms, -, -, hts, hval⟩ := fromState_succ hT h hsize
    unfold Sized
    rw [hval, hts]
    simp only
    omega

theorem fromState_size : t.size = st.size := by
  by_cases hsize : st.size = 0
  · rw [fromState_zero h hsize, hsize]
    rfl
  · obtain ⟨l, oms, -, -, hts, -⟩ := fromState_succ hT h hsize
    exact hts

theorem toState_fromState (hcanonical : st.Canonical T) : t.toState T = st := by
  obtain ⟨size, leaf, ommers⟩ := st
  by_cases hsize : size = 0
  · obtain ⟨hleaf, hommers⟩ := hcanonical.1 hsize
    simp only at hleaf hommers
    rw [fromState_zero h hsize, toState, new, hT.value_empty, hsize, hleaf, hommers]
  · obtain ⟨l, oms, hleaf, hommers, hts, hv⟩ := fromState_succ hT h hsize
    simp only at hleaf hommers hts
    rw [toState, hv, hts, hleaf, hommers]

end

theorem anchor_new : (new T).anchor T = T.emptyTree := by
  simp only [anchor, new, hT.value_empty]

theorem anchor_of_value (hv : T.value t.frontier = some (p, l, oms)) :
    rootFrom T.combine T.emptyLeaf TREE_DEPTH 0 p l oms = some (t.anchor T) := by
  rw [hT.root_eq hv]
  simp only [anchor, hv]

theorem anchor_ne_emptyTree (hinj : ∀ lvl, Function.Injective2 (T.combine lvl))
    (hv : T.value t.frontier = some (p, l, oms)) (hl : l ≠ T.emptyLeaf) :
    t.anchor T ≠ T.emptyTree := by
  intro ha
  have hroot := anchor_of_value hT hv
  rw [ha, hT.emptyTree_eq] at hroot
  exact hl (rootFrom_eq_emptyRoot hinj (by rw [hroot, Nat.zero_add]))

/-- Two snapshots in normal form that load to trees with one anchor are equal. -/
theorem fromState_anchor_inj (hinj : ∀ lvl, Function.Injective2 (T.combine lvl))
    {st' : FrontierState H} (h : fromState T st = .ok t)
    (h' : fromState T st' = .ok t') (hc : st.Canonical T) (hc' : st'.Canonical T)
    (ha : t.anchor T = t'.anchor T) : st = st' := by
  obtain ⟨size, leaf, ommers⟩ := st
  obtain ⟨size', leaf', ommers'⟩ := st'
  by_cases hs : size = 0 <;> by_cases hs' : size' = 0
  · obtain ⟨hl, ho⟩ := hc.1 hs
    obtain ⟨hl', ho'⟩ := hc'.1 hs'
    simp only at hl ho hl' ho'
    rw [hs, hs', hl, ho, hl', ho']
  · -- The first is the empty tree, so the second has an empty last leaf.
    obtain ⟨l, oms, hl, -, -, hv⟩ := fromState_succ hT h' hs'
    rw [fromState_zero h hs, anchor_new hT] at ha
    refine absurd ha.symm (anchor_ne_emptyTree hT hinj hv fun hle => hc'.2 hs' ?_)
    rw [hl, hle]
  · obtain ⟨l, oms, hl, -, -, hv⟩ := fromState_succ hT h hs
    rw [fromState_zero h' hs', anchor_new hT] at ha
    refine absurd ha (anchor_ne_emptyTree hT hinj hv fun hle => hc.2 hs ?_)
    rw [hl, hle]
  · obtain ⟨l, oms, hl, ho, -, hv⟩ := fromState_succ hT h hs
    obtain ⟨l', oms', hl', ho', -, hv'⟩ := fromState_succ hT h' hs'
    simp only at hl ho hv hl' ho' hv'
    have hne : l ≠ T.emptyLeaf := fun hle => hc.2 hs (by simp only [hl, hle])
    have hne' : l' ≠ T.emptyLeaf := fun hle => hc'.2 hs' (by simp only [hl', hle])
    obtain ⟨hp, hlen⟩ := hT.value_wf hv
    obtain ⟨hp', hlen'⟩ := hT.value_wf hv'
    have hroot := anchor_of_value hT hv
    have hroot' := anchor_of_value hT hv'
    rw [← ha] at hroot'
    obtain ⟨hpp, rfl, rfl⟩ := rootFrom_inj hinj hp hp' hlen hlen' hroot hroot' hne hne'
    rw [hl, ho, hl', ho', show size = size' by omega]

/-! ## The leaves of a snapshot -/

theorem toState_inj (ht : t.Sized) (ht' : t'.Sized) (h : t.toState T = t'.toState T) : t = t' := by
  have hbytes : Function.Injective T.toBytes := fun a b hab =>
    mem_unique (hT.fromBytes_toBytes a) (hab ▸ hT.fromBytes_toBytes b)
  have hsize : t.size = t'.size := by rw [← toState_size ht, ← toState_size ht', h]
  have hvalue : T.value t.frontier = T.value t'.frontier := by
    unfold toState at h
    rcases hv : T.value t.frontier with _ | ⟨p, l, oms⟩ <;>
      rcases hv' : T.value t'.frontier with _ | ⟨p', l', oms'⟩ <;>
      simp only [hv, hv', FrontierState.mk.injEq, some.injEq, reduceCtorEq, and_false,
        false_and] at h
    · rfl
    · have hp := ht.size_of_value hv
      have hp' := ht'.size_of_value hv'
      obtain rfl := hbytes h.2.1
      obtain rfl := map_injective_iff.mpr hbytes h.2.2
      rw [show p = p' by omega]
  exact ht.eq_of_value hT ht' hvalue

variable (hinj : ∀ lvl, Function.Injective2 (T.combine lvl))
include hinj

/-- Under an injective node hash, the tree after a leaf determines the tree before it and the
leaf. -/
theorem append_inj {r : GlobalTree T}
    {x y : N} (ht : t.Sized) (ht' : t'.Sized) (hx : t.append T x = .ok r)
    (hy : t'.append T y = .ok r) : t = t' ∧ x = y := by
  obtain ⟨-, p, oms, hvx⟩ := Sized.append hT ht hx
  obtain ⟨-, p', oms', hvy⟩ := Sized.append hT ht' hy
  rw [hvx, some.injEq, Prod.mk.injEq, Prod.mk.injEq] at hvy
  obtain ⟨rfl, rfl, rfl⟩ := hvy
  have hsize : t.size = t'.size := by
    have := append_size hx
    have := append_size hy
    omega
  refine ⟨?_, rfl⟩
  have hvalue : T.value t.frontier = T.value t'.frontier := by
    unfold append at hx hy
    split at hx
    · rename_i f hf
      obtain rfl := ok.inj hx
      split at hy
      · rename_i f' hf'
        have hff : f' = f := congrArg frontier (ok.inj hy)
        rw [hff] at hf'
        rcases hv : T.value t.frontier with _ | ⟨q, l, os⟩ <;>
          rcases hv' : T.value t'.frontier with _ | ⟨q', l', os'⟩
        · rfl
        · have := ht.size_of_empty hv
          have := ht'.size_of_value hv'
          omega
        · have := ht.size_of_value hv
          have := ht'.size_of_empty hv'
          omega
        · obtain rfl : q = q' := by
            have := ht.size_of_value hv
            have := ht'.size_of_value hv'
            omega
          by_cases hfull : q + 1 < 2 ^ TREE_DEPTH
          · obtain ⟨g, os₁, hg, hcarry, hval⟩ := hT.append_next x hv hfull
            obtain ⟨g', os₂, hg', hcarry', hval'⟩ := hT.append_next x hv' hfull
            obtain rfl : f = g := mem_unique hf hg
            obtain rfl : f = g' := mem_unique hf' hg'
            rw [hval, some.injEq, Prod.mk.injEq, Prod.mk.injEq] at hval'
            rw [hval'.2.2] at hcarry
            obtain ⟨rfl, rfl⟩ := carry_inj hinj hcarry hcarry'
            rfl
          · rw [hT.append_full x hv (by omega)] at hf
            cases hf
      · cases hy
    · cases hx
  exact ht.eq_of_value hT ht' hvalue

/-- Under an injective node hash, the snapshot of a tree determines its whole leaf sequence. -/
theorem leaves_of_toState {xs ys : List N} (hx : (new T).appendSubtree T xs = .ok t)
    (hy : (new T).appendSubtree T ys = .ok t') (h : t.toState T = t'.toState T) : xs = ys := by
  obtain rfl : t = t' := toState_inj hT (Sized.appendSubtree hT (new_sized hT) hx)
    (Sized.appendSubtree hT (new_sized hT) hy) h
  have hlen : xs.length = ys.length := by
    have := appendSubtree_size hx
    have := appendSubtree_size hy
    omega
  clear h
  -- the last leaves agree, and so do the trees before them
  induction xs using reverseRecOn generalizing ys t with
  | nil => exact (length_eq_zero_iff.mp hlen.symm).symm
  | append_singleton xs x ih =>
    obtain ⟨ys, y, rfl⟩ : ∃ ys' y, ys = ys' ++ [y] := by
      rcases eq_nil_or_concat ys with rfl | ⟨ys', y, rfl⟩
      · simp at hlen
      · exact ⟨ys', y, by simp⟩
    rw [appendSubtree_append, bind_eq_ok_iff] at hx hy
    obtain ⟨t₁, hx₁, hx₂⟩ := hx
    obtain ⟨t₂, hy₁, hy₂⟩ := hy
    have hx₃ : t₁.append T x = .ok t := by rwa [appendSubtree_singleton] at hx₂
    have hy₃ : t₂.append T y = .ok t := by rwa [appendSubtree_singleton] at hy₂
    obtain ⟨rfl, rfl⟩ := append_inj hT hinj (Sized.appendSubtree hT (new_sized hT) hx₁)
      (Sized.appendSubtree hT (new_sized hT) hy₁) hx₃ hy₃
    rw [ih hx₁ hy₁ (by simpa using hlen)]

end GlobalTree

end Zkas
