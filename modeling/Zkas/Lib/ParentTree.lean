import Mathlib

/-!
# Trees given by parents

A tree is given by the parent of each node and a height that drops by one towards the root. The
path of a node runs from the root to it. Two paths share a first part and are disjoint after it
(`exists_split`): walking back from one node until a node of the other path is met, and then up that
path, leads from the one to the other. -/

/-- A tree on the type `α`; the parent of the root does not matter. -/
structure ParentTree (α : Type*) where
  root : α
  parent : α → α
  height : α → ℕ
  height_root : height root = 0
  height_parent : ∀ b, b ≠ root → height b = height (parent b) + 1

namespace ParentTree

open List ParentTree

variable {α : Type*} (T : ParentTree α)

/-- The last `n + 1` nodes of the path to a node. -/
def pathAux : ℕ → α → List α
  | 0, b => [b]
  | n + 1, b => pathAux n (T.parent b) ++ [b]

/-- The path from the root to a node, both included. -/
def path (b : α) : List α := T.pathAux (T.height b) b

/-- The nodes of the path to `b` after the ancestor `a`. -/
def above (a b : α) : List α := (T.path b).drop (T.path a).length

/-- A node other than the root is the child of its parent. -/
def IsChild (a b : α) : Prop := b ≠ T.root ∧ T.parent b = a

variable {T}

@[simp] theorem path_root : T.path T.root = [T.root] := by
  rw [path, T.height_root, pathAux]

variable {b a x : α}

theorem path_of_ne (hb : b ≠ T.root) : T.path b = T.path (T.parent b) ++ [b] := by
  rw [path, T.height_parent b hb, pathAux, path]

variable {P : α → Prop}

/-- What holds of the root, and of each node whose parent has it, holds of every node. -/
theorem induction (hroot : P T.root)
    (hstep : ∀ b, b ≠ T.root → P (T.parent b) → P b) (b : α) : P b := by
  generalize hn : T.height b = n
  induction n generalizing b with
  | zero =>
    by_cases hb : b = T.root
    · rw [hb]
      exact hroot
    · have := T.height_parent b hb
      omega
  | succ n ih =>
    by_cases hb : b = T.root
    · rw [hb]
      exact hroot
    · have hheight := T.height_parent b hb
      exact hstep b hb (ih (T.parent b) (by omega))

theorem mem_path_of_ne (hb : b ≠ T.root) : x ∈ T.path b ↔ x ∈ T.path (T.parent b) ∨ x = b := by
  rw [path_of_ne hb, mem_append, mem_singleton]

theorem self_mem_path (b : α) : b ∈ T.path b := by
  by_cases hb : b = T.root
  · rw [hb, path_root]
    exact mem_singleton_self _
  · exact (mem_path_of_ne hb).mpr (.inr rfl)

theorem parent_mem_path (hb : b ≠ T.root) : T.parent b ∈ T.path b :=
  (mem_path_of_ne hb).mpr (.inl (self_mem_path _))

/-- What holds of a node, and of each node above it whose parent has it, holds of every node above
it. -/
theorem mem_path_induction (hself : P a)
    (hstep : ∀ b, b ≠ T.root → a ∈ T.path (T.parent b) → P (T.parent b) → P b)
    (h : a ∈ T.path b) : P b := by
  induction b using induction (T := T) with
  | hroot =>
    rw [path_root, mem_singleton] at h
    rwa [← h]
  | hstep b hb ih =>
    rcases (mem_path_of_ne hb).mp h with h | rfl
    · exact hstep b hb h (ih h)
    · exact hself

/-- What holds of a node, and of the parent of each node that has it, holds of the path to it. -/
theorem forall_mem_path (hparent : ∀ b, b ≠ T.root → P b → P (T.parent b)) (hb : P b)
    (hx : x ∈ T.path b) : P x :=
  mem_path_induction (P := fun b => P b → P x) id (fun b hne _ ih hb => ih (hparent b hne hb)) hx hb

theorem root_mem_path (b : α) : T.root ∈ T.path b := by
  induction b using induction (T := T) with
  | hroot => exact self_mem_path _
  | hstep b hb ih => exact (mem_path_of_ne hb).mpr (.inl ih)

theorem path_isPrefix (h : a ∈ T.path b) : T.path a <+: T.path b := by
  refine mem_path_induction (P := fun b => T.path a <+: T.path b) prefix_rfl (fun b hb _ ih => ?_) h
  rw [path_of_ne hb]
  exact ih.trans (prefix_append _ _)

theorem path_append_above (h : a ∈ T.path b) : T.path a ++ T.above a b = T.path b := by
  obtain ⟨rest, hrest⟩ := path_isPrefix h
  rw [above, ← hrest, drop_left]

theorem height_le_of_mem_path (h : a ∈ T.path b) : T.height a ≤ T.height b := by
  refine mem_path_induction (P := fun b => T.height a ≤ T.height b) le_rfl (fun b hb _ ih => ?_) h
  have hheight := T.height_parent b hb
  omega

theorem not_mem_path_parent (hb : b ≠ T.root) : b ∉ T.path (T.parent b) := fun h => by
  have hle := height_le_of_mem_path h
  have hheight := T.height_parent b hb
  omega

theorem parent_ne (hb : b ≠ T.root) : T.parent b ≠ b := fun h => by
  have hheight := T.height_parent b hb
  rw [h] at hheight
  omega

theorem nodup_path (b : α) : (T.path b).Nodup := by
  induction b using induction (T := T) with
  | hroot => rw [path_root]; exact nodup_singleton _
  | hstep b hb ih =>
    rw [path_of_ne hb, nodup_append']
    refine ⟨ih, nodup_singleton _, fun x hx hsingle => ?_⟩
    rw [mem_singleton.mp hsingle] at hx
    exact not_mem_path_parent hb hx

theorem not_mem_path_of_mem_above (h : a ∈ T.path b) (hx : x ∈ T.above a b) :
    x ∉ T.path a := fun hxa => by
  have hnodup := nodup_path (T := T) b
  rw [← path_append_above h, nodup_append'] at hnodup
  exact hnodup.2.2 hxa hx

theorem isChain_path (b : α) : List.IsChain T.IsChild (T.path b) := by
  induction b using induction (T := T) with
  | hroot => rw [path_root]; exact isChain_singleton _
  | hstep b hb ih =>
    rw [path_of_ne hb]
    refine List.IsChain.append ih (isChain_singleton _) fun x hx y hy => ?_
    obtain rfl : b = y := by simpa using hy
    refine ⟨hb, ?_⟩
    by_cases hp : T.parent b = T.root
    · rw [hp, path_root] at hx
      rw [hp]
      simpa using hx
    · rw [path_of_ne hp] at hx
      simpa using hx

theorem getLast?_path (b : α) : (T.path b).getLast? = some b := by
  by_cases hb : b = T.root
  · rw [hb, path_root]
    rfl
  · rw [path_of_ne hb, getLast?_concat]

section

variable (h : a ∈ T.path b)
include h

theorem isChain_above : List.IsChain T.IsChild (a :: T.above a b) := by
  have hchain := isChain_path (T := T) b
  rw [← path_append_above h] at hchain
  have hlast := getLast?_path (T := T) a
  rw [getLast?_eq_some_iff] at hlast
  obtain ⟨front, hfront⟩ := hlast
  rw [hfront, append_assoc] at hchain
  exact hchain.right_of_append

theorem mem_path_of_mem_above (hx : x ∈ T.above a b) : a ∈ T.path x := by
  have hmem : x ∈ T.path b := by
    rw [← path_append_above h]
    exact mem_append_right _ hx
  rcases prefix_or_prefix_of_prefix (path_isPrefix h) (path_isPrefix hmem) with hle | hle
  · exact hle.subset (self_mem_path a)
  · exact absurd (hle.subset (self_mem_path x)) (not_mem_path_of_mem_above h hx)

theorem above_isPrefix (hx : x ∈ T.above a b) : T.above a x <+: T.above a b := by
  have hmem : x ∈ T.path b := by
    rw [← path_append_above h]
    exact mem_append_right _ hx
  have hle := path_isPrefix hmem
  rw [← path_append_above h, ← path_append_above (mem_path_of_mem_above h hx)] at hle
  exact (prefix_append_right_inj _).mp hle

theorem getLast?_cons_above : (a :: T.above a b).getLast? = some b := by
  obtain ⟨front, hfront⟩ := getLast?_eq_some_iff.mp (getLast?_path (T := T) a)
  have hpath := path_append_above h
  rw [hfront, append_assoc, singleton_append] at hpath
  have hlast := getLast?_path (T := T) b
  rw [← hpath, getLast?_append_of_ne_nil _ (cons_ne_nil _ _)] at hlast
  exact hlast

theorem eq_of_mem_path (h' : b ∈ T.path a) : a = b := by
  have hpath : T.path a = T.path b := (path_isPrefix h).eq_of_length
    (le_antisymm (path_isPrefix h).length_le (path_isPrefix h').length_le)
  have hlast := getLast?_path (T := T) a
  rw [hpath, getLast?_path] at hlast
  exact (Option.some.inj hlast).symm

theorem mem_above_iff : x ∈ T.above a b ↔ x ∈ T.path b ∧ x ∉ T.path a := by
  have hpath := path_append_above h
  constructor
  · intro hx
    refine ⟨?_, not_mem_path_of_mem_above h hx⟩
    rw [← hpath]
    exact mem_append_right _ hx
  · rintro ⟨hx, hnot⟩
    rw [← hpath] at hx
    exact (mem_append.mp hx).resolve_left hnot

end

theorem above_append {c : α} (hab : a ∈ T.path b) (hbc : b ∈ T.path c) :
    T.above a c = T.above a b ++ T.above b c := by
  have hac : a ∈ T.path c := (path_isPrefix hbc).subset hab
  have hpath : T.path a ++ T.above a c = T.path a ++ (T.above a b ++ T.above b c) := by
    rw [path_append_above hac, ← append_assoc, path_append_above hab, path_append_above hbc]
  exact append_cancel_left hpath

theorem above_of_ne (hb : b ≠ T.root) (h : a ∈ T.path (T.parent b)) :
    T.above a b = T.above a (T.parent b) ++ [b] := by
  have hle := (path_isPrefix h).length_le
  rw [above, path_of_ne hb, drop_append_of_le_length hle]
  rfl

theorem exists_child_above (h : a ∈ T.path b) (hne : a ≠ b) :
    ∃ c ∈ T.above a b, T.parent c = a := by
  have hlast := getLast?_cons_above h
  have hchain := isChain_above h
  cases habove : T.above a b with
  | nil =>
    rw [habove] at hlast
    exact absurd (Option.some.inj hlast) hne
  | cons c rest =>
    rw [habove] at hchain
    exact ⟨c, mem_cons_self, (isChain_cons_cons.mp hchain).1.2⟩

/-- Two paths share the path to some node, and the rest of the first is off the second. -/
theorem exists_split (a b : α) : ∃ s left, T.path a = T.path s ++ left ∧ s ∈ T.path b ∧
    ∀ x ∈ left, x ∉ T.path b := by
  induction a using induction (T := T) with
  | hroot =>
    exact ⟨T.root, [], by rw [append_nil], root_mem_path b, fun x hx => by cases hx⟩
  | hstep a ha ih =>
    by_cases hmem : a ∈ T.path b
    · exact ⟨a, [], by rw [append_nil], hmem, fun x hx => by cases hx⟩
    · obtain ⟨s, left, hpath, hs, hleft⟩ := ih
      exact ⟨s, left ++ [a], by rw [path_of_ne ha, hpath, append_assoc], hs,
        forall_mem_append.mpr ⟨hleft, forall_mem_singleton.mpr hmem⟩⟩

end ParentTree
