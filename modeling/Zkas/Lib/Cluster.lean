import Mathlib.Data.Finset.Card
import Mathlib.Logic.Relation

/-!
# Anticones and clusters

Two elements of a strict order are in each other's anticone when neither comes before the other. In
a finite set every element has a degree, the number of elements of the set in its anticone, and the
set is a `k`-cluster when no degree exceeds `k`. The order is the transitive closure of a relation
that grows as the cluster does. -/

namespace Cluster

open Finset

variable {α : Type*}

/-- Neither element comes before the other. -/
def Anticone (R : α → α → Prop) (a b : α) : Prop := a ≠ b ∧ ¬R a b ∧ ¬R b a

theorem Anticone.symm {R : α → α → Prop} {a b : α} (h : Anticone R a b) : Anticone R b a :=
  ⟨h.1.symm, h.2.2, h.2.1⟩

theorem not_anticone_self (R : α → α → Prop) (a : α) : ¬Anticone R a a := fun h => h.1 rfl

open Classical in
/-- The number of elements of a set that are related to an element. -/
noncomputable def degree (A : α → α → Prop) (S : Finset α) (x : α) : ℕ := (S.filter (A x)).card

/-- No element of the set has a degree above `k` in it. -/
def IsCluster (A : α → α → Prop) (k : ℕ) (S : Finset α) : Prop := ∀ x ∈ S, degree A S x ≤ k

variable {A : α → α → Prop} {S : Finset α}

open Classical in
theorem degree_congr {A' : α → α → Prop} {x : α} (h : ∀ y ∈ S, A x y ↔ A' x y) :
    degree A S x = degree A' S x := by
  rw [degree, degree, filter_congr h]

open Classical in
theorem degree_eq_zero {x : α} (h : ∀ y ∈ S, ¬A x y) : degree A S x = 0 := by
  rw [degree, card_eq_zero, filter_eq_empty_iff]
  exact fun y hy => h y hy

variable [DecidableEq α]

open Classical in
theorem degree_insert {c x : α} (hc : c ∉ S) :
    degree A (insert c S) x = degree A S x + if A x c then 1 else 0 := by
  unfold degree
  rw [filter_insert]
  split_ifs with hrel
  · rw [card_insert_of_notMem]
    exact fun hmem => hc (mem_filter.mp hmem).1
  · rw [Nat.add_zero]

theorem degree_insert_of_not {c x : α} (hc : c ∉ S) (hrel : ¬A x c) :
    degree A (insert c S) x = degree A S x := by
  rw [degree_insert hc, if_neg hrel, Nat.add_zero]

theorem degree_insert_of {c x : α} (hc : c ∉ S) (hrel : A x c) :
    degree A (insert c S) x = degree A S x + 1 := by
  rw [degree_insert hc, if_pos hrel]

/-- A cluster stays one with an element whose degree is at most `k` and that is related to elements
of a degree below `k` only. -/
theorem IsCluster.insert {k : ℕ} {c : α} (h : IsCluster A k S) (hc : c ∉ S) (hself : ¬A c c)
    (hdegree : degree A S c ≤ k) (hroom : ∀ x ∈ S, A x c → degree A S x < k) :
    IsCluster A k (insert c S) := by
  intro x hx
  obtain rfl | hxS := mem_insert.mp hx
  · rw [degree_insert_of_not hc hself]
    exact hdegree
  · by_cases hrel : A x c
    · rw [degree_insert_of hc hrel]
      exact hroom x hxS hrel
    · rw [degree_insert_of_not hc hrel]
      exact h x hxS

omit [DecidableEq α] in
/-- The transitive closures of two relations agree below the elements of a set that is closed under
the one and on which the two agree. -/
theorem transGen_congr {R R' : α → α → Prop} {T : Set α} (hclosed : ∀ {a b}, b ∈ T → R a b → a ∈ T)
    (hagree : ∀ {a b}, b ∈ T → (R' a b ↔ R a b)) {a b : α} (hb : b ∈ T) :
    Relation.TransGen R' a b ↔ Relation.TransGen R a b := by
  constructor
  · intro h
    induction h with
    | single hstep => exact .single ((hagree hb).mp hstep)
    | tail _ hstep ih =>
      have hlast := (hagree hb).mp hstep
      exact .tail (ih (hclosed hb hlast)) hlast
  · intro h
    induction h with
    | single hstep => exact .single ((hagree hb).mpr hstep)
    | tail _ hstep ih => exact .tail (ih (hclosed hb hstep)) ((hagree hb).mpr hstep)

end Cluster
