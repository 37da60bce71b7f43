import Mathlib

/-!
# Checked machine arithmetic and fallible computations

Fixed-width unsigned integers are `BitVec w`; every statement about them is read through
`BitVec.toNat`. The operations below are the ones a language with overflow checks offers: the
checked operations fail, the saturating ones clamp. A computation that can return an error and can
also abort (an unwrapped `None`, an overflow under overflow checks) returns `Except (Fault ε) α`. -/

/-- How a computation that can abort stops: with an error value of its own, or by a panic. -/
inductive Fault (ε : Type*) where
  /-- The function returned the error `e`. -/
  | err (e : ε)
  /-- The program aborted. -/
  | panic
  deriving DecidableEq, Repr

/-- Rename the error of a fault; a panic stays one. -/
def Fault.map {ε ε' : Type*} (f : ε → ε') : Fault ε → Fault ε'
  | .err e => .err (f e)
  | .panic => .panic

universe u

namespace Except

open List

variable {ε : Type*} {α β : Type u} {f : α → Except ε β} {x : Except ε α}

theorem bind_eq_ok_iff {b : β} : (x >>= f) = .ok b ↔ ∃ a, x = .ok a ∧ f a = .ok b := by
  cases x with
  | error e => simp [bind, Except.bind]
  | ok a => simp [bind, Except.bind]

@[simp] theorem ok_bind (a : α) (f : α → Except ε β) : (ok a >>= f) = f a := rfl

@[simp] theorem error_bind (e : ε) (f : α → Except ε β) :
    ((error e : Except ε α) >>= f) = .error e := rfl

/-- A result that is there. -/
theorem exists_of_isOk (h : x.isOk = true) : ∃ a, x = .ok a := by
  cases x with
  | error e => cases h
  | ok a => exact ⟨a, rfl⟩

@[simp] theorem pure_eq_ok (a : α) : (pure a : Except ε α) = .ok a := rfl

@[simp] theorem mapError_eq_ok {ε' : Type*} {f : ε → ε'} {a : α} :
    x.mapError f = .ok a ↔ x = .ok a := by
  cases x <;> simp [Except.mapError]

theorem toOption_eq_some {a : α} : x.toOption = some a ↔ x = .ok a := by
  cases x <;> simp [Except.toOption]

/-- The computation ends in a value with `Q` or in an error with `E`. -/
def Ends (E : ε → Prop) (Q : α → Prop) : Except ε α → Prop
  | .ok a => Q a
  | .error e => E e

theorem Ends.bind {E E' : ε → Prop} {Q : α → Prop} {R : β → Prop}
    (hx : x.Ends E Q) (hE : ∀ e, E e → E' e)
    (hf : ∀ a, Q a → (f a).Ends E' R) : (x >>= f).Ends E' R := by
  cases x with
  | error e => exact hE e hx
  | ok a => exact hf a hx

variable {σ ι : Type u}

theorem foldlM_inv {f : σ → ι → Except ε σ} (P : σ → Prop) {is : List ι}
    (hstep : ∀ {s i s'}, i ∈ is → f s i = .ok s' → P s → P s') {s s' : σ}
    (h : is.foldlM f s = .ok s') (hs : P s) : P s' := by
  induction is generalizing s with
  | nil =>
    obtain rfl := ok.inj h
    exact hs
  | cons i is ih =>
    rw [foldlM_cons, bind_eq_ok_iff] at h
    obtain ⟨s₁, h₁, h₂⟩ := h
    exact ih (fun hi => hstep (mem_cons_of_mem _ hi)) h₂ (hstep mem_cons_self h₁ hs)

theorem exists_foldlM {f : σ → ι → Except ε σ} {is : List ι}
    (h : ∀ i ∈ is, ∀ s, ∃ s', f s i = .ok s') (s : σ) : ∃ s', is.foldlM f s = .ok s' := by
  induction is generalizing s with
  | nil => exact ⟨s, rfl⟩
  | cons i is ih =>
    obtain ⟨s₁, h₁⟩ := h i mem_cons_self s
    obtain ⟨s', h'⟩ := ih (fun j hj => h j (mem_cons_of_mem _ hj)) s₁
    exact ⟨s', by rw [foldlM_cons, h₁, ok_bind, h']⟩

theorem forM_eq_ok_iff {α : Type*} {f : α → Except ε PUnit} {xs : List α} :
    xs.forM f = .ok ⟨⟩ ↔ ∀ x ∈ xs, f x = .ok ⟨⟩ := by
  induction xs with
  | nil => simp
  | cons x xs ih =>
    rw [forM_eq_forM, forM_cons, bind_eq_ok_iff, forall_mem_cons]
    constructor
    · rintro ⟨⟨⟩, hx, hxs⟩
      exact ⟨hx, ih.mp hxs⟩
    · rintro ⟨hx, hxs⟩
      exact ⟨⟨⟩, hx, ih.mpr hxs⟩

theorem mapM_eq_ok_iff {xs : List α} {ys : List β} :
    xs.mapM f = .ok ys ↔ List.Forall₂ (fun x y => f x = .ok y) xs ys := by
  induction xs generalizing ys with
  | nil =>
    rw [forall₂_nil_left_iff, mapM_nil, pure_eq_ok, ok.injEq, eq_comm]
  | cons x xs ih =>
    rw [mapM_cons, forall₂_cons_left_iff, bind_eq_ok_iff]
    refine exists_congr fun y => ?_
    rw [bind_eq_ok_iff]
    constructor
    · rintro ⟨hy, zs, hzs, heq⟩
      exact ⟨zs, hy, ih.mp hzs, (ok.inj heq).symm⟩
    · rintro ⟨zs, hy, hzs, rfl⟩
      exact ⟨hy, zs, ih.mpr hzs, rfl⟩

theorem mapM_eq_ok_map {g : α → β} {xs : List α}
    (h : ∀ x ∈ xs, f x = .ok (g x)) : xs.mapM f = .ok (xs.map g) := by
  rw [mapM_eq_ok_iff, forall₂_map_right_iff, forall₂_same]
  exact h

/-- A map that succeeds has succeeded on every item. -/
theorem exists_of_mapM {xs : List α} {ys : List β} (h : xs.mapM f = .ok ys)
    {x : α} (hx : x ∈ xs) : ∃ y, f x = .ok y := by
  have hall := mapM_eq_ok_iff.mp h
  clear h
  induction hall with
  | nil => cases hx
  | cons hy _ ih =>
    obtain rfl | hx := mem_cons.mp hx
    · exact ⟨_, hy⟩
    · exact ih hx

/-- A map that succeeds on every item succeeds. What is known of the results item by item is known
of them all. -/
theorem exists_mapM_of_forall {γ : Type*} {xs : List α} {g : β → γ} {g' : α → γ}
    {Q : β → Prop} (h : ∀ x ∈ xs, ∃ y, f x = .ok y ∧ g y = g' x ∧ Q y) :
    ∃ ys, xs.mapM f = .ok ys ∧ ys.map g = xs.map g' ∧ ∀ y ∈ ys, Q y := by
  induction xs with
  | nil => exact ⟨[], rfl, rfl, fun y hy => absurd hy not_mem_nil⟩
  | cons x xs ih =>
    obtain ⟨y, hy, hg, hQ⟩ := h x mem_cons_self
    obtain ⟨ys, hys, hgs, hQs⟩ := ih fun x' hx' => h x' (.tail x hx')
    refine ⟨y :: ys, ?_, by rw [map_cons, map_cons, hg, hgs], fun y' hy' => ?_⟩
    · exact mapM_eq_ok_iff.mpr (.cons hy (mapM_eq_ok_iff.mp hys))
    · rcases mem_cons.mp hy' with rfl | hy'
      · exact hQ
      · exact hQs y' hy'

/-- A loop whose steps read something off an item and then update the state without fail succeeds
when every item can be read, and updates the state item by item. -/
theorem foldlM_eq_ok_iff {π : Type*} {f : σ → ι → Except ε σ} {R : ι → π → Prop}
    {push : σ → π → σ} (hf : ∀ s i s', f s i = .ok s' ↔ ∃ p, R i p ∧ s' = push s p) {s s' : σ}
    {is : List ι} :
    is.foldlM f s = .ok s' ↔ ∃ ps, List.Forall₂ R is ps ∧ s' = ps.foldl push s := by
  induction is generalizing s with
  | nil =>
    constructor
    · intro h
      exact ⟨[], .nil, (ok.inj h).symm⟩
    · rintro ⟨ps, hps, rfl⟩
      rw [forall₂_nil_left_iff.mp hps]
      rfl
  | cons i is ih =>
    rw [foldlM_cons, bind_eq_ok_iff]
    constructor
    · rintro ⟨s₁, hstep, hloop⟩
      obtain ⟨p, hp, rfl⟩ := (hf s i s₁).mp hstep
      obtain ⟨ps, hps, rfl⟩ := ih.mp hloop
      exact ⟨p :: ps, .cons hp hps, rfl⟩
    · rintro ⟨ps, hps, rfl⟩
      obtain ⟨p, ps, hp, hrest, rfl⟩ := forall₂_cons_left_iff.mp hps
      exact ⟨push s p, (hf s i _).mpr ⟨p, hp, rfl⟩, ih.mpr ⟨ps, hrest, rfl⟩⟩

/-- Every item is related to an item with a property exactly when the items together are. -/
theorem exists_forall₂_iff {ι κ : Type*} {R : ι → κ → Prop} {P : κ → Prop} {is : List ι} :
    (∃ ks, List.Forall₂ R is ks ∧ ∀ k ∈ ks, P k) ↔ ∀ i ∈ is, ∃ k, R i k ∧ P k := by
  induction is with
  | nil => simp
  | cons i is ih =>
    rw [forall_mem_cons, ← ih]
    constructor
    · rintro ⟨ks, hks, hP⟩
      obtain ⟨k, ks, hk, hrest, rfl⟩ := forall₂_cons_left_iff.mp hks
      rw [forall_mem_cons] at hP
      exact ⟨⟨k, hk, hP.1⟩, ks, hrest, hP.2⟩
    · rintro ⟨⟨k, hk, hPk⟩, ks, hks, hP⟩
      exact ⟨k :: ks, .cons hk hks, forall_mem_cons.mpr ⟨hPk, hP⟩⟩

/-- A measure that every step of a fallible loop raises by the item's share rises by the sum of the
shares over the loop. -/
theorem foldlM_sum {f : σ → ι → Except ε σ} (μ : σ → ℕ) (share : ι → ℕ)
    (hstep : ∀ {s i s'}, f s i = .ok s' → μ s' = μ s + share i) {s s' : σ} {is : List ι}
    (h : is.foldlM f s = .ok s') : μ s' = μ s + (is.map share).sum := by
  induction is generalizing s with
  | nil =>
    obtain rfl := ok.inj h
    rfl
  | cons i is ih =>
    rw [foldlM_cons, bind_eq_ok_iff] at h
    obtain ⟨s₁, h₁, h₂⟩ := h
    rw [ih h₂, hstep h₁, map_cons, sum_cons, Nat.add_assoc]

/-- A loop each step of which adds the item's share succeeds and adds all shares. -/
theorem foldlM_add {M ι : Type u} [AddMonoid M] {f : M → ι → Except ε M} {share : ι → M}
    {is : List ι} (hstep : ∀ i ∈ is, ∀ d, f d i = .ok (d + share i)) (d : M) :
    is.foldlM f d = .ok (d + (is.map share).sum) := by
  induction is generalizing d with
  | nil => rw [map_nil, sum_nil, add_zero]; rfl
  | cons i is ih =>
    have htail := ih (fun j hj => hstep j (mem_cons_of_mem _ hj)) (d + share i)
    rw [foldlM_cons, hstep i mem_cons_self, ok_bind, htail, map_cons, sum_cons, add_assoc]

end Except

/-- The value of an optional result, or the given failure. -/
def Option.okOr {ε α : Type*} (e : ε) : Option α → Except ε α
  | some a => .ok a
  | none => .error e

@[simp] theorem Option.okOr_eq_ok {ε α : Type*} {e : ε} {x : Option α} {a : α} :
    x.okOr e = .ok a ↔ x = some a := by
  cases x <;> simp [Option.okOr]

namespace Word

variable {w : ℕ} (a b : BitVec w)

/-- `a + b`, or nothing when the sum does not fit. -/
def checkedAdd : Option (BitVec w) := if a.toNat + b.toNat < 2 ^ w then some (a + b) else none

/-- `a - b`, or nothing when `b` exceeds `a`. -/
def checkedSub : Option (BitVec w) := if b.toNat ≤ a.toNat then some (a - b) else none

/-- `a + b`, clamped to the largest value. -/
def saturatingAdd : BitVec w := if a.toNat + b.toNat < 2 ^ w then a + b else BitVec.allOnes w

/-- `a - b`, clamped to zero. -/
def saturatingSub : BitVec w := if b.toNat ≤ a.toNat then a - b else 0

theorem checkedAdd_eq_some {a b c : BitVec w} :
    checkedAdd a b = some c ↔ c.toNat = a.toNat + b.toNat := by
  unfold checkedAdd
  split_ifs with h
  · rw [Option.some.injEq, ← BitVec.toNat_inj, BitVec.toNat_add_of_lt h, eq_comm]
  · have hc := c.isLt
    constructor
    · intro hn; cases hn
    · intro hn; omega

theorem checkedSub_eq_some {a b c : BitVec w} :
    checkedSub a b = some c ↔ c.toNat + b.toNat = a.toNat := by
  unfold checkedSub
  split_ifs with h
  · rw [Option.some.injEq, ← BitVec.toNat_inj, BitVec.toNat_sub_of_le (BitVec.le_def.mpr h)]
    omega
  · constructor
    · intro hn; cases hn
    · intro hn; omega

theorem exists_checkedAdd {a b : BitVec w} (h : a.toNat + b.toNat < 2 ^ w) :
    ∃ c, checkedAdd a b = some c ∧ c.toNat = a.toNat + b.toNat :=
  ⟨a + b, if_pos h, BitVec.toNat_add_of_lt h⟩

theorem exists_checkedSub {a b : BitVec w} (h : b.toNat ≤ a.toNat) :
    ∃ c, checkedSub a b = some c ∧ c.toNat + b.toNat = a.toNat :=
  ⟨a - b, if_pos h, checkedSub_eq_some.mp (if_pos h)⟩

theorem toNat_saturatingAdd_of_lt {a b : BitVec w} (h : a.toNat + b.toNat < 2 ^ w) :
    (saturatingAdd a b).toNat = a.toNat + b.toNat := by
  rw [saturatingAdd, if_pos h, BitVec.toNat_add_of_lt h]

@[simp] theorem toNat_saturatingSub : (saturatingSub a b).toNat = a.toNat - b.toNat := by
  unfold saturatingSub
  split_ifs with h
  · exact BitVec.toNat_sub_of_le (BitVec.le_def.mpr h)
  · rw [BitVec.ofNat_eq_ofNat, BitVec.toNat_ofNat]
    simp only [Nat.zero_mod]
    omega

end Word
