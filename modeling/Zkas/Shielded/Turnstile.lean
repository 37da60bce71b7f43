import Zkas.Lib.Checked

/-!
# The turnstile supply ledger

Model of `SupplyLedger` in `shielded-core/src/turnstile.rs`: cumulative 128-bit totals of what
entered the shielded pool and what left it, with `pool_value` the checked difference. Every entry
operation is one checked addition to one total, and `poolValue_spec` reads the pool back over the
natural numbers. -/

namespace Zkas

open Word Except

/-- A 64-bit amount of sompi, score or count. -/
abbrev U64 := BitVec 64

/-- A 128-bit cumulative total. -/
abbrev U128 := BitVec 128

/-- Why the turnstile invariant was violated. -/
inductive TurnstileViolation where
  /-- The exits exceed what was ever issued. -/
  | PoolUnderflow (coinbase fees : U128)
  /-- An accumulation overflowed. -/
  | Overflow
  deriving DecidableEq, Repr

/-- The public supply ledger: what was minted into the pool and what left it. -/
structure SupplyLedger where
  /-- Subsidy and re-minted fees minted by the coinbase. -/
  cumulative_coinbase : U128
  /-- Fees paid out to miners. -/
  cumulative_fees : U128
  /-- Value burned out of the pool by the bridge peg-out. -/
  cumulative_burns : U128
  /-- Value minted by the bridge peg-in. -/
  cumulative_pegged_in : U128
  deriving DecidableEq, Repr

namespace SupplyLedger

/-- Reconstruct a ledger from all four persisted totals. -/
def fromTotalsFull
    (cumulative_coinbase cumulative_fees cumulative_burns cumulative_pegged_in : U128) :
    SupplyLedger :=
  { cumulative_coinbase, cumulative_fees, cumulative_burns, cumulative_pegged_in }

/-- Reconstruct a ledger from persisted totals, including burns. -/
def fromTotalsWithBurns (cumulative_coinbase cumulative_fees cumulative_burns : U128) :
    SupplyLedger :=
  fromTotalsFull cumulative_coinbase cumulative_fees cumulative_burns 0

/-- Reconstruct a ledger from persisted coinbase and fee totals. -/
def fromTotals (cumulative_coinbase cumulative_fees : U128) : SupplyLedger :=
  fromTotalsWithBurns cumulative_coinbase cumulative_fees 0

/-- The ledger at genesis. -/
def new : SupplyLedger := fromTotalsFull 0 0 0 0

/-- `total.checked_add(amount as u128)`, with an overflow a violation. -/
def accumulate (total : U128) (amount : U64) : Except TurnstileViolation U128 :=
  (checkedAdd total (amount.setWidth 128)).okOr .Overflow

variable (s : SupplyLedger)

/-- Mint a coinbase subsidy into the pool. -/
def mintCoinbase (subsidy : U64) : Except TurnstileViolation SupplyLedger := do
  return { s with cumulative_coinbase := ← accumulate s.cumulative_coinbase subsidy }

/-- Remove fees from the pool. -/
def collectFees (fee : U64) : Except TurnstileViolation SupplyLedger := do
  return { s with cumulative_fees := ← accumulate s.cumulative_fees fee }

/-- Burn value out of the pool. -/
def burn (value : U64) : Except TurnstileViolation SupplyLedger := do
  return { s with cumulative_burns := ← accumulate s.cumulative_burns value }

/-- The pool value `coinbase + pegged_in - fees - burns`. -/
def poolValue : Except TurnstileViolation U128 :=
  ((checkedAdd s.cumulative_coinbase s.cumulative_pegged_in).bind fun v =>
    (checkedSub v s.cumulative_fees).bind fun v => checkedSub v s.cumulative_burns).okOr
      (.PoolUnderflow (saturatingAdd s.cumulative_coinbase s.cumulative_pegged_in)
        (saturatingAdd s.cumulative_fees s.cumulative_burns))

/-- The hard consensus check: the pool is not negative. -/
def check : Except TurnstileViolation Unit := do
  let _ ← s.poolValue
  return ()

theorem accumulate_eq_ok {total total' : U128} {amount : U64} :
    accumulate total amount = .ok total' ↔ total'.toNat = total.toNat + amount.toNat := by
  have hwide : (amount.setWidth 128).toNat = amount.toNat := BitVec.toNat_setWidth_of_le (by decide)
  rw [accumulate, Option.okOr_eq_ok, checkedAdd_eq_some, hwide]

variable {s s' : SupplyLedger}

theorem mintCoinbase_eq_ok {a : U64} (h : s.mintCoinbase a = .ok s') :
    s'.cumulative_coinbase.toNat = s.cumulative_coinbase.toNat + a.toNat ∧
      s' = { s with cumulative_coinbase := s'.cumulative_coinbase } := by
  obtain ⟨t, ht, heq⟩ := bind_eq_ok_iff.mp h
  obtain rfl := ok.inj heq
  exact ⟨accumulate_eq_ok.mp ht, rfl⟩

theorem collectFees_eq_ok {a : U64} (h : s.collectFees a = .ok s') :
    s'.cumulative_fees.toNat = s.cumulative_fees.toNat + a.toNat ∧
      s' = { s with cumulative_fees := s'.cumulative_fees } := by
  obtain ⟨t, ht, heq⟩ := bind_eq_ok_iff.mp h
  obtain rfl := ok.inj heq
  exact ⟨accumulate_eq_ok.mp ht, rfl⟩

theorem burn_eq_ok {a : U64} (h : s.burn a = .ok s') :
    s'.cumulative_burns.toNat = s.cumulative_burns.toNat + a.toNat ∧
      s' = { s with cumulative_burns := s'.cumulative_burns } := by
  obtain ⟨t, ht, heq⟩ := bind_eq_ok_iff.mp h
  obtain rfl := ok.inj heq
  exact ⟨accumulate_eq_ok.mp ht, rfl⟩

/-- The pool value exists exactly when it is the exact difference of entries and exits. -/
theorem poolValue_spec {s : SupplyLedger} {v : U128} (hp : s.cumulative_pegged_in = 0) :
    s.poolValue = .ok v ↔ v.toNat + s.cumulative_fees.toNat + s.cumulative_burns.toNat
        = s.cumulative_coinbase.toNat := by
  have hpeg : s.cumulative_pegged_in.toNat = 0 := by rw [hp]; rfl
  rw [poolValue, Option.okOr_eq_ok]
  simp only [Option.bind_eq_some_iff, checkedAdd_eq_some, checkedSub_eq_some]
  constructor
  · rintro ⟨a, ha, b, hb, hv⟩
    omega
  · intro h
    have hb : v.toNat + s.cumulative_burns.toNat < 2 ^ 128 := by
      have := s.cumulative_coinbase.isLt
      omega
    refine ⟨s.cumulative_coinbase, by omega, v + s.cumulative_burns, ?_, ?_⟩
    · rw [BitVec.toNat_add_of_lt hb]; omega
    · rw [BitVec.toNat_add_of_lt hb]

theorem check_eq_ok {s : SupplyLedger} (hp : s.cumulative_pegged_in = 0) : s.check = .ok () ↔
      s.cumulative_fees.toNat + s.cumulative_burns.toNat ≤ s.cumulative_coinbase.toNat := by
  unfold check
  rw [bind_eq_ok_iff]
  constructor
  · rintro ⟨v, hv, -⟩
    have := (poolValue_spec hp).mp hv
    omega
  · intro h
    have hlt := s.cumulative_coinbase.isLt
    refine ⟨BitVec.ofNat 128 (s.cumulative_coinbase.toNat - s.cumulative_fees.toNat -
      s.cumulative_burns.toNat), (poolValue_spec hp).mpr ?_, rfl⟩
    rw [BitVec.toNat_ofNat, Nat.mod_eq_of_lt (by omega)]
    omega

end SupplyLedger

end Zkas
