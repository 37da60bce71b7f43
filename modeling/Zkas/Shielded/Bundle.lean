import Zkas.Shielded.State

/-!
# From bundles to shielded transactions

Model of `ShieldedTx::from_bundle` in `shielded-core/src/state.rs`, which lifts a parsed Orchard
bundle into the input of the state transition. The fields of the bundle that only its cryptographic
verification reads are left out. While the bridge is off no transaction lifted from a bundle burns
anything. -/

namespace Zkas

variable {H N : Type}

/-- The consensus-relevant part of an action. -/
structure ActionWire (H : Type) where
  nullifier : H
  /-- The note commitment, not yet decoded. -/
  cmx : H
  deriving DecidableEq

/-- A parsed bundle. -/
structure ShieldedBundle (H : Type) where
  actions : List (ActionWire H)
  /-- The net value leaving the pool, a signed number. -/
  value_balance : BitVec 64
  anchor : H
  /-- A bridge peg-out: its value and recipient. -/
  burn : Option (U64 × H)
  anchor_block : Option H
  deriving DecidableEq

/-- Why a bundle has no shielded effects. -/
inductive BundleExtractError where
  | NonCanonicalCommitment
  | BurnWithoutSpend
  | MintingValueBalance
  | BridgeDisabled
  | BurnExceedsValueBalance
  deriving DecidableEq, Repr

/-- The receipt of a bundle's peg-out, keyed by its first nullifier. -/
def ShieldedBundle.receipt (bundle : ShieldedBundle H) :
    Except BundleExtractError (Option (ExitReceipt H)) :=
  match bundle.burn with
  | some (v, recipient) =>
    if !BRIDGE_ENABLED then .error .BridgeDisabled
    else if bundle.value_balance.toInt < v.toNat then .error .BurnExceedsValueBalance
    else match bundle.actions with
      | [] => .error .BurnWithoutSpend
      | a :: _ => .ok (some { v, recipient, n := a.nullifier })
  | none => .ok none

/-- Extract the shielded effects of a bundle. -/
def ShieldedTx.fromBundle (T : NoteTree H N) (bundle : ShieldedBundle H) :
    Except BundleExtractError (ShieldedTx H N) := do
  let commitments ← bundle.actions.mapM fun a =>
    (T.fromBytes a.cmx).okOr BundleExtractError.NonCanonicalCommitment
  if bundle.value_balance.toInt < 0 then .error .MintingValueBalance
  else do
    let burn ← bundle.receipt
    return {
      nullifiers := bundle.actions.map (·.nullifier)
      commitments
      fee := bundle.value_balance
      anchor := bundle.anchor
      burn
      anchor_block := bundle.anchor_block }

theorem ShieldedBundle.receipt_eq_ok {bundle : ShieldedBundle H} {burn : Option (ExitReceipt H)}
    (h : bundle.receipt = .ok burn) : burn = none := by
  unfold receipt at h
  split at h
  · cases h
  · exact (Except.ok.inj h).symm

/-- The fee of an extracted transaction is the value balance of its bundle, it burns nothing, and it
creates a note for each one it spends. -/
theorem ShieldedTx.fromBundle_eq_ok {T : NoteTree H N} {bundle : ShieldedBundle H}
    {stx : ShieldedTx H N} (h : fromBundle T bundle = .ok stx) :
    stx.fee = bundle.value_balance ∧ stx.burn = none ∧
      stx.nullifiers.length = stx.commitments.length := by
  unfold fromBundle at h
  rw [Except.bind_eq_ok_iff] at h
  obtain ⟨commitments, hnotes, h⟩ := h
  split_ifs at h with hneg
  obtain ⟨burn, hburn, heq⟩ := Except.bind_eq_ok_iff.mp h
  obtain rfl := Except.ok.inj heq
  exact ⟨rfl, ShieldedBundle.receipt_eq_ok hburn,
    (List.length_map _).trans (Except.mapM_eq_ok_iff.mp hnotes).length_eq⟩

end Zkas
