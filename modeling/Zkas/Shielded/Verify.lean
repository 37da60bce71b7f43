import Zkas.Shielded.Sighash

/-!
# Verifying a bundle, alone and in a batch

Model of `verify_bundle_with_vk`, `to_orchard_bundle` and `verify_bundles_batched` in
`shielded-core/src/verify.rs`. The Orchard crate is idealised (`Orchard`): decoding a field or a
point is a partial function, and a single proof, binding signature or spend signature check is a
predicate; `Orchard.Spec` states the documented behaviour the results rely on. A batch accepts when
every bundle added to it passes its own checks. What both verifiers check is `Sound`; they part over
the flags. -/

namespace Zkas.Wire

open List Option Except

/-- Orchard's flags. -/
structure Flags where
  spends_enabled : Bool
  outputs_enabled : Bool
  deriving DecidableEq

/-- The two flags of a byte. -/
def Flags.bits (byte : UInt8) : Flags := ⟨byte &&& 1 != 0, byte &&& 2 != 0⟩

/-- The public inputs of the proof for an action. -/
structure Instance (F K V : Type) where
  anchor : F
  cv_net : V
  nf_old : F
  rk : K
  cmx : F
  flags : Flags

/-- What the verifiers use of the Orchard crate: field elements `F`, randomized keys `K`, points
`V`, and messages `D`. -/
structure Orchard (F K V D : Type) where
  /-- `Flags::from_byte`, at the bundle version in use. -/
  flagsFromByte : UInt8 → Option Flags
  anchorFromBytes : Bytes 32 → Option F
  nullifierFromBytes : Bytes 32 → Option F
  cmxFromBytes : Bytes 32 → Option F
  valueCommitmentFromBytes : Bytes 32 → Option V
  rkFromBytes : Bytes 32 → Option K
  rkIsIdentity : K → Bool
  pointFromBytes : Bytes 32 → Option V
  /-- `Instance::from_parts`, the public inputs for an action. -/
  instanceFromParts : F → V → F → K → F → Flags → Option (Instance F K V)
  /-- `Proof::expected_proof_size`, for a number of actions. -/
  expectedProofSize : ℕ → ℕ
  /-- The commitment to a value balance without a trapdoor. -/
  commit : BitVec 64 → V
  proofValid : List UInt8 → List (Instance F K V) → Bool
  /-- A signature under the key that a point is read as. -/
  bindingValid : V → D → Bytes 64 → Bool
  spendAuthValid : K → D → Bytes 64 → Bool

/-- The documented behaviour of the crate. -/
structure Orchard.Spec {F K V D : Type} (O : Orchard F K V D) : Prop where
  /-- The flags are the bits 0 and 1, and no other bit may be set. -/
  flagsFromByte_eq : ∀ byte, O.flagsFromByte byte =
    if byte &&& ~~~0b11 = 0 then some (.bits byte) else none
  /-- The public inputs are the parts; an identity key is refused. -/
  instanceFromParts_eq : ∀ anchor cv_net nf_old rk cmx flags,
    O.instanceFromParts anchor cv_net nf_old rk cmx flags =
      if O.rkIsIdentity rk then none else some { anchor, cv_net, nf_old, rk, cmx, flags }

/-- Why a bundle fails verification. -/
inductive BundleVerifyError where
  | NoActions
  | NonCanonicalField (field : String)
  | IdentityRk
  | IdentityEpk
  | NonCanonicalFlags
  | BadProofLength (expected got : ℕ)
  | ProofInvalid
  | BindingSigInvalid
  | SpendAuthSigInvalid (i : ℕ)
  deriving DecidableEq, Repr

variable {F K V D : Type} [AddCommGroup V] [DecidableEq V] (O : Orchard F K V D)

namespace Orchard

/-- A refusal of the verifier. -/
abbrev Verify := Except (Fault BundleVerifyError)

/-- A field that must decode. -/
def field {α : Type} (name : String) (x : Option α) : Verify α :=
  x.okOr (.err (.NonCanonicalField name))

/-- A condition that must hold. -/
def require (ok : Bool) (e : BundleVerifyError) : Verify Unit :=
  if ok then .ok () else .error (.err e)

/-! ## The single verifier -/

/-- What the loop over the actions collects. -/
structure Parts (F K V : Type) where
  instances : List (Instance F K V)
  rks : List K
  cv_sum : Option V

variable (anchor : F) (flags : Flags)

/-- One round of the loop over the actions. -/
def collectAction (parts : Parts F K V) (a : ActionWire) :
    Verify (Parts F K V) := do
  let nf ← field "nullifier" (O.nullifierFromBytes a.nullifier)
  let cmx ← field "cmx" (O.cmxFromBytes a.cmx)
  let cv_net ← field "cv_net" (O.valueCommitmentFromBytes a.cv_net)
  let rk ← field "rk" (O.rkFromBytes a.rk)
  require (!O.rkIsIdentity rk) .IdentityRk
  let epk ← field "epk" (O.pointFromBytes a.ephemeral_key)
  require (epk ≠ 0) .IdentityEpk
  -- A second refusal of an identity key.
  let inst ← (O.instanceFromParts anchor cv_net nf rk cmx flags).okOr (.err .IdentityRk)
  return {
    instances := parts.instances ++ [inst]
    rks := parts.rks ++ [rk]
    cv_sum := some (parts.cv_sum.elim cv_net (· + cv_net)) }

/-- The signatures of the actions, numbered. -/
def checkSpendAuth (sighash : D) : ℕ → List (ActionWire × K) → Verify Unit
  | _, [] => .ok ()
  | i, (a, rk) :: rest => do
    require (O.spendAuthValid rk sighash a.spend_auth_sig) (.SpendAuthSigInvalid i)
    checkSpendAuth sighash (i + 1) rest

/-- Verify a bundle. -/
def verifyBundle (bundle : ShieldedBundle) (sighash : D) : Verify Unit := do
  require (!bundle.actions.isEmpty) .NoActions
  let anchor ← field "anchor" (O.anchorFromBytes bundle.anchor)
  require bundle.canonicalFlags .NonCanonicalFlags
  let flags ← (O.flagsFromByte (bundle.flags &&& 0b11)).okOr (.err .NonCanonicalFlags)
  let parts ← bundle.actions.foldlM (O.collectAction anchor flags) ⟨[], [], none⟩
  let expected := O.expectedProofSize bundle.actions.length
  require (bundle.proof.length = expected) (.BadProofLength expected bundle.proof.length)
  require (O.proofValid bundle.proof parts.instances) .ProofInvalid
  let cv_sum ← parts.cv_sum.okOr .panic
  require (O.bindingValid (cv_sum - O.commit bundle.value_balance) sighash bundle.binding_sig)
    .BindingSigInvalid
  O.checkSpendAuth sighash 0 (bundle.actions.zip parts.rks)

/-! ## The batch -/

/-- An action rebuilt for Orchard. -/
structure Action (F K V : Type) where
  nf : F
  rk : K
  cmx : F
  cv_net : V
  spend_auth_sig : Bytes 64

/-- Orchard's constructor: no identity key, and an ephemeral key that is a point and not the
identity. -/
def actionFromParts (nf : F) (rk : K) (cmx : F) (epk_bytes : Bytes 32) (cv_net : V)
    (spend_auth_sig : Bytes 64) : Except BundleVerifyError (Action F K V) :=
  if O.rkIsIdentity rk then .error .IdentityRk
  else match O.pointFromBytes epk_bytes with
    | none => .error .IdentityEpk
    | some epk => if epk = 0 then .error .IdentityEpk
      else .ok { nf, rk, cmx, cv_net, spend_auth_sig }

/-- An action of the wire format rebuilt. -/
def toOrchardAction (a : ActionWire) : Verify (Action F K V) := do
  let nf ← field "nullifier" (O.nullifierFromBytes a.nullifier)
  let rk ← field "rk" (O.rkFromBytes a.rk)
  let cmx ← field "cmx" (O.cmxFromBytes a.cmx)
  let cv_net ← field "cv_net" (O.valueCommitmentFromBytes a.cv_net)
  (O.actionFromParts nf rk cmx a.ephemeral_key cv_net a.spend_auth_sig).mapError .err

/-- A bundle rebuilt for Orchard. -/
structure Bundle (F K V : Type) where
  actions : List (Action F K V)
  flags : Flags
  value_balance : BitVec 64
  anchor : F
  proof : List UInt8
  binding_sig : Bytes 64

/-- A bundle of the wire format rebuilt by Orchard's constructors. -/
def toOrchardBundle (wire : ShieldedBundle) : Verify (Bundle F K V) := do
  let anchor ← field "anchor" (O.anchorFromBytes wire.anchor)
  let flags ← (O.flagsFromByte wire.flags).okOr (.err .NonCanonicalFlags)
  let actions ← wire.actions.mapM O.toOrchardAction
  require (!actions.isEmpty) .NoActions
  let expected := O.expectedProofSize wire.actions.length
  require (wire.proof.length = expected) (.BadProofLength expected wire.proof.length)
  return { actions, flags, value_balance := wire.value_balance, anchor, proof := wire.proof,
           binding_sig := wire.binding_sig }

/-- The checks of one bundle of a batch. -/
def bundleValid (bundle : Bundle F K V) (sighash : D) : Bool :=
  O.proofValid bundle.proof (bundle.actions.map fun a =>
    { anchor := bundle.anchor, cv_net := a.cv_net, nf_old := a.nf, rk := a.rk, cmx := a.cmx,
      flags := bundle.flags }) &&
  O.bindingValid ((bundle.actions.map (·.cv_net)).sum - O.commit bundle.value_balance) sighash
    bundle.binding_sig &&
  bundle.actions.all fun a => O.spendAuthValid a.rk sighash a.spend_auth_sig

/-- Verify bundles together. -/
def verifyBundlesBatched (items : List (ShieldedBundle × D)) : Verify Unit := do
  let batch ← items.foldlM (fun batch item => do
    let bundle ← O.toOrchardBundle item.1
    return batch ++ [(bundle, item.2)]) []
  require (batch.all fun (bundle, sighash) => O.bundleValid bundle sighash) .ProofInvalid

/-! ## What both verifiers check -/

/-- An action with its fields decoded. -/
structure Parsed (F K V : Type) where
  nf : F
  cmx : F
  cv_net : V
  rk : K

/-- An action decodes, and neither of its keys is the identity. -/
structure Parses (a : ActionWire) (p : Parsed F K V) : Prop where
  nullifier : O.nullifierFromBytes a.nullifier = some p.nf
  cmx : O.cmxFromBytes a.cmx = some p.cmx
  cv_net : O.valueCommitmentFromBytes a.cv_net = some p.cv_net
  rk : O.rkFromBytes a.rk = some p.rk
  rk_ne : O.rkIsIdentity p.rk = false
  epk : ∃ epk, O.pointFromBytes a.ephemeral_key = some epk ∧ epk ≠ 0

/-- The public inputs of a decoded action. -/
def Parsed.toInstance (p : Parsed F K V) : Instance F K V :=
  { anchor, cv_net := p.cv_net, nf_old := p.nf, rk := p.rk, cmx := p.cmx, flags }

/-- What a bundle with decoded actions must satisfy, its flags apart. -/
structure Sound (bundle : ShieldedBundle) (sighash : D) (root : F) (ps : List (Parsed F K V)) :
    Prop where
  nonempty : bundle.actions ≠ []
  anchor : O.anchorFromBytes bundle.anchor = some root
  actions : List.Forall₂ O.Parses bundle.actions ps
  proof_len : bundle.proof.length = O.expectedProofSize bundle.actions.length
  proof : O.proofValid bundle.proof (ps.map (Parsed.toInstance root (.bits bundle.flags)))
  binding : O.bindingValid ((ps.map (·.cv_net)).sum - O.commit bundle.value_balance) sighash
    bundle.binding_sig
  spends : List.Forall₂ (fun a p => O.spendAuthValid p.rk sighash a.spend_auth_sig = true)
    bundle.actions ps

omit [AddCommGroup V] [DecidableEq V] in
theorem require_eq_ok {ok : Bool} {e : BundleVerifyError} {u : Unit} :
    require ok e = .ok u ↔ ok = true := by
  unfold require
  split_ifs with h <;> simp [h]

omit [AddCommGroup V] [DecidableEq V] in
theorem field_eq_ok {α : Type} {name : String} {x : Option α} {a : α} :
    field name x = .ok a ↔ x = some a := okOr_eq_ok

/-- A decoded action added to what the loop collects. -/
def Parts.push (parts : Parts F K V) (p : Parsed F K V) : Parts F K V where
  instances := parts.instances ++ [p.toInstance anchor flags]
  rks := parts.rks ++ [p.rk]
  cv_sum := some (parts.cv_sum.elim p.cv_net (· + p.cv_net))

/-- A round of the loop decodes an action and adds it. -/
theorem collectAction_eq_ok (hO : O.Spec) (anchor : F) (flags : Flags) (parts : Parts F K V)
    (a : ActionWire)
    (parts' : Parts F K V) :
    O.collectAction anchor flags parts a = .ok parts' ↔
      ∃ p, O.Parses a p ∧ parts' = parts.push anchor flags p := by
  unfold collectAction
  simp only [bind_eq_ok_iff, field_eq_ok, require_eq_ok, okOr_eq_ok]
  constructor
  · rintro ⟨nf, hnf, cmx, hcmx, cv_net, hcv, rk, hrk, -, hne, epk, hepk, -, hepkne, inst, hinst,
      heq⟩
    rw [Bool.not_eq_true'] at hne
    rw [decide_eq_true_eq] at hepkne
    rw [hO.instanceFromParts_eq, hne] at hinst
    obtain rfl := some.inj hinst
    exact ⟨⟨nf, cmx, cv_net, rk⟩, ⟨hnf, hcmx, hcv, hrk, hne, epk, hepk, hepkne⟩, (ok.inj heq).symm⟩
  · rintro ⟨p, hp, rfl⟩
    obtain ⟨epk, hepk, hepkne⟩ := hp.epk
    have hinst : O.instanceFromParts anchor p.cv_net p.nf p.rk p.cmx flags =
        some (p.toInstance anchor flags) := by
      rw [hO.instanceFromParts_eq, hp.rk_ne]
      rfl
    exact ⟨_, hp.nullifier, _, hp.cmx, _, hp.cv_net, _, hp.rk, (), by rw [hp.rk_ne]; rfl, _, hepk,
      (), decide_eq_true hepkne, _, hinst, rfl⟩

omit [DecidableEq V] in
/-- What the loop collects: the public inputs, the keys, and the sum of the value commitments. -/
theorem foldl_push (ps : List (Parsed F K V)) (parts : Parts F K V) :
    (ps.foldl (Parts.push anchor flags) parts).instances =
        parts.instances ++ ps.map (Parsed.toInstance anchor flags) ∧
      (ps.foldl (Parts.push anchor flags) parts).rks = parts.rks ++ ps.map (·.rk) ∧
      (ps ≠ [] → (ps.foldl (Parts.push anchor flags) parts).cv_sum =
        some (parts.cv_sum.getD 0 + (ps.map (·.cv_net)).sum)) := by
  induction ps generalizing parts with
  | nil => simp
  | cons p ps ih =>
    obtain ⟨hinstances, hrks, hsum⟩ := ih (parts.push anchor flags p)
    have hpushed : (parts.push anchor flags p).cv_sum = some (parts.cv_sum.getD 0 + p.cv_net) := by
      cases h : parts.cv_sum <;> simp [Parts.push, h]
    refine ⟨?_, ?_, fun _ => ?_⟩
    · rw [foldl_cons, hinstances]
      simp [Parts.push]
    · rw [foldl_cons, hrks]
      simp [Parts.push]
    · rw [foldl_cons]
      rcases eq_or_ne ps [] with rfl | hne
      · simp [hpushed]
      · rw [hsum hne, hpushed, getD_some, map_cons, sum_cons, add_assoc]

omit [AddCommGroup V] [DecidableEq V] in
theorem checkSpendAuth_eq_ok {sighash : D} {i : ℕ} {pairs : List (ActionWire × K)} :
    O.checkSpendAuth sighash i pairs = .ok () ↔
      ∀ pair ∈ pairs, O.spendAuthValid pair.2 sighash pair.1.spend_auth_sig = true := by
  induction pairs generalizing i with
  | nil => simp [checkSpendAuth]
  | cons pair pairs ih =>
    obtain ⟨a, rk⟩ := pair
    rw [checkSpendAuth, bind_eq_ok_iff, forall_mem_cons, ← ih (i := i + 1)]
    simp only [require_eq_ok]
    exact ⟨fun ⟨_, hsig, hrest⟩ => ⟨hsig, hrest⟩, fun ⟨hsig, hrest⟩ => ⟨(), hsig, hrest⟩⟩

theorem bits_and (byte : UInt8) : Flags.bits (byte &&& 0b11) = Flags.bits byte := by
  have hspends : byte &&& 0b11 &&& 1 = byte &&& 1 := by rw [UInt8.and_assoc]; rfl
  have houtputs : byte &&& 0b11 &&& 2 = byte &&& 2 := by rw [UInt8.and_assoc]; rfl
  rw [Flags.bits, Flags.bits, hspends, houtputs]

omit [AddCommGroup V] [DecidableEq V] in
theorem Spec.flagsFromByte_and {O : Orchard F K V D} (hO : O.Spec) (byte : UInt8) :
    O.flagsFromByte (byte &&& 0b11) = some (.bits byte) := by
  have hclear : byte &&& 0b11 &&& ~~~0b11 = 0 := by
    rw [UInt8.and_assoc]
    exact UInt8.and_zero
  rw [hO.flagsFromByte_eq, if_pos hclear, bits_and]

variable {bundle : ShieldedBundle}

theorem canonicalFlags_of_verifyBundle {sighash : D}
    (h : O.verifyBundle bundle sighash = .ok ()) : bundle.canonicalFlags = true := by
  unfold verifyBundle at h
  simp only [bind_eq_ok_iff, require_eq_ok] at h
  obtain ⟨-, -, _, -, -, hflags, -⟩ := h
  exact hflags

/-- The single verifier accepts a sound bundle with canonical flags. -/
theorem verifyBundle_eq_ok (hO : O.Spec) {sighash : D} :
    O.verifyBundle bundle sighash = .ok () ↔
      bundle.canonicalFlags = true ∧ ∃ root ps, O.Sound bundle sighash root ps := by
  unfold verifyBundle
  simp only [bind_eq_ok_iff, field_eq_ok, require_eq_ok, okOr_eq_ok, hO.flagsFromByte_and,
    foldlM_eq_ok_iff (O.collectAction_eq_ok hO _ _), checkSpendAuth_eq_ok, some.injEq]
  constructor
  · rintro ⟨-, hne, root, hroot, -, hflags, flags, rfl, parts, ⟨ps, hps, rfl⟩, -, hlen, -, hproof,
      sum, hsum, -, hbinding, hspends⟩
    rw [Bool.not_eq_true', isEmpty_eq_false_iff] at hne
    have hpsne : ps ≠ [] := by
      rintro rfl
      exact hne (forall₂_nil_right_iff.mp hps)
    obtain ⟨hinstances, hrks, hcv⟩ := foldl_push root (.bits bundle.flags) ps ⟨[], [], none⟩
    rw [hcv hpsne, getD_none, zero_add, some.injEq] at hsum
    subst hsum
    rw [hinstances] at hproof
    rw [hrks] at hspends
    refine ⟨hflags, root, ps, hne, hroot, hps, of_decide_eq_true hlen, hproof, hbinding, ?_⟩
    rw [nil_append] at hspends
    have hzip := forall₂_iff_zip.mpr ⟨by rw [length_map, hps.length_eq],
      fun {a rk} h => hspends (a, rk) h⟩
    exact forall₂_map_right_iff.mp hzip
  · rintro ⟨hflags, root, ps, h⟩
    have hpsne : ps ≠ [] := by
      rintro rfl
      exact h.nonempty (forall₂_nil_right_iff.mp h.actions)
    obtain ⟨hinstances, hrks, hcv⟩ := foldl_push root (.bits bundle.flags) ps ⟨[], [], none⟩
    have hkeys : List.Forall₂
        (fun (a : ActionWire) rk => O.spendAuthValid rk sighash a.spend_auth_sig = true)
        bundle.actions (ps.map (·.rk)) := forall₂_map_right_iff.mpr h.spends
    obtain ⟨-, hspends⟩ := forall₂_iff_zip.mp hkeys
    refine ⟨(), ?_, root, h.anchor, (), hflags, _, rfl, _, ⟨ps, h.actions, rfl⟩, (),
      decide_eq_true h.proof_len, (), ?_, _, hcv hpsne, (), ?_, ?_⟩
    · rw [Bool.not_eq_true', isEmpty_eq_false_iff]
      exact h.nonempty
    · rw [hinstances]
      exact h.proof
    · rw [getD_none, zero_add]
      exact h.binding
    · rw [hrks]
      exact fun pair hpair => hspends hpair

/-! ## The batch, bundle by bundle -/

/-- The decoded fields of a rebuilt action. -/
def Action.parsed (act : Action F K V) : Parsed F K V := ⟨act.nf, act.cmx, act.cv_net, act.rk⟩

theorem toOrchardAction_eq_ok {a : ActionWire} {act : Action F K V} :
    O.toOrchardAction a = .ok act ↔
      O.Parses a act.parsed ∧ act.spend_auth_sig = a.spend_auth_sig := by
  unfold toOrchardAction
  simp only [bind_eq_ok_iff, field_eq_ok, mapError_eq_ok]
  constructor
  · rintro ⟨nf, hnf, rk, hrk, cmx, hcmx, cv_net, hcv, hok⟩
    unfold actionFromParts at hok
    split_ifs at hok with hid
    split at hok
    · cases hok
    · rename_i epk hepk
      split_ifs at hok with hzero
      obtain rfl := ok.inj hok
      exact ⟨⟨hnf, hcmx, hcv, hrk, Bool.eq_false_of_not_eq_true hid, epk, hepk, hzero⟩, rfl⟩
  · rintro ⟨hp, hsig⟩
    obtain ⟨epk, hepk, hne⟩ := hp.epk
    have hid : ¬O.rkIsIdentity act.parsed.rk = true := Bool.eq_false_iff.mp hp.rk_ne
    refine ⟨_, hp.nullifier, _, hp.rk, _, hp.cmx, _, hp.cv_net, ?_⟩
    unfold actionFromParts
    rw [if_neg hid, hepk]
    dsimp only
    rw [if_neg hne, ← hsig]
    rfl

theorem exists_actions {as : List ActionWire} {ps : List (Parsed F K V)}
    (h : List.Forall₂ O.Parses as ps) :
    ∃ acts, List.Forall₂ (fun a act => O.toOrchardAction a = .ok act) as acts ∧
      acts.map Action.parsed = ps := by
  induction h with
  | nil => exact ⟨[], .nil, rfl⟩
  | @cons a p as ps hp _ ih =>
    obtain ⟨acts, hacts, rfl⟩ := ih
    refine ⟨⟨p.nf, p.rk, p.cmx, p.cv_net, a.spend_auth_sig⟩ :: acts, .cons ?_ hacts, rfl⟩
    exact O.toOrchardAction_eq_ok.mpr ⟨hp, rfl⟩

theorem all_spendAuth_iff {sighash : D} {as : List ActionWire} {acts : List (Action F K V)}
    (h : List.Forall₂ (fun a act => O.toOrchardAction a = .ok act) as acts) :
    (∀ act ∈ acts, O.spendAuthValid act.rk sighash act.spend_auth_sig = true) ↔
      List.Forall₂ (fun a p => O.spendAuthValid p.rk sighash a.spend_auth_sig = true) as
        (acts.map Action.parsed) := by
  induction h with
  | nil => simp
  | cons hact _ ih =>
    rw [map_cons, forall₂_cons, forall_mem_cons, ih, (O.toOrchardAction_eq_ok.mp hact).2]
    rfl

/-- A batch accepts a sound bundle whose flags Orchard reads. -/
theorem batched_item_iff (hO : O.Spec) {wire : ShieldedBundle} {sighash : D} :
    (∃ bundle, O.toOrchardBundle wire = .ok bundle ∧ O.bundleValid bundle sighash = true) ↔
      wire.flags &&& ~~~0b11 = 0 ∧ ∃ root ps, O.Sound wire sighash root ps := by
  unfold toOrchardBundle
  simp only [hO.flagsFromByte_eq, bind_eq_ok_iff, field_eq_ok, require_eq_ok, okOr_eq_ok,
    mapM_eq_ok_iff]
  constructor
  · rintro ⟨bundle, ⟨root, hroot, flags, hflags, acts, hacts, -, hne, -, hlen, heq⟩, hvalid⟩
    obtain rfl := ok.inj heq
    split_ifs at hflags with hclear
    obtain rfl := some.inj hflags
    simp only [bundleValid, Bool.and_eq_true, List.all_eq_true] at hvalid
    obtain ⟨⟨hproof, hbinding⟩, hspends⟩ := hvalid
    have hparses : List.Forall₂ O.Parses wire.actions (acts.map Action.parsed) :=
      forall₂_map_right_iff.mpr (hacts.imp fun _ _ h => (O.toOrchardAction_eq_ok.mp h).1)
    rw [Bool.not_eq_true', isEmpty_eq_false_iff] at hne
    refine ⟨hclear, root, acts.map Action.parsed, ?_, hroot, hparses, of_decide_eq_true hlen, ?_,
      ?_, (O.all_spendAuth_iff hacts).mp hspends⟩
    · intro hnil
      rw [hnil] at hacts
      exact hne (List.forall₂_nil_left_iff.mp hacts)
    · rw [List.map_map]
      exact hproof
    · rw [List.map_map]
      exact hbinding
  · rintro ⟨hclear, root, ps, h⟩
    obtain ⟨acts, hacts, rfl⟩ := O.exists_actions h.actions
    refine ⟨_, ⟨root, h.anchor, _, if_pos hclear, acts, hacts, (), ?_, (),
      decide_eq_true h.proof_len, rfl⟩, ?_⟩
    · rw [Bool.not_eq_true', isEmpty_eq_false_iff]
      rintro rfl
      exact h.nonempty (forall₂_nil_right_iff.mp hacts)
    · simp only [bundleValid, Bool.and_eq_true, List.all_eq_true]
      have hproof := h.proof
      have hbinding := h.binding
      rw [List.map_map] at hproof hbinding
      exact ⟨⟨hproof, hbinding⟩, (O.all_spendAuth_iff hacts).mpr h.spends⟩

theorem verifyBundlesBatched_eq_ok (hO : O.Spec) {items : List (ShieldedBundle × D)} :
    O.verifyBundlesBatched items = .ok () ↔
      ∀ item ∈ items, item.1.flags &&& ~~~0b11 = 0 ∧ ∃ root ps, O.Sound item.1 item.2 root ps := by
  have hadd (batch : List (Bundle F K V × D)) (item : ShieldedBundle × D)
      (batch' : List (Bundle F K V × D)) :
      (do let bundle ← O.toOrchardBundle item.1
          return batch ++ [(bundle, item.2)] : Verify (List (Bundle F K V × D))) = .ok batch' ↔
        ∃ added : Bundle F K V × D, (O.toOrchardBundle item.1 = .ok added.1 ∧ added.2 = item.2) ∧
            batch' = batch ++ [added] := by
    rw [bind_eq_ok_iff]
    constructor
    · rintro ⟨bundle, hbundle, heq⟩
      exact ⟨(bundle, item.2), ⟨hbundle, rfl⟩, (ok.inj heq).symm⟩
    · rintro ⟨⟨bundle, sighash⟩, ⟨hbundle, rfl⟩, rfl⟩
      exact ⟨bundle, hbundle, rfl⟩
  have hbatch (added : List (Bundle F K V × D)) :
      added.foldl (fun batch item => batch ++ [item]) [] = added := by
    rw [List.foldl_append_eq_append, List.nil_append]
    rw [← List.flatMap_def, List.flatMap_singleton']
  unfold verifyBundlesBatched
  rw [bind_eq_ok_iff]
  simp only [foldlM_eq_ok_iff hadd, require_eq_ok, hbatch, List.all_eq_true]
  constructor
  · rintro ⟨batch, ⟨added, hadded, heq⟩, hvalid⟩ item hitem
    subst heq
    obtain ⟨⟨bundle, sighash⟩, ⟨hbundle, rfl⟩, hok⟩ :=
      exists_forall₂_iff.mp ⟨batch, hadded, hvalid⟩ item hitem
    exact (O.batched_item_iff hO).mp ⟨bundle, hbundle, hok⟩
  · intro hitems
    have heach (item : ShieldedBundle × D) (hitem : item ∈ items) : ∃ added : Bundle F K V × D,
          (O.toOrchardBundle item.1 = .ok added.1 ∧ added.2 = item.2) ∧
            O.bundleValid added.1 added.2 = true := by
      obtain ⟨bundle, hbundle, hok⟩ := (O.batched_item_iff hO).mpr (hitems item hitem)
      exact ⟨(bundle, item.2), ⟨hbundle, rfl⟩, hok⟩
    obtain ⟨added, hadded, hvalid⟩ := exists_forall₂_iff.mpr heach
    exact ⟨added, ⟨added, hadded, rfl⟩, hvalid⟩

/-- The bits outside Orchard's two are those outside the verifier's three, and bit 3. -/
theorem and_not_orchard_iff (byte : UInt8) : byte &&& ~~~0b11 = 0 ↔
      byte &&& ~~~(0b11 ||| BUNDLE_FLAG_ANCHOR_BLOCK) = 0 ∧
        byte &&& BUNDLE_FLAG_ANCHOR_BLOCK = 0 := by
  have hmask : (~~~0b11 : UInt8) =
      ~~~(0b11 ||| BUNDLE_FLAG_ANCHOR_BLOCK) ||| BUNDLE_FLAG_ANCHOR_BLOCK := by decide
  have hdistrib (c d : UInt8) : byte &&& (c ||| d) = byte &&& c ||| byte &&& d := by
    apply UInt8.toBitVec_inj.mp
    exact BitVec.and_or_distrib_left
  rw [hmask, hdistrib, UInt8.or_eq_zero_iff]

/-- Of the flags the single verifier admits, the batch admits those without an anchor block. -/
theorem orchardFlags_iff {s : List UInt8} (h : ShieldedBundle.fromBytes s = .ok bundle) :
    bundle.flags &&& ~~~0b11 = 0 ↔ bundle.canonicalFlags = true ∧ bundle.anchor_block = none := by
  have hblock : bundle.anchor_block.isSome ↔ bundle.flags &&& BUNDLE_FLAG_ANCHOR_BLOCK ≠ 0 :=
    (ShieldedBundle.decode_eq_ok.mp h).1.anchor_block.trans (and_iff_right rfl)
  have hrule : bundle.canonicalFlags = true ↔
      bundle.flags &&& ~~~(0b11 ||| BUNDLE_FLAG_ANCHOR_BLOCK) = 0 := by
    -- The decoder already matched the anchor block with its bit.
    have hmatch :
      (bundle.flags &&& BUNDLE_FLAG_ANCHOR_BLOCK != 0) = bundle.anchor_block.isSome := by
      rw [Bool.eq_iff_iff, hblock, bne_iff_ne]
    simp only [ShieldedBundle.canonicalFlags, hmatch, Bool.not_eq_true', Bool.or_eq_false_iff,
      bne_eq_false_iff_eq, and_true]
  rw [and_not_orchard_iff, hrule]
  refine and_congr_right fun _ => ?_
  rw [← not_iff_not, ← ne_eq, ← hblock, ← ne_eq, isSome_iff_ne_none]

/-- The batch and the single verifier give one verdict on decoded bundles exactly when none of them
names an anchor block, or one of them fails on its own. -/
theorem batched_agrees_iff (hO : O.Spec) {items : List (ShieldedBundle × D)}
    (hdecoded : ∀ item ∈ items, ∃ s, ShieldedBundle.fromBytes s = .ok item.1) :
    (O.verifyBundlesBatched items = .ok () ↔
        ∀ item ∈ items, O.verifyBundle item.1 item.2 = .ok ()) ↔
      (∀ item ∈ items, item.1.anchor_block = none) ∨
        ∃ item ∈ items, O.verifyBundle item.1 item.2 ≠ .ok () := by
  -- Bundle by bundle the batch asks for one thing more.
  have hbatched : O.verifyBundlesBatched items = .ok () ↔
      ∀ item ∈ items, O.verifyBundle item.1 item.2 = .ok () ∧ item.1.anchor_block = none := by
    rw [O.verifyBundlesBatched_eq_ok hO]
    refine forall₂_congr fun item hitem => ?_
    obtain ⟨s, hs⟩ := hdecoded item hitem
    rw [orchardFlags_iff hs, O.verifyBundle_eq_ok hO]
    tauto
  rw [hbatched]
  constructor
  · intro hagree
    by_cases hall : ∀ item ∈ items, O.verifyBundle item.1 item.2 = .ok ()
    · exact .inl fun item hitem => (hagree.mpr hall item hitem).2
    · push Not at hall
      exact .inr hall
  · rintro (hnone | ⟨item, hitem, hfail⟩)
    · exact ⟨fun h item hitem => (h item hitem).1,
        fun h item hitem => ⟨h item hitem, hnone item hitem⟩⟩
    · exact ⟨fun h => absurd (h item hitem).1 hfail, fun h => absurd (h item hitem) hfail⟩

end Orchard

namespace Sample

open Orchard

/-- An Orchard that decodes everything and accepts every proof and signature. -/
def orchard : Orchard (Bytes 32) (Bytes 32) ℤ (List UInt8) where
  flagsFromByte byte := if byte &&& ~~~0b11 = 0 then some (.bits byte) else none
  anchorFromBytes := some
  nullifierFromBytes := some
  cmxFromBytes := some
  valueCommitmentFromBytes _ := some 1
  rkFromBytes := some
  rkIsIdentity _ := false
  pointFromBytes _ := some 1
  instanceFromParts anchor cv_net nf_old rk cmx flags :=
    some { anchor, cv_net, nf_old, rk, cmx, flags }
  expectedProofSize n_actions := 2720 + 2272 * n_actions
  commit _ := 0
  proofValid _ _ := true
  bindingValid _ _ _ := true
  spendAuthValid _ _ _ := true

theorem orchard_spec : orchard.Spec := ⟨fun _ => rfl, fun _ _ _ _ _ _ => rfl⟩

/-- A bundle of one action with a proof of the right size, with or without an anchor block. -/
def proven (flags : UInt8) (anchor_block : Option (Bytes 32)) : ShieldedBundle :=
  { bundle with flags, burn := none, anchor_block, proof := replicate 4992 0 }

theorem proven_sound (flags : UInt8) (anchor_block : Option (Bytes 32)) :
    orchard.Sound (proven flags anchor_block) [] (.replicate 32 1)
      [⟨.replicate 32 0, .replicate 32 0, 1, .replicate 32 0⟩] where
  nonempty := cons_ne_nil _ _
  anchor := rfl
  actions := .cons ⟨rfl, rfl, rfl, rfl, rfl, 1, rfl, one_ne_zero⟩ .nil
  proof_len := length_replicate
  proof := rfl
  binding := rfl
  spends := .cons rfl .nil

theorem proven_decoded {flags : UInt8} {anchor_block : Option (Bytes 32)}
    (hburn : flags &&& BUNDLE_FLAG_BURN = 0)
    (hblock : AnchorBlockCanonical true flags anchor_block) :
    ShieldedBundle.fromBytes (proven flags anchor_block).toBytes =
      .ok (proven flags anchor_block) := by
  have hproof : (proven flags anchor_block).proof.length < 2 ^ 32 := by
    rw [proven, length_replicate]
    norm_num
  have hnone : BurnCanonical flags none :=
    ⟨iff_of_false Bool.false_ne_true fun h => h hburn, fun _ h => nomatch h⟩
  exact ShieldedBundle.decode_eq_ok.mpr ⟨⟨show 1 ≤ 512 by decide, hproof, hnone, hblock⟩, rfl⟩

/-- A bundle that names its anchor block passes alone and is refused in a batch. -/
theorem batched_refuses_anchor_block :
    ShieldedBundle.fromBytes (proven 0b1011 (some (.replicate 32 4))).toBytes =
        .ok (proven 0b1011 (some (.replicate 32 4))) ∧
      orchard.verifyBundle (proven 0b1011 (some (.replicate 32 4))) [] = .ok () ∧
      orchard.verifyBundlesBatched [(proven 0b1011 (some (.replicate 32 4)), [])] =
        .error (.err .NonCanonicalFlags) := by
  have hblock : AnchorBlockCanonical true 0b1011 (some (.replicate 32 4)) :=
    iff_of_true rfl ⟨rfl, by decide⟩
  refine ⟨proven_decoded (by decide) hblock, ?_, rfl⟩
  exact (orchard.verifyBundle_eq_ok orchard_spec).mpr ⟨by decide, _, _, proven_sound _ _⟩

/-- Without an anchor block the two verifiers agree on the bundle. -/
theorem batched_agrees_plain : orchard.verifyBundlesBatched [(proven 0b11 none, [])] = .ok () ↔
      ∀ item ∈ [(proven 0b11 none, ([] : List UInt8))],
        orchard.verifyBundle item.1 item.2 = .ok () := by
  have hblock : AnchorBlockCanonical true 0b11 none :=
    iff_of_false Bool.false_ne_true fun h => absurd h.2 (by decide)
  refine (orchard.batched_agrees_iff orchard_spec fun item hitem => ?_).mpr
    (.inl fun item hitem => ?_)
  · obtain rfl := mem_singleton.mp hitem
    exact ⟨_, proven_decoded (by decide) hblock⟩
  · obtain rfl := mem_singleton.mp hitem
    rfl

end Sample

end Zkas.Wire
