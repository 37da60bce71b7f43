import Zkas.Consensus.Coinbase
import Zkas.Shielded.Verify
import Zkas.Utxo.Diff

/-!
# Verified bundles are remembered

Model of `consensus/src/processes/transaction_validator/tx_validation_in_utxo_context.rs`: the
checks of a transaction in the context of the outputs it spends, the last of which is the
verification of its bundle, answered from a cache of transaction ids when the transaction was
verified before.

A bundle is decoded in the format of the block that carries it, and the cache does not keep that
format. A hit is still as good as a verification: the two decoders agree on a payload without the
bit of the anchor block and never both accept one with it, the verifier refuses a bundle whose bit
and field disagree, and the stage that reads the fee has by then refused a bundle of the other
format. Masses, covenants, scripts and the feerate are given by `Context`. -/

namespace Zkas.TxValidation

open Wire Word List Except Wire.ShieldedBundle Function
open Utxo (VerifiableTransaction)

/-- `TxRuleError`, as far as the checks below return it; `S` and `C` are the errors of scripts and
of covenants. -/
inductive TxRuleError (S C : Type) where
  | InvalidShieldedTransaction (reason : String)
  | InvalidShieldedBundle (reason : String)
  | InvalidShieldedProof (reason : String)
  | ImmatureCoinbaseSpend (index : ℕ) (outpoint : Pow.TransactionOutpoint)
      (block_daa_score pov_daa_score coinbase_maturity : U64)
  | InputAmountOverflow
  | InputAmountTooHigh
  | SpendTooHigh (total_out total_in : U64)
  | SequenceLockConditionsAreNotMet
  | SignatureInvalid (e : S)
  | SignatureEmpty (e : S)
  | MassIncomputable
  | WrongMass (calculated committed : U64)
  | FeerateTooLow
  | CovenantsError (e : C)
  deriving DecidableEq

/-- How much of a transaction is checked. -/
inductive TxValidationFlags where
  | Full
  | SkipScriptChecks
  | SkipMassCheck
  deriving DecidableEq, Repr

/-- What the validator uses of the rest of the node: `X` covenant contexts, `A` accessors of
sequence commitments, `R` floating-point rates. -/
structure Context (S C X A R : Type) where
  /-- The storage mass of `calc_contextual_masses`. -/
  storageMass : VerifiableTransaction → Option U64
  /-- `CovenantsContext::from_tx`. -/
  covenants : VerifiableTransaction → Except C X
  noCovenants : X
  /-- The script engine on the input of a number, with covenants enabled or not. -/
  execute : VerifiableTransaction → ℕ → X → Bool → Option A → Except S Unit
  /-- Whether a fee over a mass is at most a rate. -/
  feerateLe : U64 → U64 → R → Bool

/-- The validator. The feature `shielded-circuit` of the build is a field, and so is the id of a
transaction. -/
structure TransactionValidator (F K V D S C X A R : Type) where
  coinbase_maturity : U64
  shielded_network_domain : Bytes 32
  security_fork_activation : ForkActivation
  toccata_activation : ForkActivation
  shielded_circuit : Bool
  id : Pow.Transaction → Pow.Hash
  blake2b : List UInt8 → List UInt8 → D
  orchard : Orchard F K V D
  context : Context S C X A R

/-- The largest amount. -/
def MAX_SOMPI : U64 := 29000000000 * 100000000

/-- The bits of a sequence number that are a relative lock. -/
def SEQUENCE_LOCK_TIME_MASK : U64 := 0xffffffff

/-- The bit of a sequence number that switches the lock off. -/
def SEQUENCE_LOCK_TIME_DISABLED : U64 := 1 <<< 63

/-- The text of a verification error. -/
def debugError : BundleVerifyError → String
  | .NoActions => "NoActions"
  | .NonCanonicalField field => "NonCanonicalField(\"" ++ field ++ "\")"
  | .IdentityRk => "IdentityRk"
  | .IdentityEpk => "IdentityEpk"
  | .NonCanonicalFlags => "NonCanonicalFlags"
  | .BadProofLength expected got =>
    "BadProofLength \x7b expected: " ++ toString expected ++ ", got: " ++ toString got ++ " \x7d"
  | .ProofInvalid => "ProofInvalid"
  | .BindingSigInvalid => "BindingSigInvalid"
  | .SpendAuthSigInvalid i => "SpendAuthSigInvalid(" ++ toString i ++ ")"

section

variable {S C : Type}

/-- A refusal of the validator. -/
abbrev TxResult (S C α : Type) := Except (Fault (TxRuleError S C)) α

/-- The error of a transaction whose bundle fails verification. -/
def bundleError (e : BundleVerifyError) : TxRuleError S C :=
  match e with
  | .ProofInvalid | .BindingSigInvalid | .SpendAuthSigInvalid _ =>
    .InvalidShieldedProof (debugError e)
  | other => .InvalidShieldedBundle (debugError other)

/-- The bundle of a payload in the format of a block. -/
def decodeBundle (tx : Pow.Transaction) (security_fork_active : Bool) :
    TxResult S C Wire.ShieldedBundle :=
  (fromBytesAt tx.payload.val security_fork_active).mapError fun _ =>
    .err (.InvalidShieldedTransaction "malformed Orchard bundle in payload")

/-- A sum under overflow checks. -/
def addOrPanic (a b : U64) : TxResult S C U64 := (checkedAdd a b).okOr .panic

/-- A signed sum under overflow checks. -/
def addSigned (a b : U64) : TxResult S C U64 :=
  if BitVec.saddOverflow a b then .error .panic else .ok (a + b)

/-- A signed difference under overflow checks. -/
def subSigned (a b : U64) : TxResult S C U64 :=
  if BitVec.ssubOverflow a b then .error .panic else .ok (a - b)

/-- No input spends a coinbase output that is too young. -/
def checkCoinbaseMaturity (coinbase_maturity pov_daa_score : U64) :
    ℕ → List (Pow.TransactionInput × Utxo.UtxoEntry) → TxResult S C Unit
  | _, [] => .ok ()
  | index, (input, entry) :: rest => do
    let immature ← (if entry.is_coinbase then do
        let mature_at ← addOrPanic entry.block_daa_score coinbase_maturity
        return decide (pov_daa_score.toNat < mature_at.toNat)
      else return false)
    if immature then
      throw (.err (.ImmatureCoinbaseSpend index input.previous_outpoint entry.block_daa_score
        pov_daa_score coinbase_maturity))
    else checkCoinbaseMaturity coinbase_maturity pov_daa_score (index + 1) rest

/-- An amount more on the inputs' total. -/
def addInputAmount (total : U64) (input : Pow.TransactionInput × Utxo.UtxoEntry) :
    TxResult S C U64 := do
  let new_total ← (checkedAdd total input.2.amount).okOr (.err .InputAmountOverflow)
  if MAX_SOMPI.toNat < new_total.toNat then throw (.err .InputAmountTooHigh)
  return new_total

variable (tx : VerifiableTransaction)

/-- The total of the inputs. -/
def checkTransactionInputAmounts : TxResult S C U64 := tx.populatedInputs.foldlM addInputAmount 0

/-- The total of the outputs, which the inputs cover. -/
def checkTransactionOutputValues (total_in : U64) :
    TxResult S C U64 := do
  let total_out ← tx.tx.outputs.val.foldlM (fun sum out => addOrPanic sum out.value) 0
  if total_in.toNat < total_out.toNat then throw (.err (.SpendTooHigh total_out total_in))
  return total_out

/-- From the security fork on a spend must name its anchor block; before it the field is not part of
the format. -/
def checkAnchorBlock (security_fork_active named : Bool) : TxResult S C Unit :=
  match security_fork_active, named with
  | true, false =>
    .error (.err (.InvalidShieldedTransaction
      "shielded spend must name its anchor block after the security fork"))
  | false, true =>
    .error (.err (.InvalidShieldedTransaction
      "anchor block field is not valid before the security fork"))
  | _, _ => .ok ()

/-- The fee of a bundle: its value balance. -/
def shieldedFee (tx : Pow.Transaction) (security_fork_active : Bool) : TxResult S C U64 := do
  let bundle ← decodeBundle tx security_fork_active
  if bundle.value_balance.toInt < 0 then
    throw (.err (.InvalidShieldedTransaction "shielded fee (value balance) must be non-negative"))
  checkAnchorBlock security_fork_active bundle.anchor_block.isSome
  return bundle.value_balance

/-- Whether the relative lock of an input is still closed. -/
def sequenceLocked (pov_daa_score : U64) (input : Pow.TransactionInput × Utxo.UtxoEntry) :
    TxResult S C Bool := do
  if input.1.sequence &&& SEQUENCE_LOCK_TIME_DISABLED = SEQUENCE_LOCK_TIME_DISABLED then
    return false
  let relative_lock := input.1.sequence &&& SEQUENCE_LOCK_TIME_MASK
  let lock ← addSigned input.2.block_daa_score relative_lock
  let lock_daa_score ← subSigned lock 1
  return pov_daa_score.toInt ≤ lock_daa_score.toInt

/-- No relative lock of an input is closed. -/
def checkSequenceLock (pov_daa_score : U64) : TxResult S C Unit := do
  let locked ← tx.populatedInputs.anyM (sequenceLocked pov_daa_score)
  if locked then throw (.err .SequenceLockConditionsAreNotMet)

end

/-! ## The validator -/

/-- The cache of verified transactions. -/
abbrev Cache := Pow.Hash → Option UInt8

/-- The empty cache. -/
def Cache.empty : Cache := fun _ => none

/-- An entry more. -/
def Cache.insert (cache : Cache) (id : Pow.Hash) (ok : UInt8) : Cache := update cache id (some ok)

/-- An entry less. -/
def Cache.evict (cache : Cache) (id : Pow.Hash) : Cache := update cache id none

namespace TransactionValidator

variable {F K V D S C X A R : Type} [AddCommGroup V] [DecidableEq V]
variable (v : TransactionValidator F K V D S C X A R)

/-- Whether the security fork is active in a block. -/
def securityForkActive (block_daa_score : U64) : Bool :=
  v.security_fork_activation.isActive block_daa_score

/-- Verify the bundle of a transaction; a build without the circuit refuses every one. -/
def verifyShieldedBundle (tx : Pow.Transaction) (security_fork_active : Bool) : TxResult S C Unit :=
  if v.shielded_circuit then do
    let bundle ← decodeBundle tx security_fork_active
    let sighash := sighash v.blake2b bundle v.shielded_network_domain tx.shieldedSighashContext
    (v.orchard.verifyBundle bundle sighash).mapError (.map bundleError)
  else
    .error (.err (.InvalidShieldedTransaction
      "node built without shielded-circuit: cannot verify shielded bundles"))

variable (cache : Cache)

/-- Verify the bundle of a transaction unless it was verified before. Only successes are kept. -/
def verifyShieldedBundleCached (tx : Pow.Transaction) (block_daa_score : U64) :
    TxResult S C Unit × Cache :=
  let id := v.id tx
  if cache id = some 1 then (.ok (), cache)
  else
    match v.verifyShieldedBundle tx (v.securityForkActive block_daa_score) with
    | .ok () => (.ok (), cache.insert id 1)
    | .error e => (.error e, cache)

/-- Verify a transaction offered outside any block. -/
def preverifyShieldedBundle (tx : Pow.Transaction) (daa_score : U64) : TxResult S C Unit × Cache :=
  v.verifyShieldedBundleCached cache tx daa_score

/-- The committed mass is the calculated one. -/
def checkMassCommitment (tx : VerifiableTransaction) : TxResult S C Unit := do
  let calculated ← (v.context.storageMass tx).okOr (.err .MassIncomputable)
  if tx.tx.storage_mass ≠ calculated then
    throw (.err (.WrongMass calculated tx.tx.storage_mass))

/-- The fee exceeds a given rate, if one is given. -/
def checkFeerateThreshold (fee : U64) (mass_and_feerate_threshold : Option (U64 × R)) :
    TxResult S C Unit :=
  match mass_and_feerate_threshold with
  | none => .ok ()
  | some (contextual_mass, feerate_threshold) =>
    if contextual_mass = 0 then .error .panic
    else if v.context.feerateLe fee contextual_mass feerate_threshold then
      .error (.err .FeerateTooLow)
    else .ok ()

/-- The covenants of a transaction, once they are active. -/
def checkCovenantInfo (tx : VerifiableTransaction) (block_daa_score : U64) : TxResult S C X :=
  if v.toccata_activation.isActive block_daa_score then
    (v.context.covenants tx).mapError fun e => .err (.CovenantsError e)
  else .ok v.context.noCovenants

/-- The scripts of the inputs, from a number on. -/
def checkScripts (tx : VerifiableTransaction) (covenants : X) (block_daa_score : U64)
    (accessor : Option A) : ℕ → List Pow.TransactionInput → TxResult S C Unit
  | _, [] => .ok ()
  | i, input :: rest => do
    (v.context.execute tx i covenants (v.toccata_activation.isActive block_daa_score)
      accessor).mapError fun e =>
        .err (if input.signature_script.val.isEmpty then .SignatureEmpty e else .SignatureInvalid e)
    checkScripts tx covenants block_daa_score accessor (i + 1) rest

/-- The arguments of a validation. -/
structure Request (A R : Type) where
  tx : VerifiableTransaction
  pov_daa_score : U64
  block_daa_score : U64
  flags : TxValidationFlags
  mass_and_feerate_threshold : Option (U64 × R)
  seq_commit_accessor : Option A

variable (req : Request A R)

/-- The fee of a transaction: what its bundle gives up, or what its inputs exceed its outputs by. -/
def transactionFee : TxResult S C U64 := do
  let total_in ← checkTransactionInputAmounts req.tx
  let total_out ← checkTransactionOutputValues req.tx total_in
  if req.tx.tx.isShielded then shieldedFee req.tx.tx (v.securityForkActive req.block_daa_score)
  else (checkedSub total_in total_out).okOr .panic

/-- Every check of a transaction but the one of its bundle, which comes last. -/
def checkInContext : TxResult S C U64 := do
  checkCoinbaseMaturity v.coinbase_maturity req.pov_daa_score 0 req.tx.populatedInputs
  let fee ← v.transactionFee req
  if req.flags ≠ .SkipMassCheck then v.checkMassCommitment req.tx
  checkSequenceLock req.tx req.pov_daa_score
  v.checkFeerateThreshold fee req.mass_and_feerate_threshold
  let covenants_ctx ← v.checkCovenantInfo req.tx req.block_daa_score
  if req.flags ≠ .SkipScriptChecks then
    v.checkScripts req.tx covenants_ctx req.block_daa_score req.seq_commit_accessor 0
      req.tx.tx.inputs.val
  return fee

/-- Validate a transaction and return its fee. -/
def validatePopulatedTransactionAndGetFee : TxResult S C U64 × Cache :=
  match v.checkInContext req with
  | .error e => (.error e, cache)
  | .ok fee =>
    if req.flags ≠ .SkipScriptChecks ∧ req.tx.tx.isShielded then
      let verified := v.verifyShieldedBundleCached cache req.tx.tx req.block_daa_score
      (verified.1.map fun _ => fee, verified.2)
    else (.ok fee, cache)

/-! ## One call of the node -/

/-- What happens to the cache: a validation, a verification outside any block, or the eviction of an
entry. -/
inductive Call (A R : Type) where
  | validate (req : Request A R)
  | preverify (tx : Pow.Transaction) (daa_score : U64)
  | evict (id : Pow.Hash)

/-- The transaction of a call. -/
def Call.tx : Call A R → Option Pow.Transaction
  | .validate req => some req.tx.tx
  | .preverify tx _ => some tx
  | .evict _ => none

/-- The cache after a call. -/
def step : Call A R → Cache
  | .validate req => (v.validatePopulatedTransactionAndGetFee cache req).2
  | .preverify tx daa_score => (v.preverifyShieldedBundle cache tx daa_score).2
  | .evict id => cache.evict id

/-- The cache after a run from the empty one. -/
def run (calls : List (Call A R)) : Cache := calls.foldl v.step .empty

/-! ## A success holds in the format of the block -/

variable {tx : Pow.Transaction} {active : Bool} {fee : U64} {bundle : Wire.ShieldedBundle}

theorem decodeBundle_eq_ok : (decodeBundle tx active : TxResult S C _) = .ok bundle ↔
      decode tx.payload.val active = .ok bundle :=
  mapError_eq_ok

theorem checkAnchorBlock_eq_ok {named : Bool} :
    (checkAnchorBlock active named : TxResult S C Unit) = .ok () ↔ named = active := by
  cases active <;> cases named <;> simp [checkAnchorBlock]

/-- The fee stage passes a bundle of the block's format only: after the fork one that names its
anchor block, before it one that does not. -/
theorem exists_of_shieldedFee (h : (shieldedFee tx active : TxResult S C U64) = .ok fee) :
    ∃ bundle, decode tx.payload.val active = .ok bundle ∧ bundle.anchor_block.isSome = active := by
  obtain ⟨bundle, hdecode, hrest⟩ := bind_eq_ok_iff.mp h
  refine ⟨bundle, decodeBundle_eq_ok.mp hdecode, ?_⟩
  split_ifs at hrest
  · cases hrest
  · obtain ⟨_, hrule, -⟩ := bind_eq_ok_iff.mp hrest
    exact checkAnchorBlock_eq_ok.mp hrule

theorem verifyShieldedBundle_eq_ok : v.verifyShieldedBundle tx active = .ok () ↔
      v.shielded_circuit = true ∧ ∃ bundle, decode tx.payload.val active = .ok bundle ∧
          v.orchard.verifyBundle bundle (sighash v.blake2b bundle v.shielded_network_domain
            tx.shieldedSighashContext) = .ok () := by
  unfold verifyShieldedBundle
  split_ifs with hcircuit
  · simp only [bind_eq_ok_iff, decodeBundle_eq_ok, mapError_eq_ok, hcircuit, true_and]
  · simp [hcircuit]

theorem anchor_flag_of_verified {d : D} (h : v.orchard.verifyBundle bundle d = .ok ()) :
    (bundle.flags &&& BUNDLE_FLAG_ANCHOR_BLOCK != 0) = bundle.anchor_block.isSome := by
  have hflags := v.orchard.canonicalFlags_of_verifyBundle h
  unfold canonicalFlags at hflags
  simp only [Bool.not_eq_true', Bool.or_eq_false_iff, bne_eq_false_iff_eq] at hflags
  exact hflags.2

/-- A bundle that was verified in some format and passes the fee stage in another decodes alike in
both. -/
theorem decode_eq_of_verified {payload : List UInt8} {a b : Bool}
    {bundle' : Wire.ShieldedBundle} {d : D}
    (hdecode : decode payload a = .ok bundle)
    (hverified : v.orchard.verifyBundle bundle d = .ok ())
    (hfee : decode payload b = .ok bundle')
    (hblock : bundle'.anchor_block.isSome = b) : bundle' = bundle := by
  obtain ⟨hcanonical, rfl⟩ := decode_eq_ok.mp hdecode
  have hflag := v.anchor_flag_of_verified hverified
  -- With the bit clear the formats agree; with the bit set only the newer one accepts.
  by_cases hclear : bundle.flags &&& BUNDLE_FLAG_ANCHOR_BLOCK = 0
  · have hcongr := decode_congr (s := bundle.toBytes) fun flags hhead => by
      obtain rfl := Option.mem_unique bundle.head_toBytes hhead
      exact hclear
    have hformat (format : Bool) : decode bundle.toBytes format =
        decode bundle.toBytes false := by
      cases format with
      | false => rfl
      | true => exact hcongr
    rw [hformat b, ← hformat a, hdecode] at hfee
    exact (ok.inj hfee).symm
  · have hsome : bundle.anchor_block.isSome = true := by
      rw [← hflag, bne_iff_ne]
      exact hclear
    obtain ⟨rfl, -⟩ := hcanonical.anchor_block.mp hsome
    cases b with
    | true => exact ok.inj (hfee.symm.trans hdecode)
    | false =>
      refine (not_decode_both hdecode hfee fun flags hhead => ?_).elim
      obtain rfl := Option.mem_unique bundle.head_toBytes hhead
      exact hclear

/-- Two transactions with one id agree on what their bundles are verified against. -/
def SameId (tx tx' : Pow.Transaction) : Prop :=
  tx.version = tx'.version ∧ tx.subnetwork_id = tx'.subnetwork_id ∧
    tx.lock_time = tx'.lock_time ∧ tx.gas = tx'.gas ∧ tx.payload = tx'.payload

/-- A success in one format, of a transaction that passes the fee stage in another, is a success
there. -/
theorem verifyShieldedBundle_transfer {tx' : Pow.Transaction} {a b : Bool}
    (hsame : SameId tx tx') (hverified : v.verifyShieldedBundle tx a = .ok ())
    (hfee : (shieldedFee tx' b : TxResult S C U64) = .ok fee) :
    v.verifyShieldedBundle tx' b = .ok () := by
  obtain ⟨hversion, hsubnetwork, hlock, hgas, hpayload⟩ := hsame
  obtain ⟨hcircuit, bundle, hdecode, hok⟩ := v.verifyShieldedBundle_eq_ok.mp hverified
  obtain ⟨bundle', hdecode', hblock⟩ := exists_of_shieldedFee hfee
  have hctx : tx'.shieldedSighashContext = tx.shieldedSighashContext := by
    simp only [Pow.Transaction.shieldedSighashContext, hversion, hsubnetwork, hlock, hgas]
  obtain rfl := v.decode_eq_of_verified hdecode hok (hpayload ▸ hdecode') hblock
  exact v.verifyShieldedBundle_eq_ok.mpr ⟨hcircuit, bundle', hdecode', hctx ▸ hok⟩

/-! ## The cache over a run -/

/-- Every entry of the cache is a transaction of a set that was verified in some format. -/
def Justified (txs : Set Pow.Transaction) (cache : Cache) : Prop :=
  ∀ id, cache id = some 1 → ∃ tx ∈ txs, v.id tx = id ∧ ∃ a, v.verifyShieldedBundle tx a = .ok ()

theorem justified_empty (txs : Set Pow.Transaction) : v.Justified txs .empty := fun _ h => nomatch h

variable {v} {txs : Set Pow.Transaction} {cache : Cache}

theorem Justified.verify (h : v.Justified txs cache) (htx : tx ∈ txs)
    (daa_score : U64) : v.Justified txs (v.verifyShieldedBundleCached cache tx daa_score).2 := by
  unfold verifyShieldedBundleCached
  dsimp only
  split_ifs with hhit
  · exact h
  · split
    · rename_i hok
      intro id hid
      by_cases heq : id = v.id tx
      · exact ⟨tx, htx, heq.symm, _, hok⟩
      · have hold : cache id = some 1 := (update_of_ne heq _ _).symm.trans hid
        exact h id hold
    · exact h

theorem Justified.step (h : v.Justified txs cache) {call : Call A R}
    (htx : ∀ tx ∈ call.tx, tx ∈ txs) : v.Justified txs (v.step cache call) := by
  cases call with
  | validate req =>
    have hreq : req.tx.tx ∈ txs := htx _ rfl
    change v.Justified txs (v.validatePopulatedTransactionAndGetFee cache req).2
    unfold validatePopulatedTransactionAndGetFee
    split
    · exact h
    · split_ifs
      · exact h.verify hreq _
      · exact h
  | preverify tx daa_score => exact h.verify (htx _ rfl) _
  | evict id =>
    intro id' hid'
    change update cache id none id' = some 1 at hid'
    by_cases heq : id' = id
    · rw [heq, update_self] at hid'
      cases hid'
    · exact h id' ((update_of_ne heq _ _).symm.trans hid')

theorem justified_run {calls : List (Call A R)}
    (htxs : ∀ call ∈ calls, ∀ tx ∈ call.tx, tx ∈ txs) : v.Justified txs (v.run calls) := by
  have hfold (cs : List (Call A R)) (cache : Cache) (hcache : v.Justified txs cache)
      (hcs : ∀ call ∈ cs, ∀ tx ∈ call.tx, tx ∈ txs) : v.Justified txs (cs.foldl v.step cache) := by
    induction cs generalizing cache with
    | nil => exact hcache
    | cons call cs ih =>
      exact ih _ (hcache.step (hcs call mem_cons_self)) fun c hc => hcs c (mem_cons_of_mem _ hc)
  exact hfold calls .empty (v.justified_empty txs) htxs

omit [AddCommGroup V] [DecidableEq V] in
/-- A shielded transaction that passes the checks has passed the fee stage of its block. -/
theorem exists_shieldedFee {req : Request A R}
    (hshielded : req.tx.tx.isShielded = true) (h : v.checkInContext req = .ok fee) :
    ∃ fee', (shieldedFee req.tx.tx (v.securityForkActive req.block_daa_score) :
      TxResult S C U64) = .ok fee' := by
  unfold checkInContext at h
  obtain ⟨-, -, h⟩ := bind_eq_ok_iff.mp h
  obtain ⟨fee', hfee, -⟩ := bind_eq_ok_iff.mp h
  unfold transactionFee at hfee
  obtain ⟨total_in, -, hfee⟩ := bind_eq_ok_iff.mp hfee
  obtain ⟨total_out, -, hfee⟩ := bind_eq_ok_iff.mp hfee
  rw [if_pos hshielded] at hfee
  exact ⟨fee', hfee⟩

/-- A verification answered from a justified cache is the one without a cache, for a transaction
that has passed the fee stage. -/
theorem Justified.verify_eq (h : v.Justified txs cache) (htx : tx ∈ txs)
    (hid : ∀ tx₁ ∈ txs, ∀ tx₂ ∈ txs, v.id tx₁ = v.id tx₂ → SameId tx₁ tx₂) {daa_score : U64}
    (hfee : (shieldedFee tx (v.securityForkActive daa_score) : TxResult S C U64) = .ok fee) :
    (v.verifyShieldedBundleCached cache tx daa_score).1 =
      v.verifyShieldedBundle tx (v.securityForkActive daa_score) := by
  unfold verifyShieldedBundleCached
  dsimp only
  split_ifs with hhit
  · obtain ⟨tx', htx', heq, a, hverified⟩ := h _ hhit
    exact (v.verifyShieldedBundle_transfer (hid tx' htx' tx htx heq) hverified hfee).symm
  · split
    · rename_i hok
      exact hok.symm
    · rename_i e he
      exact he.symm

/-- The cache of verified bundles does not show. Over transactions whose ids tell them apart, a
validation after any run of validations, verifications outside a block and evictions returns what it
returns with an empty cache. -/
theorem validate_cache_transparent (v : TransactionValidator F K V D S C X A R)
    (calls : List (Call A R)) (req : Request A R)
    (hid : ∀ tx₁ ∈ (calls ++ [Call.validate req]).filterMap Call.tx,
      ∀ tx₂ ∈ (calls ++ [Call.validate req]).filterMap Call.tx, v.id tx₁ = v.id tx₂ →
        tx₁.version = tx₂.version ∧ tx₁.subnetwork_id = tx₂.subnetwork_id ∧
          tx₁.lock_time = tx₂.lock_time ∧ tx₁.gas = tx₂.gas ∧ tx₁.payload = tx₂.payload) :
    (v.validatePopulatedTransactionAndGetFee (v.run calls) req).1 =
      (v.validatePopulatedTransactionAndGetFee .empty req).1 := by
  let txs : Set Pow.Transaction := {tx | tx ∈ (calls ++ [Call.validate req]).filterMap Call.tx}
  have hcall (call : Call A R) (hcall : call ∈ calls ++ [.validate req]) (tx : Pow.Transaction)
      (htx : tx ∈ call.tx) : tx ∈ txs :=
    mem_filterMap.mpr ⟨call, hcall, htx⟩
  have hrun : v.Justified txs (v.run calls) :=
    justified_run fun call hmem => hcall call (mem_append_left _ hmem)
  have hreq : req.tx.tx ∈ txs :=
    hcall (.validate req) (mem_append_right _ (mem_singleton.mpr rfl)) _ rfl
  unfold validatePopulatedTransactionAndGetFee
  cases hcheck : v.checkInContext req with
  | error e => rfl
  | ok fee =>
    split_ifs with hverify
    · obtain ⟨fee', hfee⟩ := exists_shieldedFee hverify.2 hcheck
      -- Both answers are the one of the verifier.
      have hwith := hrun.verify_eq hreq hid hfee
      have hwithout := (v.justified_empty txs).verify_eq hreq hid hfee
      dsimp only
      rw [hwith, hwithout]
    · rfl

end TransactionValidator

namespace Sample

open Wire.Sample TransactionValidator

variable (anchored : Bool)

/-- The sample bundles: with an anchor block and its bit, or with neither. -/
def carried : Wire.ShieldedBundle :=
  if anchored then proven 0b1011 (some (.replicate 32 4)) else proven 0b11 none

theorem carried_decoded :
    decode (carried anchored).toBytes true = .ok (carried anchored) := by
  cases anchored with
  | false =>
    exact proven_decoded (by decide)
      (iff_of_false Bool.false_ne_true fun h => absurd h.2 (by decide))
  | true => exact proven_decoded (by decide) (iff_of_true rfl ⟨rfl, by decide⟩)

/-- A transaction that carries a sample bundle. -/
def carrier : Pow.Transaction :=
  { anchoredTx (.replicate 64 0) with
    payload := ⟨(carried anchored).toBytes,
      (decode_eq_ok.mp (carried_decoded anchored)).1.length_toBytes_lt⟩ }

/-- A validator that accepts everything it can; the fork activates at 10 and an id is made of the
flags of the bundle. -/
def validator :
    TransactionValidator (Bytes 32) (Bytes 32) ℤ (List UInt8) Unit Unit Unit Unit Unit where
  coinbase_maturity := 100
  shielded_network_domain := .replicate 32 0
  security_fork_activation := ⟨10⟩
  toccata_activation := ⟨0⟩
  shielded_circuit := true
  id tx := .replicate 32 (tx.payload.val.headD 0)
  blake2b _ _ := []
  orchard := orchard
  context :=
    { storageMass := fun _ => some 0
      covenants := fun _ => .ok ()
      noCovenants := ()
      execute := fun _ _ _ _ _ => .ok ()
      feerateLe := fun _ _ _ => false }

/-- A request to validate a carrier after the fork. -/
def request : Request Unit Unit where
  tx := ⟨carrier anchored, [], rfl⟩
  pov_daa_score := 10
  block_daa_score := 10
  flags := .Full
  mass_and_feerate_threshold := none
  seq_commit_accessor := none

/-- The plain carrier is verified before the fork and the anchored one after it. -/
def calls : List (Call Unit Unit) := [.preverify (carrier false) 0, .preverify (carrier true) 10]

theorem carrier_verified : validator.verifyShieldedBundle (carrier anchored) anchored = .ok () := by
  refine validator.verifyShieldedBundle_eq_ok.mpr ⟨rfl, carried anchored, ?_, ?_⟩
  · cases anchored with
    | false =>
      refine (decode_congr fun flags hhead => ?_).symm.trans (carried_decoded false)
      obtain rfl := Option.some.inj hhead
      decide
    | true => exact carried_decoded true
  · cases anchored with
    | false =>
      exact (orchard.verifyBundle_eq_ok orchard_spec).mpr ⟨by decide, _, _, proven_sound _ _⟩
    | true =>
      exact (orchard.verifyBundle_eq_ok orchard_spec).mpr ⟨by decide, _, _, proven_sound _ _⟩

theorem id_carrier_ne : validator.id (carrier false) ≠ validator.id (carrier true) := by
  intro h
  have hhead : (0b11 : UInt8) = 0b1011 := congrArg List.Vector.head h
  exact absurd hhead (by decide)

theorem run_calls :
    validator.run calls = (Cache.empty.insert (validator.id (carrier false)) 1).insert
      (validator.id (carrier true)) 1 := by
  have hbefore : validator.step .empty (.preverify (carrier false) 0) =
      Cache.empty.insert (validator.id (carrier false)) 1 := by
    change (validator.verifyShieldedBundleCached _ _ _).2 = _
    unfold verifyShieldedBundleCached
    have hactive : validator.securityForkActive 0 = false := by decide
    rw [hactive, carrier_verified false]
    rfl
  have hafter : validator.step (Cache.empty.insert (validator.id (carrier false)) 1)
      (.preverify (carrier true) 10) = (Cache.empty.insert (validator.id (carrier false)) 1).insert
          (validator.id (carrier true)) 1 := by
    change (validator.verifyShieldedBundleCached _ _ _).2 = _
    have hmiss : Cache.empty.insert (validator.id (carrier false)) 1 (validator.id (carrier true)) ≠
        some 1 := by
      exact fun h => nomatch h
    have hactive : validator.securityForkActive 10 = true := by decide
    unfold verifyShieldedBundleCached
    rw [hactive, carrier_verified true]
    rw [if_neg hmiss]
  rw [run, calls, foldl_cons, foldl_cons, foldl_nil, hbefore, hafter]

/-- Both bundles are in the cache, the plain one from before the fork. Validation after the fork
does not see either. -/
theorem validate_cache_transparent_carriers :
    validator.run calls (validator.id (carrier false)) = some 1 ∧
      validator.run calls (validator.id (carrier true)) = some 1 ∧
      ∀ anchored, (validator.validatePopulatedTransactionAndGetFee (validator.run calls)
          (request anchored)).1 =
        (validator.validatePopulatedTransactionAndGetFee .empty (request anchored)).1 := by
  refine ⟨?_, ?_, fun anchored => ?_⟩
  · rw [run_calls, Cache.insert, update_of_ne id_carrier_ne, Cache.insert, update_self]
  · rw [run_calls, Cache.insert, update_self]
  · refine validator.validate_cache_transparent calls (request anchored) fun tx₁ h₁ tx₂ h₂ heq => ?_
    have hcarrier (tx : Pow.Transaction)
        (htx : tx ∈ (calls ++ [Call.validate (request anchored)]).filterMap Call.tx) :
        ∃ b, tx = carrier b := by
      change tx ∈ [carrier false, carrier true, carrier anchored] at htx
      simp only [mem_cons, not_mem_nil, or_false] at htx
      obtain rfl | rfl | rfl := htx
      · exact ⟨_, rfl⟩
      · exact ⟨_, rfl⟩
      · exact ⟨_, rfl⟩
    obtain ⟨b₁, rfl⟩ := hcarrier tx₁ h₁
    obtain ⟨b₂, rfl⟩ := hcarrier tx₂ h₂
    -- The id is the flags byte, which tells the two bundles apart.
    have hb : b₁ = b₂ := by
      cases b₁ <;> cases b₂
      · rfl
      · exact absurd heq id_carrier_ne
      · exact absurd heq.symm id_carrier_ne
      · rfl
    rw [hb]
    exact ⟨rfl, rfl, rfl, rfl, rfl⟩

end Sample

end Zkas.TxValidation
