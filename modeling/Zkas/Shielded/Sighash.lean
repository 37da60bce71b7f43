import Zkas.Shielded.Wire
import Zkas.Pow.Transaction

/-!
# The signed digest

Model of `sighash` in `shielded-core/src/verify.rs` and of `Transaction::shielded_sighash_context`:
the message that the signatures of a bundle are made for. The preimage has no tags. A burn
declaration and an anchor block are hashed only when present, and what tells whether they are is the
flags byte. `blake2b` is any hash of a personalization and a byte string. The digest leaves out the
proof and the signatures; `unsigned` blanks them. -/

namespace Zkas.Wire

open Framing Reader

/-- The personalization `zkas_tx_sighash0`. -/
def SIGHASH_PERSONALIZATION : List UInt8 :=
  [0x7a, 0x6b, 0x61, 0x73, 0x5f, 0x74, 0x78, 0x5f, 0x73, 0x69, 0x67, 0x68, 0x61, 0x73, 0x68, 0x30]

/-- The fields of an action that are signed. -/
def ActionWire.signedBytes (a : ActionWire) : List UInt8 :=
  a.nullifier.toList ++ (a.rk.toList ++ (a.cmx.toList ++ (a.cv_net.toList ++
    (a.ephemeral_key.toList ++ (a.enc_ciphertext.toList ++ a.out_ciphertext.toList)))))

/-- A burn declaration as it is signed, if there is one. -/
def signedBurnBytes (burn : Option (BitVec 64 × Bytes 32)) : List UInt8 :=
  burn.elim [] fun (value, recipient) => wordBytes value ++ recipient.toList

/-- A length as it is signed, truncated to 32 bits as the source's cast does. -/
def signedLen (n : ℕ) : List UInt8 := wordBytes (BitVec.ofNat 32 n)

/-- What is hashed for a bundle on a network in a transaction context. -/
def sighashPreimage (bundle : ShieldedBundle) (network_domain : Bytes 32)
    (tx_context : List UInt8) : List UInt8 :=
  network_domain.toList ++ ([bundle.flags] ++ (wordBytes bundle.value_balance ++
    (bundle.anchor.toList ++ (signedLen bundle.actions.length ++
      (bundle.actions.flatMap ActionWire.signedBytes ++ (signedBurnBytes bundle.burn ++
        (anchorBlockBytes bundle.anchor_block ++ (signedLen tx_context.length ++ tx_context))))))))

variable {D : Type} (blake2b : List UInt8 → List UInt8 → D)

/-- The message the signatures of a bundle commit to. -/
def sighash (bundle : ShieldedBundle) (network_domain : Bytes 32) (tx_context : List UInt8) : D :=
  blake2b SIGHASH_PERSONALIZATION (sighashPreimage bundle network_domain tx_context)

/-- The flag rule of the verifier: no bits but Orchard's two and the one of the anchor block, which
is set exactly when an anchor block is there. -/
def ShieldedBundle.canonicalFlags (bundle : ShieldedBundle) : Bool :=
  !(bundle.flags &&& ~~~(0b11 ||| BUNDLE_FLAG_ANCHOR_BLOCK) != 0 ||
    (bundle.flags &&& BUNDLE_FLAG_ANCHOR_BLOCK != 0) != bundle.anchor_block.isSome)

/-! ## The transaction that carries a bundle -/

/-- The version of shielded transactions. -/
def TX_VERSION_SHIELDED : BitVec 16 := 2

/-- The subnetwork of coinbase transactions. -/
def SUBNETWORK_ID_COINBASE : Bytes 20 := 1 ::ᵥ List.Vector.replicate 19 0

end Zkas.Wire

namespace Zkas.Pow.Transaction

open Framing Wire

variable (tx : Transaction)

/-- Whether a transaction is a coinbase. -/
def isCoinbase : Bool := tx.subnetwork_id == SUBNETWORK_ID_COINBASE

/-- Whether a transaction carries a bundle. -/
def isShielded : Bool := tx.version == TX_VERSION_SHIELDED && !tx.isCoinbase

/-- The fields of a transaction that the signatures of its bundle commit to. -/
def shieldedSighashContext : List UInt8 :=
  wordBytes tx.version ++ (tx.subnetwork_id.toList ++ (wordBytes tx.lock_time ++ wordBytes tx.gas))

/-- Why a transaction is refused. -/
inductive TxRuleError where
  | InvalidShieldedTransaction (reason : String)
  deriving DecidableEq, Repr

/-- Context-free validity of a shielded transaction. -/
def checkShieldedInIsolation : Except TxRuleError Unit :=
  if !tx.isShielded then .ok ()
  else if !tx.inputs.val.isEmpty then
    .error (.InvalidShieldedTransaction "shielded transaction must have no transparent inputs")
  else if !tx.outputs.val.isEmpty then
    .error (.InvalidShieldedTransaction "shielded transaction must have no transparent outputs")
  else
    match (ShieldedBundle.fromBytesAt tx.payload.val true).toOption <|>
        (ShieldedBundle.fromBytesAt tx.payload.val false).toOption with
    | none => .error (.InvalidShieldedTransaction "malformed Orchard bundle in payload")
    | some bundle =>
      if bundle.actions.isEmpty then
        .error (.InvalidShieldedTransaction "shielded bundle has no actions")
      else if bundle.actions.length > MAX_ACTIONS_PER_BUNDLE then
        .error (.InvalidShieldedTransaction "shielded bundle exceeds the maximum number of actions")
      else if bundle.burn.isSome && !BRIDGE_ENABLED then
        .error (.InvalidShieldedTransaction "bridge peg-out is disabled")
      else match bundle.burn with
        | some (burn_value, _) =>
          if bundle.value_balance.toInt < burn_value.toNat then
            .error (.InvalidShieldedTransaction "declared burn exceeds the bundle's value balance")
          else .ok ()
        | none => .ok ()

theorem transparent_empty {tx : Transaction} (hshielded : tx.isShielded = true)
    (h : checkShieldedInIsolation tx = .ok ()) : tx.inputs.val = [] ∧ tx.outputs.val = [] := by
  unfold checkShieldedInIsolation at h
  rw [hshielded] at h
  split_ifs at h with hnot hin hout
  · exact absurd hnot (by decide)
  · simp only [Bool.not_eq_true', Bool.not_eq_false, List.isEmpty_iff] at hin hout
    exact ⟨hin, hout⟩

theorem shieldedSighashContext_inj {tx tx' : Transaction}
    (h : tx.shieldedSighashContext = tx'.shieldedSighashContext) :
    tx.version = tx'.version ∧ tx.subnetwork_id = tx'.subnetwork_id ∧
      tx.lock_time = tx'.lock_time ∧ tx.gas = tx'.gas := by
  obtain ⟨hversion, h⟩ := SelfDelimiting.word h
  obtain ⟨hsubnetwork, h⟩ := SelfDelimiting.vector h
  obtain ⟨hlock, hgas⟩ := SelfDelimiting.word h
  exact ⟨wordBytes_inj (by norm_num) hversion, Subtype.ext hsubnetwork,
    wordBytes_inj (by norm_num) hlock, wordBytes_inj (by norm_num) hgas⟩

end Zkas.Pow.Transaction

namespace Zkas.Wire

open Framing Reader

/-! ## What the digest leaves out -/

/-- An action without its signature. -/
def ActionWire.unsigned (a : ActionWire) : ActionWire :=
  { a with spend_auth_sig := .replicate 64 0 }

namespace ShieldedBundle

variable (b : ShieldedBundle)

/-- A bundle without its proof and signatures. -/
def unsigned : ShieldedBundle :=
  { b with
    actions := b.actions.map ActionWire.unsigned
    proof := []
    binding_sig := .replicate 64 0 }

/-- The bundle as the state transition reads it. -/
def parsed : Zkas.ShieldedBundle (Bytes 32) where
  actions := b.actions.map fun a => { nullifier := a.nullifier, cmx := a.cmx }
  value_balance := b.value_balance
  anchor := b.anchor
  burn := b.burn
  anchor_block := b.anchor_block

theorem parsed_unsigned : b.unsigned.parsed = b.parsed := by
  simp only [parsed, unsigned, List.map_map]
  rfl

/-- A bundle that some payload decodes to and that passes the verifier's flag rule. -/
structure Admissible : Prop where
  decoded : ∃ s format, fromBytesAt s format = .ok b
  flags : b.canonicalFlags = true

namespace Admissible

variable {b : ShieldedBundle}

theorem flag_rule (h : b.Admissible) : b.flags &&& ~~~(0b11 ||| BUNDLE_FLAG_ANCHOR_BLOCK) = 0 ∧
      (b.flags &&& BUNDLE_FLAG_ANCHOR_BLOCK != 0) = b.anchor_block.isSome := by
  have hflags := h.flags
  unfold canonicalFlags at hflags
  simpa only [Bool.not_eq_true', Bool.or_eq_false_iff, bne_eq_false_iff_eq] using hflags

theorem actions_le (h : b.Admissible) : b.actions.length ≤ MAX_ACTIONS_PER_BUNDLE := by
  obtain ⟨s, format, hok⟩ := h.decoded
  exact (decode_eq_ok.mp hok).1.actions_le

theorem burn_eq_none (h : b.Admissible) : b.burn = none := by
  obtain ⟨s, format, hok⟩ := h.decoded
  have hburn := (decode_eq_ok.mp hok).1.burn.1
  -- Bit 2 is one of those the flag rule refuses.
  have hmask : BUNDLE_FLAG_BURN = ~~~(0b11 ||| BUNDLE_FLAG_ANCHOR_BLOCK) &&& BUNDLE_FLAG_BURN := by
    decide
  have hclear : b.flags &&& BUNDLE_FLAG_BURN = 0 := by
    rw [hmask, ← UInt8.and_assoc, h.flag_rule.1, UInt8.zero_and]
  rw [hclear, ne_self_iff_false, iff_false, Option.not_isSome_iff_eq_none] at hburn
  exact hburn

end Admissible

end ShieldedBundle

/-! ## The preimage is read back -/

theorem ActionWire.length_signedBytes (a : ActionWire) : a.signedBytes.length = 820 := by
  simp only [signedBytes, List.length_append, List.Vector.toList_length]

theorem ActionWire.signedBytes_inj {a a' : ActionWire} (h : a.signedBytes = a'.signedBytes) :
    a.unsigned = a'.unsigned := by
  obtain ⟨hnullifier, h⟩ := SelfDelimiting.vector h
  obtain ⟨hrk, h⟩ := SelfDelimiting.vector h
  obtain ⟨hcmx, h⟩ := SelfDelimiting.vector h
  obtain ⟨hcv, h⟩ := SelfDelimiting.vector h
  obtain ⟨hepk, h⟩ := SelfDelimiting.vector h
  obtain ⟨henc, hout⟩ := SelfDelimiting.vector h
  simp only [unsigned, mk.injEq, and_true]
  exact ⟨Subtype.ext hnullifier, Subtype.ext hrk, Subtype.ext hcmx, Subtype.ext hcv,
    Subtype.ext hepk, Subtype.ext henc, Subtype.ext hout⟩

theorem map_unsigned_of_signedBytes {as as' : List ActionWire}
    (h : as.map ActionWire.signedBytes = as'.map ActionWire.signedBytes) :
    as.map ActionWire.unsigned = as'.map ActionWire.unsigned := by
  induction as generalizing as' with
  | nil =>
    obtain rfl := List.map_eq_nil_iff.mp h.symm
    rfl
  | cons a as ih =>
    obtain ⟨a', as', rfl, ha, has⟩ := List.map_eq_cons_iff.mp h.symm
    rw [List.map_cons, List.map_cons, ActionWire.signedBytes_inj ha.symm, ih has.symm]

/-- Anchor blocks that are there together are determined, and so is what follows them. -/
theorem anchorBlockBytes_append_inj {o o' : Option (Bytes 32)} {r r' : List UInt8}
    (hsome : o.isSome = o'.isSome) (h : anchorBlockBytes o ++ r = anchorBlockBytes o' ++ r') :
    o = o' ∧ r = r' := by
  rcases o with _ | block <;> rcases o' with _ | block'
  · exact ⟨rfl, h⟩
  · exact absurd hsome Bool.false_ne_true
  · exact absurd hsome Bool.true_eq_false_eq_False.elim
  · obtain ⟨hblock, hrest⟩ := SelfDelimiting.vector h
    exact ⟨congrArg some (Subtype.ext hblock), hrest⟩

/-- The preimage determines the network, the context, and the bundle but for its proof and
signatures. -/
theorem sighashPreimage_inj {b b' : ShieldedBundle} (hb : b.Admissible) (hb' : b'.Admissible)
    {d d' : Bytes 32} {c c' : List UInt8} (h : sighashPreimage b d c = sighashPreimage b' d' c') :
    d = d' ∧ c = c' ∧ b.unsigned = b'.unsigned := by
  unfold sighashPreimage at h
  rw [hb.burn_eq_none, hb'.burn_eq_none] at h
  -- The fields of fixed width, one after the other.
  obtain ⟨hdomain, h⟩ := SelfDelimiting.vector h
  obtain ⟨hflags, h⟩ := List.cons.inj h
  obtain ⟨hbalance, h⟩ := SelfDelimiting.word h
  obtain ⟨hanchor, h⟩ := SelfDelimiting.vector h
  obtain ⟨hcount, h⟩ := SelfDelimiting.word h
  -- The number of actions fits its word, so the two lists have one length.
  have hlen : b.actions.length = b'.actions.length := by
    have hword := congrArg BitVec.toNat (wordBytes_inj (by norm_num) hcount)
    have hbound : MAX_ACTIONS_PER_BUNDLE < 2 ^ 32 := by decide
    rwa [toNat_ofNat_len (lt_of_le_of_lt hb.actions_le hbound),
      toNat_ofNat_len (lt_of_le_of_lt hb'.actions_le hbound)] at hword
  obtain ⟨hactions, h⟩ := (SelfDelimiting.of_length ActionWire.length_signedBytes).flatMap hlen h
  -- The flags say on both sides alike whether an anchor block comes next.
  have hsome : b.anchor_block.isSome = b'.anchor_block.isSome := by
    rw [← hb.flag_rule.2, ← hb'.flag_rule.2, hflags]
  obtain ⟨hblock, h⟩ := anchorBlockBytes_append_inj hsome h
  obtain ⟨-, hcontext⟩ := SelfDelimiting.word h
  refine ⟨Subtype.ext hdomain, hcontext, ?_⟩
  have hunsigned := map_unsigned_of_signedBytes hactions
  have hvalue := wordBytes_inj (by norm_num) hbalance
  simp only [ShieldedBundle.unsigned, ShieldedBundle.mk.injEq]
  exact ⟨hunsigned, hflags, hvalue, Subtype.ext hanchor, trivial, trivial,
    hb.burn_eq_none.trans hb'.burn_eq_none.symm, hblock⟩

/-- A digest signed in a bundle of a transaction. -/
structure SignedBy (tx : Pow.Transaction) (bundle : ShieldedBundle) : Prop where
  shielded : tx.isShielded = true
  isolated : tx.checkShieldedInIsolation = .ok ()
  decoded : ∃ format, ShieldedBundle.fromBytesAt tx.payload.val format = .ok bundle
  flags : bundle.canonicalFlags = true

variable {D : Type} (blake2b : List UInt8 → List UInt8 → D)

/-- The signed digest determines what was signed: the network, the context, and the bundle but for
its proof and signatures. In the context of a transaction it determines the transaction's version,
subnetwork, lock time and gas, and what the transaction does: it has no transparent side, and its
bundle makes the same state transition. The hash is only asked not to collide on the two inputs. -/
theorem sighash_determines : (∀ {b b' : ShieldedBundle} {d d' : Bytes 32} {c c' : List UInt8},
      b.Admissible → b'.Admissible →
      Set.InjOn (blake2b SIGHASH_PERSONALIZATION)
        {sighashPreimage b d c, sighashPreimage b' d' c'} →
      sighash blake2b b d c = sighash blake2b b' d' c' →
      d = d' ∧ c = c' ∧ b.unsigned = b'.unsigned) ∧
    ∀ {tx tx' : Pow.Transaction} {b b' : ShieldedBundle} {d d' : Bytes 32},
      SignedBy tx b → SignedBy tx' b' →
      Set.InjOn (blake2b SIGHASH_PERSONALIZATION) {sighashPreimage b d tx.shieldedSighashContext,
          sighashPreimage b' d' tx'.shieldedSighashContext} →
      sighash blake2b b d tx.shieldedSighashContext =
        sighash blake2b b' d' tx'.shieldedSighashContext →
      d = d' ∧ tx.version = tx'.version ∧ tx.subnetwork_id = tx'.subnetwork_id ∧
        tx.lock_time = tx'.lock_time ∧ tx.gas = tx'.gas ∧
        tx.inputs = tx'.inputs ∧ tx.outputs = tx'.outputs ∧
        ∀ {N : Type} (T : NoteTree (Bytes 32) N),
          ShieldedTx.fromBundle T b.parsed = ShieldedTx.fromBundle T b'.parsed := by
  have hmain : ∀ {b b' : ShieldedBundle} {d d' : Bytes 32} {c c' : List UInt8},
      b.Admissible → b'.Admissible →
      Set.InjOn (blake2b SIGHASH_PERSONALIZATION)
        {sighashPreimage b d c, sighashPreimage b' d' c'} →
      sighash blake2b b d c = sighash blake2b b' d' c' →
      d = d' ∧ c = c' ∧ b.unsigned = b'.unsigned := by
    intro b b' d d' c c' hb hb' hinj heq
    have hpreimage := hinj (Set.mem_insert _ _) (Set.mem_insert_of_mem _ rfl) heq
    exact sighashPreimage_inj hb hb' hpreimage
  refine ⟨hmain, ?_⟩
  intro tx tx' b b' d d' htx htx' hinj heq
  have hb : b.Admissible := ⟨⟨_, htx.decoded⟩, htx.flags⟩
  have hb' : b'.Admissible := ⟨⟨_, htx'.decoded⟩, htx'.flags⟩
  obtain ⟨hdomain, hcontext, hunsigned⟩ := hmain hb hb' hinj heq
  obtain ⟨hversion, hsubnetwork, hlock, hgas⟩ := Pow.Transaction.shieldedSighashContext_inj hcontext
  obtain ⟨hin, hout⟩ := Pow.Transaction.transparent_empty htx.shielded htx.isolated
  obtain ⟨hin', hout'⟩ := Pow.Transaction.transparent_empty htx'.shielded htx'.isolated
  refine ⟨hdomain, hversion, hsubnetwork, hlock, hgas, Subtype.ext (hin.trans hin'.symm),
    Subtype.ext (hout.trans hout'.symm), fun T => ?_⟩
  have hparsed : b.parsed = b'.parsed := by rw [← b.parsed_unsigned, hunsigned, b'.parsed_unsigned]
  rw [hparsed]

namespace Sample

/-- A bundle of one action that names its anchor block, with a given binding signature. -/
def anchored (binding_sig : Bytes 64) : ShieldedBundle :=
  { bundle with flags := 0b1011, burn := none, binding_sig }

variable (sig : Bytes 64)

theorem anchored_canonical : (anchored sig).Canonical true where
  actions_le := show 1 ≤ 512 by decide
  proof_lt := show 3 < 2 ^ 32 by decide
  burn := ⟨show false = true ↔ (0b1011 : UInt8) &&& 0b100 ≠ 0 by decide, fun _ h => nomatch h⟩
  anchor_block := show true = true ↔ true = true ∧ (0b1011 : UInt8) &&& 0b1000 ≠ 0 by decide

theorem anchored_decoded :
    ShieldedBundle.fromBytesAt (anchored sig).toBytes true = .ok (anchored sig) :=
  ShieldedBundle.decode_eq_ok.mpr ⟨anchored_canonical sig, rfl⟩

theorem anchored_flags : (anchored sig).canonicalFlags = true :=
  show (!((0b1011 : UInt8) &&& ~~~(0b11 ||| 0b1000) != 0 ||
    ((0b1011 : UInt8) &&& 0b1000 != 0) != true)) = true by decide

/-- A transaction that carries the bundle. -/
def anchoredTx : Pow.Transaction where
  version := TX_VERSION_SHIELDED
  inputs := Vec.empty
  outputs := Vec.empty
  lock_time := 0
  subnetwork_id := .replicate 20 0
  gas := 0
  payload := ⟨(anchored sig).toBytes, (anchored_canonical sig).length_toBytes_lt⟩
  storage_mass := 0

theorem anchoredTx_signedBy : SignedBy (anchoredTx sig) (anchored sig) where
  shielded := rfl
  isolated := by
    have hdecoded : ShieldedBundle.fromBytesAt (anchoredTx sig).payload.val true =
        .ok (anchored sig) := anchored_decoded sig
    unfold Pow.Transaction.checkShieldedInIsolation
    rw [hdecoded]
    rfl
  decoded := ⟨true, anchored_decoded sig⟩
  flags := anchored_flags sig

/-- Two transactions with one digest, under a hash without collisions, differ in a signature but do
the same. -/
theorem sighash_determines_anchored :
    (anchored (.replicate 64 0)).unsigned = (anchored (.replicate 64 1)).unsigned ∧
      (anchoredTx (.replicate 64 0)).gas = (anchoredTx (.replicate 64 1)).gas ∧
      ∀ {N : Type} (T : NoteTree (Bytes 32) N),
        ShieldedTx.fromBundle T (anchored (.replicate 64 0)).parsed =
          ShieldedTx.fromBundle T (anchored (.replicate 64 1)).parsed := by
  have hadmissible (sig : Bytes 64) : (anchored sig).Admissible :=
    ⟨⟨_, true, anchored_decoded sig⟩, anchored_flags sig⟩
  -- The digests leave the binding signature out.
  have hdigest (c : List UInt8) : sighash (fun _ p => p) (anchored (.replicate 64 0))
      (.replicate 32 0) c = sighash (fun _ p => p) (anchored (.replicate 64 1))
      (.replicate 32 0) c :=
    rfl
  have hbundle := (sighash_determines fun _ p => p).1 (hadmissible (.replicate 64 0))
    (hadmissible (.replicate 64 1)) Function.injective_id.injOn (hdigest [])
  have htx := (sighash_determines fun _ p => p).2 (anchoredTx_signedBy (.replicate 64 0))
    (anchoredTx_signedBy (.replicate 64 1)) Function.injective_id.injOn (hdigest _)
  exact ⟨hbundle.2.2, htx.2.2.2.2.1, htx.2.2.2.2.2.2.2⟩

end Sample

end Zkas.Wire
