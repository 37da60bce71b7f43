import Zkas.Lib.Reader
import Zkas.Shielded.Bundle

/-!
# The bundle on the wire

Model of `shielded-core/src/bundle.rs`: the byte encoding of an Orchard bundle and its decoder. The
decoder exists in two formats. The one of the security fork reads a block hash at the end when bit 3
of the flags is set; the older one takes that bit for an unknown flag without a field. The two run
on the same byte strings in nodes of different versions, so it matters that they agree on a string
without the bit and never both accept a string with it. -/

namespace Zkas.Wire

open Framing Reader List BitVec

/-- A fixed number of bytes. -/
abbrev Bytes (n : ℕ) := List.Vector UInt8 n

/-- The consensus bound on the number of actions of a bundle. -/
def MAX_ACTIONS_PER_BUNDLE : ℕ := 512

/-- The flag bit of a bridge burn declaration. -/
def BUNDLE_FLAG_BURN : UInt8 := 0b100

/-- The flag bit of a named anchor block. -/
def BUNDLE_FLAG_ANCHOR_BLOCK : UInt8 := 0b1000

/-- An Orchard action as it appears on the wire. -/
structure ActionWire where
  nullifier : Bytes 32
  rk : Bytes 32
  cmx : Bytes 32
  cv_net : Bytes 32
  ephemeral_key : Bytes 32
  enc_ciphertext : Bytes 580
  out_ciphertext : Bytes 80
  spend_auth_sig : Bytes 64
  deriving DecidableEq

/-- An Orchard bundle as carried in the payload of a shielded transaction. -/
structure ShieldedBundle where
  actions : List ActionWire
  flags : UInt8
  /-- A signed number. -/
  value_balance : BitVec 64
  anchor : Bytes 32
  proof : List UInt8
  binding_sig : Bytes 64
  /-- A bridge peg-out: its value and recipient. -/
  burn : Option (BitVec 64 × Bytes 32)
  anchor_block : Option (Bytes 32)
  deriving DecidableEq

/-- Why bytes are not a bundle. -/
inductive BundleDecodeError where
  | UnexpectedEof
  | LengthOverflow
  | TrailingBytes
  | MalformedBurnDeclaration
  | ZeroValueBurn
  | TooManyActions
  deriving DecidableEq, Repr

/-! ## The writer -/

/-- A length, truncated to 32 bits as the source's cast does. -/
def lenU32 (n : ℕ) : List UInt8 := beBytes (BitVec.ofNat 32 n)

/-- Bytes behind their length. -/
def var (bs : List UInt8) : List UInt8 := lenU32 bs.length ++ bs

/-- The fields of an action in a row. -/
def ActionWire.bytes (a : ActionWire) : List UInt8 :=
  a.nullifier.toList ++ (a.rk.toList ++ (a.cmx.toList ++ (a.cv_net.toList ++
    (a.ephemeral_key.toList ++ (a.enc_ciphertext.toList ++ (a.out_ciphertext.toList ++
      a.spend_auth_sig.toList))))))

/-- A burn declaration, if there is one. -/
def burnBytes (burn : Option (BitVec 64 × Bytes 32)) : List UInt8 :=
  burn.elim [] fun (value, recipient) => beBytes value ++ recipient.toList

/-- The hash of the anchor block, if one is named. -/
def anchorBlockBytes (anchor_block : Option (Bytes 32)) : List UInt8 :=
  anchor_block.elim [] List.Vector.toList

/-- Encode to the canonical payload byte form. -/
def ShieldedBundle.toBytes (b : ShieldedBundle) : List UInt8 :=
  [b.flags] ++ (beBytes b.value_balance ++ (b.anchor.toList ++ (var b.binding_sig.toList ++
    ((lenU32 b.actions.length ++ b.actions.flatMap ActionWire.bytes) ++ (var b.proof ++
      (burnBytes b.burn ++ anchorBlockBytes b.anchor_block))))))

/-! ## The reader -/

/-- The errors of the reader. -/
def readError : ReadError BundleDecodeError where
  overflow := .LengthOverflow
  eof := .UnexpectedEof

/-- A reader of bundle fields. -/
abbrev Read := Parser BundleDecodeError

/-- A byte. -/
def readU8 : Read UInt8 := u8 readError

/-- A big-endian word. -/
def readWord (w : ℕ) : Read (BitVec w) := wordBe readError w

/-- A fixed number of bytes. -/
def readArray (n : ℕ) : Read (Bytes n) := take readError n

/-- Bytes behind their length. -/
def readVar : Read (List UInt8) := do
  let n ← readWord 32
  let bs ← take readError n.toNat
  return bs.toList

/-- The binding signature: variable bytes that must be 64. -/
def readBindingSig : Read (Bytes 64) := do
  let bs ← readVar
  tryInto .UnexpectedEof 64 bs

/-- An action. -/
def readAction : Read ActionWire := do
  let nullifier ← readArray 32
  let rk ← readArray 32
  let cmx ← readArray 32
  let cv_net ← readArray 32
  let ephemeral_key ← readArray 32
  let enc_ciphertext ← readArray 580
  let out_ciphertext ← readArray 80
  let spend_auth_sig ← readArray 64
  return { nullifier, rk, cmx, cv_net, ephemeral_key, enc_ciphertext, out_ciphertext,
           spend_auth_sig }

/-- The actions behind their number, which is bounded before any action is read. -/
def readActions : Read (List ActionWire) := do
  let n_actions ← readWord 32
  if n_actions.toNat ≤ MAX_ACTIONS_PER_BUNDLE then many n_actions.toNat readAction
  else throw .TooManyActions

/-- A burn declaration. -/
def readBurnDeclaration : Read (BitVec 64 × Bytes 32) := do
  let value ← mapErr (fun _ => .MalformedBurnDeclaration) (readWord 64)
  let recipient ← mapErr (fun _ => .MalformedBurnDeclaration) (readArray 32)
  if value ≠ 0 then return (value, recipient) else throw .ZeroValueBurn

/-- The burn declaration of the flag bit. -/
def readBurn (flags : UInt8) : Read (Option (BitVec 64 × Bytes 32)) :=
  if flags &&& BUNDLE_FLAG_BURN ≠ 0 then do
    let burn ← readBurnDeclaration
    return some burn
  else return none

variable (anchor_block_field : Bool)

/-- The anchor block of the flag bit, in the format that has the field. -/
def readAnchorBlock (flags : UInt8) : Read (Option (Bytes 32)) :=
  if anchor_block_field = true ∧ flags &&& BUNDLE_FLAG_ANCHOR_BLOCK ≠ 0 then do
    let block ← mapErr (fun _ => .UnexpectedEof) (readArray 32)
    return some block
  else return none

/-- The fields of a bundle. -/
def readBundle : Read ShieldedBundle := do
  let flags ← readU8
  let value_balance ← readWord 64
  let anchor ← readArray 32
  let binding_sig ← readBindingSig
  let actions ← readActions
  let proof ← readVar
  let burn ← readBurn flags
  let anchor_block ← readAnchorBlock anchor_block_field flags
  return { actions, flags, value_balance, anchor, proof, binding_sig, burn, anchor_block }

variable (bytes : List UInt8)

/-- Decode a bundle; nothing may follow it. -/
def ShieldedBundle.decode (anchor_block_field : Bool) :
    Except BundleDecodeError ShieldedBundle := do
  let (bundle, r) ← readBundle anchor_block_field (Cursor.new bytes)
  if r.finished then return bundle else throw .TrailingBytes

/-- Decode in the format of the chain at a given point. -/
def ShieldedBundle.fromBytesAt (security_fork_active : Bool) :
    Except BundleDecodeError ShieldedBundle :=
  decode bytes security_fork_active

/-- Decode in the format of the security fork. -/
def ShieldedBundle.fromBytes : Except BundleDecodeError ShieldedBundle := decode bytes true

/-- The fields up to the number of actions, of which the number is kept. -/
def readActionCount : Read (BitVec 32) := do
  let _flags ← readU8
  let _value_balance ← readWord 64
  let _anchor ← readArray 32
  let _binding_sig ← readVar
  readWord 32

/-- The number of actions, without reading them. -/
def actionCountFromBytes : Option ℕ :=
  match readActionCount (Cursor.new bytes) with
  | .ok (n_actions, _) =>
    if n_actions.toNat ≤ MAX_ACTIONS_PER_BUNDLE then some n_actions.toNat else none
  | .error _ => none

/-! ## Every field reads back what was written -/

theorem toNat_ofNat_len {n : ℕ} (h : n < 2 ^ 32) : (BitVec.ofNat 32 n).toNat = n := by
  rw [toNat_ofNat, Nat.mod_eq_of_lt h]

theorem readU8_decodes : Decodes readU8 (fun b => [b]) fun _ => True := .u8

theorem readWord_decodes {w : ℕ} (hw : 8 ∣ w) : Decodes (readWord w) beBytes fun _ => True :=
  .wordBe hw

theorem readArray_decodes (n : ℕ) : Decodes (readArray n) List.Vector.toList fun _ => True :=
  .take n

theorem readVar_decodes : Decodes readVar var fun bs => bs.length < 2 ^ 32 := by
  have hread := Decodes.bind (fun bs : List UInt8 => BitVec.ofNat 32 bs.length)
    (readWord_decodes (w := 32) (by norm_num))
    (fun n _ => Decodes.takeList (E := readError) n.toNat) fun n bs hlen => by
      rw [hlen, ofNat_toNat, setWidth_eq]
  refine hread.congr (fun bs => ?_) fun _ _ => rfl
  rw [true_and, toNat_ofNat]
  constructor
  · exact fun hlt => (Nat.mod_eq_of_lt hlt).symm
  · exact fun heq => heq ▸ Nat.mod_lt _ (by norm_num)

theorem readBindingSig_decodes :
    Decodes readBindingSig (fun sig => var sig.toList) fun _ => True := by
  have hread := Decodes.bind (fun sig : Bytes 64 => sig.toList) readVar_decodes
    (fun bs _ => .tryInto BundleDecodeError.UnexpectedEof 64 bs) fun _ _ h => h
  refine hread.congr (fun sig => ?_) fun _ _ => (append_nil _).symm
  norm_num

theorem readAction_decodes : Decodes readAction ActionWire.bytes fun _ => True := by
  have hread : Decodes readAction _ _ :=
    .bind ActionWire.nullifier (readArray_decodes 32) (fun nullifier _ =>
    .bind ActionWire.rk (readArray_decodes 32) (fun rk _ =>
    .bind ActionWire.cmx (readArray_decodes 32) (fun cmx _ =>
    .bind ActionWire.cv_net (readArray_decodes 32) (fun cv_net _ =>
    .bind ActionWire.ephemeral_key (readArray_decodes 32) (fun ephemeral_key _ =>
    .bind ActionWire.enc_ciphertext (readArray_decodes 580) (fun enc_ciphertext _ =>
    .bind ActionWire.out_ciphertext (readArray_decodes 80) (fun out_ciphertext _ =>
    .bind ActionWire.spend_auth_sig (readArray_decodes 64) (fun spend_auth_sig _ =>
      .pure _)
      (fun _ _ h => congrArg ActionWire.spend_auth_sig h))
      (fun _ _ h => congrArg ActionWire.out_ciphertext h.2))
      (fun _ _ h => congrArg ActionWire.enc_ciphertext h.2.2))
      (fun _ _ h => congrArg ActionWire.ephemeral_key h.2.2.2))
      (fun _ _ h => congrArg ActionWire.cv_net h.2.2.2.2))
      (fun _ _ h => congrArg ActionWire.cmx h.2.2.2.2.2))
      (fun _ _ h => congrArg ActionWire.rk h.2.2.2.2.2.2))
      (fun _ _ h => congrArg ActionWire.nullifier h.2.2.2.2.2.2.2)
  refine hread.congr (fun a => ?_) fun a _ => ?_
  · simp only [and_true]
  · rw [append_nil, ActionWire.bytes]

theorem readActions_decodes :
    Decodes readActions (fun actions => lenU32 actions.length ++ actions.flatMap ActionWire.bytes)
      fun actions => actions.length ≤ MAX_ACTIONS_PER_BUNDLE := by
  have hread : Decodes readActions _ _ :=
    .bind (fun actions => BitVec.ofNat 32 actions.length) (readWord_decodes (by norm_num))
      (fun n _ => .guard fun _ => readAction_decodes.many n.toNat) fun n actions h => by
        rw [h.2.1, ofNat_toNat, setWidth_eq]
  refine hread.congr (fun actions => ?_) fun _ _ => rfl
  have hword (h : actions.length ≤ MAX_ACTIONS_PER_BUNDLE) : actions.length < 2 ^ 32 :=
    lt_of_le_of_lt h (by decide)
  constructor
  · intro h
    have hlen := toNat_ofNat_len (hword h)
    exact ⟨trivial, hlen.symm ▸ h, hlen.symm, fun _ _ => trivial⟩
  · rintro ⟨-, hle, hlen, -⟩
    exact hlen ▸ hle

theorem readBurnDeclaration_decodes :
    Decodes readBurnDeclaration (fun (value, recipient) => beBytes value ++ recipient.toList)
      fun burn => burn.1 ≠ 0 := by
  have hread : Decodes readBurnDeclaration _ _ :=
    .bind Prod.fst ((readWord_decodes (by norm_num)).mapErr _) (fun value _ =>
    .bind Prod.snd ((readArray_decodes 32).mapErr _) (fun recipient _ =>
      .guard fun _ => .pure _)
      (fun _ _ h => congrArg Prod.snd h.2))
      (fun _ _ h => congrArg Prod.fst h.2.2)
  refine hread.congr (fun burn => ?_) fun burn _ => ?_
  · simp only [true_and, and_true]
  · rw [append_nil]

/-- What the flags say about a burn declaration. -/
def BurnCanonical (flags : UInt8) (burn : Option (BitVec 64 × Bytes 32)) : Prop :=
  (burn.isSome ↔ flags &&& BUNDLE_FLAG_BURN ≠ 0) ∧ ∀ declaration ∈ burn, declaration.1 ≠ 0

/-- What the flags say about the anchor block, in a format with or without the field. -/
def AnchorBlockCanonical (flags : UInt8) (anchor_block : Option (Bytes 32)) : Prop :=
  anchor_block.isSome ↔ anchor_block_field = true ∧ flags &&& BUNDLE_FLAG_ANCHOR_BLOCK ≠ 0

theorem readBurn_decodes (flags : UInt8) :
    Decodes (readBurn flags) burnBytes (BurnCanonical flags) :=
  readBurnDeclaration_decodes.optional

theorem readAnchorBlock_decodes (flags : UInt8) :
    Decodes (readAnchorBlock anchor_block_field flags) anchorBlockBytes
      (AnchorBlockCanonical anchor_block_field flags) := by
  have hread : Decodes (readAnchorBlock anchor_block_field flags) _ _ :=
    ((readArray_decodes 32).mapErr _).optional
  refine hread.congr (fun anchor_block => ?_) fun _ _ => rfl
  simp only [AnchorBlockCanonical, implies_true, and_true]

/-! ## The bundle -/

/-- The bundles of a format. -/
structure ShieldedBundle.Canonical (b : ShieldedBundle) (anchor_block_field : Bool) : Prop where
  actions_le : b.actions.length ≤ MAX_ACTIONS_PER_BUNDLE
  proof_lt : b.proof.length < 2 ^ 32
  burn : BurnCanonical b.flags b.burn
  anchor_block : AnchorBlockCanonical anchor_block_field b.flags b.anchor_block

theorem readBundle_decodes :
    Decodes (readBundle anchor_block_field) ShieldedBundle.toBytes
      fun b => b.Canonical anchor_block_field := by
  have hread : Decodes (readBundle anchor_block_field) _ _ :=
    .bind ShieldedBundle.flags readU8_decodes (fun flags _ =>
    .bind ShieldedBundle.value_balance (readWord_decodes (by norm_num)) (fun value_balance _ =>
    .bind ShieldedBundle.anchor (readArray_decodes 32) (fun anchor _ =>
    .bind ShieldedBundle.binding_sig readBindingSig_decodes (fun binding_sig _ =>
    .bind ShieldedBundle.actions readActions_decodes (fun actions _ =>
    .bind ShieldedBundle.proof readVar_decodes (fun proof _ =>
    .bind ShieldedBundle.burn (readBurn_decodes flags) (fun burn _ =>
    .bind ShieldedBundle.anchor_block (readAnchorBlock_decodes anchor_block_field flags)
      (fun anchor_block _ => .pure _)
      (fun _ _ h => congrArg ShieldedBundle.anchor_block h))
      (fun _ _ h => congrArg ShieldedBundle.burn h.2))
      (fun _ _ h => congrArg ShieldedBundle.proof h.2.2))
      (fun _ _ h => congrArg ShieldedBundle.actions h.2.2.2))
      (fun _ _ h => congrArg ShieldedBundle.binding_sig h.2.2.2.2))
      (fun _ _ h => congrArg ShieldedBundle.anchor h.2.2.2.2.2))
      (fun _ _ h => congrArg ShieldedBundle.value_balance h.2.2.2.2.2.2))
      (fun _ _ h => congrArg ShieldedBundle.flags h.2.2.2.2.2.2.2)
  refine hread.congr (fun b => ⟨fun h => ?_, ?_⟩) fun b _ => ?_
  · exact ⟨trivial, trivial, trivial, trivial, h.actions_le, h.proof_lt, h.burn,
      h.anchor_block, rfl⟩
  · rintro ⟨-, -, -, -, hactions, hproof, hburn, hblock, -⟩
    exact ⟨hactions, hproof, hburn, hblock⟩
  · rw [append_nil]
    rfl

theorem ActionWire.length_bytes (a : ActionWire) : a.bytes.length = 884 := by
  simp only [bytes, length_append, List.Vector.toList_length]

theorem length_var (bs : List UInt8) : (var bs).length = 4 + bs.length := by
  rw [var, lenU32, length_append, length_beBytes]

namespace ShieldedBundle

variable {b : ShieldedBundle} {s : List UInt8} {anchor_block_field : Bool}

theorem Canonical.length_toBytes_lt
    (h : b.Canonical anchor_block_field) : b.toBytes.length < 2 ^ 64 := by
  have hactions : (b.actions.flatMap ActionWire.bytes).length = 884 * b.actions.length := by
    simp only [length_flatMap, ActionWire.length_bytes, map_const', sum_replicate,
      smul_eq_mul, mul_comm]
  have hburn : (burnBytes b.burn).length ≤ 40 := by
    rcases b.burn with _ | ⟨value, recipient⟩
    · exact Nat.zero_le 40
    · simp [burnBytes]
  have hblock : (anchorBlockBytes b.anchor_block).length ≤ 32 := by
    rcases b.anchor_block with _ | block
    · exact Nat.zero_le 32
    · simp [anchorBlockBytes]
  have hle : b.actions.length ≤ 512 := h.actions_le
  have hproof := h.proof_lt
  simp only [toBytes, lenU32, length_append, length_cons, length_nil, length_var,
    length_beBytes, hactions, List.Vector.toList_length]
  omega

theorem decode_eq_ok :
    decode s anchor_block_field = .ok b ↔ b.Canonical anchor_block_field ∧ b.toBytes = s := by
  have hformat := readBundle_decodes anchor_block_field
  unfold decode
  rw [Except.bind_eq_ok_iff]
  constructor
  · rintro ⟨⟨b', r⟩, hread, hfin⟩
    obtain ⟨hvalid, -, hrest⟩ := hformat.sound hread
    dsimp only at hfin
    split_ifs at hfin with hend
    obtain rfl := Except.ok.inj hfin
    rw [Cursor.rest_new, Cursor.finished_iff.mp hend, append_nil] at hrest
    exact ⟨hvalid, hrest.symm⟩
  · rintro ⟨hvalid, rfl⟩
    obtain ⟨r, hread, -, hrest⟩ := hformat.complete hvalid (c := Cursor.new b.toBytes) (r := [])
      hvalid.length_toBytes_lt (append_nil _).symm
    refine ⟨(b, r), hread, ?_⟩
    dsimp only
    rw [if_pos (Cursor.finished_iff.mpr hrest)]
    rfl

theorem head_toBytes (b : ShieldedBundle) : b.toBytes.head? = some b.flags := rfl

/-- A string whose first byte has bit 3 clear is decoded alike in both formats, errors included. -/
theorem decode_congr (h : ∀ flags ∈ s.head?, flags &&& BUNDLE_FLAG_ANCHOR_BLOCK = 0) :
    decode s true = decode s false := by
  have hread : readBundle true (Cursor.new s) = readBundle false (Cursor.new s) := by
    refine bind_congr fun flags c hflags => ?_
    obtain ⟨-, -, hs⟩ := readU8_decodes.sound hflags
    have hhead : flags ∈ s.head? := by
      rw [← Cursor.rest_new s, hs]
      exact rfl
    -- The two formats differ in the last field only, and there only if the bit is set.
    have hblock : readAnchorBlock true flags = readAnchorBlock false flags := by
      simp [readAnchorBlock, h flags hhead]
    simp only [hblock]
  rw [decode, decode, hread]

theorem Canonical.withoutAnchorBlock (h : b.Canonical true) :
    ({ b with anchor_block := none } : ShieldedBundle).Canonical false where
  actions_le := h.actions_le
  proof_lt := h.proof_lt
  burn := h.burn
  anchor_block := by simp [AnchorBlockCanonical]

theorem toBytes_eq (b : ShieldedBundle) :
    b.toBytes = ({ b with anchor_block := none } : ShieldedBundle).toBytes ++
      anchorBlockBytes b.anchor_block := by
  simp only [toBytes, List.append_assoc, anchorBlockBytes, Option.elim_none, List.nil_append]

theorem not_decode_both {b' : ShieldedBundle} (hs : decode s true = .ok b)
    (hs' : decode s false = .ok b')
    (h : ∀ flags ∈ s.head?, flags &&& BUNDLE_FLAG_ANCHOR_BLOCK ≠ 0) : False := by
  obtain ⟨hb, rfl⟩ := decode_eq_ok.mp hs
  obtain ⟨hb', heq⟩ := decode_eq_ok.mp hs'
  have hflag : b.flags &&& BUNDLE_FLAG_ANCHOR_BLOCK ≠ 0 := h b.flags b.head_toBytes
  obtain ⟨block, hblock⟩ := Option.isSome_iff_exists.mp (hb.anchor_block.mpr ⟨rfl, hflag⟩)
  -- Read in the older format, the string ends before the block hash.
  have hformat := readBundle_decodes false
  obtain ⟨r, hread, -, hrest⟩ := hformat.complete hb.withoutAnchorBlock
    (c := Cursor.new b.toBytes) hb.length_toBytes_lt b.toBytes_eq
  obtain ⟨r', hread', -, hrest'⟩ := hformat.complete hb' (c := Cursor.new b.toBytes) (r := [])
    hb.length_toBytes_lt (heq.symm.trans (append_nil _).symm)
  have hcursor : r = r' := (Prod.mk.inj (Except.ok.inj (hread.symm.trans hread'))).2
  have hempty : anchorBlockBytes b.anchor_block = [] := by rw [← hrest, hcursor, hrest']
  have hlen : (anchorBlockBytes b.anchor_block).length = 32 := by
    rw [hblock]
    exact block.toList_length
  rw [hempty] at hlen
  exact absurd hlen (by decide)

theorem actionCountFromBytes_of_decode (h : decode s anchor_block_field = .ok b) :
    actionCountFromBytes s = some b.actions.length := by
  obtain ⟨hb, rfl⟩ := decode_eq_ok.mp h
  have hlen := hb.length_toBytes_lt
  -- The header, field by field: each reader meets what the writer left there.
  obtain ⟨c₁, hflags, hbuf₁, hrest₁⟩ :=
    readU8_decodes.complete (c := Cursor.new b.toBytes) (a := b.flags) trivial hlen rfl
  obtain ⟨c₂, hbalance, hbuf₂, hrest₂⟩ := (readWord_decodes (w := 64) (by norm_num)).complete
    (c := c₁) (a := b.value_balance) trivial (hbuf₁ ▸ hlen) hrest₁
  obtain ⟨c₃, hanchor, hbuf₃, hrest₃⟩ := (readArray_decodes 32).complete
    (c := c₂) (a := b.anchor) trivial (hbuf₂ ▸ hbuf₁ ▸ hlen) hrest₂
  have hsig : b.binding_sig.toList.length < 2 ^ 32 := by norm_num
  obtain ⟨c₄, hbinding, hbuf₄, hrest₄⟩ := readVar_decodes.complete
    (c := c₃) hsig (hbuf₃ ▸ hbuf₂ ▸ hbuf₁ ▸ hlen) hrest₃
  obtain ⟨c₅, hcount, -, -⟩ := (readWord_decodes (w := 32) (by norm_num)).complete
    (c := c₄) trivial (hbuf₄ ▸ hbuf₃ ▸ hbuf₂ ▸ hbuf₁ ▸ hlen) hrest₄
  have hread : readActionCount (Cursor.new b.toBytes) =
      .ok (BitVec.ofNat 32 b.actions.length, c₅) :=
    bind_eq_ok.mpr ⟨_, _, hflags, bind_eq_ok.mpr ⟨_, _, hbalance, bind_eq_ok.mpr ⟨_, _, hanchor,
      bind_eq_ok.mpr ⟨_, _, hbinding, hcount⟩⟩⟩⟩
  have hnum : (BitVec.ofNat 32 b.actions.length).toNat = b.actions.length :=
    toNat_ofNat_len (lt_of_le_of_lt hb.actions_le (by decide))
  rw [actionCountFromBytes, hread]
  dsimp only
  rw [hnum, if_pos hb.actions_le]

/-- The codec. Every bundle of the current format is read back from its encoding; what either format
accepts is the encoding of what it returns; the formats agree on a string whose first byte has bit 3
clear, errors included, and never both accept one that has it set; the number of actions of an
accepted string is the one read from its header. -/
theorem codec_canonical :
    (∀ b : ShieldedBundle, b.actions.length ≤ MAX_ACTIONS_PER_BUNDLE → b.proof.length < 2 ^ 32 →
      ((b.burn.isSome ↔ b.flags &&& BUNDLE_FLAG_BURN ≠ 0) ∧ ∀ burn ∈ b.burn, burn.1 ≠ 0) →
      (b.anchor_block.isSome ↔ b.flags &&& BUNDLE_FLAG_ANCHOR_BLOCK ≠ 0) →
      fromBytes b.toBytes = .ok b) ∧
    (∀ s format b, fromBytesAt s format = .ok b → b.toBytes = s) ∧
    (∀ s, (∀ flags ∈ s.head?, flags &&& BUNDLE_FLAG_ANCHOR_BLOCK = 0) →
      fromBytesAt s true = fromBytesAt s false) ∧
    (∀ s, (∀ flags ∈ s.head?, flags &&& BUNDLE_FLAG_ANCHOR_BLOCK ≠ 0) →
      ∀ b b', ¬(fromBytesAt s true = .ok b ∧ fromBytesAt s false = .ok b')) ∧
    ∀ s format b, fromBytesAt s format = .ok b →
      actionCountFromBytes s = some b.actions.length := by
  refine ⟨?_, ?_, ?_, ?_, ?_⟩
  · intro b hactions hproof hburn hblock
    have hfield : AnchorBlockCanonical true b.flags b.anchor_block := by
      rw [AnchorBlockCanonical, hblock, and_iff_right rfl]
    exact decode_eq_ok.mpr ⟨⟨hactions, hproof, hburn, hfield⟩, rfl⟩
  · exact fun s format b hok => (decode_eq_ok.mp hok).2
  · exact fun s hclear => decode_congr hclear
  · exact fun s hset b b' ⟨hb, hb'⟩ => not_decode_both hb hb' hset
  · exact fun s format b hok => actionCountFromBytes_of_decode hok

end ShieldedBundle

namespace Sample

/-- An action of zeros. -/
def action : ActionWire where
  nullifier := .replicate 32 0
  rk := .replicate 32 0
  cmx := .replicate 32 0
  cv_net := .replicate 32 0
  ephemeral_key := .replicate 32 0
  enc_ciphertext := .replicate 580 0
  out_ciphertext := .replicate 80 0
  spend_auth_sig := .replicate 64 0

/-- A bundle of one action that burns five units and names its anchor block. -/
def bundle : ShieldedBundle where
  actions := [action]
  flags := 0b1111
  value_balance := 5
  anchor := .replicate 32 1
  proof := [1, 2, 3]
  binding_sig := .replicate 64 2
  burn := some (5, .replicate 32 3)
  anchor_block := some (.replicate 32 4)

/-- The sample bundle is read back from its encoding, and its number of actions from the header. -/
theorem codec_bundle : ShieldedBundle.fromBytes bundle.toBytes = .ok bundle ∧
    actionCountFromBytes bundle.toBytes = some 1 := by
  have hburn : ∀ burn ∈ bundle.burn, burn.1 ≠ 0 := by
    rintro burn ⟨⟩
    decide
  have hok :=
    ShieldedBundle.codec_canonical.1 bundle (by decide) (by decide) ⟨by decide, hburn⟩ (by decide)
  exact ⟨hok, ShieldedBundle.codec_canonical.2.2.2.2 _ true bundle hok⟩

end Sample

end Zkas.Wire
