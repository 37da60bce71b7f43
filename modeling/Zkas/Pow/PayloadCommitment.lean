import Zkas.Pow.AuxPow

/-!
# Commitments in a payload

A payload commits to a hash if the tag occurs in it at a single offset and the 64 lowercase
hexadecimal digits of the hash follow. `payloadCommitment` and `extractHfc`, the scanner of the
bridge in `shielded-core/src/witness_chain.rs`, both read that hash and nothing else
(`payloadCommitment_eq_some`, `extractHfc_eq_some`), although they go on at different offsets after
the tag: no later character of the tag, and no digit, is the first one of a tag. -/

namespace Zkas.Pow

open List Option AuxPow

/-! ## Embedding and extracting -/

namespace AuxPow

/-- A payload with a commitment before the security fork. -/
def embedCommitment (before : List UInt8) (commitment : Hash) (after : List UInt8) : List UInt8 :=
  before ++ MERGE_MINE_MAGIC.toList ++ encodeHex32 commitment ++ after

/-- Whether a block with this payload could be somebody's parent. -/
def payloadCarriesCommitment (payload : List UInt8) : Bool :=
  (payloadCommitment payload MERGE_MINE_MAGIC).isSome ||
    (payloadCommitment payload MERGE_MINE_MAGIC_V1).isSome

end AuxPow

namespace WitnessChain

/-- The loop of the bridge's `decode_hex32` over the bytes from `j` on. -/
def decodeLoop (hex : List UInt8) : ℕ → ℕ → Option (List UInt8)
  | 0, _ => some []
  | n + 1, j => do
    let hi ← hexNibble (← hex[2 * j]?)
    let lo ← hexNibble (← hex[2 * j + 1]?)
    let out ← decodeLoop hex n (j + 1)
    some (((hi <<< 4) ||| lo) :: out)

theorem length_of_decodeLoop {hex out : List UInt8} {n j : ℕ} (h : decodeLoop hex n j = some out) :
    out.length = n := by
  induction n generalizing j out with
  | zero => rw [← some.inj h, length_nil]
  | succ n ih =>
    simp only [decodeLoop, bind_eq_bind, bind_eq_some_iff] at h
    obtain ⟨_, -, _, -, _, -, _, -, tail, htail, hout⟩ := h
    rw [← some.inj hout, length_cons, ih htail]

/-- The bridge's `decode_hex32`. -/
def decodeHex32 (hex : List UInt8) : Option Hash :=
  if hex.length ≠ COMMITMENT_HEX_LEN then none
  else
    match hout : decodeLoop hex 32 0 with
    | some out => some ⟨out, length_of_decodeLoop hout⟩
    | none => none

/-- The scan of `extract_hfc` from position `i` on. A commitment is decoded before a second tag is
refused, and the scan goes on after its digits. -/
def extractHfcFrom (payload : List UInt8) (i : ℕ) (found : Option Hash) : Option Hash :=
  if _hinside : i + 4 ≤ payload.length then
    if (payload.drop i).take 4 = MERGE_MINE_MAGIC.toList then
      let start := i + 4
      let stop := start + COMMITMENT_HEX_LEN
      if payload.length < stop then none
      else
        match decodeHex32 ((payload.drop start).take COMMITMENT_HEX_LEN) with
        | none => none
        | some hash => if found.isSome then none else extractHfcFrom payload stop (some hash)
    else extractHfcFrom payload (i + 1) found
  else found
termination_by payload.length - i

/-- The single commitment that the bridge reads. -/
def extractHfc (payload : List UInt8) : Option Hash := extractHfcFrom payload 0 none

end WitnessChain

/-! ## Digits -/

/-- A digit of the lowercase alphabet. -/
def hexDigit (n : UInt8) : UInt8 := (ascii "0123456789abcdef".toList).getD n.toNat 0

theorem forall_byte {P : UInt8 → Prop} (h : ∀ n : Fin 256, P (UInt8.ofNat n)) (b : UInt8) :
    P b := by
  have hb := h ⟨b.toNat, b.toNat_lt⟩
  rwa [UInt8.ofNat_toNat] at hb

theorem hexDigit_of_hexNibble (c : UInt8) : ∀ v ∈ hexNibble c, v < 16 ∧ hexDigit v = c :=
  forall_byte (P := fun c => ∀ v ∈ hexNibble c, v < 16 ∧ hexDigit v = c) (by decide +kernel) c

theorem hexNibble_hexDigit (b : UInt8) : hexNibble (hexDigit (b >>> 4)) = some (b >>> 4) ∧
      hexNibble (hexDigit (b &&& 0x0f)) = some (b &&& 0x0f) ∧
      ((b >>> 4) <<< 4) ||| (b &&& 0x0f) = b :=
  forall_byte (P := fun b => hexNibble (hexDigit (b >>> 4)) = some (b >>> 4) ∧
      hexNibble (hexDigit (b &&& 0x0f)) = some (b &&& 0x0f) ∧
      ((b >>> 4) <<< 4) ||| (b &&& 0x0f) = b) (by decide +kernel) b

theorem hexDigits_of_halves {high low : UInt8} (hhigh : high < 16) (hlow : low < 16) :
    hexDigits ((high <<< 4) ||| low) = [hexDigit high, hexDigit low] := by
  have hall : ∀ h l : Fin 16, hexDigits ((UInt8.ofNat h <<< 4) ||| UInt8.ofNat l) =
      [hexDigit (.ofNat h), hexDigit (.ofNat l)] := by decide +kernel
  have hspell := hall ⟨high.toNat, UInt8.lt_iff_toNat_lt.mp hhigh⟩
    ⟨low.toNat, UInt8.lt_iff_toNat_lt.mp hlow⟩
  rwa [UInt8.ofNat_toNat, UInt8.ofNat_toNat] at hspell

theorem hexDigits_iff {hi lo b : UInt8} : hexDigits b = [hi, lo] ↔
    ∃ high, hexNibble hi = some high ∧
      ∃ low, hexNibble lo = some low ∧ (high <<< 4) ||| low = b := by
  constructor
  · intro h
    obtain ⟨rfl, rfl⟩ : hexDigit (b >>> 4) = hi ∧ hexDigit (b &&& 0x0f) = lo := by
      simpa [hexDigits, hexDigit] using h
    obtain ⟨hhigh, hlow, hbyte⟩ := hexNibble_hexDigit b
    exact ⟨_, hhigh, _, hlow, hbyte⟩
  · rintro ⟨high, hhigh, low, hlow, rfl⟩
    obtain ⟨hhigh16, rfl⟩ := hexDigit_of_hexNibble hi high hhigh
    obtain ⟨hlow16, rfl⟩ := hexDigit_of_hexNibble lo low hlow
    exact hexDigits_of_halves hhigh16 hlow16

theorem decodePairs_iff {s out : List UInt8} (hlen : s.length = 2 * out.length) :
    decodePairs s = some out ↔ s = out.flatMap hexDigits := by
  induction out generalizing s with
  | nil =>
    obtain rfl : s = [] := List.length_eq_zero_iff.mp hlen
    exact iff_of_true rfl rfl
  | cons b out ih =>
    match s with
    | hi :: lo :: rest =>
      have hrest : rest.length = 2 * out.length := by
        simp only [List.length_cons] at hlen
        omega
      have hsplit : hi :: lo :: rest = (b :: out).flatMap hexDigits ↔
          hexDigits b = [hi, lo] ∧ rest = out.flatMap hexDigits := by
        simp only [List.flatMap_cons, hexDigits, List.cons_append, List.nil_append, List.cons.injEq]
        tauto
      rw [hsplit, hexDigits_iff, ← ih hrest]
      simp only [decodePairs, Option.bind_eq_bind, Option.bind_eq_some_iff, Option.pure_def,
        Option.some.injEq, List.cons.injEq]
      constructor
      · rintro ⟨high, hhigh, low, hlow, tail, htail, hbyte, rfl⟩
        exact ⟨⟨high, hhigh, low, hlow, hbyte⟩, htail⟩
      · rintro ⟨⟨high, hhigh, low, hlow, hbyte⟩, htail⟩
        exact ⟨high, hhigh, low, hlow, out, htail, hbyte, rfl⟩
    | [_] => simp at hlen; omega
    | [] => simp at hlen

@[simp] theorem length_encodeHex32 (h : Hash) : (encodeHex32 h).length = COMMITMENT_HEX_LEN := by
  unfold encodeHex32
  simp [hexDigits, COMMITMENT_HEX_LEN]

theorem decodeHex32_iff {s : List UInt8} {h : Hash} :
    decodeHex32 s = some h ↔ s = encodeHex32 h := by
  unfold decodeHex32
  split_ifs with hlen
  · have hlen' : s.length = 2 * h.toList.length := by
      rw [hlen, h.toList_length]
      rfl
    rw [encodeHex32, ← decodePairs_iff hlen']
    split
    next out hout =>
      constructor
      · intro heq
        exact hout.trans (congrArg some (congrArg Subtype.val (some.inj heq)))
      · intro heq
        exact congrArg some (Subtype.ext (mem_unique hout heq))
    next hnone => exact iff_of_false nofun fun heq => nomatch hnone.symm.trans heq
  · refine iff_of_false nofun fun heq => hlen ?_
    rw [heq, length_encodeHex32]

theorem decodeLoop_eq {hex : List UInt8} {n j : ℕ} (hlen : 2 * (j + n) ≤ hex.length) :
    WitnessChain.decodeLoop hex n j = decodePairs ((hex.drop (2 * j)).take (2 * n)) := by
  induction n generalizing j with
  | zero => simp [WitnessChain.decodeLoop, decodePairs]
  | succ n ih =>
    have hhi : 2 * j < hex.length := by omega
    have hlo : 2 * j + 1 < hex.length := by omega
    rw [WitnessChain.decodeLoop, ih (by omega), drop_eq_getElem_cons hhi,
      drop_eq_getElem_cons hlo, show 2 * (n + 1) = 2 * n + 1 + 1 by omega, take_succ_cons,
      take_succ_cons, decodePairs, getElem?_eq_getElem hhi, getElem?_eq_getElem hlo]
    rfl

theorem WitnessChain.decodeHex32_iff {s : List UInt8} {h : Hash} :
    WitnessChain.decodeHex32 s = some h ↔ s = encodeHex32 h := by
  unfold WitnessChain.decodeHex32
  split_ifs with hlen
  · refine iff_of_false nofun fun heq => hlen ?_
    rw [heq, length_encodeHex32]
  · rw [not_not] at hlen
    have hloop : WitnessChain.decodeLoop s 32 0 = decodePairs s := by
      rw [decodeLoop_eq (by rw [hlen]; rfl), Nat.mul_zero, drop_zero,
        take_of_length_le (by rw [hlen]; exact le_refl _)]
    have hlen' : s.length = 2 * h.toList.length := by
      rw [hlen, h.toList_length]
      rfl
    rw [encodeHex32, ← decodePairs_iff hlen', ← hloop]
    split
    next out hout =>
      constructor
      · intro heq
        exact hout.trans (congrArg some (congrArg Subtype.val (some.inj heq)))
      · intro heq
        exact congrArg some (Subtype.ext (mem_unique hout heq))
    next hnone => exact iff_of_false nofun fun heq => nomatch hnone.symm.trans heq

/-! ## Tags -/

/-- The tag occurs in a payload at an offset. -/
def OccursAt (magic : List.Vector UInt8 4) (payload : List UInt8) (i : ℕ) : Prop :=
  (payload.drop i).take 4 = magic.toList

/-- The digits of a hash follow a tag at an offset. -/
def FollowedBy (payload : List UInt8) (i : ℕ) (h : Hash) : Prop :=
  (payload.drop (i + 4)).take COMMITMENT_HEX_LEN = encodeHex32 h

/-- A tag begins with the only `Z` in it. -/
structure IsTag (magic : List.Vector UInt8 4) : Prop where
  first : magic.toList[0]? = some 'Z'.toUInt8
  rest : ∀ k < 4, magic.toList[k]? = some 'Z'.toUInt8 → k = 0

theorem isTag_magic {magic : List.Vector UInt8 4}
    (h : magic = MERGE_MINE_MAGIC ∨ magic = MERGE_MINE_MAGIC_V1) : IsTag magic := by
  rcases h with rfl | rfl
  · exact ⟨by decide, by decide⟩
  · exact ⟨by decide, by decide⟩

section

variable {magic : List.Vector UInt8 4} {payload : List UInt8} {i j : ℕ} {h : Hash}

theorem OccursAt.getElem? (hi : OccursAt magic payload i) {k : ℕ} (hk : k < 4) :
    payload[i + k]? = magic.toList[k]? := by
  rw [← hi, getElem?_take, if_pos hk, getElem?_drop]

theorem OccursAt.le_length (hi : OccursAt magic payload i) : i + 4 ≤ payload.length := by
  have hlen := congrArg length hi
  rw [length_take, length_drop, magic.toList_length] at hlen
  omega

theorem OccursAt.first (htag : IsTag magic) (hi : OccursAt magic payload i) :
    payload[i]? = some 'Z'.toUInt8 := by
  rw [← htag.first, ← hi.getElem? (by omega), add_zero]

theorem OccursAt.add_le (htag : IsTag magic) (hi : OccursAt magic payload i)
    (hj : OccursAt magic payload j) (hij : i < j) : i + 4 ≤ j := by
  by_contra hlt
  have hget := hi.getElem? (show j - i < 4 by omega)
  rw [Nat.add_sub_cancel' hij.le, hj.first htag] at hget
  have := htag.rest _ (by omega) hget.symm
  omega

theorem ne_Z_of_mem_encodeHex32 {c : UInt8} (hc : c ∈ encodeHex32 h) : c ≠ 'Z'.toUInt8 := by
  have hall : ∀ b : UInt8, 'Z'.toUInt8 ∉ hexDigits b :=
    forall_byte (P := fun b => 'Z'.toUInt8 ∉ hexDigits b) (by decide +kernel)
  rintro rfl
  obtain ⟨b, -, hb⟩ := mem_flatMap.mp hc
  exact hall b hb

theorem FollowedBy.add_le (htag : IsTag magic) (hi : FollowedBy payload i h)
    (hj : OccursAt magic payload j) (hij : i + 4 ≤ j) : i + 4 + COMMITMENT_HEX_LEN ≤ j := by
  by_contra hlt
  have hget : (encodeHex32 h)[j - (i + 4)]? = some 'Z'.toUInt8 := by
    rw [← hi, getElem?_take, if_pos (by omega), getElem?_drop, Nat.add_sub_cancel' hij,
      hj.first htag]
  exact ne_Z_of_mem_encodeHex32 (mem_of_getElem? hget) rfl

theorem FollowedBy.le_length (hi : FollowedBy payload i h) :
    i + 4 + COMMITMENT_HEX_LEN ≤ payload.length := by
  have hlen := congrArg length hi
  rw [length_take, length_drop, length_encodeHex32] at hlen
  have : 0 < COMMITMENT_HEX_LEN := by decide
  omega

theorem not_occursAt_of_end (hend : ¬ i + 4 ≤ payload.length) (hij : i ≤ j) :
    ¬ OccursAt magic payload j := fun hj => by
  have := hj.le_length
  omega

/-- From an offset on, the tag occurs once, with the digits of a hash. -/
def OnceFrom (magic : List.Vector UInt8 4) (payload : List UInt8) (i : ℕ) (h : Hash) : Prop :=
  ∃ k, i ≤ k ∧ (∀ j, i ≤ j → (OccursAt magic payload j ↔ j = k)) ∧ FollowedBy payload k h

/-- What a scan from an offset on has to find: the tag once, or not again. -/
def ToFind (magic : List.Vector UInt8 4) (payload : List UInt8) (i : ℕ) (h : Hash) :
    Option Hash → Prop
  | none => OnceFrom magic payload i h
  | some hash => hash = h ∧ ∀ j, i ≤ j → ¬ OccursAt magic payload j

theorem toFind_succ {found : Option Hash} (hi : ¬ OccursAt magic payload i) :
    ToFind magic payload i h found ↔ ToFind magic payload (i + 1) h found := by
  have hge {j : ℕ} (hj : OccursAt magic payload j) (hij : i ≤ j) : i + 1 ≤ j :=
    lt_of_le_of_ne hij fun heq => hi (heq ▸ hj)
  cases found with
  | none =>
    constructor
    · rintro ⟨k, hik, honly, hdigits⟩
      exact ⟨k, hge ((honly k hik).mpr rfl) hik, fun j hj => honly j (by omega), hdigits⟩
    · rintro ⟨k, hik, honly, hdigits⟩
      refine ⟨k, by omega, fun j hij => ?_, hdigits⟩
      constructor
      · exact fun hj => (honly j (hge hj hij)).mp hj
      · exact fun heq => (honly j (by omega)).mpr heq
  | some hash =>
    refine and_congr_right fun _ => ⟨fun hnone j hj => hnone j (by omega), fun hnone j hij hj => ?_⟩
    exact hnone j (hge hj hij) hj

theorem onceFrom_iff (hi : OccursAt magic payload i) : OnceFrom magic payload i h ↔
      FollowedBy payload i h ∧ ∀ j, i + 1 ≤ j → ¬ OccursAt magic payload j := by
  constructor
  · rintro ⟨k, hik, honly, hdigits⟩
    obtain rfl := (honly i (le_refl i)).mp hi
    refine ⟨hdigits, fun j hj hocc => ?_⟩
    have := (honly j (by omega)).mp hocc
    omega
  · rintro ⟨hdigits, hnone⟩
    refine ⟨i, le_refl i, fun j hij => ⟨fun hj => ?_, fun heq => heq ▸ hi⟩, hdigits⟩
    by_contra hne
    exact hnone j (by omega) hj

theorem FollowedBy.unique {hash : Hash} (hi : FollowedBy payload i hash) :
    FollowedBy payload i h ↔ hash = h := by
  constructor
  · intro hi'
    exact mem_unique (decodeHex32_iff.mpr hi) (decodeHex32_iff.mpr hi')
  · rintro rfl
    exact hi

theorem toFind_after {hash : Hash} {stop : ℕ} (hi : OccursAt magic payload i)
    (hdigits : FollowedBy payload i hash) (hlt : i < stop)
    (hskip : ∀ j, OccursAt magic payload j → i < j → stop ≤ j) :
    ToFind magic payload stop h (some hash) ↔ ToFind magic payload i h none := by
  rw [show ToFind magic payload i h none ↔ _ from onceFrom_iff hi, hdigits.unique]
  refine and_congr_right fun _ => ⟨fun hnone j hij hj => ?_, fun hnone j hj => hnone j (by omega)⟩
  exact hnone j (hskip j hj hij) hj

theorem toFind_end {found : Option Hash} (hend : ¬ i + 4 ≤ payload.length) :
    found = some h ↔ ToFind magic payload i h found := by
  cases found with
  | none =>
    refine iff_of_false nofun ?_
    rintro ⟨k, hik, honly, -⟩
    exact not_occursAt_of_end hend hik ((honly k hik).mpr rfl)
  | some hash =>
    rw [some.injEq]
    exact ⟨fun heq => ⟨heq, fun j hj => not_occursAt_of_end hend hj⟩, And.left⟩

theorem payloadCommitmentFrom_iff (htag : IsTag magic) (found : Option Hash) :
    payloadCommitmentFrom payload magic i found = some h ↔ ToFind magic payload i h found := by
  fun_induction payloadCommitmentFrom payload magic i found with
  | case1 i found hin hocc hfound =>
    obtain ⟨hash, rfl⟩ := isSome_iff_exists.mp hfound
    exact iff_of_false nofun fun hfind => hfind.2 i (le_refl i) hocc
  | case2 i found hin hocc hfound start stop hshort =>
    obtain rfl := not_isSome_iff_eq_none.mp hfound
    refine iff_of_false nofun fun hfind => ?_
    have := ((onceFrom_iff hocc).mp hfind).1.le_length
    omega
  | case3 i found hin hocc hfound start stop hshort hdecode =>
    obtain rfl := not_isSome_iff_eq_none.mp hfound
    refine iff_of_false nofun fun hfind => ?_
    rw [decodeHex32_iff.mpr ((onceFrom_iff hocc).mp hfind).1] at hdecode
    cases hdecode
  | case4 i found hin hocc hfound start stop hshort hash hdecode ih =>
    obtain rfl := not_isSome_iff_eq_none.mp hfound
    rw [ih]
    exact toFind_after hocc (decodeHex32_iff.mp hdecode) (by omega)
      fun j hj hij => OccursAt.add_le htag hocc hj hij
  | case5 i found hin hocc ih => rw [ih, ← toFind_succ hocc]
  | case6 i found hin => exact toFind_end hin

theorem extractHfcFrom_iff (htag : IsTag MERGE_MINE_MAGIC) (found : Option Hash) :
    WitnessChain.extractHfcFrom payload i found = some h ↔
      ToFind MERGE_MINE_MAGIC payload i h found := by
  fun_induction WitnessChain.extractHfcFrom payload i found with
  | case1 i found hin hocc start stop hshort =>
    refine iff_of_false nofun fun hfind => ?_
    cases found with
    | none =>
      have := ((onceFrom_iff hocc).mp hfind).1.le_length
      omega
    | some hash => exact hfind.2 i (le_refl i) hocc
  | case2 i found hin hocc start stop hshort hdecode =>
    refine iff_of_false nofun fun hfind => ?_
    cases found with
    | none =>
      rw [WitnessChain.decodeHex32_iff.mpr ((onceFrom_iff hocc).mp hfind).1] at hdecode
      cases hdecode
    | some hash => exact hfind.2 i (le_refl i) hocc
  | case3 i found hin hocc start stop hshort hash hdecode hfound =>
    obtain ⟨hash, rfl⟩ := isSome_iff_exists.mp hfound
    exact iff_of_false nofun fun hfind => hfind.2 i (le_refl i) hocc
  | case4 i found hin hocc start stop hshort hash hdecode hfound ih =>
    obtain rfl := not_isSome_iff_eq_none.mp hfound
    have hdigits : FollowedBy payload i hash := WitnessChain.decodeHex32_iff.mp hdecode
    rw [ih]
    exact toFind_after hocc hdigits (by omega)
      fun j hj hij => hdigits.add_le htag hj (OccursAt.add_le htag hocc hj hij)
  | case5 i found hin hocc ih => rw [ih, ← toFind_succ hocc]
  | case6 i found hin => exact toFind_end hin

/-- A payload commits to a hash: the tag is at a single offset, and the digits follow. -/
def Commits (magic : List.Vector UInt8 4) (payload : List UInt8) (h : Hash) : Prop :=
  ∃ k, (∀ j, OccursAt magic payload j ↔ j = k) ∧ FollowedBy payload k h

theorem onceFrom_zero : OnceFrom magic payload 0 h ↔ Commits magic payload h :=
  exists_congr fun _ => by simp

theorem payloadCommitment_eq_some (htag : IsTag magic) :
    payloadCommitment payload magic = some h ↔ Commits magic payload h :=
  (payloadCommitmentFrom_iff htag none).trans onceFrom_zero

theorem extractHfc_eq_some :
    WitnessChain.extractHfc payload = some h ↔ Commits MERGE_MINE_MAGIC payload h :=
  (extractHfcFrom_iff (isTag_magic (Or.inl rfl)) none).trans onceFrom_zero

/-- A payload with the tag and the digits commits to the hash, if the tag is not in the bytes before
or after. It cannot begin in the tag or in the digits, nor end in the tag. -/
theorem commits_embed (htag : IsTag magic) {before after : List UInt8}
    (hbefore : ∀ j, ¬ OccursAt magic before j) (hafter : ∀ j, ¬ OccursAt magic after j) :
    Commits magic (before ++ magic.toList ++ encodeHex32 h ++ after) h := by
  have hlen := magic.toList_length
  have hhere : OccursAt magic (before ++ magic.toList ++ encodeHex32 h ++ after) before.length := by
    rw [OccursAt, append_assoc, append_assoc, drop_left, take_left' hlen]
  have hdigits : FollowedBy (before ++ magic.toList ++ encodeHex32 h ++ after) before.length h := by
    have hstart : before.length + 4 = (before ++ magic.toList).length := by rw [length_append, hlen]
    rw [FollowedBy, hstart, append_assoc, drop_left, take_left' (length_encodeHex32 h)]
  refine ⟨before.length, fun j => ⟨fun hj => ?_, fun heq => heq ▸ hhere⟩, hdigits⟩
  rcases lt_trichotomy j before.length with hlt | heq | hgt
  · have hle := OccursAt.add_le htag hj hhere hlt
    refine absurd ?_ (hbefore j)
    rw [OccursAt, append_assoc, append_assoc, drop_append_of_le_length hlt.le,
      take_append_of_le_length (by rw [length_drop]; omega)] at hj
    exact hj
  · exact heq
  · have hle := hdigits.add_le htag hj (OccursAt.add_le htag hhere hj hgt)
    have hstop : (before ++ magic.toList ++ encodeHex32 h).length ≤ j := by
      rw [length_append, length_append, hlen, length_encodeHex32]
      exact hle
    refine absurd ?_ (hafter (j - (before ++ magic.toList ++ encodeHex32 h).length))
    rw [OccursAt, drop_append, drop_of_length_le hstop, nil_append] at hj
    exact hj

end

/-- A payload commitment is read just if the tag occurs at a single offset and the digits follow.
The bridge reads the same. A commitment that is embedded between bytes without the tag is read back.
A coinbase without a commitment binds no block. -/
theorem payload_commitments :
    (∀ magic, magic = MERGE_MINE_MAGIC ∨ magic = MERGE_MINE_MAGIC_V1 → ∀ (payload : List UInt8) h,
      payloadCommitment payload magic = some h ↔ ∃ k, (∀ j, OccursAt magic payload j ↔ j = k) ∧
        (payload.drop (k + 4)).take 64 = encodeHex32 h) ∧
    (∀ payload, WitnessChain.extractHfc payload = payloadCommitment payload MERGE_MINE_MAGIC) ∧
    (∀ before after h, (∀ j, ¬ OccursAt MERGE_MINE_MAGIC before j) →
      (∀ j, ¬ OccursAt MERGE_MINE_MAGIC after j) →
      payloadCommitment (embedCommitment before h after) MERGE_MINE_MAGIC = some h) ∧
    (∀ before after h, (∀ j, ¬ OccursAt MERGE_MINE_MAGIC_V1 before j) →
      (∀ j, ¬ OccursAt MERGE_MINE_MAGIC_V1 after j) →
      payloadCommitment (embedCommitmentV1 before h after) MERGE_MINE_MAGIC_V1 = some h) ∧
    (∀ (digest : Digest) (aux : AuxPow),
      payloadCarriesCommitment aux.parent_coinbase.payload.val = false →
      (∀ expected, aux.verifyBinding digest expected = false) ∧ ∀ genesis nonce_free_header_hash,
          aux.verifyBindingV1 digest genesis nonce_free_header_hash = false) := by
  have htag : IsTag MERGE_MINE_MAGIC := isTag_magic (Or.inl rfl)
  have htagV1 : IsTag MERGE_MINE_MAGIC_V1 := isTag_magic (Or.inr rfl)
  refine ⟨fun magic hmagic payload h => ?_, fun payload => ?_, fun before after h hb ha => ?_,
    fun before after h hb ha => ?_, fun digest aux hcarries => ?_⟩
  · exact payloadCommitment_eq_some (isTag_magic hmagic)
  · refine ext fun h => ?_
    rw [extractHfc_eq_some, payloadCommitment_eq_some htag]
  · exact (payloadCommitment_eq_some htag).mpr (commits_embed htag hb ha)
  · exact (payloadCommitment_eq_some htagV1).mpr (commits_embed htagV1 hb ha)
  · rw [payloadCarriesCommitment, Bool.or_eq_false_iff, isSome_eq_false_iff,
      isSome_eq_false_iff, isNone_iff_eq_none, isNone_iff_eq_none] at hcarries
    obtain ⟨hnone, hnoneV1⟩ := hcarries
    constructor
    · intro expected
      rw [verifyBinding, committedHash, hnone]
      rfl
    · intro genesis nonce_free_header_hash
      rw [verifyBindingV1, committedHashV1, hnoneV1]
      rfl

namespace Sample

/-- A hash that is embedded between the first characters of a tag is read back. -/
theorem payload_commitments_embedded :
    payloadCommitment (embedCommitment (ascii ['Z', 'K']) zeroHash (ascii ['M']))
      MERGE_MINE_MAGIC = some zeroHash := by
  have hshort {s : List UInt8} (hs : s.length < 4) (j : ℕ) : ¬ OccursAt MERGE_MINE_MAGIC s j :=
    fun hj => by
      have := hj.le_length
      omega
  exact payload_commitments.2.2.1 _ _ zeroHash (hshort (by decide)) (hshort (by decide))

end Sample

end Zkas.Pow
