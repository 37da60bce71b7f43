import Zkas.Lib.Checked
import Zkas.Lib.Codec

/-!
# Reading a byte slice

A reader holds a slice and a position in it; a parser moves the position and may fail. A parser
*decodes* a format when it gets back every value that was written, whatever follows it, and accepts
nothing else. Formats are composed as the parsers are. The encodings are those of `Framing`, with
words in either byte order. -/

namespace Reader

open Framing List Except

/-- A slice and a position in it. -/
structure Cursor where
  buf : List UInt8
  pos : ℕ
  pos_le : pos ≤ buf.length

namespace Cursor

/-- A reader at the start of a slice. -/
def new (buf : List UInt8) : Cursor := ⟨buf, 0, Nat.zero_le _⟩

/-- What is left to read. -/
def rest (c : Cursor) : List UInt8 := c.buf.drop c.pos

/-- Whether everything was read. -/
def finished (c : Cursor) : Bool := c.pos == c.buf.length

@[simp] theorem rest_new (buf : List UInt8) : (new buf).rest = buf := rfl

theorem finished_iff {c : Cursor} : c.finished = true ↔ c.rest = [] := by
  have hle := c.pos_le
  rw [finished, beq_iff_eq, rest, drop_eq_nil_iff]
  omega

end Cursor

/-- What a reader moves over a slice to return a value. -/
abbrev Parser (ε : Type) := StateT Cursor (Except ε)

/-- The errors of a reader: a position past the machine's words, and a slice that ends too early. -/
structure ReadError (ε : Type) where
  overflow : ε
  eof : ε

variable {ε α β : Type} (E : ReadError ε)

/-- The next bytes, as many as asked for. -/
def take (n : ℕ) : Parser ε (List.Vector UInt8 n) := fun c =>
  if 2 ^ 64 ≤ c.pos + n then .error E.overflow
  else if h : c.pos + n ≤ c.buf.length then
    .ok (⟨c.rest.take n, by rw [Cursor.rest, length_take, length_drop]; omega⟩,
      ⟨c.buf, c.pos + n, h⟩)
  else .error E.eof

/-- A reader whose error is replaced. -/
def mapErr (f : ε → ε) (p : Parser ε α) : Parser ε α := fun c => (p c).mapError f

/-- Bytes as an array of a given length. -/
def tryInto (e : ε) (n : ℕ) (bs : List UInt8) : Parser ε (List.Vector UInt8 n) := fun c =>
  if h : bs.length = n then .ok (⟨bs, h⟩, c) else .error e

/-- A reader used a number of times. -/
def many : ℕ → Parser ε α → Parser ε (List α)
  | 0, _ => pure []
  | n + 1, p => do
    let x ← p
    let xs ← many n p
    return x :: xs

/-! ## Words -/

variable (bs : List UInt8)

/-- The number with these little-endian bytes. -/
def natOfBytes : ℕ := bs.foldr (fun b n => b.toNat + 256 * n) 0

theorem leBytes_natOfBytes : leBytes bs.length (natOfBytes bs) = bs := by
  induction bs with
  | nil => rfl
  | cons b bs ih =>
    have hb := b.toNat_lt
    have hlow : UInt8.ofNat (b.toNat + 256 * natOfBytes bs) = b := by
      apply UInt8.toNat_inj.mp
      rw [UInt8.toNat_ofNat']
      omega
    have hhigh : (b.toNat + 256 * natOfBytes bs) / 256 = natOfBytes bs := by omega
    have hcons : natOfBytes (b :: bs) = b.toNat + 256 * natOfBytes bs := rfl
    rw [length_cons, leBytes, hcons, hlow, hhigh, ih]

theorem natOfBytes_lt : natOfBytes bs < 256 ^ bs.length := by
  induction bs with
  | nil => exact Nat.one_pos
  | cons b bs ih =>
    have hb := b.toNat_lt
    have hcons : natOfBytes (b :: bs) = b.toNat + 256 * natOfBytes bs := rfl
    rw [hcons, length_cons, pow_succ]
    omega

/-- The word with these little-endian bytes. -/
def wordOfBytes (w : ℕ) (bs : List UInt8) : BitVec w := BitVec.ofNat w (natOfBytes bs)

theorem wordBytes_wordOfBytes {w : ℕ} (hw : 8 ∣ w) {bs : List UInt8} (hlen : bs.length = w / 8) :
    wordBytes (wordOfBytes w bs) = bs := by
  have hpow : 256 ^ (w / 8) = 2 ^ w := by
    rw [show 256 = 2 ^ 8 from rfl, ← pow_mul, Nat.mul_div_cancel' hw]
  have hlt : natOfBytes bs < 2 ^ w := by
    have := natOfBytes_lt bs
    rwa [hlen, hpow] at this
  have hval : (wordOfBytes w bs).toNat = natOfBytes bs := by
    rw [wordOfBytes, BitVec.toNat_ofNat, Nat.mod_eq_of_lt hlt]
  rw [wordBytes, hval, ← hlen, leBytes_natOfBytes]

theorem wordOfBytes_wordBytes {w : ℕ} (hw : 8 ∣ w) (x : BitVec w) :
    wordOfBytes w (wordBytes x) = x :=
  wordBytes_inj hw (wordBytes_wordOfBytes hw (length_wordBytes x))

/-- The big-endian bytes of a word. -/
def beBytes {w : ℕ} (x : BitVec w) : List UInt8 := (wordBytes x).reverse

@[simp] theorem length_beBytes {w : ℕ} (x : BitVec w) : (beBytes x).length = w / 8 := by
  rw [beBytes, length_reverse, length_wordBytes]

/-- A byte. -/
def u8 : Parser ε UInt8 := do
  let bs ← take E 1
  return bs.head

/-- A word from its little-endian bytes. -/
def wordLe (w : ℕ) : Parser ε (BitVec w) := do
  let bs ← take E (w / 8)
  return wordOfBytes w bs.toList

variable (p : Parser ε α)

/-- A sequence after its length, in four bytes. -/
def vec : Parser ε (List α) := do
  let n ← wordLe E 32
  many n.toNat p

/-- The bytes of a sequence after its length. -/
def vecLe (enc : α → List UInt8) (xs : List α) : List UInt8 :=
  wordBytes (BitVec.ofNat 32 xs.length) ++ xs.flatMap enc

/-- A word from its big-endian bytes. -/
def wordBe (w : ℕ) : Parser ε (BitVec w) := do
  let bs ← take E (w / 8)
  return wordOfBytes w bs.toList.reverse

/-! ## Formats -/

/-- A parser gets back every valid value that was written, whatever follows it, and accepts nothing
but encodings of valid values. -/
structure Decodes (enc : α → List UInt8) (valid : α → Prop) : Prop where
  complete : ∀ {c : Cursor} {a : α} {r : List UInt8}, valid a → c.buf.length < 2 ^ 64 →
    c.rest = enc a ++ r → ∃ c', p c = .ok (a, c') ∧ c'.buf = c.buf ∧ c'.rest = r
  sound : ∀ {c c' : Cursor} {a : α}, p c = .ok (a, c') →
    valid a ∧ c'.buf = c.buf ∧ c.rest = enc a ++ c'.rest

theorem bind_apply (f : α → Parser ε β) (c : Cursor) :
    (p >>= f) c = p c >>= fun ac => f ac.1 ac.2 := rfl

theorem bind_eq_ok {p : Parser ε α} {f : α → Parser ε β} {c : Cursor} {b : β × Cursor} :
    (p >>= f) c = .ok b ↔ ∃ a c', p c = .ok (a, c') ∧ f a c' = .ok b := by
  rw [bind_apply, bind_eq_ok_iff]
  constructor
  · rintro ⟨⟨a, c'⟩, hp, hf⟩
    exact ⟨a, c', hp, hf⟩
  · rintro ⟨a, c', hp, hf⟩
    exact ⟨(a, c'), hp, hf⟩

theorem bind_congr {p : Parser ε α} {f g : α → Parser ε β} {c : Cursor}
    (h : ∀ a c', p c = .ok (a, c') → f a c' = g a c') : (p >>= f) c = (p >>= g) c := by
  rw [bind_apply, bind_apply]
  cases hp : p c with
  | error e => rfl
  | ok ac => exact h ac.1 ac.2 hp

namespace Decodes

variable {p : Parser ε α} {enc : α → List UInt8} {valid : α → Prop}

theorem congr {enc' : α → List UInt8} {valid' : α → Prop} (h : Decodes p enc valid)
    (hvalid : ∀ a, valid' a ↔ valid a) (henc : ∀ a, valid a → enc' a = enc a) :
    Decodes p enc' valid' where
  complete {c a r} ha hlen hrest := by
    have ha' := (hvalid a).mp ha
    exact h.complete ha' hlen (henc a ha' ▸ hrest)
  sound {c c' a} hok := by
    obtain ⟨ha, hbuf, hrest⟩ := h.sound hok
    exact ⟨(hvalid a).mpr ha, hbuf, (henc a ha).symm ▸ hrest⟩

protected theorem pure (a : α) : Decodes (pure a : Parser ε α) (fun _ => []) (· = a) where
  complete {c a' r} ha _ hrest := ⟨c, by rw [ha]; rfl, rfl, hrest⟩
  sound {c c' a'} hok := by
    obtain ⟨rfl, rfl⟩ := Prod.mk.inj (ok.inj hok)
    exact ⟨rfl, rfl, rfl⟩

/-- A field, and then what follows it once the field is known. -/
protected theorem bind {f : α → Parser ε β} {enc' : β → List UInt8} {valid' : α → β → Prop}
    (π : β → α) (h : Decodes p enc valid)
    (hf : ∀ a, valid a → Decodes (f a) enc' (valid' a)) (hπ : ∀ a b, valid' a b → π b = a) :
    Decodes (p >>= f) (fun b => enc (π b) ++ enc' b) fun b => valid (π b) ∧ valid' (π b) b where
  complete {c b r} hb hlen hrest := by
    rw [append_assoc] at hrest
    obtain ⟨c₁, hp, hbuf₁, hrest₁⟩ := h.complete hb.1 hlen hrest
    obtain ⟨c₂, hq, hbuf₂, hrest₂⟩ := (hf _ hb.1).complete hb.2 (hbuf₁ ▸ hlen) hrest₁
    exact ⟨c₂, bind_eq_ok.mpr ⟨_, _, hp, hq⟩, hbuf₂.trans hbuf₁, hrest₂⟩
  sound {c c₂ b} hok := by
    obtain ⟨a, c₁, hp, hq⟩ := bind_eq_ok.mp hok
    obtain ⟨ha, hbuf₁, hrest₁⟩ := h.sound hp
    obtain ⟨hb, hbuf₂, hrest₂⟩ := (hf a ha).sound hq
    obtain rfl := hπ a b hb
    refine ⟨⟨ha, hb⟩, hbuf₂.trans hbuf₁, ?_⟩
    rw [hrest₁, hrest₂, append_assoc]

/-- A format read through a correspondence of its values. -/
protected theorem map {valid' : β → Prop} (h : Decodes p enc valid) (g : α → β) (π : β → α)
    (hπ : ∀ b, valid' b → valid (π b) ∧ g (π b) = b)
    (hg : ∀ a, valid a → π (g a) = a ∧ valid' (g a)) :
    Decodes (do let a ← p; return g a) (fun b => enc (π b)) valid' := by
  have hpure (a : α) (ha : valid a) :
      Decodes (pure (g a) : Parser ε β) (fun _ => []) fun b => valid a ∧ b = g a :=
    (Decodes.pure (g a)).congr (fun _ => and_iff_right ha) fun _ _ => rfl
  have hread := Decodes.bind π h hpure fun a b hb => hb.2 ▸ (hg a hb.1).1
  refine hread.congr (fun b => ⟨fun hb => ?_, fun hb => ?_⟩) fun b _ => (append_nil _).symm
  · obtain ⟨hvalid, heq⟩ := hπ b hb
    exact ⟨hvalid, hvalid, heq.symm⟩
  · obtain ⟨hvalid, -, heq⟩ := hb
    rw [heq]
    exact (hg _ hvalid).2

protected theorem guard {P : Prop} [Decidable P] {e : ε} (h : P → Decodes p enc valid) :
    Decodes (if P then p else throw e) enc fun a => P ∧ valid a := by
  by_cases hP : P
  · rw [if_pos hP]
    exact (h hP).congr (fun _ => and_iff_right hP) fun _ _ => rfl
  · rw [if_neg hP]
    exact ⟨fun ha => absurd ha.1 hP, fun hok => by cases hok⟩

/-- A field that is there under a condition. -/
protected theorem optional {P : Prop} [Decidable P] (h : Decodes p enc valid) :
    Decodes (if P then do let a ← p; return some a else return none)
      (fun o : Option α => o.elim [] enc) fun o => (o.isSome ↔ P) ∧ ∀ a ∈ o, valid a := by
  by_cases hP : P
  · rw [if_pos hP]
    constructor
    · rintro c (_ | a) r ⟨hsome, hvalid⟩ hlen hrest
      · exact absurd (hsome.mpr hP) Bool.false_ne_true
      · obtain ⟨c', hok, hc'⟩ := h.complete (hvalid a rfl) hlen hrest
        exact ⟨c', bind_eq_ok.mpr ⟨a, c', hok, rfl⟩, hc'⟩
    · intro c c' o hok
      obtain ⟨a, c₁, hread, heq⟩ := bind_eq_ok.mp hok
      obtain ⟨rfl, rfl⟩ := Prod.mk.inj (ok.inj heq)
      obtain ⟨hvalid, hrest⟩ := h.sound hread
      exact ⟨⟨iff_of_true rfl hP, fun a ha => Option.some.inj ha ▸ hvalid⟩, hrest⟩
  · rw [if_neg hP]
    refine (Decodes.pure none).congr (fun o => ?_) fun o ho => by rw [ho]; rfl
    constructor
    · intro ho
      rw [iff_false_intro hP, iff_false, Bool.not_eq_true, Option.isSome_eq_false_iff] at ho
      exact Option.isNone_iff_eq_none.mp ho.1
    · rintro rfl
      exact ⟨iff_of_false Bool.false_ne_true hP, fun a ha => nomatch ha⟩

protected theorem mapErr (f : ε → ε) (h : Decodes p enc valid) :
    Decodes (mapErr f p) enc valid where
  complete {c a r} ha hlen hrest := by
    obtain ⟨c', hp, hc'⟩ := h.complete ha hlen hrest
    exact ⟨c', mapError_eq_ok.mpr hp, hc'⟩
  sound hok := h.sound (mapError_eq_ok.mp hok)

/-- Bytes are the array they make. -/
protected theorem tryInto (e : ε) (n : ℕ) (bs : List UInt8) :
    Decodes (tryInto e n bs) (fun _ => []) fun v => v.toList = bs where
  complete {c v r} hv _ hrest := by
    obtain rfl := hv
    refine ⟨c, ?_, rfl, hrest⟩
    rw [tryInto, dif_pos v.toList_length]
    exact congrArg (fun v => ok (v, c)) (Subtype.ext rfl)
  sound {c c' v} hok := by
    unfold tryInto at hok
    split_ifs at hok with h
    obtain ⟨rfl, rfl⟩ := Prod.mk.inj (ok.inj hok)
    exact ⟨rfl, rfl, rfl⟩

/-- A number of records. -/
protected theorem many (h : Decodes p enc valid) (n : ℕ) :
    Decodes (many n p) (fun xs => xs.flatMap enc) fun xs => xs.length = n ∧ ∀ x ∈ xs, valid x := by
  induction n with
  | zero =>
    refine (Decodes.pure []).congr (fun xs => ?_) fun xs hxs => by rw [hxs]; rfl
    rw [length_eq_zero_iff, and_iff_left_iff_imp]
    rintro rfl
    simp
  | succ n ih =>
    -- The invariant at each round: the records read so far are the first ones of the list.
    constructor
    · intro c xs r hxs hlen hrest
      obtain ⟨x, xs, rfl⟩ := exists_cons_of_length_eq_add_one hxs.1
      rw [flatMap_cons, append_assoc] at hrest
      obtain ⟨c₁, hp, hbuf₁, hrest₁⟩ := h.complete (hxs.2 x mem_cons_self) hlen hrest
      have htail : xs.length = n ∧ ∀ y ∈ xs, valid y :=
        ⟨Nat.succ.inj hxs.1, fun y hy => hxs.2 y (mem_cons_of_mem x hy)⟩
      obtain ⟨c₂, hq, hbuf₂, hrest₂⟩ := ih.complete htail (hbuf₁ ▸ hlen) hrest₁
      have hrun : many (n + 1) p c = .ok (x :: xs, c₂) :=
        bind_eq_ok.mpr ⟨x, c₁, hp, bind_eq_ok.mpr ⟨xs, c₂, hq, rfl⟩⟩
      exact ⟨c₂, hrun, hbuf₂.trans hbuf₁, hrest₂⟩
    · intro c c₂ ys hok
      obtain ⟨x, c₁, hp, hok⟩ := bind_eq_ok.mp hok
      obtain ⟨xs, c₂, hq, heq⟩ := bind_eq_ok.mp hok
      obtain ⟨rfl, rfl⟩ := Prod.mk.inj (ok.inj heq)
      obtain ⟨hx, hbuf₁, hrest₁⟩ := h.sound hp
      obtain ⟨⟨hlen, hxs⟩, hbuf₂, hrest₂⟩ := ih.sound hq
      refine ⟨⟨by rw [length_cons, hlen], ?_⟩, hbuf₂.trans hbuf₁, ?_⟩
      · intro y hy
        rcases mem_cons.mp hy with rfl | hy
        exacts [hx, hxs y hy]
      · rw [hrest₁, hrest₂, flatMap_cons, append_assoc]

variable {E : ReadError ε}

/-- A fixed number of bytes. -/
protected theorem take (n : ℕ) : Decodes (take E n) List.Vector.toList fun _ => True where
  complete {c v r} _ hlen hrest := by
    have hle := c.pos_le
    have hroom : c.buf.length - c.pos = n + r.length := by
      have := congrArg length hrest
      rwa [Cursor.rest, length_drop, length_append, List.Vector.toList_length] at this
    have hend : c.pos + n ≤ c.buf.length := by omega
    have hword : ¬2 ^ 64 ≤ c.pos + n := by omega
    have hbytes : c.rest.take n = v.toList := by rw [hrest, take_left' v.toList_length]
    have hleft : c.buf.drop (c.pos + n) = r := by
      rw [← drop_drop]
      exact (congrArg (drop n) hrest).trans (drop_left' v.toList_length)
    refine ⟨⟨c.buf, c.pos + n, hend⟩, ?_, rfl, hleft⟩
    rw [take, if_neg hword, dif_pos hend]
    exact congrArg (fun v => ok (v, _)) (Subtype.ext hbytes)
  sound {c c' v} hok := by
    unfold take at hok
    split_ifs at hok with hword hend
    obtain ⟨rfl, rfl⟩ := Prod.mk.inj (ok.inj hok)
    refine ⟨trivial, rfl, ?_⟩
    have hleft : c.buf.drop (c.pos + n) = c.rest.drop n := drop_drop.symm
    exact (take_append_drop n c.rest).symm.trans (congrArg _ hleft.symm)

/-- A number of bytes known only when they are read, as a list. -/
protected theorem takeList (n : ℕ) :
    Decodes (do let bs ← take E n; return bs.toList) (fun bs => bs) fun bs => bs.length = n where
  complete {c bs r} hlen hbuf hrest := by
    obtain ⟨c', hok, hc'⟩ := (Decodes.take (E := E) n).complete (a := ⟨bs, hlen⟩) trivial hbuf hrest
    exact ⟨c', bind_eq_ok.mpr ⟨_, _, hok, rfl⟩, hc'⟩
  sound {c c' bs} hok := by
    obtain ⟨v, c₁, htake, heq⟩ := bind_eq_ok.mp hok
    obtain ⟨rfl, rfl⟩ := Prod.mk.inj (ok.inj heq)
    obtain ⟨-, hbuf, hrest⟩ := (Decodes.take n).sound htake
    exact ⟨v.toList_length, hbuf, hrest⟩

protected theorem u8 : Decodes (u8 E) (fun b => [b]) fun _ => True := by
  have hhead (bs : List.Vector UInt8 1) : (⟨[bs.head], rfl⟩ : List.Vector UInt8 1) = bs := by
    obtain ⟨b, hb⟩ := length_eq_one_iff.mp bs.toList_length
    obtain rfl : bs = ⟨[b], rfl⟩ := Subtype.ext hb
    rfl
  exact (Decodes.take 1).map (fun bs => bs.head) (fun b => ⟨[b], rfl⟩)
    (fun _ _ => ⟨trivial, rfl⟩) fun bs _ => ⟨hhead bs, trivial⟩

protected theorem wordLe {w : ℕ} (hw : 8 ∣ w) : Decodes (wordLe E w) wordBytes fun _ => True :=
  (Decodes.take (w / 8)).map (fun bs => wordOfBytes w bs.toList)
    (fun x => ⟨wordBytes x, length_wordBytes x⟩)
    (fun x _ => ⟨trivial, wordOfBytes_wordBytes hw x⟩)
    fun bs _ => ⟨Subtype.ext (wordBytes_wordOfBytes hw bs.toList_length), trivial⟩

/-- A sequence after its length in four bytes. -/
protected theorem vec (h : Decodes p enc valid) :
    Decodes (vec E p) (vecLe enc) fun xs => xs.length < 2 ^ 32 ∧ ∀ x ∈ xs, valid x := by
  have hread := Decodes.bind (fun xs : List α => BitVec.ofNat 32 xs.length)
    (Decodes.wordLe (E := E) (w := 32) (by decide))
    (fun n _ => (h.many n.toNat).congr (fun _ => Iff.rfl) fun _ _ => rfl)
    fun n xs hxs => by rw [hxs.1, BitVec.ofNat_toNat, BitVec.setWidth_eq]
  refine hread.congr (fun xs => ?_) fun _ _ => rfl
  rw [true_and, BitVec.toNat_ofNat]
  refine and_congr_left fun _ => ⟨fun hlt => (Nat.mod_eq_of_lt hlt).symm, fun heq => ?_⟩
  rw [heq]
  exact Nat.mod_lt _ (by decide)

/-- A word of whole bytes, most significant byte first. -/
protected theorem wordBe {w : ℕ} (hw : 8 ∣ w) : Decodes (wordBe E w) beBytes fun _ => True := by
  refine (Decodes.take (w / 8)).map (fun bs => wordOfBytes w bs.toList.reverse)
    (fun x => ⟨beBytes x, length_beBytes x⟩) (fun x _ => ⟨trivial, ?_⟩)
    fun bs _ => ⟨Subtype.ext ?_, trivial⟩
  · change wordOfBytes w (wordBytes x).reverse.reverse = x
    rw [reverse_reverse, wordOfBytes_wordBytes hw]
  · have hlen : bs.toList.reverse.length = w / 8 := by rw [length_reverse, bs.toList_length]
    change (wordBytes (wordOfBytes w bs.toList.reverse)).reverse = bs.toList
    rw [wordBytes_wordOfBytes hw hlen, reverse_reverse]

end Decodes

end Reader
