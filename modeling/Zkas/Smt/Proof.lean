import Zkas.Smt.Tree

/-!
# Verification of proofs

Model of `crypto/smt/src/proof.rs`. `computeRootInner` reconstructs the root from a proof, with or
without a cache of branch hashes; `verify` and `verifyCached` compare it with a given root. Without
a cache the reconstruction is a climb along the path of the key (`computeRootInner_eq`). With a
cache it is not: a lookup is by position alone, and the entry of the root, which every climb ends
with, is that of the first proof that climbed. -/

namespace Zkas.Smt

open BitPath SparseTree List

variable {D : Type}

/-- Why a proof is malformed. -/
inductive SmtProofError where
  | SiblingCountMismatch (expected actual : ℕ)
  deriving DecidableEq, Repr

/-- The text of an error. -/
def SmtProofError.message : SmtProofError → String
  | SiblingCountMismatch expected actual =>
    s!"sibling count mismatch: bitmap implies {expected} non-empty siblings, but got {actual}"

/-- The number of siblings that a bitmap keeps above a depth. -/
def clearCount (bitmap : BitVec 256) (limit : ℕ) : ℕ :=
  (range limit).countP fun d => !isEmptyAtDepth bitmap d

/-- `bitmap_clear_count_before`. -/
def bitmapClearCountBefore (bitmap : BitVec 256) (terminal : ProofTerminal D) : ℕ :=
  clearCount bitmap terminal.depth

/-- Branch hashes by position. -/
abbrev ProofBranchCache (D : Type) := BranchKey → Option D

/-- `BTreeMap::insert`. -/
def ProofBranchCache.insert (cache : ProofBranchCache D) (bk : BranchKey) (hash : D) :
    ProofBranchCache D :=
  Function.update cache bk (some hash)

section

variable (H : SmtHasher D)

/-- The digest that the climb starts from. -/
def seed [DecidableEq D] (terminal : ProofTerminal D) (key : Key) (leaf_hash : Option D) : D :=
  match terminal, leaf_hash with
  | .collapsedOther _ leaf, none =>
    -- A foreign leaf, unless it has the key itself.
    if leaf.lane_key ≠ key then H.leaf leaf.lane_key leaf.leaf_hash else H.ZERO_HASH
  | _, some leaf_hash => H.leaf key leaf_hash
  | _, none => H.ZERO_HASH

/-- The branch hash at a position: from the cache, if there is one and it has the position. A new
hash is inserted. -/
def cachedOr (cache : Option (ProofBranchCache D)) (bk : BranchKey) (node_hash : D) :
    D × Option (ProofBranchCache D) :=
  match cache with
  | none => (node_hash, none)
  | some c =>
    match c bk with
    | some cached_hash => (cached_hash, some c)
    | none => (node_hash, some (c.insert bk node_hash))

/-- The sibling at a depth: that of an empty subtree, or the next one from the end of the list. -/
def takeSibling (bitmap : BitVec 256) (siblings : List D) (d sib_idx : ℕ) :
    Except (Fault SmtProofError) (D × ℕ) :=
  if isEmptyAtDepth bitmap d then .ok (H.empty (DEPTH - 1 - d), sib_idx)
  else match sib_idx with
    | 0 => .error .panic
    | i + 1 => (siblings[i]?.map fun s => (s, i)).okOr .panic

/-- The loop over the depths below `d`, from the bottom up. -/
def climbLoop (bitmap : BitVec 256) (siblings : List D) (key : Key) :
    ℕ → D → ℕ → Option (ProofBranchCache D) →
      Except (Fault SmtProofError) (D × Option (ProofBranchCache D))
  | 0, current, _, cache => .ok (current, cache)
  | d + 1, current, sib_idx, cache => do
    let (sibling, sib_idx) ← takeSibling H bitmap siblings d sib_idx
    let (left, right) := if bitAt key d then (sibling, current) else (current, sibling)
    let (current, cache) := cachedOr cache (.new d key) (H.node left right)
    climbLoop bitmap siblings key d current sib_idx cache

variable [DecidableEq D]

/-- `compute_root_inner`. -/
def computeRootInner (p : SmtProof D) (key : Key) (leaf_hash : Option D)
    (cache : Option (ProofBranchCache D)) :
    Except (Fault SmtProofError) (D × Option (ProofBranchCache D)) :=
  let expected := bitmapClearCountBefore p.bitmap p.terminal
  if p.siblings.length ≠ expected then
    .error (.err (.SiblingCountMismatch expected p.siblings.length))
  else
    climbLoop H p.bitmap p.siblings key p.terminal.depth (seed H p.terminal key leaf_hash)
      p.siblings.length cache

namespace SmtProof

/-- `SmtProof::compute_root`. -/
def computeRoot (p : SmtProof D) (key : Key) (leaf_hash : Option D) :
    Except (Fault SmtProofError) D :=
  (computeRootInner H p key leaf_hash none).map (·.1)

/-- `SmtProof::verify`. -/
def verify (p : SmtProof D) (key : Key) (leaf_hash : Option D) (root : D) :
    Except (Fault SmtProofError) Bool := do
  return (← p.computeRoot H key leaf_hash) = root

/-- `SmtProof::verify_cached`. An error comes before the cache is touched. -/
def verifyCached (p : SmtProof D) (key : Key) (leaf_hash : Option D) (root : D)
    (cache : ProofBranchCache D) : Except (Fault SmtProofError) Bool × ProofBranchCache D :=
  match computeRootInner H p key leaf_hash (some cache) with
  | .error e => (.error e, cache)
  | .ok (computed, cache') => (.ok (computed = root), cache'.getD cache)

end SmtProof

end

/-! ## The reconstruction is a climb -/

section

variable (H : SmtHasher D)

/-- The sibling that a proof has at a depth. -/
def siblingOf (bitmap : BitVec 256) (siblings : List D) (d : ℕ) : D :=
  if isEmptyAtDepth bitmap d then H.empty (DEPTH - 1 - d)
  else siblings.getD (clearCount bitmap d) H.ZERO_HASH

/-- The climb from a depth with these siblings. -/
def climbFrom (bitmap : BitVec 256) (siblings : List D) (key : Key) (d : ℕ) (current : D) : D :=
  climb H key 0 ((range d).map (siblingOf H bitmap siblings)) current

variable {H} {bitmap : BitVec 256} {siblings : List D} {key : Key} {d : ℕ}

theorem climbFrom_succ (current : D) : climbFrom H bitmap siblings key (d + 1) current =
    climbFrom H bitmap siblings key d (join H key d (siblingOf H bitmap siblings d) current) := by
  rw [climbFrom, range_succ, map_append, map_singleton, climb_concat, length_map,
    length_range, zero_add, climbFrom]

theorem clearCount_succ (bitmap : BitVec 256) (d : ℕ) :
    clearCount bitmap (d + 1) = clearCount bitmap d + if isEmptyAtDepth bitmap d then 0 else 1 := by
  rw [clearCount, range_succ, countP_append, clearCount]
  cases h : isEmptyAtDepth bitmap d <;> simp [h]

theorem clearCount_mono {e : ℕ} (h : d ≤ e) : clearCount bitmap d ≤ clearCount bitmap e :=
  (range_sublist.mpr h).countP_le

theorem climbLoop_succ (hlen : clearCount bitmap (d + 1) ≤ siblings.length) (current : D)
    (cache : Option (ProofBranchCache D)) :
    climbLoop H bitmap siblings key (d + 1) current (clearCount bitmap (d + 1)) cache =
      let r := cachedOr cache (.new d key) (join H key d (siblingOf H bitmap siblings d) current)
      climbLoop H bitmap siblings key d r.1 (clearCount bitmap d) r.2 := by
  have htake : takeSibling H bitmap siblings d (clearCount bitmap (d + 1)) =
      .ok (siblingOf H bitmap siblings d, clearCount bitmap d) := by
    have hcount := clearCount_succ bitmap d
    unfold takeSibling siblingOf
    cases hempty : isEmptyAtDepth bitmap d with
    | true =>
      rw [hempty, if_pos rfl] at hcount
      rw [if_pos rfl, if_pos rfl, hcount, add_zero]
    | false =>
      rw [hempty, if_neg Bool.false_ne_true] at hcount
      have hlt : clearCount bitmap d < siblings.length := by omega
      simp [hcount, getElem?_eq_getElem hlt, Option.okOr]
  rw [climbLoop, htake, join]
  unfold bitAt
  cases key.getMsbD d <;> rfl

theorem climbLoop_eq (current : D) (hlen : clearCount bitmap d ≤ siblings.length) :
    climbLoop H bitmap siblings key d current (clearCount bitmap d) none =
      .ok (climbFrom H bitmap siblings key d current, none) := by
  induction d generalizing current with
  | zero => rfl
  | succ d ih =>
    rw [climbLoop_succ hlen, climbFrom_succ]
    exact ih _ ((clearCount_mono (Nat.le_succ d)).trans hlen)

variable [DecidableEq D]

/-- What the reconstruction without a cache does. -/
theorem computeRootInner_eq (p : SmtProof D) (key : Key) (leaf_hash : Option D) :
    computeRootInner H p key leaf_hash none =
      if p.siblings.length = bitmapClearCountBefore p.bitmap p.terminal then
        .ok (climbFrom H p.bitmap p.siblings key p.terminal.depth (seed H p.terminal key leaf_hash),
          none)
      else .error (.err (.SiblingCountMismatch (bitmapClearCountBefore p.bitmap p.terminal)
        p.siblings.length)) := by
  unfold computeRootInner
  by_cases hlen : p.siblings.length = bitmapClearCountBefore p.bitmap p.terminal
  · rw [if_pos hlen, if_neg (not_not_intro hlen), hlen]
    exact climbLoop_eq _ hlen.ge
  · rw [if_neg hlen, if_pos hlen]

/-- A proof verifies when its siblings are as many as the bitmap keeps and climb to the root. -/
theorem verify_eq_true_iff {p : SmtProof D} {leaf_hash : Option D} {root : D} :
    p.verify H key leaf_hash root = .ok true ↔
      p.siblings.length = bitmapClearCountBefore p.bitmap p.terminal ∧
      climbFrom H p.bitmap p.siblings key p.terminal.depth (seed H p.terminal key leaf_hash) =
        root := by
  rw [SmtProof.verify, SmtProof.computeRoot, computeRootInner_eq]
  by_cases hlen : p.siblings.length = bitmapClearCountBefore p.bitmap p.terminal
  · simp [hlen, Except.map]
  · simp [hlen, Except.map]

end

/-! ## What verifies is true -/

section

variable {H : SmtHasher D} [DecidableEq D] {m : Key → Option D} {key : Key} {leaf_hash : Option D}

omit [DecidableEq D] in
theorem root_eq (key : Key) : root H m = (nodeAt H m 0 key).digest H (256 - 0) := by
  rw [root, nodeAt_agree (Nat.zero_le _) (agree_zero 0 key)]

variable (hH : H.Injective) (hempty : H.EmptyFollows)
include hH hempty

/-- A seed that is the digest of the node where the climb starts tells about the key. -/
theorem leaf_of_seed (terminal : ProofTerminal D) (h : seed H terminal key leaf_hash =
      (nodeAt H m terminal.depth key).digest H (256 - terminal.depth)) : m key = leaf_hash := by
  have hdepth : terminal.depth ≤ 256 := terminal.depth_le
  have habsent (hzero : seed H terminal key leaf_hash = H.empty 0) : m key = none := by
    have hnode := eq_empty_of_digest hH hdepth (h.symm.trans hzero)
    exact (nodeAt_eq_empty_iff hdepth).mp hnode key (.refl _ key)
  have hpresent {k : Key} {v : D} (hleaf : seed H terminal key leaf_hash = H.leaf k v) :
      m k = some v ∧ (key ≠ k → m key = none) := by
    have hnode := eq_collapsed_of_digest hH hempty hdepth (h.symm.trans hleaf)
    obtain ⟨-, hk, hother⟩ := (nodeAt_eq_collapsed_iff hdepth).mp hnode
    exact ⟨hk, hother key (.refl _ key)⟩
  cases leaf_hash with
  | some v =>
    have hleaf : seed H terminal key (some v) = H.leaf key v := by cases terminal <;> rfl
    exact (hpresent hleaf).1
  | none =>
    cases terminal with
    | full => exact habsent rfl
    | collapsed depth => exact habsent rfl
    | collapsedOther depth leaf =>
      by_cases hkey : leaf.lane_key = key
      · exact habsent (if_neg (not_not_intro hkey))
      · exact (hpresent (if_pos hkey)).2 (Ne.symm hkey)

/-- A proof that verifies against the root of a map, whatever it consists of, is about the map. -/
theorem verify_sound {p : SmtProof D}
    (h : p.verify H key leaf_hash (root H m) = .ok true) : m key = leaf_hash := by
  obtain ⟨-, hclimb⟩ := verify_eq_true_iff.mp h
  rw [root_eq key] at hclimb
  have hlen : 0 + ((range p.terminal.depth).map (siblingOf H p.bitmap p.siblings)).length =
      p.terminal.depth := by
    rw [length_map, length_range, zero_add]
  have hseed := climb_sound hH hempty (hlen.trans_le p.terminal.depth_le) hclimb
  rw [hlen] at hseed
  exact leaf_of_seed hH hempty p.terminal hseed

end

/-! ## Proofs from a stored tree verify -/

section

variable {bitmap : BitVec 256} {siblings : List D} {d e : ℕ}

theorem isEmptyAtDepth_markEmpty (hd : d < 256) :
    isEmptyAtDepth (markEmpty bitmap d) e = (isEmptyAtDepth bitmap e || decide (e = d)) := by
  unfold isEmptyAtDepth markEmpty
  simp [hd, eq_comm]

theorem isEmptyAtDepth_markEmptyFrom (he : e < 256) :
    isEmptyAtDepth (markEmptyFrom bitmap d) e = (isEmptyAtDepth bitmap e || decide (d ≤ e)) := by
  have hfold : ∀ l : List ℕ, (∀ i ∈ l, i < 256) → ∀ b : BitVec 256,
      isEmptyAtDepth (l.foldl markEmpty b) e = (isEmptyAtDepth b e || decide (e ∈ l)) := by
    intro l
    induction l with
    | nil => intro _ b; simp
    | cons i l ih =>
      intro hl b
      rw [foldl_cons, ih (fun j hj => hl j (mem_cons_of_mem _ hj)),
        isEmptyAtDepth_markEmpty (hl i mem_cons_self)]
      simp [Bool.or_assoc]
  rw [markEmptyFrom, hfold _ fun i hi => ?_]
  · have hmem : e ∈ range' d (DEPTH - d) ↔ d ≤ e := by
      rw [mem_range'_1]
      unfold DEPTH
      omega
    simp only [hmem]
  · rw [mem_range'_1] at hi
    unfold DEPTH at hi
    omega

theorem clearCount_congr {b b' : BitVec 256}
    (h : ∀ i < d, isEmptyAtDepth b i = isEmptyAtDepth b' i) : clearCount b d = clearCount b' d := by
  refine countP_congr fun i hi => ?_
  rw [h i (mem_range.mp hi)]

variable {ε : Type} {H : SmtHasher D} {m : Key → Option D} {store : SmtStore ε D} {key : Key}

/-- What the loop of `prove` has at a depth: the honest siblings above it, all below inner nodes. -/
structure Prepared (H : SmtHasher D) (m : Key → Option D) (key : Key) (d : ℕ) (bitmap : BitVec 256)
    (siblings : List D) : Prop where
  count : siblings.length = clearCount bitmap d
  above : ∀ e < d, siblingOf H bitmap siblings e = siblingAt H m e key
  inner : ∀ e < d, ∃ hash, nodeAt H m e key = .internal hash
  below : ∀ e, d ≤ e → isEmptyAtDepth bitmap e = false

theorem siblingOf_congr {b b' : BitVec 256} {s t : List D}
    (hbits : ∀ i ≤ e, isEmptyAtDepth b i = isEmptyAtDepth b' i)
    (hcount : clearCount b (e + 1) ≤ s.length) :
    siblingOf H b' (s ++ t) e = siblingOf H b s e := by
  have hsame := clearCount_congr fun i hi => hbits i (le_of_lt hi)
  have hnext := clearCount_succ b e
  unfold siblingOf
  rw [← hbits e le_rfl, ← hsame]
  cases hbit : isEmptyAtDepth b e with
  | true => rw [if_pos rfl, if_pos rfl]
  | false =>
    rw [hbit, if_neg Bool.false_ne_true] at hnext
    rw [if_neg Bool.false_ne_true, if_neg Bool.false_ne_true, getD_append _ _ _ _ (by omega)]

theorem readSibling_eq (hstore : Canonical H m store) (hd : d < 256)
    (hinner : ∀ e ≤ d, ∃ hash, nodeAt H m e key = .internal hash) :
    ∃ o, readSibling H store key d = .ok o ∧
      siblingAt H m d key = o.getD (H.empty (DEPTH - 1 - d)) := by
  unfold readSibling siblingAt
  by_cases hlast : d = DEPTH - 1
  · rw [if_pos hlast]
    subst hlast
    have hflip : key ^^^ BitVec.twoPow 256 (255 - (DEPTH - 1)) =
        withBit key (DEPTH - 1) !key.getMsbD (DEPTH - 1) := (withBit_not hd).symm
    have hbottom :
      nodeAt H m (DEPTH - 1 + 1) (withBit key (DEPTH - 1) !key.getMsbD (DEPTH - 1)) = _ :=
      nodeAt_bottom
    rw [hstore.getLeaf, hflip, hbottom]
    cases m (withBit key (DEPTH - 1) !key.getMsbD (DEPTH - 1)) with
    | none => exact ⟨none, rfl, rfl⟩
    | some v => exact ⟨some _, rfl, rfl⟩
  · have hlt : d + 1 < DEPTH := by
      unfold DEPTH at hlast ⊢
      omega
    have hread := hstore.getNode (d + 1) hlt (withBit key d !key.getMsbD d) fun e he => by
      have hagree : Agree e (withBit key d !key.getMsbD d) key :=
        (agree_withBit hd).mono (Nat.le_of_lt_succ he)
      rw [nodeAt_agree (by omega) hagree]
      exact hinner e (Nat.le_of_lt_succ he)
    rw [if_neg hlast, bitAt, childBranchKey_new hd, hread, height_succ]
    cases nodeAt H m (d + 1) (withBit key d !key.getMsbD d) with
    | empty => exact ⟨none, rfl, rfl⟩
    | collapsed k v => exact ⟨some _, rfl, rfl⟩
    | internal hash => exact ⟨some _, rfl, rfl⟩

section

variable (h : Prepared H m key d bitmap siblings)
include h

/-- A bitmap with the same bits above has the same siblings, whatever is listed after them. -/
theorem Prepared.siblingOf_eq {b : BitVec 256} {t : List D}
    (hbits : ∀ i < d, isEmptyAtDepth bitmap i = isEmptyAtDepth b i) (he : e < d) :
    siblingOf H b (siblings ++ t) e = siblingAt H m e key := by
  rw [← h.above e he]
  refine siblingOf_congr (fun i hi => hbits i (hi.trans_lt he)) ?_
  rw [h.count]
  exact clearCount_mono he

theorem Prepared.inner_le (hnode : ∃ hash, nodeAt H m d key = .internal hash) (he : e ≤ d) :
    ∃ hash, nodeAt H m e key = .internal hash := by
  rcases he.lt_or_eq with he | rfl
  · exact h.inner e he
  · exact hnode

theorem Prepared.mark (hd : d < 256) (hnode : ∃ hash, nodeAt H m d key = .internal hash)
    (hsib : siblingAt H m d key = H.empty (DEPTH - 1 - d)) :
    Prepared H m key (d + 1) (markEmpty bitmap d) siblings := by
  have hbits : ∀ i < d, isEmptyAtDepth bitmap i = isEmptyAtDepth (markEmpty bitmap d) i := by
    intro i hi
    rw [isEmptyAtDepth_markEmpty hd, decide_eq_false (ne_of_lt hi), Bool.or_false]
  have hself : isEmptyAtDepth (markEmpty bitmap d) d = true := by
    rw [isEmptyAtDepth_markEmpty hd, decide_eq_true rfl, Bool.or_true]
  refine ⟨?_, fun e he => ?_, fun e he => h.inner_le hnode (Nat.le_of_lt_succ he), fun e he => ?_⟩
  · rw [clearCount_succ, hself, if_pos rfl, add_zero, h.count, clearCount_congr hbits]
  · rcases Nat.lt_succ_iff_lt_or_eq.mp he with he | rfl
    · rw [← append_nil siblings, h.siblingOf_eq hbits he]
    · rw [siblingOf, hself, if_pos rfl, hsib]
  · rw [isEmptyAtDepth_markEmpty hd, h.below e (by omega), decide_eq_false (by omega),
      Bool.or_false]

theorem Prepared.push (hnode : ∃ hash, nodeAt H m d key = .internal hash) :
    Prepared H m key (d + 1) bitmap (siblings ++ [siblingAt H m d key]) := by
  have hself := h.below d le_rfl
  refine ⟨?_, fun e he => ?_, fun e he => h.inner_le hnode (Nat.le_of_lt_succ he),
    fun e he => h.below e (by omega)⟩
  · rw [length_append, length_singleton, h.count, clearCount_succ, hself, if_neg Bool.false_ne_true]
  · rcases Nat.lt_succ_iff_lt_or_eq.mp he with he | rfl
    · exact h.siblingOf_eq (fun _ _ => rfl) he
    · rw [siblingOf, hself, if_neg Bool.false_ne_true, ← h.count,
        getD_append_right _ _ _ _ le_rfl, Nat.sub_self]
      rfl

theorem Prepared.ne_collapsed (he : e < d) (k : Key) (v : D) :
    nodeAt H m e key ≠ .collapsed k v := by
  obtain ⟨hash, hnode⟩ := h.inner e he
  rw [hnode]
  exact fun hne => by cases hne

theorem Prepared.markFrom (hd : d ≤ 256) : siblings.length = clearCount (markEmptyFrom bitmap d) d ∧
      ∀ e < d, siblingOf H (markEmptyFrom bitmap d) siblings e = siblingAt H m e key := by
  have hbits : ∀ i < d, isEmptyAtDepth bitmap i = isEmptyAtDepth (markEmptyFrom bitmap d) i := by
    intro i hi
    rw [isEmptyAtDepth_markEmptyFrom (hi.trans_le hd), decide_eq_false (Nat.not_le_of_lt hi),
      Bool.or_false]
  refine ⟨h.count.trans (clearCount_congr hbits), fun e he => ?_⟩
  rw [← append_nil siblings, h.siblingOf_eq hbits he]

end

theorem clearCount_of_marked (hle : d ≤ e)
    (hmarked : ∀ i, d ≤ i → i < e → isEmptyAtDepth bitmap i = true) :
    clearCount bitmap e = clearCount bitmap d := by
  induction e, hle using Nat.le_induction with
  | base => rfl
  | succ e hle ih =>
    rw [clearCount_succ, hmarked e hle (Nat.lt_succ_self e), if_pos rfl, add_zero,
      ih fun i hi hlt => hmarked i hi (hlt.trans (Nat.lt_succ_self e))]

variable [DecidableEq D] (hempty : H.EmptyFollows)
include hempty

/-- A proof that starts from the digest of a node, with the honest siblings above it, verifies. -/
theorem verify_of_honest {terminal : ProofTerminal D}
    (hcount : siblings.length = clearCount bitmap terminal.depth)
    (habove : ∀ e < terminal.depth, siblingOf H bitmap siblings e = siblingAt H m e key)
    (hway : ∀ e < terminal.depth, ∀ k v, nodeAt H m e key ≠ .collapsed k v)
    (hseed : seed H terminal key (m key) =
      (nodeAt H m terminal.depth key).digest H (256 - terminal.depth)) :
    SmtProof.verify H { bitmap, siblings, terminal } key (m key) (root H m) = .ok true := by
  have hsiblings : (range terminal.depth).map (siblingOf H bitmap siblings) =
      (range' 0 (terminal.depth - 0)).map (siblingAt H m · key) := by
    rw [Nat.sub_zero, ← range_eq_range']
    exact map_congr_left fun e he => habove e (mem_range.mp he)
  refine verify_eq_true_iff.mpr ⟨hcount, ?_⟩
  rw [root_eq key, hseed, climbFrom, hsiblings]
  exact climb_honest hempty (Nat.zero_le _) terminal.depth_le fun e _ he => hway e he

theorem Prepared.verify_collapsed (h : Prepared H m key d bitmap siblings) (hd : d < 256)
    {k : Key} {v : D} (hnode : nodeAt H m d key = .collapsed k v)
    {terminal : ProofTerminal D} (hdepth : terminal.depth = d)
    (hseed : seed H terminal key (m key) = H.leaf k v) :
    SmtProof.verify H { bitmap := markEmptyFrom bitmap d, siblings, terminal } key (m key)
      (root H m) =
      .ok true := by
  obtain ⟨hcount, habove⟩ := h.markFrom hd.le
  subst hdepth
  refine verify_of_honest hempty hcount habove (fun e he => h.ne_collapsed he) ?_
  rw [hseed, hnode]
  rfl

theorem Prepared.verify_empty (h : Prepared H m key d bitmap siblings) (hd : d < 256)
    (hnode : nodeAt H m d key = .empty) :
    SmtProof.verify H { bitmap := markEmptyFrom bitmap d, siblings, terminal := .full } key (m key)
      (root H m) = .ok true := by
  obtain ⟨hcount, habove⟩ := h.markFrom hd.le
  have hnone := (nodeAt_eq_empty_iff hd.le).mp hnode
  have hmarked : ∀ i, d ≤ i → i < 256 → isEmptyAtDepth (markEmptyFrom bitmap d) i = true := by
    intro i hi hlt
    rw [isEmptyAtDepth_markEmptyFrom hlt, decide_eq_true hi, Bool.or_true]
  -- Below the empty node everything on the path is empty.
  have hpath {e : ℕ} (hle : d ≤ e) (he : e ≤ 256) {k : Key} (hk : Agree d key k) :
      nodeAt H m e k = .empty :=
    (nodeAt_eq_empty_iff he).mpr fun x hx => hnone x (hk.trans (hx.mono hle))
  refine verify_of_honest hempty ?_ (fun e he => ?_) (fun e he k v => ?_) ?_
  · exact hcount.trans (clearCount_of_marked hd.le hmarked).symm
  · rcases lt_or_ge e d with hlt | hge
    · exact habove e hlt
    · have hlt : e < 256 := he
      have hsib := hpath (e := e + 1) (Nat.le_succ_of_le hge) hlt
        ((agree_withBit (b := !key.getMsbD e) hlt).symm.mono hge)
      rw [siblingOf, hmarked e hge hlt, if_pos rfl, siblingAt, hsib, height_succ]
      rfl
  · rcases lt_or_ge e d with hlt | hge
    · exact h.ne_collapsed hlt k v
    · rw [hpath hge (le_of_lt he) (.refl d key)]
      exact fun hne => by cases hne
  · change seed H .full key (m key) = (nodeAt H m 256 key).digest H (256 - 256)
    rw [hpath hd.le le_rfl (.refl d key), hnone key (.refl d key)]
    rfl

theorem Prepared.verify_full (h : Prepared H m key 256 bitmap siblings) :
    SmtProof.verify H { bitmap, siblings, terminal := .full } key (m key) (root H m) =
      .ok true := by
  refine verify_of_honest hempty h.count h.above (fun e he => h.ne_collapsed he) ?_
  have hbottom : nodeAt H m 256 key = _ := nodeAt_bottom
  change seed H .full key (m key) = (nodeAt H m 256 key).digest H (256 - 256)
  rw [hbottom]
  cases m key <;> rfl

theorem Prepared.proveLoop (hstore : Canonical H m store) {left : ℕ}
    (hleft : d + left = 256) (h : Prepared H m key d bitmap siblings) :
    ∃ p, proveLoop H store key left bitmap siblings = .ok p ∧
      p.verify H key (m key) (root H m) = .ok true := by
  induction left generalizing d bitmap siblings with
  | zero =>
    obtain rfl : d = 256 := hleft
    exact ⟨_, rfl, h.verify_full hempty⟩
  | succ left ih =>
    have hd : d < 256 := by omega
    have hdepth : DEPTH - 1 - left = d := by
      unfold DEPTH
      omega
    have hfin : (Fin.ofNat 256 d).val = d := Nat.mod_eq_of_lt hd
    rw [proveLoop, hdepth, hstore.getNode d hd key h.inner]
    cases hnode : nodeAt H m d key with
    | empty => exact ⟨_, rfl, h.verify_empty hempty hd hnode⟩
    | collapsed k v =>
      obtain ⟨-, hk, hother⟩ := (nodeAt_eq_collapsed_iff hd.le).mp hnode
      by_cases hkey : k = key
      · subst hkey
        refine ⟨_, if_pos rfl, h.verify_collapsed hempty hd hnode hfin ?_⟩
        rw [hk]
        rfl
      · refine ⟨_, if_neg hkey, h.verify_collapsed hempty hd hnode hfin ?_⟩
        rw [hother key (.refl d key) (Ne.symm hkey)]
        exact if_pos hkey
    | internal hash =>
      obtain ⟨o, hread, hsib⟩ := readSibling_eq hstore hd fun e he => h.inner_le ⟨hash, hnode⟩ he
      have hnext : d + 1 + left = 256 := by omega
      simp only [NodeResult.node, Except.ok_bind, hread]
      cases o with
      | none => exact ih hnext (h.mark hd ⟨hash, hnode⟩ hsib)
      | some sibling =>
        obtain rfl : siblingAt H m d key = sibling := hsib
        exact ih hnext (h.push ⟨hash, hnode⟩)

theorem prove_verifies (hstore : Canonical H m store) (key : Key) :
    ∃ p, prove H store key = .ok p ∧ p.verify H key (m key) (root H m) = .ok true := by
  refine Prepared.proveLoop hempty hstore (d := 0) rfl ⟨rfl, ?_, ?_, ?_⟩
  · exact fun e he => absurd he (Nat.not_lt_zero e)
  · exact fun e he => absurd he (Nat.not_lt_zero e)
  · exact fun e _ => BitVec.getLsbD_zero

end

/-- Proofs are exact. The proof of a stored tree for a key verifies with what the map has for the
key, and any proof that verifies against the root of the map is about what the map has. -/
theorem verify_exact [DecidableEq D] {ε : Type} {H : SmtHasher D} (hH : H.Injective)
    (hempty : H.EmptyFollows) {m : Key → Option D} {store : SmtStore ε D}
    (hstore : Canonical H m store) :
    (∀ key, ∃ p, prove H store key = .ok p ∧ p.verify H key (m key) (root H m) = .ok true) ∧
      ∀ (key : Key) (leaf_hash : Option D) (p : SmtProof D),
        p.verify H key leaf_hash (root H m) = .ok true → m key = leaf_hash :=
  ⟨prove_verifies hempty hstore, fun _ _ _ h => verify_sound hH hempty h⟩

namespace Sample

/-- A map with two leaves. -/
def leaves : Key → Option (Term 256) := fun key =>
  if key = 5 then some (.atom 1) else if key = 9 then some (.atom 2) else none

/-- The store of the tree of a map. -/
def treeStore (m : Key → Option (Term 256)) : SmtStore Empty (Term 256) where
  getNode bk := .ok (NodeResult.node (nodeAt (Term.hashing 256) m bk.depth bk.node_key))
  getLeaf key := .ok (m key)

theorem treeStore_canonical (m : Key → Option (Term 256)) :
    Canonical (Term.hashing 256) m (treeStore m) where
  getNode d hd key _ := by
    have hagree : Agree d (stem d key) key := fun i hi => by
      rw [getMsbD_stem (hi.trans hd : i < 256), decide_eq_true hi, Bool.true_and]
    exact congrArg (fun n => Except.ok (NodeResult.node n))
      (nodeAt_congr (le_of_lt hd) hagree fun _ _ => rfl)
  getLeaf _ := rfl

/-- Both leaves and an absent key between them have proofs, and no proof is about anything else. -/
theorem verify_exact_two :
    (∀ key ∈ [5, 6, 9], ∃ p, prove (Term.hashing 256) (treeStore leaves) key =
      .ok p ∧ p.verify (Term.hashing 256) key (leaves key) (root (Term.hashing 256) leaves) =
        .ok true) ∧
    ∀ p leaf_hash, SmtProof.verify (Term.hashing 256) p 6 (some leaf_hash)
      (root (Term.hashing 256) leaves) ≠ .ok true := by
  obtain ⟨hcomplete, hsound⟩ := verify_exact (Term.hashing_injective 256)
    (Term.hashing_emptyFollows 256) (treeStore_canonical leaves)
  exact ⟨fun key _ => hcomplete key, fun p leaf_hash h => by cases hsound 6 _ p h⟩

end Sample

/-! ## With a cache

A position has at most one entry, and a climb that finds none at the positions it passes computes
what it would without a cache. All climbs pass the root. -/

section

/-- A call of `verify` or `verify_cached`. -/
structure ProofCall (D : Type) where
  proof : SmtProof D
  key : Key
  leaf_hash : Option D

variable (H : SmtHasher D) [DecidableEq D]

namespace ProofCall

variable (c : ProofCall D)

/-- Without a cache. -/
def verify (root : D) : Except (Fault SmtProofError) Bool := c.proof.verify H c.key c.leaf_hash root

/-- With a cache, which may change. -/
def verifyCached (root : D) (cache : ProofBranchCache D) :
    Except (Fault SmtProofError) Bool × ProofBranchCache D :=
  c.proof.verifyCached H c.key c.leaf_hash root cache

/-- Whether a call hashes at all: its proof is well formed and does not end at the root. -/
def climbs : Bool :=
  c.proof.siblings.length = bitmapClearCountBefore c.proof.bitmap c.proof.terminal ∧
    c.proof.terminal.depth ≠ 0

end ProofCall

/-- The cache after some calls against one root, from an empty one. -/
def cacheAfter (root : D) (calls : List (ProofCall D)) : ProofBranchCache D :=
  calls.foldl (fun cache c => (c.verifyCached H root cache).2) fun _ => none

variable {H} {bitmap : BitVec 256} {siblings : List D} {key : Key}

omit [DecidableEq D] in
theorem climbLoop_of_root {cache : ProofBranchCache D} {d : ℕ} {hash : D} (hd : d ≠ 0) (current : D)
    (hlen : clearCount bitmap d ≤ siblings.length) (hroot : cache (.new 0 key) = some hash) :
    ∃ cache', climbLoop H bitmap siblings key d current (clearCount bitmap d) (some cache) =
        .ok (hash, some cache') ∧ cache' (.new 0 key) = some hash := by
  induction d generalizing current cache with
  | zero => exact absurd rfl hd
  | succ d ih =>
    have hlen' := (clearCount_mono (Nat.le_succ d)).trans hlen
    rw [climbLoop_succ hlen]
    cases hentry : cache (.new d key) with
    | some cached =>
      simp only [cachedOr, hentry]
      rcases eq_zero_or_pos d with rfl | hpos
      · obtain rfl := Option.mem_unique hroot hentry
        exact ⟨cache, rfl, hroot⟩
      · exact ih hpos.ne' _ hlen' hroot
    | none =>
      simp only [cachedOr, hentry]
      rcases eq_zero_or_pos d with rfl | hpos
      · rw [hroot] at hentry
        cases hentry
      · refine ih hpos.ne' _ hlen' ?_
        rw [ProofBranchCache.insert, Function.update_of_ne, hroot]
        exact fun heq => hpos.ne (BranchKey.mk.inj heq).1

omit [DecidableEq D] in
/-- Without entries above the start the loop computes what it does without a cache, and leaves the
result as the entry of the root. -/
theorem climbLoop_of_none (key : Key) {cache : ProofBranchCache D} {d : ℕ} (current : D)
    (hlen : clearCount bitmap d ≤ siblings.length)
    (hnone : ∀ bk : BranchKey, bk.depth < d → cache bk = none) :
    ∃ cache', climbLoop H bitmap siblings key d current (clearCount bitmap d) (some cache) =
        .ok (climbFrom H bitmap siblings key d current, some cache') ∧
      (d ≠ 0 → cache' (.new 0 key) = some (climbFrom H bitmap siblings key d current)) ∧
      (d = 0 → cache' = cache) := by
  induction d generalizing current cache with
  | zero => exact ⟨cache, rfl, fun h => absurd rfl h, fun _ => rfl⟩
  | succ d ih =>
    have hlen' := (clearCount_mono (Nat.le_succ d)).trans hlen
    have hentry : cache (.new d key) = none := hnone _ (Nat.lt_succ_self d)
    rw [climbLoop_succ hlen, climbFrom_succ]
    simp only [cachedOr, hentry]
    -- The new entry is not above the next start.
    have hnone' : ∀ bk : BranchKey, bk.depth < d → cache.insert (.new d key)
        (join H key d (siblingOf H bitmap siblings d) current) bk = none := by
      intro bk hbk
      rw [ProofBranchCache.insert, Function.update_of_ne]
      · exact hnone bk (hbk.trans (Nat.lt_succ_self d))
      · exact fun heq => by rw [heq] at hbk; exact absurd hbk (lt_irrefl d)
    obtain ⟨cache', hloop, hroot, hzero⟩ := ih _ hlen' hnone'
    refine ⟨cache', hloop, fun _ => ?_, fun h => absurd h (Nat.succ_ne_zero d)⟩
    rcases eq_zero_or_pos d with rfl | hpos
    · rw [hzero rfl, ProofBranchCache.insert, Function.update_self]
      rfl
    · exact hroot hpos.ne'

/-- The root that a proof reconstructs without a cache. -/
def reconstructed (H : SmtHasher D) (c : ProofCall D) : D :=
  climbFrom H c.proof.bitmap c.proof.siblings c.key c.proof.terminal.depth
    (seed H c.proof.terminal c.key c.leaf_hash)

namespace ProofCall

variable {c : ProofCall D} {root : D} {cache : ProofBranchCache D}

theorem verify_of_climbs (h : c.climbs) : c.verify H root = .ok (reconstructed H c = root) := by
  have hlen := (of_decide_eq_true h).1
  rw [verify, SmtProof.verify, SmtProof.computeRoot, computeRootInner_eq, if_pos hlen]
  rfl

theorem verifyCached_of_not_climbs (h : c.climbs = false) :
    c.verifyCached H root cache = (c.verify H root, cache) := by
  have hcases := of_decide_eq_false h
  unfold verifyCached SmtProof.verifyCached verify SmtProof.verify SmtProof.computeRoot
    computeRootInner
  by_cases hlen : c.proof.siblings.length = bitmapClearCountBefore c.proof.bitmap c.proof.terminal
  · have hdepth : c.proof.terminal.depth = 0 := by
      by_contra hne
      exact hcases ⟨hlen, hne⟩
    rw [if_neg (not_not_intro hlen), if_neg (not_not_intro hlen), hdepth]
    rfl
  · rw [if_pos hlen, if_pos hlen]
    rfl

theorem verifyCached_of_climbLoop (h : c.climbs) {hash : D} {cache' : ProofBranchCache D}
    (hloop : climbLoop H c.proof.bitmap c.proof.siblings c.key c.proof.terminal.depth
      (seed H c.proof.terminal c.key c.leaf_hash)
      (clearCount c.proof.bitmap c.proof.terminal.depth) (some cache) = .ok (hash, some cache')) :
    c.verifyCached H root cache = (.ok (hash = root), cache') := by
  have hlen := (of_decide_eq_true h).1
  unfold verifyCached SmtProof.verifyCached computeRootInner
  rw [if_neg (not_not_intro hlen), hlen, bitmapClearCountBefore, hloop]
  rfl

theorem verifyCached_of_root (h : c.climbs) {hash : D} (hroot : ∀ k, cache (.new 0 k) = some hash) :
    (c.verifyCached H root cache).1 = .ok (hash = root) ∧
      ∀ k, (c.verifyCached H root cache).2 (.new 0 k) = some hash := by
  obtain ⟨hlen, hdepth⟩ := of_decide_eq_true h
  obtain ⟨cache', hloop, hroot'⟩ :=
    climbLoop_of_root (H := H) hdepth (seed H c.proof.terminal c.key c.leaf_hash) hlen.ge
      (hroot c.key)
  rw [verifyCached_of_climbLoop h hloop]
  exact ⟨rfl, fun k => by rw [BranchKey.new_zero k c.key]; exact hroot'⟩

/-- With an empty cache a call does what it does without one, and leaves an entry for the root. -/
theorem verifyCached_empty (h : c.climbs) :
    (c.verifyCached H root fun _ => none).1 = c.verify H root ∧
      ∀ k, (c.verifyCached H root fun _ => none).2 (.new 0 k) = some (reconstructed H c) := by
  obtain ⟨hlen, hdepth⟩ := of_decide_eq_true h
  have hnone : ∀ bk : BranchKey, bk.depth < c.proof.terminal.depth →
      (fun _ => none : ProofBranchCache D) bk = none := fun _ _ => rfl
  obtain ⟨cache', hloop, hroot, -⟩ := climbLoop_of_none (H := H) c.key
    (seed H c.proof.terminal c.key c.leaf_hash) hlen.ge hnone
  rw [verifyCached_of_climbLoop h hloop, verify_of_climbs h]
  exact ⟨rfl, fun k => by rw [BranchKey.new_zero k c.key]; exact hroot hdepth⟩

end ProofCall

/-- The cache after some calls is empty, or has the root that the first climb reconstructed. -/
theorem cacheAfter_cases (H : SmtHasher D) (root : D) (calls : List (ProofCall D)) :
    match calls.find? ProofCall.climbs with
    | none => cacheAfter H root calls = fun _ => none
    | some first => ∀ k, cacheAfter H root calls (.new 0 k) = some (reconstructed H first) := by
  induction calls using reverseRecOn with
  | nil => rfl
  | append_singleton calls c ih =>
    have hstep : cacheAfter H root (calls ++ [c]) =
        (c.verifyCached H root (cacheAfter H root calls)).2 := by
      rw [cacheAfter, foldl_append]
      rfl
    rw [find?_append, hstep]
    cases hfirst : calls.find? ProofCall.climbs with
    | some first =>
      rw [hfirst] at ih
      cases hc : c.climbs with
      | false => rw [ProofCall.verifyCached_of_not_climbs hc]; exact ih
      | true => exact (ProofCall.verifyCached_of_root hc ih).2
    | none =>
      rw [hfirst] at ih
      rw [ih]
      cases hc : c.climbs with
      | false => rw [ProofCall.verifyCached_of_not_climbs hc, find?_singleton, hc]; rfl
      | true =>
        rw [find?_singleton, hc]
        exact (ProofCall.verifyCached_empty hc).2

/-- What `verify_cached` returns: for a proof that climbs, the result of the first proof that did.
-/
theorem verifyCached_eq_first (H : SmtHasher D) (root : D) (calls : List (ProofCall D))
    (c : ProofCall D) : (c.verifyCached H root (cacheAfter H root calls)).1 =
      if c.climbs then ((calls.find? ProofCall.climbs).getD c).verify H root
      else c.verify H root := by
  have hcache := cacheAfter_cases H root calls
  cases hc : c.climbs with
  | false => rw [ProofCall.verifyCached_of_not_climbs hc, if_neg Bool.false_ne_true]
  | true =>
    rw [if_pos rfl]
    cases hfirst : calls.find? ProofCall.climbs with
    | none =>
      rw [hfirst] at hcache
      rw [hcache]
      exact (ProofCall.verifyCached_empty hc).1
    | some first =>
      rw [hfirst] at hcache
      have hclimbs : first.climbs = true := find?_some hfirst
      rw [(ProofCall.verifyCached_of_root hc hcache).1, Option.getD_some,
        ProofCall.verify_of_climbs hclimbs]

/-- When the cache does not matter: the proof does not climb, or no earlier one did, or the first
that did has the same result. -/
theorem verifyCached_eq_verify_iff (H : SmtHasher D) (root : D) (calls : List (ProofCall D))
    (c : ProofCall D) :
    (c.verifyCached H root (cacheAfter H root calls)).1 = c.verify H root ↔
      (c.climbs = true → ∀ first, calls.find? ProofCall.climbs = some first →
        first.verify H root = c.verify H root) := by
  rw [verifyCached_eq_first]
  cases hc : c.climbs with
  | false => simp
  | true =>
    cases hfirst : calls.find? ProofCall.climbs with
    | none => simp
    | some first => simp

end

namespace Sample

theorem one_lt_depth : 1 < 256 := by decide

/-- The proof for the key 0 in a tree with two leaves, one on each side of the root. -/
def leftProof : SmtProof (Term 256) where
  bitmap := BitVec.allOnes 256 <<< (1 : ℕ)
  siblings := [.leaf (BitVec.twoPow 256 255) (.atom 2)]
  terminal := .collapsed ⟨1, one_lt_depth⟩

/-- The call that verifies it for a leaf. -/
def leftCall (n : ℕ) : ProofCall (Term 256) :=
  { proof := leftProof, key := 0, leaf_hash := some (.atom n) }

/-- The root of the tree, whose leaf at the key 0 is 1. -/
def twoLeaves : Term 256 := .node (.leaf 0 (.atom 1)) (.leaf (BitVec.twoPow 256 255) (.atom 2))

/-- After the honest call a call with a leaf that is not in the tree is accepted; after that one
first, the honest call is rejected. -/
theorem verifyCached_forged : ((leftCall 7).verifyCached (Term.hashing 256) twoLeaves
        (cacheAfter (Term.hashing 256) twoLeaves [leftCall 1])).1 = .ok true ∧
      (leftCall 7).verify (Term.hashing 256) twoLeaves = .ok false ∧
      ((leftCall 1).verifyCached (Term.hashing 256) twoLeaves
        (cacheAfter (Term.hashing 256) twoLeaves [leftCall 7])).1 = .ok false ∧
      (leftCall 1).verify (Term.hashing 256) twoLeaves = .ok true := by
  decide +kernel

end Sample

end Zkas.Smt
