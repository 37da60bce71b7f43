import Zkas.Lib.Reader
import Zkas.Lib.RunLength
import Zkas.Pow.Header

/-!
# The encoding of parents

Model of `CompressedParents` of `consensus/core/src/header.rs` on raw runs, with the iterators of
`utils/src/iter.rs`. A value of the type is built from the levels, or from raw runs that pass the
checks of the validating `TryFrom`, also when it is decoded with Borsh. -/

namespace Zkas.Pow.Parents

open RunLength Framing List Runs Reader

/-- The parents of one level. -/
abbrev Level := List Hash

/-- `CompressedParentsError`. -/
inductive CompressedParentsError where
  | levelsExceeded
  | levelsNotStrictlyIncreasing
  | notFullyCompressed
  | expandedParentsExceeded (expanded max : ℕ)

/-- `MAX_EXPANDED_PARENT_HASHES`. -/
def MAX_EXPANDED_PARENT_HASHES : ℕ := 255 * 64

/-- `expand_rle`, after the count `prev`. -/
def expandRle (prev : ℕ) : List (ℕ × Level) → Except (Fault Empty) (List Level)
  | [] => .ok []
  | (cum, item) :: runs =>
    if prev < cum then do
      let rest ← expandRle cum runs
      return replicate (cum - prev) item ++ rest
    else .error .panic

variable (r : Runs Level)

/-- `expanded_iter`, and both conversions into levels. -/
def expandedIter : Except (Fault Empty) (List Level) := expandRle 0 (counted r)

/-- `get`. The predicate of the search subtracts one from a count, at any run that is looked at. -/
def get (index : ℕ) : Except (Fault Empty) (Option Level) :=
  if expandedLen r ≤ index then .ok none
  else if index = 0 then
    match r.head? with
    | some run => .ok (some run.2)
    | none => .error .panic
  else if ∃ run ∈ r, run.1 = 0 then .error .panic
  else
    match r[(r.takeWhile fun run => run.1.toNat - 1 < index).length]? with
    | some run => .ok (some run.2)
    | none => .error .panic

/-- `push`. -/
def push (parents_at_level : Level) : Except (Fault Empty) (Runs Level) :=
  match r.getLast? with
  | some (count, last_parents) =>
    if count = 255 then .error .panic
    else if last_parents = parents_at_level then .ok (r.dropLast ++ [(count + 1, last_parents)])
    else .ok (r ++ [(count + 1, parents_at_level)])
  | none => .ok [(1, parents_at_level)]

/-- `try_from` for the parents by level. -/
def tryFromLevels (parents : List Level) : Except CompressedParentsError (Runs Level) :=
  if 255 < parents.length then .error .levelsExceeded
  else .ok ((compress parents).map fun run => (UInt8.ofNat run.1, run.2))

/-- The loop of `try_from` over neighbouring runs. -/
def checkNeighbours : Runs Level → Except CompressedParentsError Unit
  | (last_cumulative_level, last_parents) :: (cumulative_level, parents) :: rest =>
    if cumulative_level ≤ last_cumulative_level then .error .levelsNotStrictlyIncreasing
    else if last_parents = parents then .error .notFullyCompressed
    else checkNeighbours ((cumulative_level, parents) :: rest)
  | _ => .ok ()

/-- The loop of `try_from` over the sizes, in saturating arithmetic of 64 bits. -/
def expandedHashes (expanded_hashes previous_cumulative : ℕ) : Runs Level → ℕ
  | [] => expanded_hashes
  | (cumulative_level, level_parents) :: rest =>
    let span := cumulative_level.toNat - previous_cumulative
    let size := min (span * level_parents.length) (2 ^ 64 - 1)
    expandedHashes (min (expanded_hashes + size) (2 ^ 64 - 1)) cumulative_level.toNat rest

/-- `try_from` for raw runs. -/
def tryFromRuns (parents : Runs Level) : Except CompressedParentsError (Runs Level) := do
  if parents.head?.map Prod.fst = some 0 then throw .levelsNotStrictlyIncreasing
  checkNeighbours parents
  let expanded_hashes := expandedHashes 0 0 parents
  if MAX_EXPANDED_PARENT_HASHES < expanded_hashes then
    throw (.expandedParentsExceeded expanded_hashes MAX_EXPANDED_PARENT_HASHES)
  return parents

/-- The errors of Borsh decoding. -/
inductive BorshError where
  | unexpectedEof
  | invalidData (e : CompressedParentsError)

/-- A slice that ends too early. -/
def readError : ReadError BorshError := ⟨.unexpectedEof, .unexpectedEof⟩

/-- `deserialize_reader`. The derived reader of the raw runs is the Borsh format: a `Vec` is its
length as four bytes, little-endian, and then its elements; a tuple is its fields in turn, a hash
its 32 bytes. -/
def deserializeReader : Parser BorshError (Runs Level) := do
  let raw ← Reader.vec readError do
    let cum ← Reader.u8 readError
    let level ← Reader.vec readError (Reader.take readError 32)
    return (cum, level)
  fun c => ((tryFromRuns raw).mapError .invalidData).map (·, c)

/-- The derived Borsh encoding. -/
def serialize : List UInt8 := vecLe (fun run => run.1 :: vecLe List.Vector.toList run.2) r

/-! ## Compressed runs -/

variable {r r' : Runs Level} {P : List Level}

theorem length_levels_le (h : Compressed 0 (counted r)) : (levels r).length ≤ 255 := by
  rw [← expandedLen_eq h]
  exact expandedLen_le r

theorem expandRle_eq {prev : ℕ} {runs : List (ℕ × Level)} (h : Compressed prev runs) :
    expandRle prev runs = .ok (expand prev runs) := by
  induction runs generalizing prev with
  | nil => rfl
  | cons run runs ih =>
    rw [expandRle, if_pos (h.first run rfl), ih h.tail]
    rfl

theorem get_eq (h : Compressed 0 (counted r)) (index : ℕ) :
    get r index = .ok (levels r)[index]? := by
  have hread : (levels r)[index]? =
    ((r.dropWhile fun run => run.1.toNat ≤ index).head?).map (·.2) := by
    have := getElem?_expand h (Nat.zero_le index)
    rwa [Nat.sub_zero, counted, dropWhile_map, head?_map, Option.map_map] at this
  unfold get
  rw [expandedLen_eq h]
  by_cases hlen : (levels r).length ≤ index
  · rw [if_pos hlen, getElem?_eq_none hlen]
  · obtain ⟨level, hlevel⟩ : ∃ level, (levels r)[index]? = some level :=
      ⟨_, getElem?_eq_getElem (by omega)⟩
    have hpos {run : UInt8 × Level} (hrun : run ∈ r) : 0 < run.1.toNat :=
      h.lt (run.1.toNat, run.2) (mem_map_of_mem hrun)
    rw [hlevel] at hread ⊢
    obtain ⟨run, hrun, rfl⟩ := Option.map_eq_some_iff.mp hread.symm
    rw [if_neg hlen]
    by_cases hzero : index = 0
    · subst hzero
      -- No count is zero, so nothing is dropped.
      have hfirst : r.head? = some run := by
        cases r with
        | nil => exact hrun
        | cons run' r =>
          rwa [dropWhile_cons_of_neg (by simpa using (hpos mem_cons_self).ne')] at hrun
      rw [if_pos rfl, hfirst]
    · have hall : ¬∃ run ∈ r, run.1 = 0 := by
        rintro ⟨run, hrun, hcount⟩
        have := hpos hrun
        rw [hcount] at this
        exact absurd this (by decide)
      -- The search stops at the first run that reaches past the index.
      have hsearch : (fun run : UInt8 × Level => decide (run.1.toNat - 1 < index)) =
          fun run => decide (run.1.toNat ≤ index) := by
        funext run
        rw [decide_eq_decide]
        omega
      have hpoint : r[(r.takeWhile fun run => run.1.toNat ≤ index).length]? = some run := by
        nth_rewrite 1 [← takeWhile_append_dropWhile (p := fun run : UInt8 × Level =>
          decide (run.1.toNat ≤ index)) (l := r)]
        rw [getElem?_append_right le_rfl, Nat.sub_self, ← head?_eq_getElem?, hrun]
      rw [if_neg hzero, if_neg hall, hsearch, hpoint]

theorem push_eq (h : Compressed 0 (counted r)) (hlen : (levels r).length < 255) (level : Level) :
    ∃ r', push r level = .ok r' ∧ Compressed 0 (counted r') ∧ levels r' = levels r ++ [level] := by
  rw [← expandedLen_eq h] at hlen
  rcases eq_nil_or_concat' r with rfl | ⟨init, ⟨count, last⟩, rfl⟩
  · refine ⟨[(1, level)], rfl, ⟨?_, .singleton _, .singleton _⟩, rfl⟩
    rintro _ ⟨⟩
    exact one_pos
  · have hlast : (init ++ [(count, last)]).getLast? = some (count, last) := getLast?_concat
    rw [expandedLen, hlast] at hlen
    have hne : count ≠ 255 := by
      rintro rfl
      exact absurd hlen (lt_irrefl 255)
    have hnext : (count + 1).toNat = count.toNat + 1 := by
      have hlt : count.toNat < 255 := hlen
      exact Nat.mod_eq_of_lt (by change count.toNat + 1 < 256; omega)
    have hcounted (l : List (UInt8 × Level)) (run : UInt8 × Level) :
        counted (l ++ [run]) = counted l ++ [(run.1.toNat, run.2)] := map_append
    rw [hcounted] at h
    simp only [push, hlast, if_neg hne, levels, hcounted]
    by_cases hsame : last = level
    · subst hsame
      rw [if_pos rfl, dropLast_concat]
      refine ⟨_, rfl, ?_⟩
      rw [hcounted, hnext]
      exact h.extend
    · rw [if_neg hsame]
      refine ⟨_, rfl, ?_⟩
      rw [hcounted, hcounted, hnext]
      exact h.concat hsame

/-! ## The checks -/

theorem checkNeighbours_eq_ok : checkNeighbours r = .ok () ↔
    ((counted r).IsChain fun run next => run.1 < next.1) ∧
      ((counted r).IsChain fun run next => run.2 ≠ next.2) := by
  induction r with
  | nil => simp [checkNeighbours, counted]
  | cons run r ih =>
    cases r with
    | nil => simp [checkNeighbours, counted]
    | cons next r =>
      obtain ⟨cum, parents⟩ := run
      obtain ⟨cum', parents'⟩ := next
      rw [checkNeighbours]
      simp only [counted, map_cons, isChain_cons_cons] at ih ⊢
      split_ifs with hle hsame
      · have : ¬cum.toNat < cum'.toNat := not_lt.mpr (UInt8.le_iff_toNat_le.mp hle)
        simp [this]
      · simp [hsame]
      · have : cum.toNat < cum'.toNat := not_le.mp fun h => hle (UInt8.le_iff_toNat_le.mpr h)
        rw [ih]
        simp [this, hsame]

theorem expandedHashes_eq (acc prev : ℕ) (hacc : acc < 2 ^ 64) : expandedHashes acc prev r =
      min (acc + ((expand prev (counted r)).map length).sum) (2 ^ 64 - 1) := by
  induction r generalizing acc prev with
  | nil =>
    simp only [expandedHashes, counted, map_nil, expand, sum_nil]
    omega
  | cons run r ih =>
    rw [expandedHashes, ih _ _ (by omega)]
    simp only [counted, map_cons, expand, map_append, map_replicate, sum_append,
      sum_replicate, smul_eq_mul]
    omega

/-- **The accepted runs** are the compressed ones with few enough hashes. -/
theorem tryFromRuns_eq_ok : tryFromRuns r = .ok r' ↔ r' = r ∧ Compressed 0 (counted r) ∧
    ((levels r).map length).sum ≤ MAX_EXPANDED_PARENT_HASHES := by
  have hfirst : (∀ run ∈ (counted r).head?, 0 < run.1) ↔ ¬r.head?.map Prod.fst = some 0 := by
    cases r with
    | nil => simp [counted]
    | cons run r =>
      simp only [counted, map_cons, head?_cons, Option.mem_def, Option.some.injEq,
        forall_eq', Option.map_some, pos_iff_ne_zero]
      exact not_congr ⟨fun h => UInt8.toNat_inj.mp h, fun h => by rw [h]; rfl⟩
  have hsize : MAX_EXPANDED_PARENT_HASHES < expandedHashes 0 0 r ↔
      ¬((levels r).map length).sum ≤ MAX_EXPANDED_PARENT_HASHES := by
    rw [expandedHashes_eq 0 0 (by decide), levels]
    unfold MAX_EXPANDED_PARENT_HASHES
    omega
  have hcompressed : Compressed 0 (counted r) ↔
      (∀ run ∈ (counted r).head?, 0 < run.1) ∧ checkNeighbours r = .ok () := by
    rw [checkNeighbours_eq_ok]
    exact ⟨fun h => ⟨h.first, h.increasing, h.distinct⟩, fun h => ⟨h.1, h.2.1, h.2.2⟩⟩
  unfold tryFromRuns
  rw [hcompressed, hfirst]
  by_cases hzero : r.head?.map Prod.fst = some 0
  · rw [if_pos hzero]
    simp only [hzero, not_true_eq_false, false_and, and_false, iff_false]
    exact fun h => by cases h
  · rw [if_neg hzero]
    cases hcheck : checkNeighbours r with
    | error e =>
      simp only [reduceCtorEq, and_false, false_and, iff_false]
      exact fun h => by cases h
    | ok u =>
      simp only [hzero, hsize, not_false_eq_true, true_and]
      by_cases hmany : ((levels r).map length).sum ≤ MAX_EXPANDED_PARENT_HASHES
      · simp only [hmany, not_true_eq_false, if_false, and_true]
        exact ⟨fun h => by cases h; rfl, fun h => by rw [h]; rfl⟩
      · simp only [hmany, not_false_eq_true, if_true, and_false, iff_false]
        exact fun h => by cases h

theorem tryFromLevels_eq_ok :
    tryFromLevels P = .ok r ↔ Compressed 0 (counted r) ∧ levels r = P := by
  constructor
  · intro h
    unfold tryFromLevels at h
    split_ifs at h with hlen
    obtain ⟨hcomp, hexpand⟩ := compress_spec P
    have hcounted : counted r = compress P := by
      rw [← Except.ok.inj h, counted, map_map]
      refine (map_congr_left fun run hrun => ?_).trans (map_id _)
      refine Prod.ext (UInt8.toNat_ofNat_of_lt' ?_) rfl
      have := hcomp.le_length run hrun
      rw [hexpand] at this
      change run.1 < 256
      omega
    rw [levels, hcounted]
    exact ⟨hcomp, hexpand⟩
  · rintro ⟨hcomp, rfl⟩
    have hback : (counted r).map (fun run => (UInt8.ofNat run.1, run.2)) = r := by
      rw [counted, map_map]
      refine (map_congr_left fun run _ => ?_).trans (map_id r)
      exact Prod.ext UInt8.ofNat_toNat rfl
    rw [tryFromLevels, if_neg (not_lt.mpr (length_levels_le hcomp)), levels, compress_expand hcomp,
      hback]

theorem reads_of_compressed (h : Compressed 0 (counted r)) :
    expandedIter r = .ok (levels r) ∧ expandedLen r = (levels r).length ∧
      ∀ i, get r i = .ok (levels r)[i]? :=
  ⟨expandRle_eq h, expandedLen_eq h, get_eq h⟩

theorem decodes_deserializeReader : Decodes deserializeReader serialize fun r =>
    (r.length < 2 ^ 32 ∧ ∀ run ∈ r, run.2.length < 2 ^ 32) ∧ tryFromRuns r = .ok r := by
  have hlevel : Decodes (Reader.vec readError (Reader.take readError 32))
      (vecLe List.Vector.toList) fun level => level.length < 2 ^ 32 :=
    (Decodes.vec (Decodes.take 32)).congr (fun _ => by simp) fun _ _ => rfl
  have hrun : Decodes (do
      let cum ← Reader.u8 readError
      let level ← Reader.vec readError (Reader.take readError 32)
      return (cum, level)) (fun run : UInt8 × Level => run.1 :: vecLe List.Vector.toList run.2)
      fun run => run.2.length < 2 ^ 32 := by
    have hrest (cum : UInt8) : Decodes (do
        let level ← Reader.vec readError (Reader.take readError 32)
        return (cum, level)) (fun run : UInt8 × Level => vecLe List.Vector.toList run.2)
        fun run => run.1 = cum ∧ run.2.length < 2 ^ 32 :=
      hlevel.map (fun level => (cum, level)) (fun run => run.2)
        (fun run h => ⟨h.2, Prod.ext h.1.symm rfl⟩) fun level h => ⟨rfl, rfl, h⟩
    have hread := Decodes.bind (fun run : UInt8 × Level => run.1)
      (Decodes.u8 (E := readError)) (fun cum _ => hrest cum) fun _ _ h => h.1
    exact hread.congr (fun run => by simp) fun _ _ => rfl
  have hcheck (raw : Runs Level) : Decodes (ε := BorshError)
      (fun c => ((tryFromRuns raw).mapError .invalidData).map (·, c)) (fun _ => [])
      fun r => tryFromRuns raw = .ok r := by
    constructor
    · intro c r rest h _ hrest
      exact ⟨c, by rw [h]; rfl, rfl, hrest⟩
    · intro c c' r hok
      cases h : tryFromRuns raw with
      | error e => rw [h] at hok; cases hok
      | ok r' => rw [h] at hok; cases hok; exact ⟨rfl, rfl, rfl⟩
  have hread :=
    Decodes.bind (fun r : Runs Level => r) (Decodes.vec (E := readError) hrun)
    (fun raw _ => hcheck raw) fun raw r h => (tryFromRuns_eq_ok.mp h).1
  exact hread.congr (fun _ => Iff.rfl) fun _ _ => (append_nil _).symm

/-- **The encoding of parents is canonical.** Up to 255 levels have runs from which they are read
back, level by level and as a whole, and to which a level can be added; the accepted raw runs, as
they are and from their bytes, are those of levels with few enough hashes; what is read of them does
not panic, and they are determined by the levels. -/
theorem compressed_parents_canonical :
    (∀ P : List Level, P.length ≤ 255 → ∃ r, tryFromLevels P = .ok r ∧ expandedIter r = .ok P ∧
      expandedLen r = P.length ∧ (∀ i, get r i = .ok P[i]?) ∧
      (P.length < 255 → ∀ level, ∃ r', push r level = .ok r' ∧
        tryFromLevels (P ++ [level]) = .ok r')) ∧
    (∀ raw, (∃ r, tryFromRuns raw = .ok r) ↔ ∃ P : List Level, P.length ≤ 255 ∧
      (P.map List.length).sum ≤ MAX_EXPANDED_PARENT_HASHES ∧ tryFromLevels P = .ok raw) ∧
    (∀ raw r, tryFromRuns raw = .ok r → r = raw ∧ ∃ P, expandedIter r = .ok P ∧
      ∀ i, get r i = .ok P[i]?) ∧
    (∀ raw raw' r r', tryFromRuns raw = .ok r → tryFromRuns raw' = .ok r' →
      expandedIter r = expandedIter r' → r = r') ∧
    Decodes deserializeReader serialize fun r =>
      (r.length < 2 ^ 32 ∧ ∀ run ∈ r, run.2.length < 2 ^ 32) ∧ tryFromRuns r = .ok r := by
  refine ⟨fun P hlen => ?_, fun raw => ⟨?_, ?_⟩, fun raw r h => ?_,
    fun raw raw' r r' h h' heq => ?_,
    decodes_deserializeReader⟩
  · obtain ⟨r, hr⟩ : ∃ r, tryFromLevels P = .ok r := ⟨_, if_neg (not_lt.mpr hlen)⟩
    obtain ⟨hcomp, rfl⟩ := tryFromLevels_eq_ok.mp hr
    obtain ⟨hiter, hlength, hget⟩ := reads_of_compressed hcomp
    refine ⟨r, hr, hiter, hlength, hget, fun hlt level => ?_⟩
    obtain ⟨r', hpush, hcomp', hlevels⟩ := push_eq hcomp hlt level
    exact ⟨r', hpush, tryFromLevels_eq_ok.mpr ⟨hcomp', hlevels⟩⟩
  · rintro ⟨r, h⟩
    obtain ⟨-, hcomp, hsize⟩ := tryFromRuns_eq_ok.mp h
    exact ⟨levels raw, length_levels_le hcomp, hsize, tryFromLevels_eq_ok.mpr ⟨hcomp, rfl⟩⟩
  · rintro ⟨P, -, hsize, h⟩
    obtain ⟨hcomp, rfl⟩ := tryFromLevels_eq_ok.mp h
    exact ⟨raw, tryFromRuns_eq_ok.mpr ⟨rfl, hcomp, hsize⟩⟩
  · obtain ⟨rfl, hcomp, -⟩ := tryFromRuns_eq_ok.mp h
    obtain ⟨hiter, -, hget⟩ := reads_of_compressed hcomp
    exact ⟨rfl, levels r, hiter, hget⟩
  · obtain ⟨rfl, hcomp, -⟩ := tryFromRuns_eq_ok.mp h
    obtain ⟨rfl, hcomp', -⟩ := tryFromRuns_eq_ok.mp h'
    rw [(reads_of_compressed hcomp).1, (reads_of_compressed hcomp').1] at heq
    exact counted_inj (expand_inj hcomp hcomp' (Except.ok.inj heq))

end Zkas.Pow.Parents
