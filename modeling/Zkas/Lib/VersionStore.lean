import Mathlib

/-!
# Versioned stores on a tree of blocks

A store keeps the versions of its entities, each with a score and the block that wrote it. A reader
of one chain of blocks asks for the newest version that is on the chain and has a score in some
window. The scores of a chain differ, so there is one such version at most (`SingleScores`).

A cache of bounded size stands before the store. It drops the lowest scores first, and does not
admit a version that would be the next to go. A block is written after the blocks below it, so the
cache has, with a version, all versions of the same entity above it on some chain (`Suffix`), and
what is found in the cache is what the store would have given (`Suffix.read_eq`). -/

namespace AList

variable {K : Type} {V : K → Type} [DecidableEq K] {s : AList V} {k : K} {v : V k}

theorem mem_iff_lookup : k ∈ s ↔ ∃ v, s.lookup k = some v := by
  rw [← lookup_isSome, Option.isSome_iff_exists]

theorem mem_of_lookup (h : s.lookup k = some v) : k ∈ s := mem_iff_lookup.mpr ⟨v, h⟩

end AList

/-- The name of a version. -/
structure VersionKey (E B : Type) where
  entity : E
  score : ℕ
  block : B
  deriving DecidableEq

/-- A version that is read. -/
structure Version (B V : Type) where
  score : ℕ
  block : B
  value : V
  deriving DecidableEq

/-- The versions of the entities of type `E`. -/
abbrev VersionStore (E B V : Type) := AList fun _ : VersionKey E B => V

namespace VersionStore

open List AList

variable {E B V : Type}

/-- The order of iteration: newest first, then by block. -/
def newestFirst [LinearOrder B] (v v' : Version B V) : Prop :=
  toLex (OrderDual.toDual v.score, v.block) ≤ toLex (OrderDual.toDual v'.score, v'.block)

instance [LinearOrder B] : DecidableRel (newestFirst (B := B) (V := V)) := fun v v' =>
  inferInstanceAs (Decidable (toLex (OrderDual.toDual v.score, v.block) ≤
    toLex (OrderDual.toDual v'.score, v'.block)))

instance [LinearOrder B] : Std.Total (newestFirst (B := B) (V := V)) :=
  ⟨fun v _ => le_total (toLex (OrderDual.toDual v.score, v.block)) (toLex (_, _))⟩

instance [LinearOrder B] : IsTrans (Version B V) newestFirst := ⟨fun _ _ _ h h' => le_trans h h'⟩

section

variable [DecidableEq E] [LinearOrder B] (db : VersionStore E B V)

/-- The versions of an entity with scores in a window. -/
def getAt (e : E) (target min : ℕ) : List (Version B V) :=
  ((db.entries.filter fun r => r.1.entity = e ∧ min ≤ r.1.score ∧ r.1.score ≤ target).map
    fun r => ⟨r.1.score, r.1.block, r.2⟩).insertionSort newestFirst

/-- The newest one on the chain. -/
def getAtCanonical (e : E) (target min : ℕ) (canonical : B → Bool) : Option (Version B V) :=
  (db.getAt e target min).find? fun v => canonical v.block

/-- A version that is on the chain. -/
def OnChain (canonical : B → Bool) (e : E) (v : Version B V) : Prop :=
  db.lookup ⟨e, v.score, v.block⟩ = some v.value ∧ canonical v.block = true

/-- The blocks of one chain have different scores. -/
def SingleScores (canonical : B → Bool) : Prop :=
  ∀ k ∈ db, ∀ k' ∈ db, canonical k.block = true → canonical k'.block = true → k.score = k'.score →
    k.block = k'.block

variable {db db' : VersionStore E B V} {canonical canonical' : B → Bool} {e : E} {target min : ℕ}
  {v v' : Version B V}

theorem mem_getAt : v ∈ db.getAt e target min ↔
    db.lookup ⟨e, v.score, v.block⟩ = some v.value ∧ min ≤ v.score ∧ v.score ≤ target := by
  unfold getAt
  rw [mem_insertionSort, mem_map]
  constructor
  · rintro ⟨⟨⟨e', s, b⟩, x⟩, hr, rfl⟩
    obtain ⟨hrow, hin⟩ := mem_filter.mp hr
    obtain ⟨rfl, hmin, htarget⟩ := of_decide_eq_true hin
    exact ⟨mem_lookup_iff.mpr hrow, hmin, htarget⟩
  · rintro ⟨hv, hmin, htarget⟩
    refine ⟨⟨⟨e, v.score, v.block⟩, v.value⟩, mem_filter.mpr ⟨mem_lookup_iff.mp hv, ?_⟩, rfl⟩
    exact decide_eq_true ⟨rfl, hmin, htarget⟩

theorem getAtCanonical_eq_none_iff : db.getAtCanonical e target min canonical = none ↔
    ∀ v, OnChain db canonical e v → min ≤ v.score → target < v.score := by
  unfold getAtCanonical
  rw [find?_eq_none]
  constructor
  · intro h v hv hmin
    by_contra hle
    exact h v (mem_getAt.mpr ⟨hv.1, hmin, not_lt.mp hle⟩) hv.2
  · intro h v hv hcanonical
    obtain ⟨hlookup, hmin, htarget⟩ := mem_getAt.mp hv
    exact absurd (h v ⟨hlookup, hcanonical⟩ hmin) (not_lt.mpr htarget)

theorem of_getAtCanonical (h : db.getAtCanonical e target min canonical = some v) :
    OnChain db canonical e v ∧ min ≤ v.score ∧ v.score ≤ target ∧
      ∀ v', OnChain db canonical e v' → v'.score ≤ target → v'.score ≤ v.score := by
  obtain ⟨hcanonical, front, back, hlist, hfront⟩ := find?_eq_some_iff_append.mp h
  have hmem : v ∈ db.getAt e target min := by
    rw [hlist]
    exact mem_append_right _ mem_cons_self
  obtain ⟨hlookup, hmin, htarget⟩ := mem_getAt.mp hmem
  refine ⟨⟨hlookup, hcanonical⟩, hmin, htarget, fun v' hv' htarget' => ?_⟩
  by_cases hmin' : min ≤ v'.score
  · have hmem' : v' ∈ db.getAt e target min := mem_getAt.mpr ⟨hv'.1, hmin', htarget'⟩
    have hsorted : (db.getAt e target min).Pairwise newestFirst :=
      pairwise_insertionSort newestFirst _
    rw [hlist] at hmem' hsorted
    -- It is not before the first one on the chain.
    rcases mem_append.mp hmem' with hbefore | hafter
    · have := hfront v' hbefore
      rw [hv'.2] at this
      exact absurd this (by simp)
    · rcases mem_cons.mp hafter with rfl | hafter
      · exact le_rfl
      · have hle := (pairwise_cons.mp (pairwise_append.mp hsorted).2.1).1 v' hafter
        rcases Prod.Lex.le_iff.mp hle with hlt | ⟨heq, -⟩
        · exact le_of_lt (OrderDual.toDual_lt_toDual.mp hlt)
        · exact le_of_eq (OrderDual.toDual_inj.mp heq).symm
  · omega

variable (h : SingleScores db canonical)
include h

theorem SingleScores.eq (hv : OnChain db canonical e v)
    (hv' : OnChain db canonical e v') (hscore : v.score = v'.score) : v = v' := by
  have hmem {v : Version B V} (hv : OnChain db canonical e v) :
      (⟨e, v.score, v.block⟩ : VersionKey E B) ∈ db :=
    mem_of_lookup hv.1
  have hblock : v.block = v'.block := h _ (hmem hv) _ (hmem hv') hv.2 hv'.2 hscore
  obtain ⟨s, b, x⟩ := v
  obtain ⟨s', b', x'⟩ := v'
  obtain rfl : s = s' := hscore
  obtain rfl : b = b' := hblock
  obtain rfl : x = x' := Option.mem_unique hv.1 hv'.1
  rfl

/-- What is read. -/
theorem getAtCanonical_eq_some_iff :
    db.getAtCanonical e target min canonical = some v ↔
      OnChain db canonical e v ∧ min ≤ v.score ∧ v.score ≤ target ∧
        ∀ v', OnChain db canonical e v' → v'.score ≤ target → v'.score ≤ v.score := by
  constructor
  · exact of_getAtCanonical
  · rintro ⟨hv, hmin, htarget, hnewest⟩
    cases hread : db.getAtCanonical e target min canonical with
    | none =>
      have := getAtCanonical_eq_none_iff.mp hread v hv hmin
      omega
    | some v' =>
      obtain ⟨hv', -, htarget', hnewest'⟩ := of_getAtCanonical hread
      have hscore : v'.score = v.score :=
        le_antisymm (hnewest v' hv' htarget') (hnewest' v hv htarget)
      rw [h.eq hv' hv hscore]

theorem getAtCanonical_congr (h' : SingleScores db' canonical')
    (hsame : ∀ v, v.score ≤ target → (OnChain db canonical e v ↔ OnChain db' canonical' e v)) :
    db.getAtCanonical e target min canonical = db'.getAtCanonical e target min canonical' := by
  apply Option.ext
  intro v
  rw [getAtCanonical_eq_some_iff h, getAtCanonical_eq_some_iff h']
  constructor
  · rintro ⟨hv, hmin, htarget, hnewest⟩
    exact ⟨(hsame v htarget).mp hv, hmin, htarget,
      fun v' hv' hle => hnewest v' ((hsame v' hle).mpr hv') hle⟩
  · rintro ⟨hv, hmin, htarget, hnewest⟩
    exact ⟨(hsame v htarget).mpr hv, hmin, htarget,
      fun v' hv' hle => hnewest v' ((hsame v' hle).mp hv') hle⟩

theorem getAtCanonical_filter :
    db.getAtCanonical e target min canonical =
      (db.getAtCanonical e target 0 canonical).filter fun v => min ≤ v.score := by
  apply Option.ext
  intro v
  rw [Option.filter_eq_some_iff, getAtCanonical_eq_some_iff h, getAtCanonical_eq_some_iff h]
  constructor
  · rintro ⟨hv, hmin, htarget, hnewest⟩
    exact ⟨⟨hv, Nat.zero_le _, htarget, hnewest⟩, decide_eq_true hmin⟩
  · rintro ⟨⟨hv, -, htarget, hnewest⟩, hmin⟩
    exact ⟨hv, of_decide_eq_true hmin, htarget, hnewest⟩

end

/-! ## The writes of a block -/

section

variable [DecidableEq E] [DecidableEq B]

/-- Write one version of each of some entities. -/
def putAll (db : VersionStore E B V) (score : ℕ) (block : B) (writes : List (E × V)) :
    VersionStore E B V :=
  writes.foldl (fun db w => db.insert ⟨w.1, score, block⟩ w.2) db

variable {db : VersionStore E B V} {score : ℕ} {block : B} {writes : List (E × V)}

/-- The versions after the writes of a block that has not written these entities yet. -/
theorem lookup_putAll_eq_some_iff
    (hfresh : ∀ w ∈ writes, (⟨w.1, score, block⟩ : VersionKey E B) ∉ db)
    (hnodup : (writes.map Prod.fst).Nodup) {k : VersionKey E B} {x : V} :
    (db.putAll score block writes).lookup k = some x ↔
      (k.score = score ∧ k.block = block ∧ (k.entity, x) ∈ writes) ∨ db.lookup k = some x := by
  induction writes generalizing db with
  | nil => simp [putAll]
  | cons w writes ih =>
    rw [map_cons, nodup_cons] at hnodup
    refine (ih (fun w' hw' hmem => ?_) hnodup.2).trans ?_
    · rcases (mem_insert db).mp hmem with heq | hmem
      · exact hnodup.1 ((VersionKey.mk.inj heq).1 ▸ mem_map_of_mem hw')
      · exact hfresh w' (mem_cons_of_mem _ hw') hmem
    · by_cases hk : k = ⟨w.1, score, block⟩
      · subst hk
        rw [lookup_insert, lookup_eq_none.mpr (hfresh w mem_cons_self)]
        simp [Prod.ext_iff, or_comm, eq_comm]
      · rw [lookup_insert_ne hk, mem_cons]
        refine or_congr_left (and_congr_right fun hscore => and_congr_right fun hblock => ?_)
        refine (or_iff_right ?_).symm
        rintro rfl
        exact hk (hscore ▸ hblock ▸ rfl)

theorem mem_putAll {k : VersionKey E B} : k ∈ db.putAll score block writes ↔
    (k.score = score ∧ k.block = block ∧ k.entity ∈ writes.map Prod.fst) ∨ k ∈ db := by
  induction writes generalizing db with
  | nil => simp [putAll]
  | cons w writes ih =>
    obtain ⟨e, s, b⟩ := k
    refine ih.trans ?_
    simp only [mem_insert, map_cons, mem_cons, VersionKey.mk.injEq]
    tauto

end

section

variable [DecidableEq E] [LinearOrder B] {db : VersionStore E B V} {canonical canonical' : B → Bool}
  {score target min : ℕ} {block : B} {writes : List (E × V)} {e : E}

theorem getAtCanonical_putAll_of_not_canonical (hfresh : ∀ k ∈ db, k.block ≠ block)
    (hnodup : (writes.map Prod.fst).Nodup) (hsingle : SingleScores db canonical)
    (hblock : canonical block = false) :
    (db.putAll score block writes).getAtCanonical e target min canonical =
      db.getAtCanonical e target min canonical := by
  have hsingle' : SingleScores (db.putAll score block writes) canonical := by
    intro k hk k' hk' hc hc'
    have hold {k : VersionKey E B} (hk : k ∈ db.putAll score block writes)
        (hc : canonical k.block = true) : k ∈ db := by
      rcases mem_putAll.mp hk with ⟨-, rfl, -⟩ | hk
      · rw [hblock] at hc
        cases hc
      · exact hk
    exact hsingle k (hold hk hc) k' (hold hk' hc') hc hc'
  refine getAtCanonical_congr hsingle' hsingle fun v _ => ?_
  unfold OnChain
  rw [lookup_putAll_eq_some_iff (fun _ _ hw => hfresh _ hw rfl) hnodup]
  constructor
  · rintro ⟨⟨-, rfl, -⟩ | hv, hc⟩
    · rw [hblock] at hc
      cases hc
    · exact ⟨hv, hc⟩
  · rintro ⟨hv, hc⟩
    exact ⟨.inr hv, hc⟩

section

variable (hfresh : ∀ k ∈ db, k.block ≠ block) (hnodup : (writes.map Prod.fst).Nodup)
  (hsingle : SingleScores db canonical)
  (hcanonical : ∀ b, canonical' b = true ↔ b = block ∨ canonical b = true)
  (hscore : ∀ k ∈ db, canonical k.block = true → k.score ≤ target) (htarget : target < score)

include hfresh hsingle hcanonical hscore htarget

theorem SingleScores.putAll : SingleScores (db.putAll score block writes) canonical' := by
  have hold {k : VersionKey E B} (hk : k ∈ db) (hc : canonical' k.block = true) :
      canonical k.block = true :=
    ((hcanonical _).mp hc).resolve_left (hfresh k hk)
  intro k hk k' hk' hc hc' heq
  rcases mem_putAll.mp hk with ⟨hs, hb, -⟩ | hk <;>
    rcases mem_putAll.mp hk' with ⟨hs', hb', -⟩ | hk'
  · rw [hb, hb']
  · have := hscore k' hk' (hold hk' hc')
    omega
  · have := hscore k hk (hold hk hc)
    omega
  · exact hsingle k hk k' hk' (hold hk hc) (hold hk' hc') heq

include hnodup

theorem getAtCanonical_putAll_of_mem (hmin : min ≤ score) {x : V} (hw : (e, x) ∈ writes) :
    (db.putAll score block writes).getAtCanonical e score min canonical' =
      some ⟨score, block, x⟩ := by
  rw [getAtCanonical_eq_some_iff (hsingle.putAll hfresh hcanonical hscore htarget)]
  refine ⟨⟨?_, (hcanonical block).mpr (.inl rfl)⟩, hmin, le_rfl, fun _ _ hle => hle⟩
  rw [lookup_putAll_eq_some_iff (fun _ _ hw => hfresh _ hw rfl) hnodup]
  exact .inl ⟨rfl, rfl, hw⟩

/-- The next block of a chain reads what was there, of entities that it does not write. -/
theorem getAtCanonical_putAll_of_not_mem (he : e ∉ writes.map Prod.fst) :
    (db.putAll score block writes).getAtCanonical e score min canonical' =
      db.getAtCanonical e target min canonical := by
  have hiff (v : Version B V) : OnChain (db.putAll score block writes) canonical' e v ↔
      OnChain db canonical e v := by
    unfold OnChain
    rw [lookup_putAll_eq_some_iff (fun _ _ hw => hfresh _ hw rfl) hnodup, hcanonical]
    constructor
    · rintro ⟨⟨-, -, hw⟩ | hv, hc⟩
      · exact absurd (mem_map_of_mem hw) he
      · refine ⟨hv, hc.resolve_left ?_⟩
        exact hfresh _ (mem_of_lookup hv)
    · rintro ⟨hv, hc⟩
      exact ⟨.inr hv, .inr hc⟩
  have hle {v : Version B V} (hv : OnChain db canonical e v) : v.score ≤ target :=
    hscore ⟨e, v.score, v.block⟩ (mem_of_lookup hv.1) hv.2
  apply Option.ext
  intro v
  rw [getAtCanonical_eq_some_iff (hsingle.putAll hfresh hcanonical hscore htarget),
    getAtCanonical_eq_some_iff hsingle, hiff]
  constructor
  · rintro ⟨hv, hmin, -, hnewest⟩
    refine ⟨hv, hmin, hle hv, fun v' hv' hle' => hnewest v' ((hiff v').mpr hv') ?_⟩
    omega
  · rintro ⟨hv, hmin, hv', hnewest⟩
    refine ⟨hv, hmin, by omega, fun v' hv'' _ => ?_⟩
    have hv'' := (hiff v').mp hv''
    exact hnewest v' hv'' (hle hv'')

end

end

end VersionStore

/-! ## A cache before the store -/

/-- A cache of versions; `capacity` bounds their number. -/
structure VersionedCache (E B V : Type) where
  rows : VersionStore E B V
  capacity : ℕ

namespace VersionedCache

open AList List

variable {E B V : Type} [LinearOrder E] [LinearOrder B]

/-- The order of eviction: the lowest score, and there the highest block, goes first. -/
def scoreKey (k : VersionKey E B) : ℕ ×ₗ (Bᵒᵈ ×ₗ E) :=
  toLex (k.score, toLex (OrderDual.toDual k.block, k.entity))

variable (cache : VersionedCache E B V)

/-- Admit a version, at the cost of the first one in the order of eviction when the cache is full. A
version that would be the next to go is not admitted. -/
def insert (key : VersionKey E B) (value : V) : VersionedCache E B V :=
  if cache.capacity ≤ cache.rows.keys.length then
    match cache.rows.keys.argmin scoreKey with
    | none => cache
    | some first =>
      if scoreKey key ≤ scoreKey first then cache
      else { cache with rows := (cache.rows.erase first).insert key value }
  else { cache with rows := cache.rows.insert key value }

/-- The writes of a block. -/
def insertAll (score : ℕ) (block : B) (writes : List (E × V)) : VersionedCache E B V :=
  writes.foldl (fun cache w => cache.insert ⟨w.1, score, block⟩ w.2) cache

/-- A read of the cache, and of the store for what is not found. -/
def read (db : VersionStore E B V) (e : E) (target min : ℕ)
    (canonical : B → Bool) : Option (Version B V) :=
  match cache.rows.getAtCanonical e target min canonical with
  | some v => some v
  | none => db.getAtCanonical e target min canonical

/-- With a version the cache has all versions of its entity that are above it. -/
structure Suffix (above : B → B → Prop) (db : VersionStore E B V) (cache : VersionedCache E B V) :
    Prop where
  cached : ∀ k v, cache.rows.lookup k = some v → db.lookup k = some v
  newer : ∀ k ∈ cache.rows, ∀ k' ∈ db, k'.entity = k.entity → above k.block k'.block →
    k' ∈ cache.rows

variable {above : B → B → Prop} {db : VersionStore E B V} {cache : VersionedCache E B V}

theorem Suffix.mem (h : Suffix above db cache) {k : VersionKey E B} (hk : k ∈ cache.rows) :
    k ∈ db := by
  obtain ⟨v, hv⟩ := mem_iff_lookup.mp hk
  exact mem_of_lookup (h.cached k v hv)

/-- The cache does not change what is read. -/
theorem Suffix.read_eq (h : Suffix above db cache) {canonical : B → Bool}
    (hsingle : db.SingleScores canonical)
    (habove : ∀ k ∈ db, ∀ k' ∈ db, canonical k.block = true → canonical k'.block = true →
      k ∈ cache.rows → k.score < k'.score → above k.block k'.block)
    (e : E) (target min : ℕ) :
    cache.read db e target min canonical = db.getAtCanonical e target min canonical := by
  unfold read
  cases hread : cache.rows.getAtCanonical e target min canonical with
  | none => rfl
  | some v =>
    obtain ⟨⟨hv, hc⟩, hmin, htarget, hnewest⟩ := VersionStore.of_getAtCanonical hread
    have hk : (⟨e, v.score, v.block⟩ : VersionKey E B) ∈ cache.rows := mem_of_lookup hv
    refine ((VersionStore.getAtCanonical_eq_some_iff hsingle).mpr
      ⟨⟨h.cached _ _ hv, hc⟩, hmin, htarget, fun v' hv' htarget' => ?_⟩).symm
    -- A newer version would be in the cache, too.
    by_contra hlt
    have hmem' : (⟨e, v'.score, v'.block⟩ : VersionKey E B) ∈ db := mem_of_lookup hv'.1
    have hcached := h.newer _ hk _ hmem' rfl
      (habove _ (h.mem hk) _ hmem' hc hv'.2 hk (not_le.mp hlt))
    obtain ⟨x, hx⟩ := mem_iff_lookup.mp hcached
    exact hlt (hnewest ⟨v'.score, v'.block, x⟩ ⟨hx, hv'.2⟩ htarget')

theorem score_le_of_scoreKey_le {k k' : VersionKey E B}
    (h : scoreKey k ≤ scoreKey k') : k.score ≤ k'.score := by
  rcases Prod.Lex.le_iff.mp h with hlt | ⟨heq, -⟩
  · exact le_of_lt hlt
  · exact le_of_eq heq

/-- A version that is written to the store and to the cache, with nothing above it yet. -/
theorem Suffix.insert (h : Suffix above db cache) {key : VersionKey E B} {value : V}
    (hnew : key ∉ db)
    (hscore : ∀ k ∈ db, ∀ k' ∈ db, above k.block k'.block → k.score < k'.score)
    (hlow : ∀ k ∈ db, above k.block key.block → k.score < key.score)
    (htop : ∀ k ∈ db, ¬above key.block k.block) (hself : ¬above key.block key.block) :
    Suffix above (db.insert key value) (cache.insert key value) := by
  have hne {k : VersionKey E B} (hk : k ∈ db) : k ≠ key := fun heq => hnew (heq ▸ hk)
  have hkept {k : VersionKey E B} {v : V} (hv : cache.rows.lookup k = some v) :
      (AList.insert key value db).lookup k = some v := by
    have hv' := h.cached k v hv
    rwa [lookup_insert_ne (hne (mem_of_lookup hv'))]
  -- The case in which the version is admitted, to what is left of the cache.
  have hadmit {rows : VersionStore E B V} (hsub : ∀ k v, rows.lookup k = some v →
        cache.rows.lookup k = some v)
      (hleft : ∀ k ∈ rows, ∀ k' ∈ cache.rows, k'.entity = k.entity → above k.block k'.block →
        k' ∈ rows) :
      Suffix above (db.insert key value) { cache with rows := rows.insert key value } := by
    have hrow {k : VersionKey E B} (hk : k ∈ rows) : k ∈ cache.rows := by
      obtain ⟨v, hv⟩ := mem_iff_lookup.mp hk
      exact mem_of_lookup (hsub k v hv)
    constructor
    · intro k v hv
      by_cases hk : k = key
      · subst hk
        rw [lookup_insert] at hv ⊢
        exact hv
      · change (AList.insert key value rows).lookup k = some v at hv
        rw [lookup_insert_ne hk] at hv
        exact hkept (hsub k v hv)
    · intro k hk k' hk' hentity habove
      rw [mem_insert] at hk hk' ⊢
      rcases hk' with rfl | hk'
      · exact .inl rfl
      · rcases hk with rfl | hk
        · exact absurd habove (htop k' hk')
        · exact .inr (hleft k hk k' (h.newer k (hrow hk) k' hk' hentity habove) hentity habove)
  unfold VersionedCache.insert
  split_ifs with hfull
  · cases hmin : cache.rows.keys.argmin scoreKey with
    | none =>
      have hkeys : cache.rows.keys = [] := argmin_eq_none.mp hmin
      refine ⟨fun k v hv => hkept hv, fun k hk => ?_⟩
      rw [AList.mem_keys, hkeys] at hk
      cases hk
    | some first =>
      have hfirst {k : VersionKey E B} (hk : k ∈ cache.rows) : first.score ≤ k.score :=
        score_le_of_scoreKey_le (le_of_mem_argmin (mem_keys.mp hk) hmin)
      dsimp only
      split_ifs with hskip
      · -- A version below this one would be lower than the first one.
        refine ⟨fun k v hv => hkept hv, fun k hk k' hk' hentity habove => ?_⟩
        rcases (mem_insert db).mp hk' with rfl | hk'
        · have hlt := hlow k (h.mem hk) habove
          have hle := hfirst hk
          have := score_le_of_scoreKey_le hskip
          omega
        · exact h.newer k hk k' hk' hentity habove
      · refine hadmit (fun k v hv => ?_) fun k hk k' hk' _ habove => ?_
        · by_cases hk : k = first
          · rw [hk, lookup_erase] at hv
            cases hv
          · rwa [lookup_erase_ne hk] at hv
        · have hrow := (mem_erase.mp hk).2
          refine mem_erase.mpr ⟨fun heq => ?_, hk'⟩
          have hlt := hscore k (h.mem hrow) k' (h.mem hk') habove
          have := hfirst hrow
          rw [heq] at hlt
          omega
  · exact hadmit (fun _ _ hv => hv) fun _ _ _ hk' _ _ => hk'

theorem Suffix.insertAll (h : Suffix above db cache) {score : ℕ} {block : B}
    {writes : List (E × V)} (hnodup : (writes.map Prod.fst).Nodup)
    (hnew : ∀ w ∈ writes, (⟨w.1, score, block⟩ : VersionKey E B) ∉ db)
    (hscore : ∀ k ∈ db, ∀ k' ∈ db, above k.block k'.block → k.score < k'.score)
    (hlow : ∀ k ∈ db, above k.block block → k.score < score)
    (htop : ∀ k ∈ db, ¬above block k.block) (hself : ¬above block block) :
    Suffix above (db.putAll score block writes) (cache.insertAll score block writes) := by
  induction writes generalizing db cache with
  | nil => exact h
  | cons w writes ih =>
    rw [map_cons, nodup_cons] at hnodup
    have hstep : Suffix above (db.insert ⟨w.1, score, block⟩ w.2)
        (cache.insert ⟨w.1, score, block⟩ w.2) :=
      h.insert (hnew w mem_cons_self) hscore hlow htop hself
    refine ih hstep hnodup.2 (fun w' hw' hmem => ?_) (fun k hk k' hk' habove => ?_)
      (fun k hk habove => ?_) fun k hk => ?_
    · rcases (mem_insert db).mp hmem with heq | hmem
      · exact hnodup.1 ((VersionKey.mk.inj heq).1 ▸ mem_map_of_mem hw')
      · exact hnew w' (mem_cons_of_mem _ hw') hmem
    · rcases (mem_insert db).mp hk with rfl | hk <;>
        rcases (mem_insert db).mp hk' with rfl | hk'
      · exact absurd habove hself
      · exact absurd habove (htop k' hk')
      · exact hlow k hk habove
      · exact hscore k hk k' hk' habove
    · rcases (mem_insert db).mp hk with rfl | hk
      · exact absurd habove hself
      · exact hlow k hk habove
    · rcases (mem_insert db).mp hk with rfl | hk
      · exact hself
      · exact htop k hk

theorem mem_of_mem_insert {key k : VersionKey E B} {value : V}
    (h : k ∈ (cache.insert key value).rows) : k = key ∨ k ∈ cache.rows := by
  unfold insert at h
  split_ifs at h with hfull
  · cases hmin : cache.rows.keys.argmin scoreKey with
    | none =>
      rw [hmin] at h
      exact .inr h
    | some first =>
      rw [hmin] at h
      dsimp only at h
      split_ifs at h with hskip
      · exact .inr h
      · exact ((mem_insert _).mp h).imp_right fun h => (mem_erase.mp h).2
  · exact (mem_insert _).mp h

theorem mem_of_mem_insertAll {score : ℕ} {block : B} {writes : List (E × V)} {k : VersionKey E B}
    (h : k ∈ (cache.insertAll score block writes).rows) : k.block = block ∨ k ∈ cache.rows := by
  induction writes generalizing cache with
  | nil => exact .inr h
  | cons w writes ih =>
    rcases ih h with hblock | hk
    · exact .inl hblock
    · rcases mem_of_mem_insert hk with rfl | hk
      · exact .inl rfl
      · exact .inr hk

end VersionedCache
