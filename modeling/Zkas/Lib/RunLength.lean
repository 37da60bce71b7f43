import Mathlib

/-!
# Cumulative run-length encoding

A run `(cum, item)` says that the positions from the previous run's `cum` up to `cum` hold `item`. A
sequence of runs is compressed when the counts strictly increase from the first on and neighbouring
runs hold different items. A compressed sequence is determined by the list it expands to. -/

namespace RunLength

open List Option

variable {α : Type*}

/-- The list a sequence of runs stands for, from position `prev` on. -/
def expand (prev : ℕ) : List (ℕ × α) → List α
  | [] => []
  | (cum, item) :: runs => replicate (cum - prev) item ++ expand cum runs

/-- The runs after position `prev` are compressed. -/
structure Compressed (prev : ℕ) (runs : List (ℕ × α)) : Prop where
  first : ∀ run ∈ runs.head?, prev < run.1
  increasing : runs.IsChain fun run next => run.1 < next.1
  distinct : runs.IsChain fun run next => run.2 ≠ next.2

variable {prev : ℕ} {runs : List (ℕ × α)} {run : ℕ × α}

theorem Compressed.tail (h : Compressed prev (run :: runs)) : Compressed run.1 runs where
  first next hnext := (isChain_cons.mp h.increasing).1 next hnext
  increasing := (isChain_cons.mp h.increasing).2
  distinct := (isChain_cons.mp h.distinct).2

section

variable (h : Compressed prev runs)
include h

theorem Compressed.lt : ∀ run ∈ runs, prev < run.1 := by
  induction runs generalizing prev with
  | nil => simp
  | cons run runs ih =>
    intro run' hrun'
    have hlt : prev < run.1 := h.first run rfl
    rcases mem_cons.mp hrun' with rfl | hrun'
    · exact hlt
    · exact hlt.trans (ih h.tail run' hrun')

theorem head?_expand : (expand prev runs).head? = runs.head?.map (·.2) := by
  cases runs with
  | nil => rfl
  | cons run runs =>
    obtain ⟨cum, item⟩ := run
    have hpos : cum - prev ≠ 0 := by
      have hlt : prev < cum := h.first (cum, item) rfl
      omega
    obtain ⟨n, hn⟩ := Nat.exists_eq_succ_of_ne_zero hpos
    rw [expand, hn, replicate_succ]
    rfl

theorem length_expand :
    prev + (expand prev runs).length = (runs.getLast?.map (·.1)).getD prev := by
  induction runs generalizing prev with
  | nil => rfl
  | cons run runs ih =>
    obtain ⟨cum, item⟩ := run
    have hlt : prev < cum := h.first (cum, item) rfl
    have htail := ih h.tail
    rw [expand, length_append, length_replicate, getLast?_cons]
    cases hlast : runs.getLast? with
    | none =>
      rw [hlast] at htail
      simp only [map_none, getD_none, map_some, getD_some] at htail ⊢
      omega
    | some last =>
      rw [hlast] at htail
      simp only [map_some, getD_some] at htail ⊢
      omega

theorem Compressed.le_length : ∀ run ∈ runs, run.1 ≤ prev + (expand prev runs).length := by
  induction runs generalizing prev with
  | nil => simp
  | cons run runs ih =>
    obtain ⟨cum, item⟩ := run
    intro run' hrun'
    rw [expand, length_append, length_replicate]
    rcases mem_cons.mp hrun' with rfl | hrun'
    · omega
    · have hle : run'.1 ≤ cum + (expand cum runs).length := ih h.tail run' hrun'
      omega

end

/-- A leading run of an item is determined when what follows it starts with something else. -/
theorem replicate_append_inj {item : α} {n m : ℕ} {xs ys : List α} (hxs : xs.head? ≠ some item)
    (hys : ys.head? ≠ some item)
    (h : replicate n item ++ xs = replicate m item ++ ys) : n = m ∧ xs = ys := by
  induction n generalizing m with
  | zero =>
    cases m with
    | zero => exact ⟨rfl, h⟩
    | succ m =>
      exact absurd (congrArg head? h) hxs
  | succ n ih =>
    cases m with
    | zero =>
      exact absurd (congrArg head? h).symm hys
    | succ m =>
      obtain ⟨hn, hrest⟩ := ih (cons.inj h).2
      exact ⟨congrArg Nat.succ hn, hrest⟩

theorem Compressed.head?_expand_ne
    (h : Compressed prev (run :: runs)) : (expand run.1 runs).head? ≠ some run.2 := by
  rw [head?_expand h.tail]
  intro heq
  obtain ⟨next, hnext, hitem⟩ := map_eq_some_iff.mp heq
  exact (isChain_cons.mp h.distinct).1 next hnext hitem.symm

theorem expand_inj {runs' : List (ℕ × α)} (h : Compressed prev runs)
    (h' : Compressed prev runs') (heq : expand prev runs = expand prev runs') : runs = runs' := by
  have hheads : runs.head?.map (·.2) = runs'.head?.map (·.2) := by
    rw [← head?_expand h, ← head?_expand h', heq]
  induction runs generalizing prev runs' with
  | nil =>
    cases runs' with
    | nil => rfl
    | cons run' runs' => exact absurd hheads (by simp)
  | cons run runs ih =>
    cases runs' with
    | nil => exact absurd hheads (by simp)
    | cons run' runs' =>
      obtain ⟨cum, item⟩ := run
      obtain ⟨cum', item'⟩ := run'
      obtain rfl : item = item' := some.inj hheads
      -- The first run ends where another item starts, on both sides.
      obtain ⟨hcount, hrest⟩ := replicate_append_inj h.head?_expand_ne h'.head?_expand_ne heq
      have hlt' : prev < cum' := h'.first (cum', item) rfl
      obtain rfl : cum = cum' := by omega
      have htails : runs.head?.map (·.2) = runs'.head?.map (·.2) := by
        rw [← head?_expand h.tail, ← head?_expand h'.tail, hrest]
      rw [ih h.tail h'.tail hrest htails]

theorem getElem?_expand {i : ℕ} (h : Compressed prev runs) (hi : prev ≤ i) :
    (expand prev runs)[i - prev]? = (runs.dropWhile (·.1 ≤ i)).head?.map (·.2) := by
  induction runs generalizing prev with
  | nil => rfl
  | cons run runs ih =>
    obtain ⟨cum, item⟩ := run
    have hlt : prev < cum := h.first (cum, item) rfl
    rw [expand]
    by_cases hcum : cum ≤ i
    · rw [getElem?_append_right (by rw [length_replicate]; omega), length_replicate,
        dropWhile_cons_of_pos (by simpa using hcum),
          show i - prev - (cum - prev) = i - cum by omega]
      exact ih h.tail hcum
    · rw [getElem?_append_left (by rw [length_replicate]; omega),
        getElem?_replicate_of_lt (by omega), dropWhile_cons_of_neg (by simpa using hcum)]
      rfl

theorem expand_append (prev : ℕ) (runs runs' : List (ℕ × α)) : expand prev (runs ++ runs') =
      expand prev runs ++ expand ((runs.getLast?.map (·.1)).getD prev) runs' := by
  induction runs generalizing prev with
  | nil => rfl
  | cons run runs ih =>
    rw [cons_append, expand, expand, ih, append_assoc, getLast?_cons]
    cases runs.getLast? <;> rfl

theorem compressed_concat : Compressed prev (runs ++ [run]) ↔ Compressed prev runs ∧
      (runs.getLast?.map (·.1)).getD prev < run.1 ∧ ∀ last ∈ runs.getLast?, last.2 ≠ run.2 := by
  constructor
  · rintro ⟨hfirst, hinc, hdist⟩
    obtain ⟨hinc, -, hinc'⟩ := isChain_append.mp hinc
    obtain ⟨hdist, -, hdist'⟩ := isChain_append.mp hdist
    refine ⟨⟨fun head hhead => hfirst head ?_, hinc, hdist⟩, ?_,
      fun last hlast => hdist' last hlast _ rfl⟩
    · rw [head?_append, mem_def.mp hhead]
      rfl
    · cases hlast : runs.getLast? with
      | none =>
        rw [getLast?_eq_none_iff.mp hlast] at hfirst
        exact hfirst run rfl
      | some last => exact hinc' last hlast _ rfl
  · rintro ⟨⟨hfirst, hinc, hdist⟩, hlt, hne⟩
    refine ⟨fun head hhead => ?_, isChain_append.mpr ⟨hinc, .singleton _, ?_⟩,
      isChain_append.mpr ⟨hdist, .singleton _, ?_⟩⟩
    · cases runs with
      | nil =>
        obtain rfl := some.inj hhead
        exact hlt
      | cons run' runs => exact hfirst head hhead
    · rintro last hlast _ ⟨⟩
      rwa [mem_def.mp hlast] at hlt
    · rintro last hlast _ ⟨⟩
      exact hne last hlast

theorem Compressed.extend {cum : ℕ} {x : α}
    (h : Compressed prev (runs ++ [(cum, x)])) : Compressed prev (runs ++ [(cum + 1, x)]) ∧
      expand prev (runs ++ [(cum + 1, x)]) = expand prev (runs ++ [(cum, x)]) ++ [x] := by
  obtain ⟨hruns, hlt, hne⟩ := compressed_concat.mp h
  refine ⟨compressed_concat.mpr ⟨hruns, hlt.trans (Nat.lt_succ_self cum), hne⟩, ?_⟩
  simp only [expand_append, expand, append_nil]
  rw [Nat.succ_sub hlt.le, replicate_succ', append_assoc]

theorem Compressed.concat {cum : ℕ} {x y : α}
    (h : Compressed prev (runs ++ [(cum, x)])) (hne : x ≠ y) :
    Compressed prev (runs ++ [(cum, x)] ++ [(cum + 1, y)]) ∧
      expand prev (runs ++ [(cum, x)] ++ [(cum + 1, y)]) =
        expand prev (runs ++ [(cum, x)]) ++ [y] := by
  have hlast : (runs ++ [(cum, x)]).getLast? = some (cum, x) := getLast?_concat
  refine ⟨compressed_concat.mpr ⟨h, ?_, ?_⟩, ?_⟩
  · rw [hlast]
    exact Nat.lt_succ_self cum
  · rw [hlast]
    rintro _ ⟨⟩
    exact hne
  · rw [expand_append, hlast]
    simp [expand]

/-! ## Compression -/

section

variable [DecidableEq α]

/-- Equal neighbours counted together. -/
def dedupWithCount : List α → List (ℕ × α)
  | [] => []
  | x :: xs =>
    match dedupWithCount xs with
    | [] => [(1, x)]
    | (n, y) :: rest => if x = y then (n + 1, y) :: rest else (1, x) :: (n, y) :: rest

/-- Counts summed up from the left. -/
def cumulative : ℕ → List (ℕ × α) → List (ℕ × α)
  | _, [] => []
  | cum, (n, x) :: rest => (cum + n, x) :: cumulative (cum + n) rest

/-- The runs of a list. -/
def compress (xs : List α) : List (ℕ × α) := cumulative 0 (dedupWithCount xs)

/-- Counted neighbours are positive, differ from one another, and are those of the list. -/
theorem dedupWithCount_spec (xs : List α) : (∀ run ∈ dedupWithCount xs, 0 < run.1) ∧
      ((dedupWithCount xs).IsChain fun run next => run.2 ≠ next.2) ∧
      (dedupWithCount xs).flatMap (fun run => replicate run.1 run.2) = xs := by
  induction xs with
  | nil => exact ⟨by simp [dedupWithCount], .nil, rfl⟩
  | cons x xs ih =>
    obtain ⟨hpos, hchain, hxs⟩ := ih
    rw [dedupWithCount]
    cases hruns : dedupWithCount xs with
    | nil =>
      rw [hruns] at hxs
      subst hxs
      exact ⟨by simp, .singleton _, rfl⟩
    | cons run rest =>
      obtain ⟨n, y⟩ := run
      rw [hruns] at hpos hchain hxs
      by_cases hxy : x = y
      · subst hxy
        simp only [if_true]
        refine ⟨fun run hrun => ?_, ?_, ?_⟩
        · rcases mem_cons.mp hrun with rfl | hrun
          · exact Nat.succ_pos n
          · exact hpos run (.tail _ hrun)
        · exact isChain_cons.mpr (isChain_cons.mp hchain)
        · rw [flatMap_cons] at hxs ⊢
          rw [replicate_succ, cons_append, hxs]
      · simp only [if_neg hxy]
        refine ⟨fun run hrun => ?_, .cons_cons hxy hchain, ?_⟩
        · rcases mem_cons.mp hrun with rfl | hrun
          · exact one_pos
          · exact hpos run hrun
        · rw [flatMap_cons, hxs]
          rfl

omit [DecidableEq α] in
theorem cumulative_spec (cum : ℕ) {runs : List (ℕ × α)} (hpos : ∀ run ∈ runs, 0 < run.1)
    (hchain : runs.IsChain fun run next => run.2 ≠ next.2) :
    Compressed cum (cumulative cum runs) ∧
      expand cum (cumulative cum runs) = runs.flatMap fun run => replicate run.1 run.2 := by
  induction runs generalizing cum with
  | nil => exact ⟨⟨by simp [cumulative], .nil, .nil⟩, rfl⟩
  | cons run rest ih =>
    obtain ⟨n, x⟩ := run
    have hn : 0 < n := hpos (n, x) mem_cons_self
    obtain ⟨hnext, hrest⟩ := isChain_cons.mp hchain
    obtain ⟨hcomp, hexpand⟩ := ih (cum + n) (fun run hrun => hpos run (.tail _ hrun)) hrest
    have hitem : ∀ next ∈ (cumulative (cum + n) rest).head?, x ≠ next.2 := by
      cases rest with
      | nil => simp [cumulative]
      | cons run rest =>
        rintro _ ⟨⟩
        exact hnext run rfl
    refine ⟨⟨?_, isChain_cons.mpr ⟨hcomp.first, hcomp.increasing⟩,
      isChain_cons.mpr ⟨hitem, hcomp.distinct⟩⟩, ?_⟩
    · rintro _ ⟨⟩
      exact Nat.lt_add_of_pos_right hn
    · rw [cumulative, expand, hexpand, Nat.add_sub_cancel_left, flatMap_cons]

theorem compress_spec (xs : List α) : Compressed 0 (compress xs) ∧ expand 0 (compress xs) = xs := by
  obtain ⟨hpos, hchain, hxs⟩ := dedupWithCount_spec xs
  obtain ⟨hcomp, hexpand⟩ := cumulative_spec 0 hpos hchain
  exact ⟨hcomp, hexpand.trans hxs⟩

theorem compress_expand {runs : List (ℕ × α)} (h : Compressed 0 runs) :
    compress (expand 0 runs) = runs :=
  expand_inj (compress_spec _).1 h (compress_spec _).2

end

end RunLength
