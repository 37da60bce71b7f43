import Zkas.Dag.Ghostdag
import Zkas.Lib.Cluster

/-!
# The order of a DAG and its blues

`Ordered` is what every grown DAG has of an order: one genesis below all blocks, and a blue work
that rises from a parent to its child. From it come acyclicity and the `rank` that bounds every walk
down the selected chain. The blues of a block are those merged by it and by the blocks of its
selected chain (`Blue`), and the size of a blue is the first one stored on the way down that chain
(`SizeAt`). None of this changes when a block is added (`Extends`). -/

namespace Zkas.Dag

open Cluster Option Finset

variable {B : Type} [LinearOrder B] (dag : Store B)

/-- One block is in the past of another. -/
def Past : B → B → Prop := Relation.TransGen (IsParent dag.getParents)

/-- The blue work of a block as a number. -/
def blueWork (b : B) : ℕ := (dag.lookup b).elim 0 fun block => block.data.blue_work.toNat

/-- The key of a block in a DAG. -/
def keyOf (b : B) : ℕ ×ₗ B := toLex (blueWork dag b, b)

section

variable {dag : Store B} {a b : B} {block : Block B}

/-- Parents are read from the store. -/
theorem isParent_iff :
    IsParent dag.getParents a b ↔ ∃ block, dag.lookup b = some block ∧ a ∈ block.parents := by
  simp only [IsParent, Store.getParents, map_eq_some_iff]
  constructor
  · rintro ⟨_, ⟨block, hblock, rfl⟩, ha⟩
    exact ⟨block, hblock, ha⟩
  · rintro ⟨block, hblock, ha⟩
    exact ⟨_, ⟨block, hblock, rfl⟩, ha⟩

/-- Membership is having an entry. -/
theorem mem_iff_lookup : b ∈ dag ↔ ∃ block, dag.lookup b = some block := by
  rw [← AList.lookup_isSome, isSome_iff_exists]

section

variable (h : dag.lookup b = some block)
include h

/-- A block with an entry is in the DAG. -/
theorem mem_of_lookup : b ∈ dag := mem_iff_lookup.mpr ⟨block, h⟩

/-- The blue work of an entry. -/
theorem blueWork_of_lookup :
    blueWork dag b = block.data.blue_work.toNat := by
  rw [blueWork, h, elim_some]

/-- An entry is returned. -/
theorem get_of_lookup : dag.get b = .ok block := by
  rw [Store.get, h, okOr]

end

/-- The past with the block itself. -/
theorem reaches_iff : Reaches dag.getParents a b ↔ a = b ∨ Past dag a b := by
  rw [Reaches, Relation.reflTransGen_iff_eq_or_transGen, eq_comm]
  rfl

/-- The past through the parents. -/
theorem past_iff (h : dag.lookup b = some block) :
    Past dag a b ↔ ∃ p ∈ block.parents, a = p ∨ Past dag a p := by
  unfold Past
  rw [Relation.transGen_iff]
  constructor
  · rintro (hparent | ⟨c, hpast, hparent⟩)
    all_goals
      obtain ⟨block', hblock', hmem⟩ := isParent_iff.mp hparent
      obtain rfl := mem_unique h hblock'
    · exact ⟨a, hmem, .inl rfl⟩
    · exact ⟨c, hmem, .inr hpast⟩
  · rintro ⟨p, hp, rfl | hpast⟩
    · exact .inl (isParent_iff.mpr ⟨block, h, hp⟩)
    · exact .inr ⟨p, hpast, isParent_iff.mpr ⟨block, h, hp⟩⟩

end

open Classical in
/-- The number of blocks in the past of a block. -/
noncomputable def rank (b : B) : ℕ := (dag.keys.toFinset.filter (Past dag · b)).card

/-! ## The order -/

/-- What is known of the order of a grown DAG. -/
structure Ordered (M : GhostdagManager B) (dag : Store B) : Prop where
  origin_notMem : M.origin ∉ dag
  genesis : ∃ block, dag.lookup M.genesis_hash = some block ∧ block.parents = [M.origin]
  parents_ne_nil : ∀ {b block}, dag.lookup b = some block → block.parents ≠ []
  parents_mem : ∀ {b block}, dag.lookup b = some block → b ≠ M.genesis_hash →
    ∀ p ∈ block.parents, p ∈ dag
  work_lt : ∀ {b block p}, dag.lookup b = some block → p ∈ block.parents →
    p ∈ dag → blueWork dag p < blueWork dag b

namespace Ordered

variable {M : GhostdagManager B} {dag : Store B} {a b c : B} {block : Block B}

section

variable (h : Ordered M dag)
include h

/-- Genesis is in the DAG. -/
theorem genesis_mem : M.genesis_hash ∈ dag := by
  obtain ⟨block, hblock, -⟩ := h.genesis
  exact mem_of_lookup hblock

/-- No block is the origin. -/
theorem ne_origin (hb : b ∈ dag) : b ≠ M.origin := fun heq => h.origin_notMem (heq ▸ hb)

/-- The origin has no past. -/
theorem not_past_origin : ¬Past dag a M.origin := by
  intro hpast
  obtain ⟨c, -, hparent⟩ := Relation.TransGen.tail'_iff.mp hpast
  obtain ⟨block, hblock, -⟩ := isParent_iff.mp hparent
  exact h.origin_notMem (mem_of_lookup hblock)

/-- A parent is a block or the origin. -/
theorem mem_of_isParent (hp : IsParent dag.getParents a b) :
    a ∈ dag ∨ a = M.origin := by
  obtain ⟨block, hblock, ha⟩ := isParent_iff.mp hp
  by_cases hb : b = M.genesis_hash
  · obtain ⟨block', hblock', hparents⟩ := h.genesis
    obtain rfl := mem_unique (hb ▸ hblock) hblock'
    rw [hparents, List.mem_singleton] at ha
    exact .inr ha
  · exact .inl (h.parents_mem hblock hb a ha)

end

/-- Only blocks have a past. -/
theorem mem_of_past_right (hpast : Past dag a b) : b ∈ dag := by
  obtain ⟨c, -, hparent⟩ := Relation.TransGen.tail'_iff.mp hpast
  obtain ⟨block, hblock, -⟩ := isParent_iff.mp hparent
  exact mem_of_lookup hblock

variable (h : Ordered M dag)
include h

/-- The past holds blocks and the origin. -/
theorem mem_of_past (hpast : Past dag a b) : a ∈ dag ∨ a = M.origin := by
  obtain ⟨c, hparent, -⟩ := Relation.TransGen.head'_iff.mp hpast
  exact h.mem_of_isParent hparent

/-- Blue work grows into the future. -/
theorem work_lt_of_past (ha : a ∈ dag) (hpast : Past dag a b) :
    blueWork dag a < blueWork dag b := by
  induction hpast with
  | single hparent =>
    obtain ⟨block, hblock, hmem⟩ := isParent_iff.mp hparent
    exact h.work_lt hblock hmem ha
  | tail hpast hparent ih =>
    obtain ⟨block, hblock, hmem⟩ := isParent_iff.mp hparent
    obtain hc | rfl := h.mem_of_isParent hparent
    · exact ih.trans (h.work_lt hblock hmem hc)
    · exact absurd hpast h.not_past_origin

/-- A block in the past of another has less blue work, so it comes first in the order of the keys.
-/
theorem topological {order : List B} (hmem : ∀ x ∈ order, x ∈ dag)
    (hsorted : order.Pairwise fun x y => keyOf dag x ≤ keyOf dag y) :
    order.Pairwise fun x y => ¬Past dag y x := by
  refine hsorted.imp_of_mem fun {x y} _ hy hle hpast => ?_
  have hlt := h.work_lt_of_past (hmem y hy) hpast
  rw [keyOf, keyOf, Prod.Lex.toLex_le_toLex] at hle
  omega

/-- No block is in its own past. -/
theorem not_past_self (a : B) : ¬Past dag a a := by
  intro hpast
  exact absurd (h.work_lt_of_past (mem_of_past_right hpast) hpast) (lt_irrefl _)

/-- Genesis is in the past of every other block. -/
theorem genesis_past (hb : b ∈ dag) (hne : b ≠ M.genesis_hash) :
    Past dag M.genesis_hash b := by
  -- By induction on the blue work, which is lower at a parent.
  induction hn : blueWork dag b using Nat.strong_induction_on generalizing b with
  | _ n ih =>
    obtain ⟨block, hblock⟩ := mem_iff_lookup.mp hb
    obtain ⟨p, hp⟩ := List.exists_mem_of_ne_nil _ (h.parents_ne_nil hblock)
    have hpmem := h.parents_mem hblock hne p hp
    by_cases hgenesis : p = M.genesis_hash
    · exact .single (isParent_iff.mpr ⟨block, hblock, hgenesis ▸ hp⟩)
    · have hlt := h.work_lt hblock hp hpmem
      have hpast := ih _ (hn ▸ hlt) hpmem hgenesis rfl
      exact .tail hpast (isParent_iff.mpr ⟨block, hblock, hp⟩)

open Classical in
/-- Ranks grow into the future. -/
theorem rank_lt (ha : a ∈ dag) (hpast : Past dag a b) :
    rank dag a < rank dag b := by
  refine Finset.card_lt_card (Finset.ssubset_iff_subset_ne.mpr ⟨fun x hx => ?_, fun heq => ?_⟩)
  · obtain ⟨hmem, hx⟩ := Finset.mem_filter.mp hx
    exact mem_filter.mpr ⟨hmem, hx.trans hpast⟩
  · have hmem : a ∈ dag.keys.toFinset.filter (Past dag · b) :=
      mem_filter.mpr ⟨List.mem_toFinset.mpr (AList.mem_keys.mp ha), hpast⟩
    rw [← heq] at hmem
    exact h.not_past_self a (mem_filter.mp hmem).2

open Classical in
/-- Ranks are below the number of blocks. -/
theorem rank_lt_length (hb : b ∈ dag) : rank dag b < dag.entries.length := by
  have hcard : dag.keys.toFinset.card = dag.entries.length := by
    rw [List.toFinset_card_of_nodup dag.keys_nodup, AList.keys, List.keys, List.length_map]
  rw [← hcard]
  refine Finset.card_lt_card (Finset.ssubset_iff_subset_ne.mpr ⟨filter_subset _ _, fun heq => ?_⟩)
  have hmem : b ∈ dag.keys.toFinset := List.mem_toFinset.mpr (AList.mem_keys.mp hb)
  rw [← heq] at hmem
  exact h.not_past_self b (mem_filter.mp hmem).2

end Ordered

/-! ## Blues and their sizes -/

section

variable (M : GhostdagManager B) (dag : Store B)

/-- A block is blue for another: merged as blue by it or by a block of its selected chain, the
genesis apart. -/
inductive Blue : B → B → Prop
  | merged {b x : B} {block : Block B} (hblock : dag.lookup b = some block)
      (hne : b ≠ M.genesis_hash) (hx : x ∈ block.data.mergeset_blues) : Blue b x
  | inherited {b x : B} {block : Block B} (hblock : dag.lookup b = some block)
      (hne : b ≠ M.genesis_hash) (hx : Blue block.data.selected_parent x) : Blue b x

open Classical in
/-- The blue set of a block. -/
noncomputable def blueSet (b : B) : Finset B := dag.keys.toFinset.filter (Blue M dag b)

/-- The blue set in the view of block data: its own blues and those of the selected parent. -/
noncomputable def bluesOf (data : GhostdagData B) : Finset B :=
  data.mergeset_blues.toFinset ∪ blueSet M dag data.selected_parent

/-- The size that is stored for a block, in the view of block data: the first on the way down the
selected chain. -/
inductive SizeAt (x : B) : GhostdagData B → KType → Prop
  | here {data : GhostdagData B} {size : KType}
      (hsize : data.blues_anticone_sizes.lookup x = some size) : SizeAt x data size
  | deeper {data : GhostdagData B} {size : KType} {parent : Block B}
      (hnone : data.blues_anticone_sizes.lookup x = none)
      (hne : data.selected_parent ≠ M.genesis_hash)
      (hparent : dag.lookup data.selected_parent = some parent)
      (hsize : SizeAt x parent.data size) : SizeAt x data size

/-- The relation of the anticone in a DAG. -/
abbrev InAnticone : B → B → Prop := Anticone (Past dag)

variable {M dag} {b x : B} {block : Block B}

/-- Blue blocks are merged ones, or blue at the selected parent. -/
theorem blue_iff (hblock : dag.lookup b = some block) (hne : b ≠ M.genesis_hash) :
    Blue M dag b x ↔ x ∈ block.data.mergeset_blues ∨ Blue M dag block.data.selected_parent x := by
  constructor
  · rintro (⟨hblock', -, hx⟩ | ⟨hblock', -, hx⟩)
    all_goals obtain rfl := mem_unique hblock hblock'
    · exact .inl hx
    · exact .inr hx
  · rintro (hx | hx)
    · exact .merged hblock hne hx
    · exact .inherited hblock hne hx

/-- Genesis has no blue blocks. -/
theorem not_blue_genesis : ¬Blue M dag M.genesis_hash x := by
  rintro (⟨-, hne, -⟩ | ⟨-, hne, -⟩)
  · exact hne rfl
  · exact hne rfl

open Classical in
/-- The members of a blue set. -/
theorem mem_blueSet : x ∈ blueSet M dag b ↔ x ∈ dag ∧ Blue M dag b x := by
  rw [blueSet, mem_filter, List.mem_toFinset, AList.mem_keys]

/-- The blue set of genesis is empty. -/
theorem blueSet_genesis : blueSet M dag M.genesis_hash = ∅ :=
  eq_empty_of_forall_notMem fun _ hx => not_blue_genesis (mem_blueSet.mp hx).2

/-- The blocks that data calls blue. -/
theorem mem_bluesOf {data : GhostdagData B} : x ∈ bluesOf M dag data ↔
      x ∈ data.mergeset_blues ∨ x ∈ blueSet M dag data.selected_parent := by
  rw [bluesOf, mem_union, List.mem_toFinset]

/-- The blue set through the data of the block. -/
theorem blueSet_eq (hblock : dag.lookup b = some block) (hne : b ≠ M.genesis_hash)
    (hmem : ∀ x ∈ block.data.mergeset_blues, x ∈ dag) :
    blueSet M dag b = bluesOf M dag block.data := by
  ext x
  rw [mem_blueSet, mem_bluesOf, mem_blueSet, blue_iff hblock hne]
  constructor
  · rintro ⟨hx, hblue | hblue⟩
    · exact .inl hblue
    · exact .inr ⟨hx, hblue⟩
  · rintro (hblue | ⟨hx, hblue⟩)
    · exact ⟨hmem x hblue, .inl hblue⟩
    · exact ⟨hx, .inr hblue⟩

end

/-! ## A DAG that grows -/

/-- Every entry of a store is one of another. -/
def Extends (dag dag' : Store B) : Prop :=
  ∀ {b block}, dag.lookup b = some block → dag'.lookup b = some block

/-- A new block extends the DAG. -/
theorem extends_insert {dag : Store B} {b : B} (hb : b ∉ dag) (block : Block B) :
    Extends dag (dag.insert b block) := by
  intro b' block' hblock'
  have hne : b' ≠ b := fun heq => hb (heq ▸ mem_of_lookup hblock')
  rw [AList.lookup_insert_ne hne, hblock']

namespace Extends

variable {M : GhostdagManager B} {dag dag' : Store B} {a b x : B} (hext : Extends dag dag')
include hext

/-- No block is lost. -/
theorem mem (hb : b ∈ dag) : b ∈ dag' := by
  obtain ⟨block, hblock⟩ := mem_iff_lookup.mp hb
  exact mem_of_lookup (hext hblock)

/-- Blue work stays. -/
theorem blueWork_eq (hb : b ∈ dag) :
    blueWork dag' b = blueWork dag b := by
  obtain ⟨block, hblock⟩ := mem_iff_lookup.mp hb
  rw [blueWork_of_lookup hblock, blueWork_of_lookup (hext hblock)]

/-- The past of an old block stays. -/
theorem past_iff (h : Ordered M dag) (horigin : M.origin ∉ dag')
    (hb : b ∈ dag) : Past dag' a b ↔ Past dag a b := by
  refine transGen_congr (T := {b | b ∈ dag ∨ b = M.origin})
    (fun _ hparent => h.mem_of_isParent hparent) (fun {a b} hb => ?_) (.inl hb)
  obtain hb | rfl := hb
  · obtain ⟨block, hblock⟩ := mem_iff_lookup.mp hb
    have hlookup := hext hblock
    rw [isParent_iff, isParent_iff, hblock, hlookup]
  · constructor
    · intro hparent
      obtain ⟨block, hblock, -⟩ := isParent_iff.mp hparent
      exact absurd (mem_of_lookup hblock) horigin
    · intro hparent
      obtain ⟨block, hblock, -⟩ := isParent_iff.mp hparent
      exact absurd (mem_of_lookup hblock) h.origin_notMem

/-- The anticone relation of old blocks stays. -/
theorem inAnticone_iff (h : Ordered M dag) (horigin : M.origin ∉ dag')
    (ha : a ∈ dag) (hb : b ∈ dag) : InAnticone dag' a b ↔ InAnticone dag a b := by
  unfold InAnticone Anticone
  rw [hext.past_iff h horigin hb, hext.past_iff h horigin ha]

/-- Anticone sizes stay. -/
theorem degree_eq (h : Ordered M dag) (horigin : M.origin ∉ dag')
    {S : Finset B} (hS : ∀ y ∈ S, y ∈ dag) (hx : x ∈ dag) :
    degree (InAnticone dag') S x = degree (InAnticone dag) S x :=
  degree_congr fun y hy => hext.inAnticone_iff h horigin hx (hS y hy)

/-- Stored sizes stay. -/
theorem sizeAt {data : GhostdagData B} {size : KType}
    (h : SizeAt M dag x data size) : SizeAt M dag' x data size := by
  induction h with
  | here hsize => exact .here hsize
  | deeper hnone hne hparent _ ih => exact .deeper hnone hne (hext hparent) ih

end Extends

end Zkas.Dag
