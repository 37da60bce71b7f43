import Zkas.Lib.Frontier
import Zkas.Shielded.Witness

/-!
# The note tree of a node hash

Any node hash makes a note tree, with the frontiers of `MountainRange`. It has the documented
behaviour of the frontier (`NoteTree.ofHash_frontierSpec`), and of the whole note tree when its
nodes have canonical encodings (`NoteTree.ofHash_spec`). -/

namespace Zkas

open MountainRange Option MountainRange.Frontier

variable {H N : Type}

/-- The note tree of a node hash and an encoding of nodes. -/
def NoteTree.ofHash (toBytes : N → H) (fromBytes : H → Option N) (combine : ℕ → N → N → N)
    (emptyLeaf emptyTree : N) : NoteTree H N where
  Frontier := Option (MountainRange.Frontier N TREE_DEPTH)
  toBytes := toBytes
  fromBytes := fromBytes
  combine := combine
  emptyLeaf := emptyLeaf
  emptyTree := emptyTree
  empty := none
  append f leaf := (MountainRange.Frontier.append combine f leaf).map some
  value f := f.map parts
  fromParts p l oms := (MountainRange.Frontier.fromParts TREE_DEPTH p l oms).map some
  root f := f.elim emptyLeaf (MountainRange.Frontier.root combine emptyLeaf)

variable {toBytes : N → H} {fromBytes : H → Option N} {combine : ℕ → N → N → N}
  {emptyLeaf emptyTree : N}
variable (hempty : emptyTree = emptyRoot combine emptyLeaf TREE_DEPTH)
include hempty

/-- Its frontiers behave as documented. -/
theorem NoteTree.ofHash_frontierSpec :
    (NoteTree.ofHash toBytes fromBytes combine emptyLeaf emptyTree).FrontierSpec where
  emptyTree_eq := hempty
  value_inj h := map_injective parts_injective h
  value_empty := rfl
  value_wf {f p l oms} h := by
    obtain ⟨g, rfl, hparts⟩ := map_eq_some_iff.mp h
    simp only [MountainRange.Frontier.parts, Prod.mk.injEq] at hparts
    obtain ⟨rfl, -, rfl⟩ := hparts
    exact ⟨g.position_lt, g.length_ommers⟩
  append_first {f} leaf h := by
    obtain rfl : f = none := map_eq_none_iff.mp h
    have hfit : (0 : ℕ) < 2 ^ TREE_DEPTH := by decide
    have hlen : ([] : List N).length = popcount 0 := rfl
    have hparts := fromParts_of_fits leaf hfit hlen
    exact ⟨some ⟨0, leaf, [], hfit, hlen⟩, congrArg (Option.map some) hparts, rfl⟩
  append_next {f p l oms} leaf h hfit := by
    obtain ⟨g, rfl, hparts⟩ := map_eq_some_iff.mp h
    simp only [MountainRange.Frontier.parts, Prod.mk.injEq] at hparts
    obtain ⟨rfl, rfl, rfl⟩ := hparts
    obtain ⟨g', oms, happ, hcarry, hparts'⟩ := append_some g leaf hfit
    exact ⟨some g', oms, congrArg (Option.map some) happ, hcarry, congrArg some hparts'⟩
  value_fromParts {p l oms f} h := by
    obtain ⟨g, hg, rfl⟩ := map_eq_some_iff.mp h
    exact congrArg some (parts_of_fromParts hg)
  root_eq {f p l oms} h := by
    obtain ⟨g, rfl, hparts⟩ := map_eq_some_iff.mp h
    simp only [MountainRange.Frontier.parts, Prod.mk.injEq] at hparts
    obtain ⟨rfl, rfl, rfl⟩ := hparts
    exact rootFrom_eq_root g

/-- With canonical encodings the whole tree does. -/
theorem NoteTree.ofHash_spec (hto : ∀ n, fromBytes (toBytes n) = some n)
    (hfrom : ∀ {b n}, fromBytes b = some n → toBytes n = b) :
    (NoteTree.ofHash toBytes fromBytes combine emptyLeaf emptyTree).Spec where
  toFrontierSpec := ofHash_frontierSpec hempty
  fromBytes_toBytes := hto
  toBytes_of_fromBytes := hfrom
  append_full {f p l oms} leaf h hfull := by
    obtain ⟨g, rfl, hparts⟩ := map_eq_some_iff.mp h
    simp only [MountainRange.Frontier.parts, Prod.mk.injEq] at hparts
    obtain ⟨rfl, -, -⟩ := hparts
    exact congrArg (Option.map some) (append_full g leaf hfull)
  fromParts_some {p oms} l hp hlen := by
    have hparts := fromParts_of_fits l hp hlen
    exact ⟨some ⟨p, l, oms, hp, hlen⟩, congrArg (Option.map some) hparts⟩

end Zkas
