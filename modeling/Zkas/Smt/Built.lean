import Zkas.Smt.Update

/-!
# What an update reads and what it leaves

The store that an update reads may lack nodes whose leaves are all among the updates (`Readable`),
as a store does in which old versions are out of sight. After the update the nodes that are read are
those of the new map (`Left`), apart from collapsed leaves that are left behind (`Stale`):
`expand_singleton` takes such a leaf for nothing, so when nothing comes back from below, no
tombstone is recorded for it. When every update changes a leaf, none is left behind (`Built`). -/

namespace Zkas.Smt

open BitPath SparseTree Option BranchKey

variable {D : Type}

section

variable (H : SmtHasher D)

/-- What is seen of a canonical store below a position. Nodes that are out of sight have only
updated leaves, and nothing is seen below them. -/
structure Readable (m : Key → Option D) (updated : Key → Prop)
    (view : BranchKey → Option (Node D)) (d : ℕ) (k : Key) : Prop where
  seen : ∀ n x v, d + n < 256 → Agree d k x → view (.new (d + n) x) = some v →
    stored H m x d n = some v
  unseen : ∀ n x, d + n < 256 → Agree d k x → view (.new (d + n) x) = none →
    stored H m x d n ≠ none → ∀ y, Agree (d + n) x y → m y ≠ none → updated y
  below : ∀ n x, d + (n + 1) < 256 → Agree d k x → view (.new (d + n) x) = none →
    view (.new (d + (n + 1)) x) = none

/-- What an update leaves below a position. -/
structure Built (m m' : Key → Option D) (updated : Key → Prop)
    (view : BranchKey → Option (Node D)) (d : ℕ) (k : Key) (changes changes' : SmtNodeChanges D) :
    Prop where
  /-- Other positions are left alone. -/
  frame : ∀ e x, e < 256 → ¬(d ≤ e ∧ Agree d k x) → changes' (.new e x) = changes (.new e x)
  /-- What is read afterwards is the new tree. -/
  reads : ∀ n x, d + n < 256 → Agree d k x →
    (changes' (.new (d + n) x)).getD (view (.new (d + n) x)) = stored H m' x d n
  /-- The parent of a changed node is changed. -/
  closed : ∀ n x, d + (n + 1) < 256 → Agree d k x → changes' (.new (d + (n + 1)) x) ≠ none →
    changes' (.new (d + n) x) ≠ none
  /-- A node that is left alone was there before, and has no updates below. -/
  kept : ∀ n x, d + n < 256 → Agree d k x → changes' (.new (d + n) x) = none →
    stored H m' x d n ≠ none → stored H m x d n ≠ none ∧ ∀ y, Agree (d + n) x y → ¬updated y

/-- No changes yet below a position. -/
def Fresh (changes : SmtNodeChanges D) (d : ℕ) (k : Key) : Prop :=
  ∀ n x, d + n < 256 → Agree d k x → changes (.new (d + n) x) = none

/-- A collapsed leaf that is left behind at a position: the leaves below it are gone, and an update
of another key went past it. -/
def Stale (m' : Key → Option D) (updated : Key → Prop) (view : BranchKey → Option (Node D)) (e : ℕ)
    (x : Key) : Prop :=
  ∃ cl, view (.new e x) = some (.collapsed cl) ∧ (∀ y, Agree e x y → m' y = none) ∧
    ∃ y, Agree e x y ∧ updated y ∧ y ≠ cl.lane_key

/-- What an update leaves below a position, whether it changes leaves or not. -/
structure Left (m' : Key → Option D) (updated : Key → Prop) (strict : Prop)
    (view : BranchKey → Option (Node D)) (d : ℕ) (k : Key) (changes changes' : SmtNodeChanges D) :
    Prop where
  frame : ∀ e x, e < 256 → ¬(d ≤ e ∧ Agree d k x) → changes' (.new e x) = changes (.new e x)
  reads : ∀ n x, d + n < 256 → Agree d k x → ¬Stale m' updated view (d + n) x →
    (changes' (.new (d + n) x)).getD (view (.new (d + n) x)) = stored H m' x d n
  stale : ∀ n x, d + n < 256 → Agree d k x → Stale m' updated view (d + n) x →
    changes' (.new (d + n) x) = none
  closed : strict → ∀ n x, d + (n + 1) < 256 → Agree d k x →
    changes' (.new (d + (n + 1)) x) ≠ none → changes' (.new (d + n) x) ≠ none
  /-- Nothing is recorded where nothing was seen and nothing is left. -/
  quiet : (∀ n x, d + n < 256 → Agree d k x → view (.new (d + n) x) = none) →
    nodeAt H m' d k = .empty → Fresh changes' d k

variable {H : SmtHasher D} {m m' : Key → Option D} {updated updated' : Key → Prop} {strict : Prop}
  {view : BranchKey → Option (Node D)} {d : ℕ} {k : Key} {changes : SmtNodeChanges D}
variable {x : Key} {e n : ℕ} {c c₁ c₂ : SmtNodeChanges D}

theorem Stale.congr {x' : Key} (he : e ≤ 256) (hx : Agree e x x')
    (h : Stale m' updated view e x) : Stale m' updated view e x' := by
  obtain ⟨cl, hcl, hgone, y, hy, hyu, hne⟩ := h
  rw [(new_eq_iff he).mpr hx] at hcl
  exact ⟨cl, hcl, fun y hy => hgone y (hx.trans hy), y, hx.symm.trans hy, hyu, hne⟩

theorem not_stale_of_none (h : view (.new e x) = none) : ¬Stale m' updated view e x := by
  rintro ⟨cl, hcl, -⟩
  rw [h] at hcl
  cases hcl

theorem Left.of_none {changes' : SmtNodeChanges D}
    (h : Left H m' updated' strict view d k changes changes')
    (hview : ∀ n x, d + n < 256 → Agree d k x → view (.new (d + n) x) = none) :
    Left H m' updated strict view d k changes changes' :=
  ⟨h.frame, fun n x hn hx _ => h.reads n x hn hx (not_stale_of_none (hview n x hn hx)),
    fun n x hn hx hs => absurd hs (not_stale_of_none (hview n x hn hx)), h.closed, h.quiet⟩

theorem insert_new {v : Option (Node D)} (hd : d ≤ 256) :
    (changes.insert (.new d k) v : SmtNodeChanges D) (.new e x) =
      if e = d ∧ Agree d k x then some v else changes (.new e x) := by
  by_cases h : e = d ∧ Agree d k x
  · obtain ⟨rfl, hx⟩ := h
    rw [if_pos ⟨rfl, hx⟩, (new_eq_iff hd).mpr hx]
    exact AList.lookup_insert changes
  · rw [if_neg h]
    refine AList.lookup_insert_ne fun heq => ?_
    obtain rfl : e = d := (mk.inj heq).1
    exact h ⟨rfl, ((new_eq_iff hd).mp heq).symm⟩

section

variable (h : Readable H m updated view d k)
include h

theorem Readable.view_eq_none
    (hnone : view (.new d k) = none) (hn : d + n < 256) (hx : Agree d k x) :
    view (.new (d + n) x) = none := by
  induction n with
  | zero =>
    have hkey : new (d + 0) x = .new d k := (new_eq_iff (by omega)).mpr hx.symm
    rw [hkey, hnone]
  | succ n ih => exact h.below n x hn hx (ih (by omega))

theorem Readable.view_below (hd : d < 256)
    (hne : ∀ hash, nodeAt H m d k ≠ .internal hash) (hn : d + (n + 1) < 256)
    (hx : Agree d k x) : view (.new (d + (n + 1)) x) = none := by
  by_contra hsome
  obtain ⟨v, hv⟩ := ne_none_iff_exists'.mp hsome
  have hstored := h.seen (n + 1) x v hn hx hv
  rw [stored_succ_of_ne fun hash => by rw [nodeAt_agree hd.le hx.symm]; exact hne hash] at hstored
  cases hstored

theorem Readable.child (hd : d < 256) {hash : D}
    (hnode : nodeAt H m d k = .internal hash) (b : Bool) :
    Readable H m updated view (d + 1) (withBit k d b) := by
  have hup {x : Key} (hx : Agree (d + 1) (withBit k d b) x) : Agree d k x :=
    ((agree_withBit_iff hd).mp hx).1
  have hstored {x : Key} (n : ℕ) (hx : Agree (d + 1) (withBit k d b) x) :
      stored H m x d (n + 1) = stored H m x (d + 1) n := by
    have hinner : nodeAt H m d x = .internal hash := by rw [nodeAt_agree hd.le (hup hx).symm, hnode]
    exact stored_succ_of_internal hinner
  have hdepth (n : ℕ) : d + 1 + n = d + (n + 1) := by omega
  refine ⟨fun n x v hn hx hv => ?_, fun n x hn hx hv hs => ?_, fun n x hn hx hv => ?_⟩
  · rw [hdepth] at hv
    rw [← hstored n hx]
    exact h.seen (n + 1) x v (by omega) (hup hx) hv
  · rw [hdepth] at hv ⊢
    rw [← hstored n hx] at hs
    exact h.unseen (n + 1) x (by omega) (hup hx) hv hs
  · rw [hdepth] at hv ⊢
    exact h.below (n + 1) x (by omega) (hup hx) hv

theorem Readable.view_eq (hkept : ∀ y, Agree d k y → ¬updated y) (hn : d + n < 256)
    (hx : Agree d k x) : view (.new (d + n) x) = stored H m x d n := by
  cases hview : view (.new (d + n) x) with
  | some v => exact (h.seen n x v hn hx hview).symm
  | none =>
    by_contra hne
    have hs : stored H m x d n ≠ none := Ne.symm hne
    obtain ⟨y, hy, hmy⟩ := exists_leaf_of_stored hn.le hs
    exact hkept y (hx.trans (hy.mono (Nat.le_add_right d n))) (h.unseen n x hn hx hview hs y hy hmy)

end

theorem Fresh.child (h : Fresh changes d k) (hd : d < 256) (b : Bool) :
    Fresh changes (d + 1) (withBit k d b) := by
  intro n x hn hx
  have := h (n + 1) x (by omega) ((agree_withBit_iff hd).mp hx).1
  rwa [show d + (n + 1) = d + 1 + n by omega] at this

theorem Readable.nodeAt_eq (h : Readable H m updated view d k) (hd : d < 256) {node : Node D}
    (hview : view (.new d k) = some node) : nodeAt H m d k = NodeResult.ofNode (some node) := by
  have hstored : NodeResult.node (nodeAt H m d k) = some node :=
    h.seen 0 k node hd (.refl d k) hview
  rw [← hstored, NodeResult.ofNode_node]

theorem Readable.left (h : Readable H m updated view d k) (hkept : ∀ y, Agree d k y → ¬updated y)
    (hm' : ∀ y, Agree d k y → m' y = m y) (hfresh : Fresh changes d k) :
    Left H m' updated strict view d k changes changes := by
  refine ⟨fun _ _ _ _ => rfl, fun n x hn hx _ => ?_, fun n x hn hx _ => hfresh n x hn hx,
    fun _ n x hn hx hc => absurd (hfresh (n + 1) x hn hx) hc, fun _ _ => hfresh⟩
  rw [hfresh n x hn hx, getD_none, h.view_eq hkept hn hx,
    stored_congr hn.le fun y hy => (hm' y (hx.trans hy)).symm]

variable [DecidableEq D] {existing : Option (Node D)}

theorem recordChange_self (hd : d ≤ 256) (hx : Agree d k x) {node : Option (Node D)}
    (hnone : changes (.new d x) = none) :
    recordChange changes (.new d k) existing node (.new d x) =
      if existing = node then none else some node := by
  unfold recordChange
  by_cases h : existing = node
  · rw [if_neg (not_not_intro h), if_pos h, hnone]
  · rw [if_pos h, if_neg h, insert_new hd, if_pos ⟨rfl, hx⟩]

theorem recordChange_of_ne (hd : d ≤ 256) {node : Option (Node D)} (hne : ¬(e = d ∧ Agree d k x)) :
    recordChange changes (.new d k) existing node (.new e x) = changes (.new e x) := by
  unfold recordChange
  split_ifs
  · rw [insert_new hd, if_neg hne]
  · rfl

/-- A position that holds a single leaf, or nothing, with nothing in sight below. -/
theorem left_of_single (hd : d < 256) (hfresh : Fresh changes d k)
    (hbelow : ∀ n x, d + (n + 1) < 256 → Agree d k x → view (.new (d + (n + 1)) x) = none)
    (hsingle : ∀ hash, nodeAt H m' d k ≠ .internal hash) (hstale : ¬Stale m' updated view d k) :
    Left H m' updated strict view d k changes
      (recordChange changes (.new d k) (view (.new d k)) (NodeResult.node (nodeAt H m' d k))) := by
  generalize hc' : recordChange (D := D) _ _ _ _ = c'
  have hother {n : ℕ} {x : Key} (hn : d + (n + 1) < 256) (hx : Agree d k x) :
      c' (.new (d + (n + 1)) x) = none := by
    rw [← hc', recordChange_of_ne hd.le (by omega), hfresh (n + 1) x hn hx]
  refine ⟨fun e x he hout => ?_, fun n x hn hx _ => ?_, fun n x hn hx hs => ?_,
    fun _ n x hn hx hc => absurd (hother hn hx) hc, fun hnone hempty => ?_⟩
  · rw [← hc', recordChange_of_ne hd.le fun h => hout ⟨h.1.ge, h.2⟩]
  · cases n with
    | zero =>
      rw [add_zero, ← hc', recordChange_self hd.le hx (hfresh 0 x hd hx), stored,
        nodeAt_agree hd.le hx.symm]
      split_ifs with hsame
      · rw [getD_none, (new_eq_iff hd.le).mpr hx.symm, hsame]
      · rfl
    | succ n =>
      rw [hother hn hx, getD_none, hbelow n x hn hx,
        stored_succ_of_ne fun hash => nodeAt_agree hd.le hx ▸ hsingle hash]
  · cases n with
    | zero => exact absurd (hs.congr hd.le hx.symm) hstale
    | succ n => exact hother hn hx
  · have hsame : c' = changes := by
      rw [← hc', hempty, show view (.new d k) = none from hnone 0 k hd (.refl d k)]
      rfl
    rw [hsame]
    exact hfresh

/-! ### Both sides -/

theorem not_agree_other (hd : d < 256) {b : Bool} (hx : Agree (d + 1) (withBit k d b) x) :
    ¬Agree (d + 1) (withBit k d !b) x := by
  intro hx'
  have hb := ((agree_withBit_iff hd).mp hx).2
  have hb' := ((agree_withBit_iff hd).mp hx').2
  rw [hb] at hb'
  cases b <;> cases hb'

omit [DecidableEq D] in
theorem Left.side (hd : d < 256)
    (hleft : Left H m' updated strict view (d + 1) (withBit k d false) c c₁)
    (hright : Left H m' updated strict view (d + 1) (withBit k d true) c₁ c₂) (b : Bool) :
    ∃ c₀, Left H m' updated strict view (d + 1) (withBit k d b) c₀ c₂ := by
  cases b with
  | true => exact ⟨c₁, hright⟩
  | false =>
    have hsame {n : ℕ} {x : Key} (hn : d + 1 + n < 256) (hx : Agree (d + 1) (withBit k d false) x) :
        c₂ (.new (d + 1 + n) x) = c₁ (.new (d + 1 + n) x) :=
      hright.frame _ x hn fun h => not_agree_other hd hx h.2
    refine ⟨c₂, fun _ _ _ _ => rfl, fun n x hn hx hs => ?_, fun n x hn hx hs => ?_,
      fun hstrict n x hn hx => ?_, fun hnone hempty n x hn hx => ?_⟩
    · rw [hsame hn hx, hleft.reads n x hn hx hs]
    · rw [hsame hn hx, hleft.stale n x hn hx hs]
    · rw [hsame hn hx, hsame (by omega) hx]
      exact hleft.closed hstrict n x hn hx
    · rw [hsame hn hx]
      exact hleft.quiet hnone hempty n x hn hx

omit [DecidableEq D] in
/-- An empty node has empty sides, and nothing is recorded below it if nothing was seen there. -/
theorem Left.fresh_sides (hd : d < 256) (hfresh : Fresh changes d k)
    (hleft : Left H m' updated strict view (d + 1) (withBit k d false) changes c₁)
    (hright : Left H m' updated strict view (d + 1) (withBit k d true) c₁ c₂)
    (hview : ∀ n x, d + (n + 1) < 256 → Agree d k x → view (.new (d + (n + 1)) x) = none)
    (hempty : nodeAt H m' d k = .empty) : Fresh c₂ d k := by
  intro n x hn hx
  cases n with
  | zero =>
    rw [hright.frame _ x hn fun h => by omega, hleft.frame _ x hn fun h => by omega]
    exact hfresh 0 x hn hx
  | succ n =>
    obtain ⟨c₀, hside⟩ := Left.side hd hleft hright (x.getMsbD d)
    have hdepth (n : ℕ) : d + 1 + n = d + (n + 1) := by omega
    have hchild : Agree (d + 1) (withBit k d (x.getMsbD d)) x :=
      (agree_withBit_iff hd).mpr ⟨hx, rfl⟩
    have hnone : nodeAt H m' (d + 1) (withBit k d (x.getMsbD d)) = .empty :=
      (nodeAt_eq_empty_iff (by omega)).mpr fun y hy =>
        (nodeAt_eq_empty_iff hd.le).mp hempty y ((agree_withBit_iff hd).mp hy).1
    have hquiet := hside.quiet (fun n y hn hy => by
      rw [hdepth] at hn ⊢
      exact hview n y hn ((agree_withBit_iff hd).mp hy).1) hnone n x (by omega) hchild
    rwa [hdepth] at hquiet

omit [DecidableEq D] in
theorem promote_self (hd : d < 256) {y : Key} {v : D}
    (hx : Agree (d + 1) (withBit k d (y.getMsbD d)) x) :
    promote c (.new d k) (.collapsed y v) d (.new (d + 1) x) = some none := by
  rw [promote, bitAt, childBranchKey_new hd, insert_new (by omega), if_pos ⟨rfl, hx⟩]

omit [DecidableEq D] in
theorem promote_of_ne (hd : d < 256) {r : NodeResult D}
    (h : ∀ y v, r = .collapsed y v → e = d + 1 → ¬Agree (d + 1) (withBit k d (y.getMsbD d)) x) :
    promote c (.new d k) r d (.new e x) = c (.new e x) := by
  cases r with
  | empty => rfl
  | internal hash => rfl
  | collapsed y v =>
    rw [promote, bitAt, childBranchKey_new hd, insert_new (by omega), if_neg]
    exact fun hne => h y v rfl hne.1 hne.2

omit [DecidableEq D] in
theorem promote_of_not_collapsed {r : NodeResult D} {bk : BranchKey}
    (h : ∀ y v, r ≠ .collapsed y v) : promote c bk r d = c := by
  cases r with
  | empty => rfl
  | internal hash => rfl
  | collapsed y v => exact absurd rfl (h y v)

omit [DecidableEq D] in
/-- One step below a node that is no inner one nothing is stored, apart from the leaf that it holds
on the side of that leaf. -/
theorem stored_side_eq_none (hd : d < 256) (hinner : ∀ hash, nodeAt H m d k ≠ .internal hash)
    (hx : Agree d k x)
    (hmoved : ∀ y v, nodeAt H m d k = .collapsed y v → n = 0 →
      ¬Agree (d + 1) (withBit k d (y.getMsbD d)) x) : stored H m x (d + 1) n = none := by
  have hnode : nodeAt H m d x = nodeAt H m d k := nodeAt_agree hd.le hx.symm
  have hnext := nodeAt_succ_of_ne hd (x := x) fun hash => hnode ▸ hinner hash
  rw [hnode] at hnext
  cases n with
  | succ n =>
    refine stored_succ_of_ne fun hash hhash => ?_
    rcases hnext with h | h
    · rw [h] at hhash
      cases hhash
    · exact hinner hash (h.symm.trans hhash)
  | zero =>
    rw [stored]
    rcases hnext with h | h
    · rw [h]
      rfl
    · cases hk : nodeAt H m d k with
      | internal hash => exact absurd hk (hinner hash)
      | empty => rw [h, hk]; rfl
      | collapsed y v =>
        rw [hk] at h
        have hy := ((nodeAt_eq_collapsed_iff (by omega)).mp h).1
        refine absurd ((agree_withBit_iff hd).mpr ⟨hx, ?_⟩) (hmoved y v hk rfl)
        exact (agree_succ.mp hy).2

/-- A node above two sides: what it and the sides leave. The node is compared with what is seen of
it, or with nothing if a collapsed leaf was in the way. -/
theorem left_of_sides (hd : d < 255) (hfresh : Fresh changes d k)
    (hleft : Left H m' updated strict view (d + 1) (withBit k d false) changes c₁)
    (hright : Left H m' updated strict view (d + 1) (withBit k d true) c₁ c₂)
    (htop : (existing = view (.new d k) ∧ ∀ cl, existing ≠ some (.collapsed cl)) ∨
      (existing = none ∧ (nodeAt H m' d k = .empty → Stale m' updated view d k)))
    (hclosed : strict → existing = NodeResult.node (nodeAt H m' d k) →
      nodeAt H m' d k = .empty ∧ Fresh c₂ d k) :
    Left H m' updated strict view d k changes
      (recordChange (promote c₂ (.new d k) (nodeAt H m' d k) d) (.new d k) existing
        (NodeResult.node (nodeAt H m' d k))) := by
  have hd' : d < 256 := by omega
  have hdepth (n : ℕ) : d + (n + 1) = d + 1 + n := by omega
  have hnode {x : Key} (hx : Agree d k x) : nodeAt H m' d x = nodeAt H m' d k :=
    nodeAt_agree hd'.le hx.symm
  have hchild {x : Key} (hx : Agree d k x) : Agree (d + 1) (withBit k d (x.getMsbD d)) x :=
    (agree_withBit_iff hd').mpr ⟨hx, rfl⟩
  generalize hc' : recordChange (D := D) _ _ _ _ = c'
  -- What is recorded at the node itself and below it.
  have hself {x : Key} (hx : Agree d k x) : c' (.new d x) =
      if existing = NodeResult.node (nodeAt H m' d k) then none
      else some (NodeResult.node (nodeAt H m' d k)) := by
    rw [← hc']
    refine recordChange_self hd'.le hx ?_
    rw [promote_of_ne hd' fun _ _ _ he => by omega, hright.frame d x hd' fun h => by omega,
      hleft.frame d x hd' fun h => by omega]
    exact hfresh 0 x hd' hx
  have hdeep {n : ℕ} {x : Key} : c' (.new (d + (n + 1)) x) =
      promote c₂ (.new d k) (nodeAt H m' d k) d (.new (d + (n + 1)) x) := by
    rw [← hc', recordChange_of_ne hd'.le (by omega)]
  have hside {x : Key} := Left.side hd' hleft hright (x.getMsbD d)
  refine ⟨fun e x he hout => ?_, fun n x hn hx hs => ?_, fun n x hn hx hs => ?_,
    fun hstrict n x hn hx hc => ?_, fun hnone hempty => ?_⟩
  · have hother (b : Bool) : ¬(d + 1 ≤ e ∧ Agree (d + 1) (withBit k d b) x) := fun h =>
      hout ⟨by omega, ((agree_withBit_iff hd').mp h.2).1⟩
    rw [← hc', recordChange_of_ne hd'.le fun h => hout ⟨h.1.ge, h.2⟩,
      promote_of_ne hd' fun y v _ he' h => hother _ ⟨he'.ge, h⟩, hright.frame e x he (hother true),
      hleft.frame e x he (hother false)]
  · cases n with
    | zero =>
      rw [add_zero, hself hx, stored, hnode hx]
      split_ifs with hsame
      · rcases htop with ⟨hview, -⟩ | ⟨hnone, hstale⟩
        · rw [getD_none, (new_eq_iff hd'.le).mpr hx.symm, ← hview, hsame]
        · have hempty : nodeAt H m' d k = .empty := by
            rw [← NodeResult.ofNode_node (nodeAt H m' d k), ← hsame, hnone]
            rfl
          exact absurd ((hstale hempty).congr hd'.le hx) hs
      · rfl
    | succ n =>
      obtain ⟨c₀, hside⟩ := hside (x := x)
      have hread := hside.reads n x (by omega) (hchild hx) (by rwa [← hdepth])
      rw [← hdepth] at hread
      rw [hdeep]
      by_cases hinner : ∃ hash, nodeAt H m' d k = .internal hash
      · obtain ⟨hash', hinner⟩ := hinner
        rw [promote_of_not_collapsed (by simp [hinner]), hread,
          stored_succ_of_internal ((hnode hx).trans hinner)]
      · push Not at hinner
        rw [stored_succ_of_ne fun hash => hnode hx ▸ hinner hash]
        by_cases hmoved : ∃ y v, nodeAt H m' d k = .collapsed y v ∧ n = 0 ∧
            Agree (d + 1) (withBit k d (y.getMsbD d)) x
        · obtain ⟨y, v, hyv, rfl, hxy⟩ := hmoved
          rw [hyv, promote_self hd' hxy]
          rfl
        · push Not at hmoved
          rw [promote_of_ne hd' fun y v hyv he => hmoved y v hyv (by omega), hread]
          exact stored_side_eq_none hd' hinner hx hmoved
  · cases n with
    | zero =>
      obtain ⟨cl, hcl, hgone, -⟩ := hs.congr hd'.le hx.symm
      have hempty := (nodeAt_eq_empty_iff (H := H) hd'.le).mpr hgone
      rw [add_zero, hself hx]
      rcases htop with ⟨hview, hne⟩ | ⟨hnone, -⟩
      · exact absurd (hview.trans hcl) (hne cl)
      · rw [hnone, hempty]
        rfl
    | succ n =>
      obtain ⟨c₀, hside⟩ := hside (x := x)
      rw [hdepth] at hs
      have hread := hside.stale n x (by omega) (hchild hx) hs
      rw [← hdepth] at hread
      rw [hdeep, promote_of_ne hd' fun y v hyv he hxy => ?_, hread]
      -- The tombstone of a leaf that moved up is where that leaf was, and not where none is left.
      obtain rfl : n = 0 := by omega
      obtain ⟨hy, hv, -⟩ := (nodeAt_eq_collapsed_iff hd'.le).mp hyv
      have hsome := hs.choose_spec.2.1 y (hxy.symm.trans ((agree_withBit_iff hd').mpr ⟨hy, rfl⟩))
      rw [hv] at hsome
      cases hsome
  · cases n with
    | zero =>
      rw [hdeep] at hc
      rw [add_zero, hself hx]
      split_ifs with hsame
      · obtain ⟨hempty, hquiet⟩ := hclosed hstrict hsame
        rw [promote_of_not_collapsed (by simp [hempty])] at hc
        exact absurd (hquiet 1 x hn hx) hc
      · exact some_ne_none _
    | succ n =>
      rw [hdeep] at hc ⊢
      rw [promote_of_ne hd' fun _ _ _ he => by omega] at hc
      obtain ⟨c₀, hside⟩ := hside (x := x)
      have hup := hside.closed hstrict n x (by omega) (hchild hx) (by rwa [← hdepth])
      rw [← hdepth] at hup
      by_cases hmoved : ∃ y v, nodeAt H m' d k = .collapsed y v ∧ n = 0 ∧
          Agree (d + 1) (withBit k d (y.getMsbD d)) x
      · obtain ⟨y, v, hyv, rfl, hxy⟩ := hmoved
        rw [hyv, promote_self hd' hxy]
        exact some_ne_none _
      · push Not at hmoved
        rwa [promote_of_ne hd' fun y v hyv he => hmoved y v hyv (by omega)]
  · have hnull : existing = none := by
      rcases htop with ⟨hview, -⟩ | ⟨hnull, -⟩
      · exact hview.trans (hnone 0 k hd' (.refl d k))
      · exact hnull
    have hsame : c' = c₂ := by
      rw [← hc', hempty, hnull]
      rfl
    rw [hsame]
    exact Left.fresh_sides hd' hfresh hleft hright (fun n x hn hx => hnone (n + 1) x hn hx) hempty

end

end Zkas.Smt
