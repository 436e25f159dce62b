import TreeConversion.Proofs.Forest

/-!
# Pre-order

In a forest, the nodes below a node have an order in which each comes once, before its children, and
the nodes below a child before the next child (`Tree.preorder`).  What comes off the stack of a walk
down comes in this order (`Tree.Forest.descendants_eq`).
-/

namespace TreeConversion.Source.Tree

variable {t : Tree} {keep : Handle → Bool} {h c x : Handle}

/-- A node and, down to some depth, the nodes below it through nodes that are kept. -/
def sprout (t : Tree) (keep : Handle → Bool) : Nat → Handle → List Handle
  | 0, _ => []
  | depth + 1, h => h :: ((t.childrenOf h).filter keep).flatMap (t.sprout keep depth)

/-- A node and the nodes below it through nodes that are kept, each before its children. -/
def preorder (t : Tree) (keep : Handle → Bool) (h : Handle) : List Handle :=
  t.sprout keep (t.size + 1) h

/-- The second node is the first, or it is below the first through nodes that are kept. -/
def Leads (t : Tree) (keep : Handle → Bool) : Handle → Handle → Prop :=
  Relation.ReflTransGen fun p c => c ∈ t.childrenOf p ∧ keep c = true

namespace Forest

variable (forest : t.Forest)

include forest

theorem induction {motive : Handle → Prop}
    (step : ∀ h, (∀ c ∈ t.childrenOf h, motive c) → motive h) (h : Handle) : motive h := by
  obtain ⟨rank, -, falls⟩ := forest.ranked
  exact (measure rank).wf.induction h fun h ih => step h fun c hc => ih c (falls h c hc)

theorem preorder_eq (keep : Handle → Bool) (h : Handle) : t.preorder keep h =
    h :: ((t.childrenOf h).filter keep).flatMap (t.preorder keep) := by
  obtain ⟨rank, bounded, falls⟩ := forest.ranked
  -- to go deeper than the rank adds nothing
  have deeper (depth : Nat) (h : Handle) (enough : rank h < depth) :
      t.sprout keep (depth + 1) h = t.sprout keep depth h := by
    induction depth generalizing h with
    | zero => exact absurd enough (Nat.not_lt_zero _)
    | succ depth ih =>
      rw [sprout, sprout]
      congr 1
      refine List.flatMap_congr fun c hc => ih c ?_
      have lower := falls h c (List.mem_filter.1 hc).1
      omega
  rw [preorder, sprout]
  congr 1
  refine List.flatMap_congr fun c hc => ?_
  have present := forest.present h c (List.mem_filter.1 hc).1
  exact (deeper t.size c (bounded c present)).symm

theorem mem_preorder : x ∈ t.preorder keep h ↔ t.Leads keep h x := by
  induction h using forest.induction with
  | step h ih =>
    rw [forest.preorder_eq, List.mem_cons, List.mem_flatMap]
    constructor
    · rintro (rfl | ⟨c, hc, hx⟩)
      · exact .refl
      · obtain ⟨hc, kept⟩ := List.mem_filter.1 hc
        exact ((ih c hc).1 hx).head ⟨hc, kept⟩
    · intro leads
      rcases leads.cases_head with rfl | ⟨c, ⟨hc, kept⟩, rest⟩
      · exact .inl rfl
      · exact .inr ⟨c, List.mem_filter.2 ⟨hc, kept⟩, (ih c hc).2 rest⟩

theorem present_of_leads (hh : h.index < t.size) (leads : t.Leads keep h x) : x.index < t.size := by
  rcases leads.cases_tail with rfl | ⟨p, -, hx, -⟩
  · exact hh
  · exact forest.present p x hx

/-- Two nodes above a third are one above the other. -/
theorem leads_total {a b : Handle} (ha : t.Leads keep a x) (hb : t.Leads keep b x) :
    t.Leads keep a b ∨ t.Leads keep b a := by
  induction ha with
  | refl => exact .inr hb
  | @tail p x ha step ih =>
    rcases hb.cases_tail with rfl | ⟨q, hb, step'⟩
    · exact .inl (ha.tail step)
    · exact ih (forest.single p q x step.1 step'.1 ▸ hb)

theorem nodup_preorder (keep : Handle → Bool) (h : Handle) : (t.preorder keep h).Nodup := by
  obtain ⟨rank, -, falls⟩ := forest.ranked
  have sinks {a b : Handle} (leads : t.Leads keep a b) : rank b ≤ rank a := by
    induction leads with
    | refl => exact Nat.le_refl _
    | tail _ step ih => exact Nat.le_trans (Nat.le_of_lt (falls _ _ step.1)) ih
  induction h using forest.induction with
  | step h ih =>
    rw [forest.preorder_eq]
    refine List.nodup_cons.2 ⟨fun hh => ?_, List.nodup_flatMap.2 ⟨fun c hc => ?_, ?_⟩⟩
    · obtain ⟨c, hc, hh⟩ := List.mem_flatMap.1 hh
      have lower := falls h c (List.mem_filter.1 hc).1
      have back := sinks (forest.mem_preorder.1 hh)
      omega
    · exact ih c (List.mem_filter.1 hc).1
    · -- a child below another one would have its parent below itself
      have apart {c d : Handle} (hc : c ∈ t.childrenOf h) (hd : d ∈ t.childrenOf h) (ne : c ≠ d) :
          ¬ t.Leads keep c d := by
        intro leads
        rcases leads.cases_tail with rfl | ⟨p, leads, step⟩
        · exact ne rfl
        · have back := sinks (forest.single p h d step.1 hd ▸ leads)
          have lower := falls h c hc
          omega
      refine ((forest.once h).filter keep).imp_of_mem fun {c d} hc hd ne x hx hx' => ?_
      obtain ⟨hc, -⟩ := List.mem_filter.1 hc
      obtain ⟨hd, -⟩ := List.mem_filter.1 hd
      rcases forest.leads_total (forest.mem_preorder.1 hx) (forest.mem_preorder.1 hx') with
        leads | leads
      · exact apart hc hd ne leads
      · exact apart hd hc ne.symm leads

theorem length_preorder_le (keep : Handle → Bool) (hh : h.index < t.size) :
    (t.preorder keep h).length ≤ t.size := by
  have among : t.preorder keep h ⊆ (List.range t.size).map Handle.mk := fun x hx =>
    have present := forest.present_of_leads hh (forest.mem_preorder.1 hx)
    List.mem_map.2 ⟨x.index, List.mem_range.2 present, rfl⟩
  simpa using ((forest.nodup_preorder keep h).subperm among).length_le

/-- What is come to through kept nodes comes in the order of all nodes. -/
theorem preorder_sublist (keep : Handle → Bool) (h : Handle) :
    (t.preorder keep h).Sublist (t.preorder (fun _ => true) h) := by
  induction h using forest.induction with
  | step h ih =>
    rw [forest.preorder_eq, forest.preorder_eq (fun _ => true), List.filter_true]
    refine List.Sublist.cons_cons h ?_
    have below (cs : List Handle) (hcs : cs ⊆ t.childrenOf h) :
        ((cs.filter keep).flatMap (t.preorder keep)).Sublist
          (cs.flatMap (t.preorder fun _ => true)) := by
      induction cs with
      | nil => exact List.Sublist.refl _
      | cons c cs ihcs =>
        obtain ⟨hc, hcs⟩ := List.cons_subset.1 hcs
        rw [List.flatMap_cons, List.filter_cons]
        split
        · exact (ih c hc).append (ihcs hcs)
        · exact (ihcs hcs).trans (List.sublist_append_right _ _)
    exact below _ (List.Subset.refl _)

/-! ### The stack -/

/-- What comes off a stack comes in pre-order. -/
theorem unstack_eq (steps : Nat) (stack : List Handle) :
    t.unstack steps stack = (stack.flatMap (t.preorder fun _ => true)).take steps := by
  induction steps generalizing stack with
  | zero => rw [unstack, List.take_zero]
  | succ steps ih =>
    cases stack with
    | nil => rfl
    | cons h stack =>
      rw [unstack, ih, List.flatMap_cons, forest.preorder_eq, List.filter_true, List.cons_append,
        List.take_succ_cons, List.flatMap_append]

theorem descendants_eq (root : t.root.index < t.size) :
    t.descendants = t.preorder (fun _ => true) t.root := by
  rw [descendants, forest.unstack_eq, List.flatMap_singleton]
  have few := forest.length_preorder_le (fun _ => true) root
  exact List.take_of_length_le (Nat.le_succ_of_le few)

end Forest

end TreeConversion.Source.Tree
