import TreeConversion.Proofs.Render
import Mathlib.Data.Finset.Card
import Mathlib.Data.Finset.Range

/-!
# Writing a tree without cycles

Handles may be shared and may point nowhere, but no node that can be reached is below itself
(`Tree.Acyclic`).  Then fewer nodes are below a child than below its parent (`Tree.height_lt`), so that
the depth to which a tree is written is enough for every way down: what is written of a node is put
together from what is written of its children, without a bound on the depth (`Tree.valueOf_node`).
-/

namespace TreeConversion.Target.Tree

open Json

variable {t : Tree} {h c x : Handle} {node : Node}

/-- The second handle is met on a way down from the first, after one step at least. -/
def Under (t : Tree) : Handle → Handle → Prop :=
  Relation.TransGen fun a b => b ∈ t.childrenOf a

/-- No node that can be reached is below itself. -/
def Acyclic (t : Tree) : Prop := ∀ h, t.Below t.root h → ¬ t.Under h h

open Classical in
/-- The indices of the nodes below a handle. -/
noncomputable def inside (t : Tree) (h : Handle) : Finset Nat :=
  (Finset.range t.size).filter fun i => t.Under h ⟨i⟩

theorem mem_inside {i : Nat} : i ∈ t.inside h ↔ i < t.size ∧ t.Under h ⟨i⟩ := by
  simp [inside]

noncomputable def height (t : Tree) (h : Handle) : Nat := (t.inside h).card

theorem height_le (t : Tree) (h : Handle) : t.height h ≤ t.size := by
  have within : t.inside h ⊆ Finset.range t.size := fun i hi =>
    Finset.mem_range.2 (mem_inside.1 hi).1
  exact (Finset.card_le_card within).trans_eq (Finset.card_range _)

theorem height_lt (acyclic : t.Acyclic) (below : t.Below t.root h) (hc : c ∈ t.childrenOf h)
    (live : c.index < t.size) : t.height c < t.height h := by
  refine Finset.card_lt_card ⟨fun i hi => ?_, fun all => ?_⟩
  · obtain ⟨bound, under⟩ := mem_inside.1 hi
    exact mem_inside.2 ⟨bound, .head hc under⟩
  · have here : c.index ∈ t.inside c := all (mem_inside.2 ⟨live, .single hc⟩)
    exact acyclic c (below.tail hc) (mem_inside.1 here).2

theorem acyclic_of_rank (rank : Handle → Nat)
    (falls : ∀ h c, c ∈ t.childrenOf h → c.index < t.size → rank c < rank h) : t.Acyclic := by
  intro h _ cycle
  have lower {c : Handle} (under : t.Under h c) (live : c.index < t.size) : rank c < rank h := by
    induction under with
    | single hc => exact falls _ _ hc live
    | tail _ hc ih => exact (falls _ _ hc live).trans (ih (lt_size_of_mem_childrenOf hc))
  obtain ⟨_, hc, -⟩ := Relation.TransGen.head'_iff.1 cycle
  exact Nat.lt_irrefl _ (lower cycle (lt_size_of_mem_childrenOf hc))

theorem Acyclic.nodeValue_eq (acyclic : t.Acyclic) (below : t.Below t.root h) {depth depth' : Nat}
    (deep : t.height h < depth) (deep' : t.height h < depth') :
    t.nodeValue depth h = t.nodeValue depth' h :=
  nodeValue_eq_of_rank
    (fun _ _ below hc live => ⟨below.tail hc, height_lt acyclic below hc live⟩) below deep deep'

end TreeConversion.Target.Tree

namespace TreeConversion.Target.Shared

/-- A node that is held twice, beside a handle that points nowhere and a node that is not attached. -/
def tree : Tree where
  nodes := #[
    ⟨⟨"Name", some ⟨0, 1⟩, none⟩, [("text", .value (.string "a"))], false⟩,
    ⟨⟨"Scratch", none, none⟩, [("name", .node ⟨0⟩)], true⟩,
    ⟨⟨"Pair", some ⟨0, 1⟩, some ⟨⟨1, 0⟩, ⟨1, 1⟩⟩⟩, [("first", .node ⟨0⟩), ("rest", .nodes [⟨0⟩, ⟨7⟩])],
      false⟩]
  root := ⟨2⟩
  tokens := some []
  comments := none

theorem acyclic : tree.Acyclic := by
  refine Tree.acyclic_of_rank Handle.index fun h c hc live => ?_
  obtain ⟨i⟩ := h
  match i with
  | 0 => exact absurd hc List.not_mem_nil
  | 1 =>
    obtain rfl : c = ⟨0⟩ := List.mem_singleton.1 hc
    exact Nat.one_pos
  | 2 =>
    have children : c ∈ [⟨0⟩, ⟨0⟩, ⟨7⟩] := hc
    simp only [List.mem_cons, List.not_mem_nil, or_false] at children
    rcases children with rfl | rfl | rfl
    · exact Nat.two_pos
    · exact Nat.two_pos
    · exact absurd live (by decide)
  | i + 3 => exact absurd hc List.not_mem_nil

end TreeConversion.Target.Shared
