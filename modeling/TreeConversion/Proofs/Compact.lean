import TreeConversion.Proofs.Numbering
import TreeConversion.Proofs.Reachable

/-!
# What is left when the rest is left out

The nodes of a compacted tree are the nodes that can be reached, in their order and with the new
handles of their children; each of them can be reached in the new tree.  A tree in which children
come before their parents (`Grounded`) keeps that property.
-/

namespace TreeConversion.Target

namespace Renumbering

variable {table : Renumbering} {h h' : Handle}

theorem children_field (table : Renumbering) (f : Field) :
    (table.field f).children = f.children.map table.handle := by
  cases f <;> rfl

theorem children_node (table : Renumbering) (n : Node) :
    (table.node n).children = n.children.map table.handle := by
  simp only [Node.children, node, List.map_flatMap, List.flatMap_map, children_field]

theorem handle_eq (hh : table[h.index]? = some (some h')) : table.handle h = h' := by
  simp [handle, hh]

end Renumbering

namespace Tree

variable {t : Tree} {h h' c : Handle}

/-- The new handles of the nodes of a tree. -/
def table (t : Tree) : Renumbering := (Renumbering.count 0 t.kept.toList).toArray

theorem root_compact (t : Tree) : t.compact.1.root = t.table.handle t.root := rfl

theorem toList_compact (t : Tree) : t.compact.1.nodes.toList =
    (Renumbering.pick t.kept.toList t.nodes.toList).map t.table.node :=
  Renumbering.map_pick ..

theorem rising_table (t : Tree) : Renumbering.Rising t.table.toList :=
  Renumbering.rising_count _ _

/-- The nodes with a new handle are those that can be reached. -/
theorem exists_table : (∃ h', t.table[h.index]? = some (some h')) ↔ h ∈ t.reachable := by
  have marked : (∃ h', t.table[h.index]? = some (some h')) ↔ t.kept[h.index]? = some true := by
    have marks : t.kept[h.index]? = t.kept.toList[h.index]? := Array.getElem?_toList.symm
    rw [marks, ← Renumbering.getElem?_count (n := 0)]
    simp [table]
  rw [marked]
  by_cases hh : h.index < t.size
  · rw [getElem?_kept hh]
    simp
  · rw [Array.getElem?_eq_none (by rw [size_kept]; omega), mem_reachable]
    simp [hh]

theorem reached_of_table (hh : t.table[h.index]? = some (some h')) :
    h.index < t.size ∧ t.Below t.root h :=
  mem_reachable.1 (exists_table.1 ⟨h', hh⟩)

/-- The nodes of the new tree are the nodes that can be reached. -/
theorem node?_compact {n' : Node} : t.compact.1.node? h' = some n' ↔
    ∃ h n, t.node? h = some n ∧ t.table[h.index]? = some (some h') ∧ t.table.node n = n' := by
  rw [node?, ← Array.getElem?_toList, toList_compact, List.getElem?_map, Option.map_eq_some_iff]
  simp only [Renumbering.getElem?_pick (m := 0), Nat.zero_add, node?, table,
    List.getElem?_toArray, Array.getElem?_toList]
  constructor
  · rintro ⟨n, ⟨i, hn, hi⟩, rfl⟩
    exact ⟨⟨i⟩, n, hn, hi, rfl⟩
  · rintro ⟨h, n, hn, hi, rfl⟩
    exact ⟨n, ⟨h.index, hn, hi⟩, rfl⟩

theorem lt_size_compact :
    h'.index < t.compact.1.size ↔ ∃ h : Handle, t.table[h.index]? = some (some h') := by
  rw [← node?_isSome, Option.isSome_iff_exists]
  constructor
  · rintro ⟨n', hn⟩
    obtain ⟨h, -, -, hh, -⟩ := node?_compact.1 hn
    exact ⟨h, hh⟩
  · rintro ⟨h, hh⟩
    have ⟨bound, _⟩ := reached_of_table hh
    obtain ⟨n, hn⟩ := exists_node bound
    exact ⟨_, node?_compact.2 ⟨h, n, hn, hh, rfl⟩⟩

theorem childrenOf_compact (hh : t.table[h.index]? = some (some h')) :
    t.compact.1.childrenOf h' = (t.childrenOf h).map t.table.handle := by
  have ⟨bound, _⟩ := reached_of_table hh
  obtain ⟨n, hn⟩ := exists_node bound
  rw [childrenOf_eq (node?_compact.2 ⟨h, n, hn, hh, rfl⟩), childrenOf_eq hn,
    Renumbering.children_node]

theorem below_compact (below : t.Below t.root h) :
    t.compact.1.Below t.compact.1.root (t.table.handle h) := by
  induction below with
  | refl => exact .refl
  | @tail b c below hc ih =>
    have reached := mem_reachable.2 ⟨lt_size_of_mem_childrenOf hc, below⟩
    obtain ⟨b', hb⟩ := exists_table.2 reached
    rw [Renumbering.handle_eq hb] at ih
    refine ih.tail ?_
    rw [childrenOf_compact hb]
    exact List.mem_map_of_mem hc

theorem below_root_compact (h' : Handle) (hh : h'.index < t.compact.1.size) :
    t.compact.1.Below t.compact.1.root h' := by
  obtain ⟨h, ht⟩ := lt_size_compact.1 hh
  have ⟨_, below⟩ := reached_of_table ht
  simpa only [Renumbering.handle_eq ht] using below_compact below

/-! ### Children before parents -/

/-- Every child comes before its parents. -/
def Grounded (t : Tree) : Prop := ∀ h c, c ∈ t.childrenOf h → c.index < h.index

theorem Grounded.compact (grounded : t.Grounded) : t.compact.1.Grounded := by
  intro h' c' hc'
  obtain ⟨h, hh⟩ := lt_size_compact.1 (lt_size_of_mem_childrenOf hc')
  rw [childrenOf_compact hh] at hc'
  obtain ⟨c, hc, rfl⟩ := List.mem_map.1 hc'
  have lower := grounded h c hc
  -- the child of a node that is kept is kept
  have ⟨bound, below⟩ := reached_of_table hh
  obtain ⟨c', hc'⟩ := exists_table.2
    (mem_reachable.2 ⟨Nat.lt_trans lower bound, Relation.ReflTransGen.tail below hc⟩)
  rw [Renumbering.handle_eq hc']
  exact rising_table t _ _ _ _ (by simpa using hc') (by simpa using hh) lower

theorem Grounded.le_of_below (grounded : t.Grounded) {a b : Handle} (below : t.Below a b) :
    b.index ≤ a.index := by
  induction below with
  | refl => exact Nat.le_refl _
  | tail _ hc ih => exact Nat.le_trans (Nat.le_of_lt (grounded _ _ hc)) ih

theorem root_lt_size_compact (live : t.root.index < t.size) :
    t.compact.1.root.index < t.compact.1.size := by
  obtain ⟨r, hr⟩ := exists_table.2 (mem_reachable.2 ⟨live, .refl⟩)
  rw [root_compact, Renumbering.handle_eq hr]
  exact lt_size_compact.2 ⟨_, hr⟩

end Tree

end TreeConversion.Target
