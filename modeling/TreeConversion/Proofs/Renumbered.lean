import TreeConversion.Proofs.Acyclic
import TreeConversion.Proofs.Sieve

/-!
# A compacted tree

A compacted tree is the part that can be reached, with new handles (`Tree.Renumbers`): every handle
that is met on the way down has moved with the node that it denotes, or still points nowhere
(`Tree.Moved`), so the same ways down lead to the same nodes.  What is compact stays as it is, and a
tree without cycles is written as before.
-/

namespace TreeConversion.Target

open Json

/-! ### Tables -/

namespace Renumbering

variable {table : Renumbering} {n : Node}

/-- Every handle of the first nodes stays. -/
def identity (size : Nat) : Renumbering := (Array.range size).map fun i => some ⟨i⟩

theorem handle_identity (size : Nat) : (identity size).handle = id := by
  funext h
  by_cases hh : h.index < size
  · exact handle_eq (by simp [identity, hh])
  · simp [handle, identity, hh]

theorem field_identity (size : Nat) : (identity size).field = id := by
  funext f
  cases f <;> simp [field, handle_identity]

theorem node_identity (size : Nat) : (identity size).node = id := by
  funext n
  simp [node, field_identity]

theorem count_replicate (next size : Nat) :
    count next (List.replicate size true) = (List.range' next size).map fun i => some ⟨i⟩ := by
  induction size generalizing next with
  | zero => rfl
  | succ size ih => rw [List.replicate_succ, count, ih, List.range'_succ, List.map_cons]

theorem pick_replicate {α : Type} (xs : List α) :
    pick (List.replicate xs.length true) xs = xs := by
  induction xs with
  | nil => rfl
  | cons x xs ih => rw [List.length_cons, List.replicate_succ, pick_cons, if_pos rfl, ih]

theorem alike_node {known : Handle → Handle → Prop}
    (each : ∀ c ∈ n.children, known c (table.handle c)) : n.Alike known (table.node n) := by
  refine ⟨rfl, List.forall₂_map_right_iff.2 (List.forall₂_same.2 ?_), rfl⟩
  rintro ⟨name, f⟩ hf
  have each : ∀ c ∈ f.children, known c (table.handle c) :=
    fun c hc => each c (List.mem_flatMap.2 ⟨_, hf, hc⟩)
  refine ⟨rfl, ?_⟩
  cases f with
  | node child => exact .node (each child (List.mem_singleton_self child))
  | nodes children => exact .nodes (List.forall₂_map_right_iff.2 (List.forall₂_same.2 each))
  | value v => exact .value v

theorem toValue_field (table : Renumbering) (f : Field) (child : Handle → Value) :
    (table.field f).toValue child = f.toValue fun c => child (table.handle c) := by
  cases f with
  | nodes children => exact congrArg Value.array (List.map_map ..)
  | _ => rfl

theorem members_node (table : Renumbering) (n : Node) (child : Handle → Value) :
    (table.node n).members child = n.members fun c => child (table.handle c) := by
  simp only [Node.members, node, List.foldl_map, toValue_field]

end Renumbering

namespace Tree

variable {t t' : Tree} {table : Renumbering} {h h' c c' : Handle}

theorem size_table (t : Tree) : t.table.size = t.size := by
  rw [table, List.size_toArray, Renumbering.length_count, Array.length_toList, size_kept]

theorem size_compact_le (t : Tree) : t.compact.1.size ≤ t.size := by
  have fewer := (Renumbering.pick_sublist t.kept.toList t.nodes.toList).length_le
  rw [size, ← Array.length_toList, toList_compact, List.length_map]
  simpa [size] using fewer

/-! ### Handles that move -/

/-- The second handle is what has become of the first: the new handle of a node, or the same one if it
points nowhere and goes on doing so. -/
def Moved (t t' : Tree) (table : Renumbering) (c c' : Handle) : Prop :=
  if c.index < t.size then table[c.index]? = some (some c') else c' = c ∧ t'.node? c = none

theorem table_injective (hh : t.table[h.index]? = some (some h'))
    (hc : t.table[c.index]? = some (some h')) : h = c := by
  rw [table, List.getElem?_toArray] at hh hc
  exact Twin.eq_right hh hc

theorem handle_table_of_le (out : t.size ≤ c.index) : t.table.handle c = c := by
  have nowhere : t.table[c.index]? = none := Array.getElem?_eq_none (t.size_table.trans_le out)
  simp [Renumbering.handle, nowhere]

theorem moved_handle (below : t.Below t.root c) :
    t.Moved t.compact.1 t.table c (t.table.handle c) := by
  rw [Moved]
  split
  · next live =>
    obtain ⟨c', hc⟩ := exists_table.2 (mem_reachable.2 ⟨live, below⟩)
    rwa [Renumbering.handle_eq hc]
  · next out =>
    have out := Nat.le_of_not_lt out
    refine ⟨handle_table_of_le out, ?_⟩
    exact Array.getElem?_eq_none (Nat.le_trans t.size_compact_le out)

theorem Moved.table_eq (moved : t.Moved t.compact.1 table c c') (live : c'.index < t.compact.1.size) :
    table[c.index]? = some (some c') := by
  rw [Moved] at moved
  split at moved
  · exact moved
  · next out =>
    obtain ⟨rfl, -⟩ := moved
    exact absurd (Nat.lt_of_lt_of_le live t.size_compact_le) out

theorem node?_handle (below : t.Below t.root h) :
    t.compact.1.node? (t.table.handle h) = (t.node? h).map t.table.node := by
  have moved := moved_handle below
  rw [Moved] at moved
  split at moved
  · next live =>
    obtain ⟨n, hn⟩ := exists_node live
    rw [hn, node?_compact.2 ⟨h, n, hn, moved, rfl⟩]
    rfl
  · next out =>
    rw [node?_eq_none.2 out, moved.1, moved.2]
    rfl

/-! ### Ways down -/

/-- Where a way down from a handle ends.  The way tells for each node on it which child of which field
comes next. -/
def follow (t : Tree) (h : Handle) : List (Nat × Nat) → Option Handle
  | [] => some h
  | (i, j) :: path =>
    (t.node? h).bind fun node => (node.fields[i]?).bind fun f =>
      (f.2.children[j]?).bind fun child => t.follow child path

theorem follow_compact (below : t.Below t.root h) (path : List (Nat × Nat)) :
    Option.Rel (t.Moved t.compact.1 t.table) (t.follow h path)
      (t.compact.1.follow (t.table.handle h) path) := by
  induction path generalizing h with
  | nil => exact .some (moved_handle below)
  | cons step path ih =>
    obtain ⟨i, j⟩ := step
    rw [follow, follow, node?_handle below]
    cases hn : t.node? h with
    | none => exact .none
    | some node =>
      simp only [Option.map_some, Option.bind_some, Renumbering.node, List.getElem?_map]
      cases hf : node.fields[i]? with
      | none => exact .none
      | some f =>
        simp only [Option.map_some, Option.bind_some, Renumbering.children_field,
          List.getElem?_map]
        cases hc : f.2.children[j]? with
        | none => exact .none
        | some c =>
          have child : c ∈ t.childrenOf h := childrenOf_eq hn ▸
            List.mem_flatMap.2 ⟨f, List.mem_of_getElem? hf, List.mem_of_getElem? hc⟩
          exact ih (below.tail child)

/-! ### Compacting again -/

theorem compact_eq_self (all : ∀ h : Handle, h.index < t.size → t.Below t.root h) :
    t.compact = (t, .identity t.size) := by
  have kept : t.kept.toList = List.replicate t.size true := by
    refine List.ext_getElem? fun i => ?_
    rw [Array.getElem?_toList, List.getElem?_replicate]
    split
    · next hi => rw [getElem?_kept hi, decide_eq_true (mem_reachable.2 ⟨hi, all ⟨i⟩ hi⟩)]
    · next hi => exact Array.getElem?_eq_none (t.size_kept.trans_le (Nat.le_of_not_lt hi))
  have table : t.table = .identity t.size := by
    rw [Tree.table, kept, Renumbering.count_replicate, ← List.range_eq_range']
    exact Array.toList_inj.1 (by simp [Renumbering.identity])
  have nodes : t.compact.1.nodes = t.nodes := by
    have length : t.size = t.nodes.toList.length := Array.length_toList.symm
    refine Array.toList_inj.1 ?_
    rw [toList_compact, kept, table, Renumbering.node_identity, List.map_id, length,
      Renumbering.pick_replicate]
  have root : t.compact.1.root = t.root := by
    rw [root_compact, table, Renumbering.handle_identity, id]
  calc t.compact
      = ({ t with nodes := t.compact.1.nodes, root := t.compact.1.root }, t.table) := rfl
    _ = (t, .identity t.size) := by rw [nodes, root, table]

/-! ### Writing -/

theorem nodeValue_compact (below : t.Below t.root h) (depth : Nat) :
    t.compact.1.nodeValue depth (t.table.handle h) = t.nodeValue depth h := by
  induction depth generalizing h with
  | zero => rfl
  | succ depth ih =>
    rw [nodeValue, nodeValue, node?_handle below]
    cases hn : t.node? h with
    | none => rfl
    | some node =>
      refine congrArg Value.object ?_
      rw [Renumbering.members_node]
      refine Node.members_congr fun c hc => ih (below.tail ?_)
      rwa [childrenOf_eq hn]

theorem under_of_compact (under : t.compact.1.Under h' c')
    (hh : t.table[h.index]? = some (some h')) : ∃ c, t.Under h c ∧ t.table.handle c = c' := by
  have ⟨_, below⟩ := reached_of_table hh
  induction under with
  | single hc =>
    rw [childrenOf_compact hh] at hc
    obtain ⟨c, child, rfl⟩ := List.mem_map.1 hc
    exact ⟨c, .single child, rfl⟩
  | tail _ hx ih =>
    obtain ⟨c, under, rfl⟩ := ih
    -- the way goes on, so the handle denotes a node and has moved with it
    have moved := moved_handle (below.trans under.to_reflTransGen)
    rw [childrenOf_compact (moved.table_eq (lt_size_of_mem_childrenOf hx))] at hx
    obtain ⟨x, child, rfl⟩ := List.mem_map.1 hx
    exact ⟨x, under.tail child, rfl⟩

theorem Acyclic.compact (acyclic : t.Acyclic) : t.compact.1.Acyclic := by
  intro h' _ cycle
  obtain ⟨_, hc, -⟩ := Relation.TransGen.head'_iff.1 cycle
  have live := lt_size_of_mem_childrenOf hc
  obtain ⟨h, hh⟩ := lt_size_compact.1 live
  have ⟨_, below⟩ := reached_of_table hh
  obtain ⟨c, under, same⟩ := under_of_compact cycle hh
  have hc : t.table[c.index]? = some (some h') := same ▸
    (moved_handle (below.trans under.to_reflTransGen)).table_eq (same.symm ▸ live)
  exact acyclic h below (table_injective hh hc ▸ under)

theorem toValue_compact (acyclic : t.Acyclic) : t.compact.1.toValue = t.toValue := by
  have higher := t.compact.1.height_le t.compact.1.root
  have fewer := t.size_compact_le
  have root : t.compact.1.nodeValue (t.compact.1.size + 1) t.compact.1.root =
      t.nodeValue (t.size + 1) t.root :=
    calc t.compact.1.nodeValue (t.compact.1.size + 1) t.compact.1.root
        = t.compact.1.nodeValue (t.size + 1) t.compact.1.root :=
          acyclic.compact.nodeValue_eq .refl (by omega) (by omega)
      _ = t.nodeValue (t.size + 1) t.root := nodeValue_compact .refl _
  rw [toValue, toValue, root]
  rfl

/-! ### What compacting does -/

/-- The second tree is the part of the first that can be reached, with the new handles of a table. -/
structure Renumbers (t t' : Tree) (table : Renumbering) : Prop where
  length : table.size = t.size
  kept : ∀ h : Handle, (∃ h', table[h.index]? = some (some h')) ↔ h ∈ t.reachable
  rising : Renumbering.Rising table.toList
  onto : ∀ h' : Handle, h'.index < t'.size ↔ ∃ h : Handle, table[h.index]? = some (some h')
  node : ∀ (h h' : Handle) (n : Node), t.node? h = some n → table[h.index]? = some (some h') →
    ∃ n', t'.node? h' = some n' ∧ n.Alike (t.Moved t' table) n'
  root : t.Moved t' table t.root t'.root
  attached : t'.tokens = t.tokens ∧ t'.comments = t.comments
  reached : ∀ h', h' ∈ t'.reachable ↔ h'.index < t'.size
  follow : ∀ path, Option.Rel (t.Moved t' table) (t.follow t.root path) (t'.follow t'.root path)

/-- Compacting a tree renumbers what can be reached; to do it again changes nothing, and without
cycles the tree is written as before. -/
theorem renumbers_compact (t : Tree) :
    t.Renumbers t.compact.1 t.compact.2 ∧
      t.compact.1.compact = (t.compact.1, .identity t.compact.1.size) ∧
      (t.Acyclic → t.compact.1.toValue = t.toValue) := by
  refine ⟨?renumbers, compact_eq_self below_root_compact, toValue_compact⟩
  exact {
    length := t.size_table
    kept := fun h => exists_table
    rising := t.rising_table
    onto := fun h' => lt_size_compact
    node := fun h h' n hn hh => by
      have ⟨_, below⟩ := reached_of_table hh
      refine ⟨t.table.node n, node?_compact.2 ⟨h, n, hn, hh, rfl⟩, Renumbering.alike_node ?_⟩
      exact fun c hc => moved_handle (below.tail (childrenOf_eq hn ▸ hc))
    root := moved_handle .refl
    attached := ⟨rfl, rfl⟩
    reached := fun h' => by
      rw [mem_reachable]
      exact and_iff_left_of_imp (below_root_compact h')
    follow := follow_compact .refl }

theorem renumbers_compact_shared : Shared.tree.Acyclic ∧
    Shared.tree.compact.1.toValue = Shared.tree.toValue :=
  ⟨Shared.acyclic, (renumbers_compact Shared.tree).2.2 Shared.acyclic⟩

end Tree

end TreeConversion.Target
