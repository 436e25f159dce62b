import TreeConversion.Target.Basic

/-!
# Walks over a target tree

Every node that can be reached from the root is met once, before its children, whatever the graph.
-/

namespace TreeConversion.Target.Tree

/-- The nodes met when handles come off a stack and each node met for the first time leaves its
children on it.  Either a node is met for the first time or the stack gets shorter. -/
def meet (t : Tree) (met : Array Bool) (stack : List Handle) : List Handle :=
  match stack with
  | [] => []
  | h :: stack =>
    if _fresh : met[h.index]? = some false then
      h :: meet t (met.setIfInBounds h.index true) (t.childrenOf h ++ stack)
    else meet t met stack
termination_by (met.count false, stack.length)
decreasing_by
  · obtain ⟨bound, here⟩ := Array.getElem?_eq_some_iff.1 _fresh
    have some_left : 0 < met.count false := Array.count_pos_iff.2 (here ▸ Array.getElem_mem bound)
    apply Prod.Lex.left
    rw [Array.setIfInBounds, dif_pos bound, Array.count_set bound, here]
    simpa using Nat.sub_lt some_left Nat.one_pos
  · exact Prod.Lex.right _ (Nat.lt_succ_self _)

/-- The nodes that can be reached from the root, in pre-order. -/
def reachable (t : Tree) : List Handle := t.meet (Array.replicate t.size false) [t.root]

/-- Goes through the nodes that can be reached, in pre-order. -/
def walk {σ : Type} (t : Tree) (visit : σ → Handle → Node → σ) (start : σ) : σ :=
  t.reachable.foldl (fun s h => match t.node? h with
    | some node => visit s h node
    | none => s) start

/-- Gives each node that can be reached the label that `label` finds for it, in pre-order. -/
def relabel {σ : Type} (t : Tree) (label : σ → Handle → Node → σ × Label) (start : σ) : σ × Tree :=
  t.reachable.foldl (fun (s, t) h => match t.node? h with
    | some node =>
      let (s, l) := label s h node
      (s, { t with nodes := t.nodes.setIfInBounds h.index { node with toLabel := l } })
    | none => (s, t)) (start, t)

end TreeConversion.Target.Tree
