import TreeConversion.Target.Walk

/-!
# Leaving out what is not attached

`Tree.compact` keeps the nodes that can be reached from the root, in their order, and numbers them
anew.
-/

namespace TreeConversion.Target

/-- The new handle of each old one, for the nodes that are kept. -/
abbrev Renumbering := Array (Option Handle)

namespace Renumbering

/-- Numbers the kept nodes from `next` on. -/
def count (next : Nat) : List Bool → List (Option Handle)
  | [] => []
  | true :: kept => some ⟨next⟩ :: count (next + 1) kept
  | false :: kept => none :: count next kept

/-- The new handle for an old one; one that is not kept stays as it is. -/
def handle (table : Renumbering) (h : Handle) : Handle := (table[h.index]?).join.getD h

def field (table : Renumbering) : Field → Field
  | .node child => .node (table.handle child)
  | .nodes children => .nodes (children.map table.handle)
  | .value v => .value v

def node (table : Renumbering) (n : Node) : Node :=
  { n with fields := n.fields.map fun (name, f) => (name, table.field f) }

end Renumbering

namespace Tree

/-- For each node whether it can be reached from the root. -/
def kept (t : Tree) : Array Bool :=
  t.reachable.foldl (fun kept h => kept.setIfInBounds h.index true) (Array.replicate t.size false)

/-- The tree without the nodes that cannot be reached, and the new handles of the others. -/
def compact (t : Tree) : Tree × Renumbering :=
  let kept := t.kept.toList
  let table : Renumbering := (Renumbering.count 0 kept).toArray
  let nodes := (t.nodes.toList.zip kept).filterMap fun (node, keep) =>
    if keep then some (table.node node) else none
  ({ t with nodes := nodes.toArray, root := table.handle t.root }, table)

end Tree

end TreeConversion.Target
