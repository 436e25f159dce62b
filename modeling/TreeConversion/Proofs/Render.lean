import TreeConversion.Proofs.Compact
import TreeConversion.Target.Json

/-!
# Writing a tree whose children come before their parents

In a `Grounded` tree the way down from a node ends, so how deep it may be written makes no
difference once that is more than its index (`nodeValue_eq`).  If the root is a node and all nodes
are below it, every handle of the tree denotes a node and none of them is written as null (`Sound`).
-/

namespace TreeConversion.Target

open Json

variable {child child' : Handle → Value}

theorem Field.toValue_congr {f : Field} (same : ∀ c ∈ f.children, child c = child' c) :
    f.toValue child = f.toValue child' := by
  cases f with
  | node h => exact same h (List.mem_singleton_self h)
  | nodes hs => exact congrArg Value.array (List.map_congr_left same)
  | value v => rfl

theorem Node.members_congr {n : Node} (same : ∀ c ∈ n.children, child c = child' c) :
    n.members child = n.members child' := by
  have fields : ∀ p ∈ n.fields, p.2.toValue child = p.2.toValue child' := fun p hp =>
    Field.toValue_congr fun c hc => same c (List.mem_flatMap.2 ⟨p, hp, hc⟩)
  unfold members
  generalize n.fields = fs at fields
  generalize Members.ofList [("type", Value.string n.kind)] = ms
  induction fs generalizing ms with
  | nil => rfl
  | cons p fs ih =>
    simp only [List.foldl_cons, fields p (List.mem_cons_self ..)]
    exact ih (fun q hq => fields q (List.mem_cons_of_mem _ hq)) _

namespace Tree

variable {t : Tree} {h c : Handle} {node : Node}

theorem Grounded.wellFounded (grounded : t.Grounded) : WellFounded fun c h => c ∈ t.childrenOf h :=
  Subrelation.wf (fun hc => grounded _ _ hc) (InvImage.wf Handle.index Nat.lt_wfRel.wf)

theorem nodeValue_none (hn : t.node? h = none) (depth : Nat) : t.nodeValue depth h = .null := by
  cases depth with
  | zero => rfl
  | succ depth => simp only [nodeValue, hn]

/-- Where a rank falls on every way down, a depth above the rank of a handle is enough to write it. -/
theorem nodeValue_eq_of_rank {inside : Handle → Prop} {rank : Handle → Nat}
    (falls : ∀ h c, inside h → c ∈ t.childrenOf h → c.index < t.size → inside c ∧ rank c < rank h)
    (hh : inside h) {depth depth' : Nat} (deep : rank h < depth) (deep' : rank h < depth') :
    t.nodeValue depth h = t.nodeValue depth' h := by
  induction depth generalizing h depth' with
  | zero => exact absurd deep (Nat.not_lt_zero _)
  | succ depth ih =>
    obtain ⟨depth', rfl⟩ : ∃ d, depth' = d + 1 := ⟨depth' - 1, by omega⟩
    rw [nodeValue, nodeValue]
    cases hn : t.node? h with
    | none => rfl
    | some node =>
      have children : ∀ c ∈ node.children, t.nodeValue depth c = t.nodeValue depth' c := by
        intro c hc
        cases hnc : t.node? c with
        | none => rw [nodeValue_none hnc, nodeValue_none hnc]
        | some child =>
          obtain ⟨hc, lower⟩ := falls h c hh (childrenOf_eq hn ▸ hc) (node?_isSome.1 (hnc ▸ rfl))
          exact ih hc (by omega) (by omega)
      exact congrArg Value.object (Node.members_congr children)

theorem nodeValue_eq (grounded : t.Grounded) {depth depth' : Nat} (deep : h.index < depth)
    (deep' : h.index < depth') : t.nodeValue depth h = t.nodeValue depth' h :=
  nodeValue_eq_of_rank (fun h c _ hc _ => ⟨trivial, grounded h c hc⟩) trivial deep deep'

/-- A node is written as an object, with its children written to any depth that is enough. -/
theorem nodeValue_node (grounded : t.Grounded) (hn : t.node? h = some node) {depth : Nat}
    (deep : h.index < depth) :
    t.nodeValue depth h = .object (node.members (t.nodeValue t.size)) := by
  obtain ⟨depth, rfl⟩ : ∃ d, depth = d + 1 := ⟨depth - 1, by omega⟩
  have bound : h.index < t.size := node?_isSome.1 (hn ▸ rfl)
  have children : ∀ c ∈ node.children, t.nodeValue depth c = t.nodeValue t.size c := by
    intro c hc
    have lower := grounded h c (childrenOf_eq hn ▸ hc)
    exact nodeValue_eq grounded (by omega) (by omega)
  simp only [nodeValue, hn]
  exact congrArg Value.object (Node.members_congr children)

/-- Every handle in the tree denotes a node of it, and the tree can be written as a whole. -/
structure Sound (t : Tree) : Prop where
  root : (t.node? t.root).isSome
  child : ∀ h c, c ∈ t.childrenOf h → (t.node? c).isSome ∧ c.index < h.index
  below : ∀ h, (t.node? h).isSome → t.Below t.root h
  /-- The root comes after all other nodes. -/
  last : ∀ h, (t.node? h).isSome → h.index ≤ t.root.index
  wellFounded : WellFounded fun c h => c ∈ t.childrenOf h
  /-- What is written of a node does not depend on a bound on the depth. -/
  written : ∀ h node depth, t.node? h = some node → h.index < depth →
    t.nodeValue depth h = .object (node.members (t.nodeValue t.size))
  not_null : ∀ h c, c ∈ t.childrenOf h → t.nodeValue t.size c ≠ .null

theorem sound_of_grounded (grounded : t.Grounded) (live : t.root.index < t.size)
    (below : ∀ h : Handle, h.index < t.size → t.Below t.root h) : t.Sound := by
  have child : ∀ h c, c ∈ t.childrenOf h → c.index < t.size := fun h c hc =>
    Nat.lt_trans (grounded h c hc) (lt_size_of_mem_childrenOf hc)
  refine ⟨node?_isSome.2 live, fun h c hc => ⟨node?_isSome.2 (child h c hc), grounded h c hc⟩,
    fun h hh => below h (node?_isSome.1 hh), fun h hh => ?_, grounded.wellFounded,
    fun h node depth hn deep => nodeValue_node grounded hn deep, fun h c hc => ?_⟩
  · exact grounded.le_of_below (below h (node?_isSome.1 hh))
  · obtain ⟨node, hn⟩ := exists_node (child h c hc)
    rw [nodeValue_node grounded hn (child h c hc)]
    exact Value.noConfusion

end Tree

end TreeConversion.Target
