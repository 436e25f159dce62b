import TreeConversion.Conversion.Finish
import TreeConversion.Proofs.Reachable

/-!
# What finishing keeps

Taking positions off a tree and putting tokens and comments on it leaves the kinds and the fields of
all nodes as they are (`Alike`), and so everything that can be said of the graph of the tree.
-/

namespace TreeConversion.Target

/-- A node without its positions. -/
def Node.bare (n : Node) : Node := { n with span := none, location := none }

/-- A node without the positions that are not to be kept. -/
def Node.strip (ranges locations : Bool) (n : Node) : Node :=
  { n with toLabel := n.toLabel.strip ranges locations }

namespace Tree

variable {t t' t'' : Tree} {h : Handle}

/-- The trees differ at most in the positions of their nodes and in what is attached to the root. -/
structure Alike (t t' : Tree) : Prop where
  root : t'.root = t.root
  nodes : t'.nodes.map Node.bare = t.nodes.map Node.bare

namespace Alike

theorem refl (t : Tree) : t.Alike t := ⟨rfl, rfl⟩

theorem trans (h : t.Alike t') (h' : t'.Alike t'') : t.Alike t'' :=
  ⟨h'.root.trans h.root, h'.nodes.trans h.nodes⟩

theorem size (alike : t.Alike t') : t'.size = t.size := by
  simpa [Tree.size] using congrArg Array.size alike.nodes

theorem node? (alike : t.Alike t') (h : Handle) :
    (t'.node? h).map Node.bare = (t.node? h).map Node.bare := by
  simpa [Tree.node?] using congrArg (·[h.index]?) alike.nodes

theorem childrenOf (alike : t.Alike t') (h : Handle) : t'.childrenOf h = t.childrenOf h := by
  have bare (t : Tree) :
      t.childrenOf h = (((t.node? h).map Node.bare).map Node.children).getD [] := by
    rw [Tree.childrenOf, Option.map_map]
    rfl
  rw [bare, bare, alike.node? h]

theorem below (alike : t.Alike t') : t'.Below = t.Below := by
  unfold Below
  simp only [alike.childrenOf]

end Alike

theorem alike_set {node : Node} (hn : t.node? h = some node) {l : Label}
    (kind : l.kind = node.kind) :
    t.Alike { t with nodes := t.nodes.setIfInBounds h.index { node with toLabel := l } } := by
  refine ⟨rfl, Array.ext_getElem? fun i => ?_⟩
  rw [Array.getElem?_map, Array.getElem?_map, Array.getElem?_setIfInBounds]
  split
  · next same =>
    have bound := (Array.getElem?_eq_some_iff.1 hn).1
    have here : t.nodes[i]? = some node := same ▸ hn
    simp [here, bound, Node.bare, kind]
  · rfl

theorem alike_relabel {σ : Type} (t : Tree) (label : σ → Handle → Node → σ × Label) (start : σ)
    (keeps : ∀ s h node, (label s h node).2.kind = node.kind) :
    t.Alike (t.relabel label start).2 := by
  unfold relabel
  generalize t.reachable = hs
  induction hs generalizing t start with
  | nil => exact .refl t
  | cons h hs ih =>
    rw [List.foldl_cons]
    cases hn : t.node? h with
    | some node => simpa only [hn] using (alike_set hn (keeps start h node)).trans (ih _ _)
    | none => simpa only [hn] using ih t start

theorem node?_set {node : Node} (hn : t.node? h = some node) (new : Node) (c : Handle) :
    node? { t with nodes := t.nodes.setIfInBounds h.index new } c =
      if c = h then some new else t.node? c := by
  have bound := (Array.getElem?_eq_some_iff.1 hn).1
  have same : h.index = c.index ↔ c = h :=
    ⟨fun hi => by cases h; cases c; simp_all, fun hc => hc ▸ rfl⟩
  rw [node?, Array.getElem?_setIfInBounds]
  by_cases hc : c = h
  · simp [hc, bound]
  · rw [if_neg (mt same.1 hc), if_neg hc, node?]

/-- Each node that can be reached gets its label, and no other node is touched. -/
theorem node?_relabel (t : Tree) (label : Node → Label) (h : Handle) :
    (t.relabel (fun (_ : Unit) _ node => ((), label node)) ()).2.node? h =
      if h ∈ t.reachable then (t.node? h).map fun node => { node with toLabel := label node }
      else t.node? h := by
  have once := nodup_reachable t
  unfold relabel
  generalize t.reachable = hs at once
  induction hs generalizing t with
  | nil => rfl
  | cons x hs ih =>
    obtain ⟨later, once⟩ := List.nodup_cons.1 once
    rw [List.foldl_cons]
    cases hx : t.node? x with
    | none =>
      simp only [hx]
      rw [ih t once]
      by_cases hh : h = x
      · simp [hh, hx]
      · simp [hh]
    | some node =>
      simp only [hx]
      rw [ih _ once, node?_set hx]
      by_cases hh : h = x
      · subst hh
        rw [if_neg later, if_pos rfl, if_pos (List.mem_cons_self ..), hx, Option.map_some]
      · simp [hh]

theorem alike_strip (t : Tree) (ranges locations : Bool) : t.Alike (t.strip ranges locations) := by
  unfold strip
  split
  · exact .refl t
  · exact alike_relabel t _ _ fun _ _ _ => rfl

theorem node?_strip (t : Tree) (ranges locations : Bool) (h : Handle) :
    (t.strip ranges locations).node? h =
      if h ∈ t.reachable then (t.node? h).map (Node.strip ranges locations) else t.node? h := by
  unfold strip
  split
  · next keep =>
    rw [Bool.and_eq_true] at keep
    have kept : Node.strip ranges locations = id := by
      funext n
      rw [keep.1, keep.2]
      rfl
    simp [kept]
  · exact node?_relabel t _ h

theorem exists_nodes_relabel {σ : Type} (t : Tree) (label : σ → Handle → Node → σ × Label)
    (start : σ) : ∃ nodes, (t.relabel label start).2 = { t with nodes } := by
  unfold relabel
  generalize t.reachable = hs
  induction hs generalizing t start with
  | nil => exact ⟨t.nodes, rfl⟩
  | cons h hs ih =>
    rw [List.foldl_cons]
    cases hn : t.node? h with
    | some node =>
      obtain ⟨nodes, hnodes⟩ := ih { t with
        nodes := t.nodes.setIfInBounds h.index { node with toLabel := (label start h node).2 } }
        (label start h node).1
      exact ⟨nodes, by simpa only [hn] using hnodes⟩
    | none => simpa only [hn] using ih t start

/-- The nodes that can be reached lose the positions that are not kept. -/
theorem strip_eq_mapIdx (t : Tree) (ranges locations : Bool) :
    t.strip ranges locations = { t with
      nodes := t.nodes.mapIdx fun i node =>
        if ⟨i⟩ ∈ t.reachable then node.strip ranges locations else node } := by
  obtain ⟨nodes, stripped⟩ : ∃ nodes, t.strip ranges locations = { t with nodes } := by
    unfold strip
    split
    · exact ⟨t.nodes, rfl⟩
    · exact exists_nodes_relabel t _ _
  have each (i : Nat) := node?_strip t ranges locations ⟨i⟩
  rw [stripped] at each ⊢
  have same : nodes = t.nodes.mapIdx fun i node =>
      if ⟨i⟩ ∈ t.reachable then node.strip ranges locations else node := by
    refine Array.ext_getElem? fun i => (each i).trans ?_
    rw [Array.getElem?_mapIdx]
    split
    · rfl
    · exact (Option.map_id' ..).symm
  rw [same]

/-- Where all nodes can be reached, all of them lose the positions that are not kept. -/
theorem strip_eq {t : Tree} (all : ∀ h : Handle, h.index < t.size → t.Below t.root h)
    (ranges locations : Bool) :
    t.strip ranges locations = { t with nodes := t.nodes.map (Node.strip ranges locations) } := by
  rw [strip_eq_mapIdx]
  congr 1
  refine Array.ext (by simp) fun i hi _ => ?_
  have live : i < t.size := by simpa [size] using hi
  simp [mem_reachable.2 ⟨live, all ⟨i⟩ live⟩]

end Tree

end TreeConversion.Target
