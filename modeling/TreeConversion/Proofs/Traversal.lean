import TreeConversion.Proofs.Finish

/-!
# The order of a walk

`Explores` says how a depth-first search goes through handles: it visits a node before its children
and goes through these before the next handle, and a handle that was visited before or that points
nowhere is passed by.  What comes off the stack of a walk comes in this order, on any graph
(`explores_meet`), and both ways to go through a tree, looking at its nodes and giving them labels,
meet the nodes in this order (`traversed`).
-/

namespace TreeConversion.Target.Tree

variable {t t' : Tree} {h : Handle} {node : Node} {hs xs ys visited below later : List Handle}

/-! ### Depth-first search -/

/-- A depth-first search through handles in order.  The lists are of the nodes visited before it and
after it, in the order in which they were visited. -/
inductive Explores (t : Tree) : List Handle → List Handle → List Handle → Prop
  | done (visited : List Handle) : t.Explores visited [] visited
  | pass {visited later hs : List Handle} {h : Handle} (old : h ∈ visited ∨ t.node? h = none)
    (rest : t.Explores visited hs later) : t.Explores visited (h :: hs) later
  | enter {visited below later hs : List Handle} {h : Handle} {node : Node} (fresh : h ∉ visited)
    (here : t.node? h = some node) (children : t.Explores (visited ++ [h]) node.children below)
    (rest : t.Explores below hs later) : t.Explores visited (h :: hs) later

namespace Explores

theorem unique (one : t.Explores visited hs later) {later' : List Handle}
    (other : t.Explores visited hs later') : later = later' := by
  induction one generalizing later' with
  | done => cases other with
    | done => rfl
  | pass old _ ih => cases other with
    | pass _ rest => exact ih rest
    | enter fresh here => exact old.elim (absurd · fresh) fun nowhere => by cases nowhere.symm.trans here
  | enter fresh here _ _ ihchildren ihrest => cases other with
    | pass old => exact old.elim (absurd · fresh) fun nowhere => by cases nowhere.symm.trans here
    | enter _ here' children rest =>
      obtain rfl := Option.some.inj (here.symm.trans here')
      obtain rfl := ihchildren children
      exact ihrest rest

theorem of_append (all : t.Explores visited (xs ++ ys) later) :
    ∃ between, t.Explores visited xs between ∧ t.Explores between ys later := by
  induction xs generalizing visited with
  | nil => exact ⟨visited, .done visited, all⟩
  | cons x xs ih => cases all with
    | pass old rest =>
      obtain ⟨between, front, back⟩ := ih rest
      exact ⟨between, .pass old front, back⟩
    | enter fresh here children rest =>
      obtain ⟨between, front, back⟩ := ih rest
      exact ⟨between, .enter fresh here children front, back⟩

end Explores

/-- The search goes through the stack of a walk, given that what was met is what was visited. -/
theorem explores_meet (met : Array Bool) (stack visited : List Handle)
    (fresh : ∀ h : Handle, met[h.index]? = some false ↔ h.index < t.size ∧ h ∉ visited) :
    t.Explores visited stack (visited ++ t.meet met stack) := by
  fun_induction meet t met stack generalizing visited with
  | case1 met => simpa using Explores.done visited
  | case2 met h stack here ih =>
    obtain ⟨bound, new⟩ := (fresh h).1 here
    obtain ⟨node, hn⟩ := exists_node bound
    have marked (c : Handle) : (met.setIfInBounds h.index true)[c.index]? = some false ↔
        c.index < t.size ∧ c ∉ visited ++ [h] := by
      rw [fresh_after_mark here, fresh, List.mem_append, List.mem_singleton]
      tauto
    -- the children lie on the stack above the handles that were on it
    obtain ⟨below, children, rest⟩ := (ih (visited ++ [h]) marked).of_append
    rw [childrenOf_eq hn] at children
    simpa using Explores.enter new hn children rest
  | case3 met h stack old ih =>
    refine .pass ?_ (ih visited fresh)
    by_cases bound : h.index < t.size
    · exact .inl (not_not.1 fun new => old ((fresh h).2 ⟨bound, new⟩))
    · exact .inr (node?_eq_none.2 bound)

theorem explores_reachable (t : Tree) : t.Explores [] [t.root] t.reachable := by
  refine explores_meet (Array.replicate t.size false) [t.root] [] fun h => ?_
  simp [Array.getElem?_replicate]

/-! ### The nodes met -/

/-- The nodes at these handles, as far as they point somewhere. -/
def nodesAt (t : Tree) (hs : List Handle) : List (Handle × Node) :=
  hs.filterMap fun h => (t.node? h).map (Prod.mk h)

/-- The nodes that a walk meets, in this order. -/
def visits (t : Tree) : List (Handle × Node) := t.nodesAt t.reachable

theorem nodesAt_cons (hn : t.node? h = some node) (hs : List Handle) :
    t.nodesAt (h :: hs) = (h, node) :: t.nodesAt hs := by
  simp [nodesAt, hn]

theorem nodesAt_cons_none (hn : t.node? h = none) (hs : List Handle) :
    t.nodesAt (h :: hs) = t.nodesAt hs := by
  simp [nodesAt, hn]

theorem nodesAt_congr (same : ∀ h ∈ hs, t'.node? h = t.node? h) :
    t'.nodesAt hs = t.nodesAt hs :=
  List.filterMap_congr fun h hh => by rw [same h hh]

theorem node?_of_mem_nodesAt {v : Handle × Node} (hv : v ∈ t.nodesAt hs) :
    t.node? v.1 = some v.2 := by
  obtain ⟨h, -, hn⟩ := List.mem_filterMap.1 hv
  obtain ⟨node, here, rfl⟩ := Option.map_eq_some_iff.1 hn
  exact here

theorem map_fst_nodesAt (live : ∀ h ∈ hs, h.index < t.size) :
    (t.nodesAt hs).map Prod.fst = hs := by
  induction hs with
  | nil => rfl
  | cons h hs ih =>
    obtain ⟨here, live⟩ := List.forall_mem_cons.1 live
    obtain ⟨node, hn⟩ := exists_node here
    rw [nodesAt_cons hn, List.map_cons, ih live]

theorem map_fst_visits (t : Tree) : t.visits.map Prod.fst = t.reachable :=
  map_fst_nodesAt fun _ hh => (mem_reachable.1 hh).1

theorem walk_visits {σ : Type} (t : Tree) (visit : σ → Handle → Node → σ) (start : σ) :
    t.walk visit start = t.visits.foldl (fun s v => visit s v.1 v.2) start := by
  rw [walk, visits, nodesAt, List.foldl_filterMap]
  congr 1
  funext s h
  cases t.node? h <;> rfl

/-! ### Giving labels -/

/-- Gives nodes their labels, one after the other. -/
def labelAll {σ : Type} (label : σ → Handle → Node → σ × Label) :
    σ → List (Handle × Node) → σ × List (Handle × Node)
  | s, [] => (s, [])
  | s, (h, node) :: rest =>
    let (s, l) := label s h node
    let (s, rest) := labelAll label s rest
    (s, (h, { node with toLabel := l }) :: rest)

def relabelAt {σ : Type} (label : σ → Handle → Node → σ × Label) (s : σ × Tree) (h : Handle) :
    σ × Tree :=
  match s.2.node? h with
  | some node =>
    ((label s.1 h node).1, { s.2 with
      nodes := s.2.nodes.setIfInBounds h.index { node with toLabel := (label s.1 h node).2 } })
  | none => s

/-- The nodes at these handles have been given their labels one after the other, and all else is as
before. -/
structure Relabels {σ : Type} (label : σ → Handle → Node → σ × Label) (hs : List Handle)
    (before after : σ × Tree) : Prop where
  state : after.1 = (labelAll label before.1 (before.2.nodesAt hs)).1
  labels : after.2.nodesAt hs = (labelAll label before.1 (before.2.nodesAt hs)).2
  others : ∀ c ∉ hs, after.2.node? c = before.2.node? c
  fields : ∀ c, (after.2.node? c).map Node.fields = (before.2.node? c).map Node.fields
  synthetic : ∀ c, (after.2.node? c).map Node.synthetic = (before.2.node? c).map Node.synthetic
  /-- Apart from its nodes, of which there are as many, the tree is as before. -/
  rest : ∃ nodes : Array Node, after.2 = { before.2 with nodes } ∧ nodes.size = before.2.nodes.size

section

variable {σ : Type} {label : σ → Handle → Node → σ × Label}

theorem Relabels.none {s : σ} (hn : t.node? h = none) {after : σ × Tree}
    (later : Relabels label hs (s, t) after) : Relabels label (h :: hs) (s, t) after where
  state := by rw [nodesAt_cons_none hn]; exact later.state
  labels := by
    have nowhere : after.2.node? h = Option.none := by
      by_contra there
      obtain ⟨node, there⟩ := Option.ne_none_iff_exists'.1 there
      have fields := later.fields h
      simp [hn, there] at fields
    rw [nodesAt_cons_none nowhere, nodesAt_cons_none hn]
    exact later.labels
  others c hc := later.others c fun mem => hc (List.mem_cons_of_mem h mem)
  fields := later.fields
  synthetic := later.synthetic
  rest := later.rest

theorem Relabels.some {s : σ} (hn : t.node? h = some node) (new : h ∉ hs) {after : σ × Tree}
    (later : Relabels label hs (relabelAt label (s, t) h) after) :
    Relabels label (h :: hs) (s, t) after := by
  have step : relabelAt label (s, t) h = ((label s h node).1, { t with
      nodes := t.nodes.setIfInBounds h.index { node with toLabel := (label s h node).2 } }) := by
    simp only [relabelAt, hn]
  have set (c : Handle) := node?_set hn { node with toLabel := (label s h node).2 } c
  rw [step] at later
  have same : ∀ c ∈ hs, node? { t with
      nodes := t.nodes.setIfInBounds h.index { node with toLabel := (label s h node).2 } } c =
        t.node? c := fun c hc => by
    rw [set c, if_neg fun (hch : c = h) => new (hch ▸ hc)]
  have labels := later.labels
  have state := later.state
  rw [nodesAt_congr same] at labels state
  refine ⟨?_, ?_, fun c hc => ?_, fun c => ?_, fun c => ?_, ?_⟩
  · rw [state, nodesAt_cons hn]
    rfl
  · have here : after.2.node? h = .some { node with toLabel := (label s h node).2 } := by
      rw [later.others h new, set h, if_pos rfl]
    rw [nodesAt_cons here, labels, nodesAt_cons hn]
    rfl
  · have other : c ≠ h := List.ne_of_not_mem_cons hc
    rw [later.others c (List.not_mem_of_not_mem_cons hc), set c, if_neg other]
  · rw [later.fields c, set c]
    split
    · next hch => rw [hch, hn]; rfl
    · rfl
  · rw [later.synthetic c, set c]
    split
    · next hch => rw [hch, hn]; rfl
    · rfl
  · obtain ⟨nodes, rest, size⟩ := later.rest
    exact ⟨nodes, rest, size.trans (by simp)⟩

theorem relabels_foldl (once : hs.Nodup) (s : σ × Tree) :
    Relabels label hs s (hs.foldl (relabelAt label) s) := by
  induction hs generalizing s with
  | nil => exact ⟨rfl, rfl, fun _ _ => rfl, fun _ => rfl, fun _ => rfl, s.2.nodes, rfl, rfl⟩
  | cons h hs ih =>
    obtain ⟨new, once⟩ := List.nodup_cons.1 once
    obtain ⟨s, t⟩ := s
    rw [List.foldl_cons]
    cases hn : t.node? h with
    | none =>
      have step : relabelAt label (s, t) h = (s, t) := by simp only [relabelAt, hn]
      rw [step]
      exact .none hn (ih once (s, t))
    | some node => exact .some hn new (ih once _)

end

/-! ### Traversals -/

/-- How a tree is gone through. -/
structure Traversed (t : Tree) : Prop where
  /-- A depth-first search from the root comes to an end, in one way only. -/
  search : ∀ order, t.Explores [] [t.root] order ↔ order = t.reachable
  mem : ∀ h, h ∈ t.reachable ↔ (t.node? h).isSome ∧ t.Below t.root h
  once : t.reachable.Nodup
  visits : t.visits.map Prod.fst = t.reachable ∧ ∀ v ∈ t.visits, t.node? v.1 = some v.2
  walk : ∀ {σ : Type} (visit : σ → Handle → Node → σ) (start : σ),
    t.walk visit start = t.visits.foldl (fun s v => visit s v.1 v.2) start
  relabel : ∀ {σ : Type} (label : σ → Handle → Node → σ × Label) (start : σ),
    Relabels label t.reachable (start, t) (t.relabel label start)

/-- Every tree is gone through in the order of a depth-first search. -/
theorem traversed (t : Tree) : t.Traversed where
  search order := by
    constructor
    · intro explores
      exact explores.unique t.explores_reachable
    · rintro rfl
      exact t.explores_reachable
  mem h := by rw [mem_reachable, node?_isSome]
  once := nodup_reachable t
  visits := ⟨t.map_fst_visits, fun _ hv => node?_of_mem_nodesAt hv⟩
  walk visit start := t.walk_visits visit start
  relabel label start := relabels_foldl (nodup_reachable t) (start, t)

end TreeConversion.Target.Tree
