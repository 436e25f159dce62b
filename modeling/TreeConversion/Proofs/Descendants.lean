import TreeConversion.Proofs.Attachment
import TreeConversion.Proofs.Preorder

/-!
# The nodes below a root

The walk that lists the descendants keeps no record of what it has met.  Here it goes without a
bound on its steps: handles come off a stack until it is empty (`Tree.Unstacks`).  Beside it stands
the recursion that takes children in order (`Tree.Tours`).  What comes off the stack is such a tour,
whatever lies below on the stack (`Tree.Tours.unstacks`), and in a forest there is a tour, without
repetitions.  So the walk comes to an end below any root, and lists the nodes from which the parents
lead to the root (`Builder.descendants_exact`).
-/

namespace TreeConversion.Source

/-! ### Walks without a bound -/

namespace Tree

variable {t : Tree} {h : Handle} {hs hs' stack order order' later : List Handle}

/-- Handles come off a stack and leave their children on it, until the stack is empty. -/
inductive Unstacks (t : Tree) : List Handle → List Handle → Prop
  | done : t.Unstacks [] []
  | pop {h : Handle} {stack order : List Handle}
    (rest : t.Unstacks (t.childrenOf h ++ stack) order) : t.Unstacks (h :: stack) (h :: order)

/-- A tour of handles in a row goes from each to its children, by a tour of these, and then to the
next handle. -/
inductive Tours (t : Tree) : List Handle → List Handle → Prop
  | nil : t.Tours [] []
  | cons {h : Handle} {hs below later : List Handle} (children : t.Tours (t.childrenOf h) below)
    (next : t.Tours hs later) : t.Tours (h :: hs) (h :: below ++ later)

theorem Unstacks.unique (one : t.Unstacks stack order) (other : t.Unstacks stack order') :
    order = order' := by
  induction one generalizing order' with
  | done =>
    cases other
    rfl
  | pop rest ih =>
    cases other with
    | pop rest' => rw [ih rest']

/-- What lies below on the stack comes off after the tour. -/
theorem Tours.unstacks (tour : t.Tours hs order) (rest : t.Unstacks stack later) :
    t.Unstacks (hs ++ stack) (order ++ later) := by
  induction tour generalizing stack later with
  | nil => exact rest
  | cons children next ihchildren ihnext =>
    -- the next handles lie under the children
    have below := ihchildren (ihnext rest)
    simpa using below.pop

theorem Tours.append (tour : t.Tours hs order) (tour' : t.Tours hs' order') :
    t.Tours (hs ++ hs') (order ++ order') := by
  induction tour with
  | nil => exact tour'
  | cons children next _ ih => simpa using Tours.cons children ih

namespace Forest

variable (forest : t.Forest)

include forest

theorem tours (h : Handle) : t.Tours [h] (t.preorder (fun _ => true) h) := by
  induction h using forest.induction with
  | step h ih =>
    have below (cs : List Handle) (hcs : cs ⊆ t.childrenOf h) :
        t.Tours cs (cs.flatMap (t.preorder fun _ => true)) := by
      induction cs with
      | nil => exact .nil
      | cons c cs ihcs =>
        obtain ⟨hc, hcs⟩ := List.cons_subset.1 hcs
        exact (ih c hc).append (ihcs hcs)
    have tour := Tours.cons (below _ (List.Subset.refl _)) .nil
    rw [forest.preorder_eq, List.filter_true]
    simpa using tour

theorem unstacks_preorder (h : Handle) : t.Unstacks [h] (t.preorder (fun _ => true) h) := by
  simpa using (forest.tours h).unstacks .done

/-- A root that is no node has nothing below it. -/
theorem descendants_eq_preorder : t.descendants = t.preorder (fun _ => true) t.root := by
  by_cases known : t.root.index < t.size
  · exact forest.descendants_eq known
  · have alone : t.childrenOf t.root = [] := by
      rw [childrenOf, node?, Array.getElem?_eq_none (Nat.le_of_not_lt known)]
      rfl
    cases size : t.size <;> simp [descendants, forest.preorder_eq, alone, size, unstack]

end Forest

end Tree

namespace Builder

variable {b : Builder} {p h root : Handle}

/-! ### The order of attachments -/

/-- The pair of a parent and a child that a call attaches, if it does. -/
def attaches (b : Builder) : Call → List (Handle × Handle)
  | .child p c =>
    match (b.attach p c).1 with
    | .ok _ => [(p, c)]
    | .error _ => []
  | _ => []

/-- What calls attach, in order. -/
def attachments (b : Builder) : List Call → List (Handle × Handle)
  | [] => []
  | call :: calls => b.attaches call ++ (b.perform call).attachments calls

/-- The children that come with these attachments. -/
def childrenIn (p : Handle) (pairs : List (Handle × Handle)) : List Handle :=
  pairs.filterMap fun pair => if pair.1 = p then some pair.2 else none

theorem mem_childrenIn {pairs : List (Handle × Handle)} :
    h ∈ childrenIn p pairs ↔ (p, h) ∈ pairs := by
  simp [childrenIn]

theorem Sound.childrenOf_perform (sound : b.Sound) (call : Call) (p : Handle) :
    (b.perform call).childrenOf p = b.childrenOf p ++ childrenIn p (b.attaches call) := by
  cases call with
  | node kind span => simp [perform, attaches, childrenIn, childrenOf_addNode]
  | attr h name value => simp [perform, attaches, childrenIn, childrenOf_setAttr]
  | diagnostic d => simp [perform, attaches, childrenIn, addDiagnostic, childrenOf]
  | token t => simp [perform, attaches, childrenIn, addToken, childrenOf]
  | comment c => simp [perform, attaches, childrenIn, addComment, childrenOf]
  | child q c =>
    have attaching := sound.attaching q c
    cases attached : (b.attach q c).1 with
    | error e => simp [perform, attaching.unchanged e attached, attaches, attached, childrenIn]
    | ok answer =>
      rw [perform, (attaching.gains attached).childrenOf]
      by_cases hq : q = p
      · subst hq
        simp [attaches, attached, childrenIn]
      · simp [attaches, attached, childrenIn, hq, Ne.symm hq]

theorem Built.childrenOf_foldl (built : b.Built) (calls : List Call) (p : Handle) :
    (calls.foldl Builder.perform b).childrenOf p =
      b.childrenOf p ++ childrenIn p (b.attachments calls) := by
  induction calls generalizing b with
  | nil => simp [attachments, childrenIn]
  | cons call calls ih =>
    rw [List.foldl_cons, ih (built.perform call), built.sound.childrenOf_perform]
    simp [attachments, childrenIn, List.filterMap_append]

/-! ### The nodes below -/

/-- The way down and the way up meet the same nodes. -/
theorem Sound.leads_iff_above (sound : b.Sound) :
    (b.finish root).Leads (fun _ => true) p h ↔ b.Above h p := by
  have agree (p c : Handle) : c ∈ (b.finish root).childrenOf p ↔ b.parent? c = some p :=
    sound.agree p c
  rw [Above, ← Relation.reflTransGen_swap, Tree.Leads]
  simp only [agree, and_true]

/-- How the nodes below a root are listed. -/
structure Lists (b : Builder) (root : Handle) (order : List Handle) : Prop where
  /-- Without a bound on its steps too, the walk ends, and with this list. -/
  walk : ∀ order', (b.finish root).Unstacks [root] order' ↔ order' = order
  tour : (b.finish root).Tours [root] order
  mem : ∀ h, h ∈ order ↔ b.Above h root
  once : order.Nodup

/-- After any calls, and for any root, the descendants are the nodes from which the parents lead to
the root, each once, in the order of a tour, where children stand in the order in which they were
attached. -/
theorem descendants_exact (text : String) (calls : List Call) (root : Handle) :
    (ofCalls text calls).Lists root ((ofCalls text calls).finish root).descendants ∧
      (∀ p, ((ofCalls text calls).finish root).childrenOf p =
        childrenIn p ((ofText text).attachments calls)) ∧
      ∀ p c, (ofCalls text calls).parent? c = some p ↔
        (p, c) ∈ (ofText text).attachments calls := by
  have built := built_ofCalls text calls
  have forest := built.forest root
  have children (p : Handle) : (ofCalls text calls).childrenOf p =
      childrenIn p ((ofText text).attachments calls) := by
    have none : (ofText text).childrenOf p = [] := by simp [childrenOf, ofText]
    rw [ofCalls, Built.childrenOf_foldl (.ofText text), none, List.nil_append]
  refine ⟨?lists, children, fun p c => ?parent⟩
  case lists =>
    rw [forest.descendants_eq_preorder]
    have walk := forest.unstacks_preorder root
    refine ⟨fun order => ⟨fun walk' => walk'.unique walk, ?_⟩, forest.tours root, fun h => ?_,
      forest.nodup_preorder _ root⟩
    · rintro rfl
      exact walk
    · exact forest.mem_preorder.trans built.sound.leads_iff_above
  case parent => rw [← built.sound.agree, children, mem_childrenIn]

/-- A root in a file, whose children were attached in another order than they were made.  The file
is refused to one of them. -/
theorem descendants_exact_listed :
    let calls := [
      .node "File" ⟨0, 5⟩, .node "List" ⟨0, 5⟩, .node "Name" ⟨4, 5⟩, .node "Name" ⟨0, 1⟩,
      .child ⟨1⟩ ⟨3⟩, .child ⟨0⟩ ⟨1⟩, .child ⟨1⟩ ⟨2⟩, .child ⟨3⟩ ⟨0⟩]
    let b := ofCalls "x y z" calls
    (b.attach ⟨3⟩ ⟨0⟩).1 = .error (.cycle ⟨0⟩ ⟨3⟩) ∧ b.parent? ⟨1⟩ = some ⟨0⟩ ∧
      (ofText "x y z").attachments calls = [(⟨1⟩, ⟨3⟩), (⟨0⟩, ⟨1⟩), (⟨1⟩, ⟨2⟩)] ∧
      (b.finish ⟨1⟩).descendants = [⟨1⟩, ⟨3⟩, ⟨2⟩] ∧ b.Lists ⟨1⟩ [⟨1⟩, ⟨3⟩, ⟨2⟩] := by
  intro calls b
  have listed : (b.finish ⟨1⟩).descendants = [⟨1⟩, ⟨3⟩, ⟨2⟩] := rfl
  obtain ⟨lists, -⟩ := descendants_exact "x y z" calls ⟨1⟩
  exact ⟨rfl, rfl, rfl, listed, listed ▸ lists⟩

end Builder

end TreeConversion.Source
