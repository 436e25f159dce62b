import TreeConversion.Proofs.Compact
import TreeConversion.Proofs.Emissions
import TreeConversion.Proofs.Finish

/-!
# From a course to a conversion

A conversion that goes well has taken a course, and what it hands out is made of the emissions of
that course that are attached to the root: the `i`-th of them is the `i`-th node of the tree, with
its origin and, if it is a placeholder, with its failure (`Converter.Making`).
-/

namespace TreeConversion

/-! ### Attached emissions -/

namespace Emission

/-- The nodes of all emissions, as a tree. -/
def arena (root : Target.Handle) (es : List Emission) : Target.Tree :=
  ⟨(es.map Emission.node).toArray, root, none, none⟩

theorem node?_arena (root : Target.Handle) (es : List Emission) (h : Target.Handle) :
    (arena root es).node? h = (es[h.index]?).map Emission.node := by
  rw [Target.Tree.node?, arena, List.getElem?_toArray, List.getElem?_map]

theorem node?_of_emitted {es : List Emission} {h : Target.Handle} {e : Emission}
    (he : es[h.index]? = some e) (root : Target.Handle) :
    (arena root es).node? h = some e.node := by
  rw [node?_arena, he, Option.map_some]

theorem lt_size_of_emitted {es : List Emission} {h : Target.Handle} {e : Emission}
    (he : es[h.index]? = some e) (root : Target.Handle) : h.index < (arena root es).size := by
  rw [← Target.Tree.node?_isSome, node?_of_emitted he]
  rfl

/-- The emissions that can be reached from the root, in order. -/
def attached (root : Target.Handle) (es : List Emission) : List Emission :=
  Target.Renumbering.pick (arena root es).kept.toList es

end Emission

variable {τ σ : Type} [ParseTree τ]

/-- What is harvested below a root holds the attached emissions. -/
structure Harvest.Holds (h : Harvest) (root : Target.Handle) (es : List Emission) : Prop where
  tree : h.tree = (Emission.arena root es).compact.1
  nodes : h.tree.nodes.toList =
    (Emission.attached root es).map fun e => (Emission.arena root es).table.node e.node
  coherent : h.origins.Coherent
  origins : h.origins.toList =
    Origins.pairsFrom 0 ((Emission.attached root es).map Emission.origin?)
  failures : h.failures = (Emission.attached root es).filterMap Emission.failure

namespace Workspace.Adds

variable {top : Source.Handle} {log : Array Event} {memory : σ} {w : Workspace σ}
  {es : List Emission}

theorem arena_eq (h : (start top log memory).Adds w es) (root : Target.Handle) :
    Target.Tree.mk w.nodes root none none = Emission.arena root es := by
  have nodes : w.nodes.toList = es.map Emission.node := h.nodes
  rw [Emission.arena, ← nodes]

theorem holds_harvest (h : (start top log memory).Adds w es) (root : Target.Handle) :
    (w.harvest root).Holds root es := by
  have origins : w.origins.toList = Origins.pairsFrom 0 (es.map Emission.origin?) := h.origins
  have failures : w.failures.toList = Origins.pairsFrom 0 (es.map Emission.failure) := h.failures
  have harvest : w.harvest root = {
      tree := (Emission.arena root es).compact.1
      origins := w.origins.renumber (Emission.arena root es).table
      failures := w.failures.toList.filterMap fun p =>
        if (((Emission.arena root es).table[p.1.index]?).join).isSome then some p.2
        else none } := by
    rw [harvest, h.arena_eq root]
    rfl
  obtain ⟨renumbered, coherent⟩ :=
    w.origins.toList_renumber (Emission.arena root es).rising_table
  rw [harvest]
  refine ⟨rfl, ?_, coherent, ?_, ?_⟩
  · rw [Target.Tree.toList_compact, Emission.arena, Target.Renumbering.pick_map, List.map_map]
    rfl
  · rw [renumbered, origins, Target.Tree.table, Target.Renumbering.pairs_pairsFrom,
      Target.Renumbering.pick_map]
    rfl
  · have kept : (w.failures.toList.filterMap fun p =>
        if (((Emission.arena root es).table[p.1.index]?).join).isSome then some p.2 else none) =
        ((Emission.arena root es).table.pairs w.failures.toList).map Prod.snd := by
      rw [Target.Renumbering.pairs, List.map_filterMap]
      congr 1
      funext p
      cases (((Emission.arena root es).table[p.1.index]?).join) <;> rfl
    simp only [kept]
    rw [failures, Target.Tree.table, Target.Renumbering.pairs_pairsFrom,
      Origins.map_snd_pairsFrom, Target.Renumbering.pick_map, List.filterMap_map]
    rfl

end Workspace.Adds

/-! ### Conversions that go well -/

namespace Converter

variable {c : Converter τ σ} {depth : Nat} {tree : τ} {s : Settings} {memory : σ}
  {report : Report σ} {conversion : Conversion}

/-- The work of converting a tree. -/
def job (c : Converter τ σ) (tree : τ) (s : Settings) : Job τ σ :=
  ⟨tree, c.rules, s, LineTable.ofText (ParseTree.text tree)⟩

/-- The state in which the conversion of a tree begins. -/
def begun (tree : τ) (memory : σ) : Workspace σ :=
  .start (ParseTree.root tree) #[.began (ParseTree.kind tree (ParseTree.root tree))] memory

/-- How a conversion has come about: by which course the root was converted to a single node, and in
which state that left the engine. -/
structure Making (c : Converter τ σ) (tree : τ) (s : Settings) (memory : σ)
    (conversion : Conversion) where
  course : Course
  root : Target.Handle
  last : Workspace σ
  runs : (c.job tree s).Runs (ParseTree.root tree) (.convert (ParseTree.root tree) .done)
    (begun tree memory) course (.ok [root]) last
  finished : conversion = (c.finish s (c.job tree s).lines (last.harvest root)).1

theorem exists_harvest (done : c.convert depth tree s memory = some report)
    (ok : report.outcome = .ok conversion) :
    ∃ h w, (c.job tree s).harvest depth (begun tree memory) = some (.ok h, w) ∧
      conversion = (c.finish s (c.job tree s).lines h).1 := by
  unfold convert at done
  simp only at done
  split at done
  · cases done
    cases ok
  · split at done
    · cases done
      cases ok
    · split at done
      · cases done
      · cases done
        cases ok
      · next h w harvest =>
        cases done
        cases ok
        exact ⟨h, w, harvest, rfl⟩

/-- A conversion that goes well has come about somehow. -/
theorem exists_making (done : c.convert depth tree s memory = some report)
    (ok : report.outcome = .ok conversion) : Nonempty (c.Making tree s memory conversion) := by
  obtain ⟨h, w, harvest, finished⟩ := exists_harvest done ok
  unfold Job.harvest at harvest
  split at harvest
  · cases harvest
  · cases harvest
  · next root w converted =>
    obtain ⟨course, runs, -⟩ := Job.exists_runs_convert converted
    cases harvest
    exact ⟨course, root, w, runs, finished⟩
  · cases harvest

/-- A conversion goes well if nothing speaks against it and its root gives a single node. -/
theorem exists_ok {root : Target.Handle} {w : Workspace σ} (fine : c.problem? s = none)
    (clear : ParseTree.diagnostics tree = [])
    (h : (c.job tree s).convert depth (ParseTree.root tree) (begun tree memory) =
      some (.ok [root], w)) :
    ∃ report conversion,
      c.convert depth tree s memory = some report ∧ report.outcome = .ok conversion := by
  have harvest : (c.job tree s).harvest depth (begun tree memory) =
      some (.ok (w.harvest root),
        { w with log := w.log ++ dropLog w.nodes.size (w.harvest root).tree.size }) := by
    rw [Job.harvest, show ParseTree.root (c.job tree s).tree = ParseTree.root tree from rfl, h]
  rw [job, begun] at harvest
  simp only [convert, fine, clear, refusal?, harvest]
  exact ⟨_, _, rfl, rfl⟩

omit [ParseTree τ] in
theorem alike_finish (c : Converter τ σ) (s : Settings) (lines : LineTable) (h : Harvest) :
    h.tree.Alike (c.finish s lines h).1.tree := by
  refine (h.tree.alike_strip s.ranges s.locations).trans ?_
  simp only [finish, withTokens, withComments]
  split <;> split <;> exact ⟨rfl, rfl⟩

end Converter

/-! ### The tree that is handed out -/

namespace Emission

/-- What has become of an emission in a finished tree: the same node, but for its positions and the
new handles of its children. -/
structure Became (table : Target.Renumbering) (e : Emission) (node : Target.Node) : Prop where
  kind : node.kind = e.node.kind
  fields : node.fields = (table.node e.node).fields
  synthetic : node.synthetic = e.node.synthetic

variable {table : Target.Renumbering} {es : List Emission}

theorem exists_became {t : Target.Tree} (became : List.Forall₂ (Became table) es t.nodes.toList)
    {h : Target.Handle} {e : Emission} (he : es[h.index]? = some e) :
    ∃ node, t.node? h = some node ∧ Became table e node := by
  obtain ⟨length, each⟩ := List.forall₂_iff_get.1 became
  obtain ⟨hi, rfl⟩ := List.getElem?_eq_some_iff.1 he
  have hi' : h.index < t.nodes.toList.length := length ▸ hi
  refine ⟨t.nodes.toList[h.index], ?_, each h.index hi hi'⟩
  simp [Target.Tree.node?, Array.length_toList ▸ hi']

theorem map_eq_of_became {β : Type} {nodes : List Target.Node}
    (became : List.Forall₂ (Became table) es nodes) {f : Emission → β} {g : Target.Node → β}
    (same : ∀ e node, Became table e node → g node = f e) : nodes.map g = es.map f := by
  induction became with
  | nil => rfl
  | cons head _ ih => rw [List.map_cons, List.map_cons, same _ _ head, ih]

end Emission

namespace Converter.Making

variable {c : Converter τ σ} {tree : τ} {s : Settings} {memory : σ} {conversion : Conversion}
  (m : c.Making tree s memory conversion)

/-- All emissions that were not taken back. -/
def emissions : List Emission := m.course.emissions (c.job tree s) (ParseTree.root tree)

/-- Those that are attached to the root. -/
def yield : List Emission := Emission.attached m.root m.emissions

/-- The handles of the nodes in the finished tree. -/
def table : Target.Renumbering := (Emission.arena m.root m.emissions).table

/-- The origins of the finished tree. -/
def origins : Origins := (m.last.harvest m.root).origins

theorem adds : (begun tree memory).Adds m.last m.emissions :=
  m.runs.adds (Workspace.sound_start _ _ _)

theorem holds : (m.last.harvest m.root).Holds m.root m.emissions := m.adds.holds_harvest m.root

theorem alike : (Emission.arena m.root m.emissions).compact.1.Alike conversion.tree := by
  have alike := c.alike_finish s (c.job tree s).lines (m.last.harvest m.root)
  rwa [m.holds.tree, ← m.finished] at alike

theorem sourceOf (h : Target.Handle) :
    m.origins.sourceOf h = (m.yield[h.index]?).bind Emission.origin? :=
  Origins.sourceOf_of_pairs m.holds.origins h

theorem failures : conversion.failures = m.yield.filterMap Emission.failure :=
  (congrArg Conversion.failures m.finished).trans m.holds.failures

/-- The `i`-th node that is handed out has become of the `i`-th emission that is attached. -/
theorem became : List.Forall₂ (Emission.Became m.table) m.yield conversion.tree.nodes.toList := by
  have bare : conversion.tree.nodes.toList.map Target.Node.bare =
      m.yield.map fun e => (m.table.node e.node).bare := by
    have alike := congrArg Array.toList m.alike.nodes
    rw [← m.holds.tree, Array.toList_map, Array.toList_map, m.holds.nodes, List.map_map] at alike
    exact alike
  refine List.forall₂_iff_get.2 ⟨by simpa using (congrArg List.length bare).symm, ?_⟩
  intro i hi hi'
  have node := List.getElem_of_eq bare (by simpa using hi')
  simp only [List.getElem_map] at node
  exact ⟨congrArg (fun n => n.kind) node, congrArg (fun n => n.fields) node,
    congrArg (fun n => n.synthetic) node⟩

include m in
theorem below_root (h : Target.Handle) (hh : h.index < conversion.tree.size) :
    conversion.tree.Below conversion.tree.root h := by
  rw [m.alike.size] at hh
  rw [m.alike.below, m.alike.root]
  exact Target.Tree.below_root_compact h hh

end Converter.Making

namespace Parens

def converter : Converter Source.Tree Unit := ⟨rules, none, none⟩

theorem converts_root (log : Array Event) : ∃ root w,
    job.convert 2 tree.root (.start tree.root log ()) = some (.ok [root], w) := by
  have rule₀ : rules.find? (ParseTree.kind tree ⟨0⟩) = some list := find_list
  have rule₁ : rules.find? (ParseTree.kind tree ⟨1⟩) = some name := find_name
  have rule₂ : rules.find? (ParseTree.kind tree ⟨2⟩) = some blot := find_blot
  have children : ParseTree.children tree ⟨0⟩ = [⟨1⟩, ⟨2⟩] := rfl
  have allowed : settings.allowInvalid = true := rfl
  simp only [show tree.root = ⟨0⟩ from rfl, job, Job.convert, rule₀, rule₁, rule₂, list, name, blot,
    Action.convertChildren, children, Action.convertAll, Action.bind, Job.run, Job.settle,
    Job.substitute, allowed, if_true]
  exact ⟨_, _, rfl⟩

theorem converts : ∃ report conversion,
    converter.convert 2 tree settings () = some report ∧ report.outcome = .ok conversion := by
  obtain ⟨root, w, h⟩ := converts_root #[.began (ParseTree.kind tree tree.root)]
  exact Converter.exists_ok (by decide) rfl h

end Parens

end TreeConversion
