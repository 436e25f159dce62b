import TreeConversion.Proofs.Endings
import TreeConversion.Proofs.Provenance
import TreeConversion.Proofs.Structural

/-!
# Structural rules keep order and shape

With structural rules a conversion hands out a tree of the shape of the parse tree, less what has no
rule: a walk over the one meets the targets of what a walk over the other meets
(`Target.Tree.map_reachable`), so the rules run in pre-order and the nodes come in pre-order, however
they were numbered on the way.
-/

namespace TreeConversion

/-! ### Two walks -/

namespace Target.Tree

variable {t : Tree} {sourceOf : Handle → Option Source.Handle}
  {children below : Source.Handle → List Source.Handle}

/-- A walk over target nodes whose children are the targets of the children of their source nodes
goes like one over the source nodes. -/
theorem map_meet (preorder : ∀ n, below n = n :: (children n).flatMap below)
    (shape : ∀ h n, sourceOf h = some n → (t.childrenOf h).map sourceOf = (children n).map some)
    (met : Array Bool) (stack : List Handle) (ns : List Source.Handle)
    (sources : stack.map sourceOf = ns.map some) (once : (ns.flatMap below).Nodup)
    (fresh : ∀ h n, sourceOf h = some n → n ∈ ns.flatMap below → met[h.index]? = some false) :
    (t.meet met stack).map sourceOf = (ns.flatMap below).map some := by
  -- the sources still to come are the pre-orders of those on the stack, none of them twice; so no
  -- handle on the stack has been met before
  fun_induction meet t met stack generalizing ns with
  | case1 =>
    cases ns with
    | nil => rfl
    | cons n ns => cases sources
  | case2 met h stack here ih =>
    cases ns with
    | nil => cases sources
    | cons n ns =>
      obtain ⟨source, sources⟩ := List.cons_eq_cons.1 sources
      have split : (n :: ns).flatMap below = n :: (children n ++ ns).flatMap below := by
        rw [List.flatMap_cons, preorder, List.cons_append, List.flatMap_append]
      rw [split] at once fresh ⊢
      obtain ⟨later, once⟩ := List.nodup_cons.1 once
      rw [List.map_cons, List.map_cons, source]
      congr 1
      refine ih (children n ++ ns) ?_ once fun h' n' source' hn' => ?_
      · rw [List.map_append, List.map_append, shape h n source, sources]
      · have other : h' ≠ h := by
          rintro rfl
          exact later (Option.some.inj (source.symm.trans source') ▸ hn')
        exact (fresh_after_mark here h').2 ⟨other, fresh h' n' source' (List.mem_cons_of_mem _ hn')⟩
  | case3 met h stack old ih =>
    cases ns with
    | nil => cases sources
    | cons n ns =>
      obtain ⟨source, -⟩ := List.cons_eq_cons.1 sources
      refine absurd (fresh h n source ?_) old
      rw [List.flatMap_cons, preorder]
      exact List.mem_append_left _ (List.mem_cons_self ..)

theorem map_reachable {root : Source.Handle}
    (preorder : ∀ n, below n = n :: (children n).flatMap below)
    (shape : ∀ h n, sourceOf h = some n →
      h.index < t.size ∧ (t.childrenOf h).map sourceOf = (children n).map some)
    (top : sourceOf t.root = some root) (once : (below root).Nodup) :
    t.reachable.map sourceOf = (below root).map some := by
  have walk := map_meet preorder (fun h n source => (shape h n source).2)
    (Array.replicate t.size false) [t.root] [root] (congrArg (fun n => [n]) top)
    (by rwa [List.flatMap_singleton]) fun h n source _ => by simp [(shape h n source).1]
  rwa [List.flatMap_singleton] at walk

end Target.Tree

/-! ### The tree that is handed out -/

namespace Converter.Making

variable {τ σ : Type} [ParseTree τ] {c : Converter τ σ} {tree : τ} {s : Settings} {memory : σ}
  {conversion : Conversion} (m : c.Making tree s memory conversion)
  {children : Source.Handle → List Source.Handle}

/-- The emission that a node of the finished tree has become of. -/
theorem getElem?_yield {h' : Target.Handle} {e : Emission} :
    m.yield[h'.index]? = some e ↔
      ∃ h : Target.Handle, m.emissions[h.index]? = some e ∧ m.table[h.index]? = some (some h') := by
  rw [yield, Emission.attached, Target.Renumbering.getElem?_pick (m := 0), Nat.zero_add]
  simp only [table, Target.Tree.table, List.getElem?_toArray]
  constructor
  · rintro ⟨i, found⟩
    exact ⟨⟨i⟩, found⟩
  · rintro ⟨h, found⟩
    exact ⟨h.index, found⟩

theorem exists_table {h : Target.Handle} {n : Source.Handle}
    (found : Emission.sourceIn m.emissions h = some n)
    (below : (Emission.arena m.root m.emissions).Below m.root h) :
    ∃ h', m.table[h.index]? = some (some h') := by
  obtain ⟨e, he, -⟩ := Option.map_eq_some_iff.1 found
  have bound := (List.getElem?_eq_some_iff.1 he).1
  refine Target.Tree.exists_table.2 (Target.Tree.mem_reachable.2 ⟨?_, below⟩)
  simpa [Emission.arena, Target.Tree.size] using bound

variable (shaped : Emission.Shaped children m.emissions)

include shaped

theorem origin?_of_shaped {e : Emission} (he : e ∈ m.emissions) : e.origin? = some e.source := by
  rw [Emission.origin?, (shaped e he).1]
  rfl

theorem sourceOf_handle {h : Target.Handle} {n : Source.Handle}
    (found : Emission.sourceIn m.emissions h = some n)
    (below : (Emission.arena m.root m.emissions).Below m.root h) :
    m.origins.sourceOf (m.table.handle h) = some n := by
  obtain ⟨h', kept⟩ := m.exists_table found below
  obtain ⟨e, he, rfl⟩ := Option.map_eq_some_iff.1 found
  rw [Target.Renumbering.handle_eq kept, m.sourceOf, m.getElem?_yield.2 ⟨h, he, kept⟩]
  exact m.origin?_of_shaped shaped (List.mem_of_getElem? he)

theorem sourceOf_root {n : Source.Handle} (found : Emission.sourceIn m.emissions m.root = some n) :
    m.origins.sourceOf conversion.tree.root = some n := by
  rw [m.alike.root, Target.Tree.root_compact]
  exact m.sourceOf_handle shaped found .refl

/-- The children of a node of the finished tree are the targets of the children of its source. -/
theorem shape {h : Target.Handle} {n : Source.Handle} (source : m.origins.sourceOf h = some n) :
    h.index < conversion.tree.size ∧
      (conversion.tree.childrenOf h).map m.origins.sourceOf = (children n).map some := by
  rw [m.sourceOf, Option.bind_eq_some_iff] at source
  obtain ⟨e, he, origin⟩ := source
  obtain ⟨node, hn, became⟩ := Emission.exists_became m.became he
  obtain ⟨old, hold, kept⟩ := m.getElem?_yield.1 he
  have among := List.mem_of_getElem? hold
  obtain rfl : e.source = n :=
    Option.some.inj ((m.origin?_of_shaped shaped among).symm.trans origin)
  refine ⟨Target.Tree.node?_isSome.1 (hn ▸ rfl), ?_⟩
  have reached := Target.Tree.mem_reachable.1 (Target.Tree.exists_table.1 ⟨h, kept⟩)
  have here : (Emission.arena m.root m.emissions).childrenOf old = e.node.children := by
    refine Target.Tree.childrenOf_eq ?_
    simp [Target.Tree.node?, Emission.arena, hold]
  have renamed : conversion.tree.childrenOf h = e.node.children.map m.table.handle := by
    rw [Target.Tree.childrenOf_eq hn, ← Target.Renumbering.children_node]
    exact congrArg (fun fields => fields.flatMap fun f => f.2.children) became.fields
  have sources := (shaped e among).2.2
  rw [renamed, List.map_map, ← sources]
  refine List.map_congr_left fun child hchild => ?_
  have known : Emission.sourceIn m.emissions child ∈ (children e.source).map some :=
    sources ▸ List.mem_map_of_mem hchild
  obtain ⟨k, -, found⟩ := List.mem_map.1 known
  rw [← found]
  exact m.sourceOf_handle shaped found.symm (reached.2.tail (here ▸ hchild))

theorem failures_of_shaped : conversion.failures = [] := by
  rw [m.failures, List.filterMap_eq_nil_iff]
  exact fun e he => (shaped e (Target.Renumbering.mem_of_mem_pick he)).2.1

end Converter.Making

/-! ### Order and shape -/

namespace Converter

/-- The nodes of a finished tree stand for the nodes of a parse tree that have a rule, and so has
every node above them: each for one, in the same order and of the same shape. -/
structure KeepsOrder (tree : Source.Tree) (known : Source.Handle → Bool) (t : Target.Tree)
    (o : Origins) : Prop where
  walk : t.reachable.map o.sourceOf = (tree.preorder known tree.root).map some
  size : t.size = (tree.preorder known tree.root).length
  children : ∀ h : Target.Handle, h.index < t.size → ∃ n, o.sourceOf h = some n ∧
    List.Forall₂ (fun m child => o.targetsOf m = [child]) ((tree.childrenOf n).filter known)
      (t.childrenOf h)

variable {σ : Type} {c : Converter Source.Tree σ} {tree : Source.Tree} {s : Settings} {memory : σ}
  {conversion : Conversion}

theorem Making.keepsOrder (m : c.Making tree s memory conversion) (forest : tree.Forest)
    (shaped : Emission.Shaped (c.job tree s).offspring m.emissions)
    (top : Emission.sourceIn m.emissions m.root = some tree.root) :
    KeepsOrder tree (c.job tree s).known conversion.tree m.origins := by
  have walk : conversion.tree.reachable.map m.origins.sourceOf =
      (tree.preorder (c.job tree s).known tree.root).map some :=
    Target.Tree.map_reachable (forest.preorder_eq _) (fun h n => m.shape shaped)
      (m.sourceOf_root shaped top) (forest.nodup_preorder _ _)
  -- the finished tree is compact: a walk meets all of its nodes
  have all (h : Target.Handle) (hh : h.index < conversion.tree.size) :
      h ∈ conversion.tree.reachable :=
    Target.Tree.mem_reachable.2 ⟨hh, m.below_root h hh⟩
  have once : (conversion.tree.reachable.map m.origins.sourceOf).Nodup :=
    walk ▸ (forest.nodup_preorder _ _).map fun _ _ => Option.some.inj
  refine ⟨walk, ?size, fun h hh => ?children⟩
  case size =>
    have nodes := (Target.Tree.perm_reachable m.below_root).length_eq
    have sources := congrArg List.length walk
    rw [List.length_map, List.length_range] at nodes
    rw [List.length_map, List.length_map] at sources
    exact nodes.symm.trans sources
  case children =>
    have found : m.origins.sourceOf h ∈ (tree.preorder (c.job tree s).known tree.root).map some :=
      walk ▸ List.mem_map_of_mem (all h hh)
    obtain ⟨n, -, source⟩ := List.mem_map.1 found
    refine ⟨n, source.symm, ?_⟩
    have children := (m.shape shaped source.symm).2
    have pairs : List.Forall₂ (fun k child => m.origins.sourceOf child = some k)
        ((c.job tree s).offspring n) (conversion.tree.childrenOf h) := by
      have same := List.forall₂_eq_eq_eq ▸ children.symm
      rw [List.forall₂_map_left_iff, List.forall₂_map_right_iff] at same
      exact same.imp fun _ _ => Eq.symm
    refine pairs.imp fun k child source => ?_
    -- no other node has this source
    have only (other : Target.Handle) : other ∈ m.origins.targetsOf k ↔ other = child := by
      rw [m.fits.mem_targetsOf]
      constructor
      · intro same
        exact List.inj_on_of_nodup_map once (all other (m.shape shaped same).1)
          (all child (m.shape shaped source).1) (same.trans source.symm)
      · rintro rfl
        exact source
    have nodup : (m.origins.targetsOf k).Nodup :=
      (m.fits.targetsOf_ascending k).imp fun less => by
        rintro rfl
        exact Nat.lt_irrefl _ less
    exact List.perm_singleton.1 ((List.perm_ext_iff_of_nodup nodup (List.nodup_singleton child)).2
      fun other => (only other).trans List.mem_singleton.symm)

/-- The root is converted to a node, and all that has grown is attached to it. -/
theorem takes_of_grown (accepts : c.Accepts tree s) (forest : tree.Forest)
    (asked : s.origins = true) {course : Course} {hs : List Target.Handle} {w : Workspace σ}
    {new : List Emission} (grown : (c.job tree s).Grown (.convert tree.root .done)
      (begun tree memory) [] [tree.root] course hs w new) :
    ∃ report conversion o, c.Takes tree s memory course report ∧ report.outcome = .ok conversion ∧
      conversion.failures = [] ∧ conversion.origins = some o ∧
      KeepsOrder tree (c.job tree s).known conversion.tree o := by
  have sources := grown.sources
  have shaped := grown.shaped
  rw [List.nil_append] at sources shaped
  obtain ⟨h, rfl⟩ : ∃ h, hs = [h] :=
    List.length_eq_one_iff.1 (by simpa using congrArg List.length sources)
  have runs := grown.runs tree.root
  let m : c.Making tree s memory (c.finish s (c.job tree s).lines (w.harvest h)).1 :=
    ⟨course, h, w, runs, rfl⟩
  have emissions : m.emissions = new := grown.emissions tree.root
  rw [← emissions] at shaped sources
  have top : Emission.sourceIn m.emissions m.root = some tree.root :=
    (List.cons_eq_cons.1 sources).1
  exact ⟨_, _, m.origins, ⟨accepts, _, _, rfl, runs⟩, rfl, m.failures_of_shaped shaped,
    m.origins_eq asked, m.keepsOrder forest shaped top⟩

/-- Conversions by structural rules.  Where nodes without a rule may be left out, the rules run in
pre-order and the finished tree has the order and shape of the nodes that they ran for.  Where they
may not, all descendants of the root must have a rule, and the first that has none is reported. -/
theorem order_kept {b : Source.Builder} (built : b.Built) (clear : b.diagnostics = [])
    {root : Source.Handle} (present : root.index < b.nodes.size) (memory : σ)
    (fine : c.problem? s = none) (asked : s.origins = true)
    (structural : ∀ kind rule, c.rules.find? kind = some rule → rule.Structural) :
    let tree := b.finish root
    let known := (c.job tree s).known
    (s.failOnUnknown = false → known root = true →
      ∃ course report conversion o, c.Ends tree s memory report ∧
        c.Takes tree s memory course report ∧ report.outcome = .ok conversion ∧
        conversion.failures = [] ∧ conversion.origins = some o ∧
        course.started = tree.preorder known root ∧ KeepsOrder tree known conversion.tree o ∧
        (tree.preorder known root).Sublist tree.descendants ∧
        ∀ n, n ∈ tree.preorder known root ↔ tree.Leads known root n) ∧
    (s.failOnUnknown = true → ∃ report, c.Ends tree s memory report ∧
      ((∃ conversion, report.outcome = .ok conversion) ↔ ∀ n ∈ tree.descendants, known n = true) ∧
      ∀ n, (tree.descendants.find? fun n => !known n) = some n →
        report.outcome = .error (.unknownKind (ParseTree.kind tree n)
          ((LineTable.ofText tree.text).position (ParseTree.span tree n).start))) := by
  intro tree known
  have forest : tree.Forest := built.forest root
  have accepts : c.Accepts tree s := ⟨fine, clear⟩
  have all : tree.descendants = tree.preorder (fun _ => true) root := forest.descendants_eq present
  have goes : (c.job tree s).Goes (.convert root .done) (begun tree memory) [] [root] :=
    Job.goes forest structural root (begun tree memory) [] rfl
      fun e he => absurd he List.not_mem_nil
  constructor
  · intro lenient hroot
    have free : (c.job tree s).blocked [root] = none := by
      rw [Job.blocked, show (c.job tree s).settings.failOnUnknown = false from lenient]
      rfl
    cases goes with
    | stopped blocked => cases free.symm.trans blocked
    | @grown course hs w new _ grown =>
      have one : [root].filter known = [root] := List.filter_cons_of_pos hroot
      rw [one] at grown
      obtain ⟨report, conversion, o, takes, ok, failures, origins, keeps⟩ :=
        takes_of_grown accepts forest asked grown
      have started := grown.started
      rw [List.flatMap_singleton] at started
      exact ⟨course, report, conversion, o, takes.ends, takes, ok, failures, origins, started, keeps,
        all ▸ forest.preorder_sublist known root, fun n => forest.mem_preorder⟩
  · intro strict
    have first : (c.job tree s).blocked [root] = tree.descendants.find? fun n => !known n := by
      rw [Job.blocked, show (c.job tree s).settings.failOnUnknown = true from strict, if_pos rfl,
        List.flatMap_singleton, all]
      rfl
    cases goes with
    | @stopped refused course w blocked runs =>
      have found := first.symm.trans blocked
      have takes : c.Takes tree s memory course _ := ⟨accepts, _, _, rfl, runs root⟩
      refine ⟨_, takes.ends, ?_, fun n hn => ?_⟩
      · constructor
        · rintro ⟨conversion, ok⟩
          cases ok
        · intro every
          have unknown := List.find?_some found
          rw [every refused (List.mem_of_find?_eq_some found)] at unknown
          cases unknown
      · cases found.symm.trans hn
        rfl
    | @grown course hs w new free grown =>
      have every : ∀ n ∈ tree.descendants, known n = true := by
        simpa using List.find?_eq_none.1 (first.symm.trans free)
      have here : root ∈ tree.descendants := all ▸ forest.mem_preorder.2 .refl
      have one : [root].filter known = [root] := List.filter_cons_of_pos (every root here)
      rw [one] at grown
      obtain ⟨report, conversion, -, takes, ok, -⟩ := takes_of_grown accepts forest asked grown
      refine ⟨report, takes.ends, iff_of_true ⟨conversion, ok⟩ every, fun n hn => ?_⟩
      cases (first.symm.trans free).symm.trans hn

end Converter

/-! ### A small conversion by structural rules -/

namespace Parens

/-- The nodes of the list before they are attached. -/
def scattered : Source.Builder :=
  (((Source.Builder.ofText "(a, ?)").addNode "List" ⟨0, 6⟩ []).2.addNode "Name" ⟨1, 2⟩ []).2.addNode
    "Blot" ⟨4, 5⟩ [] |>.2

def builder : Source.Builder := (scattered.link ⟨0⟩ ⟨1⟩).link ⟨0⟩ ⟨2⟩

theorem built_builder : builder.Built := by
  have nodes : scattered.Built := .addNode (.addNode (.addNode (.ofText _) ..) ..) ..
  exact (nodes.attach ⟨0⟩ ⟨1⟩).attach ⟨0⟩ ⟨2⟩

/-- Wraps what comes of the children of a node. -/
def wrap : Rule Source.Tree Unit := fun tree node =>
  (Action.convertChildren tree node).bind (Rule.enclose fun hs =>
    .done ⟨ParseTree.kind tree node, [("items", .nodes hs)], .source, false⟩)

theorem structural_wrap : wrap.Structural := by
  intro tree node
  refine ⟨Unit, .done (),
    fun _ hs => .done ⟨ParseTree.kind tree node, [("items", .nodes hs)], .source, false⟩, trivial,
    fun _ hs => ?_, rfl⟩
  exact ⟨rfl, [], "items", [], rfl, fun _ hf => absurd hf List.not_mem_nil⟩

def wrapping : Converter Source.Tree Unit :=
  ⟨(Rulebook.empty.insert "List" wrap).insert "Name" wrap, none, none⟩

theorem structural_wrapping :
    ∀ kind rule, wrapping.rules.find? kind = some rule → rule.Structural :=
  Rulebook.forall_insert (Rulebook.forall_insert Rulebook.forall_empty structural_wrap)
    structural_wrap

def strict : Settings := { Settings.standard with failOnUnknown := true }

theorem contains_wrapping (kind : String) :
    wrapping.rules.contains kind = ("Name" == kind || "List" == kind) := by
  simp [wrapping, Rulebook.contains, Rulebook.insert, Rulebook.empty, Std.HashMap.contains_insert]

theorem known_wrapping (s : Settings) : (wrapping.job (builder.finish ⟨0⟩) s).known =
    fun n => "Name" == ParseTree.kind tree n || "List" == ParseTree.kind tree n :=
  funext fun _ => contains_wrapping _

end Parens

theorem Converter.order_kept_parens :
    Parens.builder.Built ∧ Parens.wrapping.problem? .standard = none ∧
    (∃ course report conversion o,
      Parens.wrapping.Ends (Parens.builder.finish ⟨0⟩) .standard () report ∧
      Parens.wrapping.Takes (Parens.builder.finish ⟨0⟩) .standard () course report ∧
      report.outcome = .ok conversion ∧ conversion.origins = some o ∧
      course.started = [⟨0⟩, ⟨1⟩] ∧ conversion.tree.size = 2) ∧
    ∃ report,
      Parens.wrapping.Ends (Parens.builder.finish ⟨0⟩) Parens.strict () report ∧
      report.outcome =
        .error (.unknownKind "Blot" ((LineTable.ofText Parens.tree.text).position 4)) := by
  have built := Parens.built_builder
  have present : (⟨0⟩ : Source.Handle).index < Parens.builder.nodes.size := by decide
  have structural := Parens.structural_wrapping
  refine ⟨built, by decide, ?lenient, ?strict⟩
  case lenient =>
    have kept := order_kept (s := .standard) built rfl present () (by decide) rfl structural
    simp only [Parens.known_wrapping] at kept
    obtain ⟨course, report, conversion, o, ends, takes, ok, -, origins, started, keeps, -⟩ :=
      kept.1 rfl (by decide)
    exact ⟨course, report, conversion, o, ends, takes, ok, origins, started, keeps.size⟩
  case strict =>
    have kept := order_kept (s := Parens.strict) built rfl present () (by decide) rfl structural
    simp only [Parens.known_wrapping] at kept
    obtain ⟨report, ends, -, first⟩ := kept.2 rfl
    exact ⟨report, ends, first ⟨2⟩ (by decide)⟩

end TreeConversion
