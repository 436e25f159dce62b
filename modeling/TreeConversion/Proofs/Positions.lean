import TreeConversion.Proofs.Ownership
import TreeConversion.Proofs.Projection

/-!
# Where nodes stand

The span of a node is settled when the node is emitted, from the spans that its children have by
then.  Children come before their parents (`Job.Laid`), and while a rule runs no handle that it can
know of is taken back, so in the finished tree the children still have these spans
(`Converter.positions_cohere`).
-/

namespace TreeConversion

variable {τ σ α : Type} [ParseTree τ]

/-! ### Spans -/

theorem Span.foldl_union (s : Span) (rest : List Span) : rest.foldl union s =
    ⟨(rest.map start).foldl min s.start, (rest.map stop).foldl max s.stop⟩ := by
  induction rest generalizing s with
  | nil => rfl
  | cons t rest ih =>
    rw [List.foldl_cons, ih]
    rfl

theorem Span.min?_max?_cover {spans : List Span} {span : Span} (h : cover spans = some span) :
    (spans.map start).min? = some span.start ∧ (spans.map stop).max? = some span.stop := by
  cases spans with
  | nil => cases h
  | cons s rest =>
    obtain rfl := Option.some.inj h
    rw [foldl_union, List.map_cons, List.map_cons, List.min?_cons', List.max?_cons']
    exact ⟨rfl, rfl⟩

/-- The span of a node that a draft gives, where `here` is the span of its source node and `spans` are
those of its children. -/
inductive Draft.Spans (d : Draft) (here : Span) (spans : List Span) : Span → Prop
  | given {span : Span} (asked : d.span = .given span) : Spans d here spans span
  | children {span : Span} (asked : d.span = .children)
    (start : (spans.map Span.start).min? = some span.start)
    (stop : (spans.map Span.stop).max? = some span.stop) : Spans d here spans span
  | source (asked : d.span = .source ∨ d.span = .children ∧ spans = []) : Spans d here spans here

theorem Workspace.spans_spanOf {w : Workspace σ} {d : Draft} {spans : List Span}
    (carried : d.children.map (fun c => (w.node? c).bind fun n => n.span) = spans.map some)
    (here : Span) : d.Spans here spans (w.spanOf here d) := by
  have found : d.children.filterMap (fun c => (w.node? c).bind fun n => n.span) = spans := by
    have kept : (spans.map some).filterMap id = spans := by
      rw [List.filterMap_map]
      exact List.filterMap_some
    rw [← kept, ← carried, List.filterMap_map]
    rfl
  unfold spanOf
  rw [found]
  cases asked : d.span with
  | source => exact .source (.inl asked)
  | given span => exact .given asked
  | children =>
    cases covered : Span.cover spans with
    | none =>
      cases spans with
      | nil => exact .source (.inr ⟨asked, rfl⟩)
      | cons s rest => cases covered
    | some span =>
      obtain ⟨start, stop⟩ := Span.min?_max?_cover covered
      exact .children asked start stop

namespace Emission

/-- The node stands where the draft puts it: its span is as the draft asks for, given the spans that
its children carry, and it is located by that span. -/
def Stands (e : Emission) (lines : LineTable) (here : Span)
    (carried : Target.Handle → Option Span) (node : Target.Node) : Prop :=
  ∃ span spans, node.span = some span ∧ node.location = some (lines.location span) ∧
    node.children.map carried = spans.map some ∧ e.draft.Spans here spans span

/-- The spans of the nodes that have been emitted. -/
def carried (es : List Emission) (h : Target.Handle) : Option Span :=
  (es[h.index]?).bind fun e => e.node.span

theorem carried_append {es : List Emission} {h : Target.Handle} (hh : h.index < es.length)
    (es' : List Emission) : carried (es ++ es') h = carried es h := by
  rw [carried, List.getElem?_append_left hh, carried]

/-- A handle that is known to one who has the handles `own` and can look at nodes. -/
def Known (es : List Emission) (own : List Target.Handle) (h : Target.Handle) : Prop :=
  ∃ g ∈ own, (arena g es).Below g h

end Emission

/-- What every rule on the course puts into nodes and into its result was given to it before, or it
could find it by looking at nodes; `es` has been emitted so far. -/
def Course.StaysWithin (job : Job τ σ) (source : Source.Handle) :
    Course → List Emission → List Target.Handle → Prop
  | .ended, _, _ => True
  | .emitted draft handle node rest, es, own =>
    (∀ c ∈ draft.children, Emission.Known es own c) ∧
      rest.StaysWithin job source (es ++ [⟨source, draft, node, none⟩]) (handle :: own)
  | .skipped _ rest, es, own => rest.StaysWithin job source es own
  | .converted node inner outcome answer rest, es, own =>
    (inner.StaysWithin job node es [] ∧
      ∀ h ∈ handlesIn outcome, Emission.Known (es ++ inner.emissions job node) inner.given h) ∧
    rest.StaysWithin job source (es ++ job.leaves node outcome (inner.emissions job node))
      (handlesIn answer ++ own)

theorem Course.UsesOwn.staysWithin {course : Course} {own : List Target.Handle}
    (uses : course.UsesOwn own) (job : Job τ σ) (source : Source.Handle) (es : List Emission) :
    course.StaysWithin job source es own := by
  have known {own hs : List Target.Handle} (es : List Emission) (sub : hs ⊆ own) :
      ∀ h ∈ hs, Emission.Known es own h := fun h hh => ⟨h, sub hh, .refl⟩
  induction course generalizing source es own with
  | ended => trivial
  | emitted draft handle node rest ih => exact ⟨known es uses.1, ih uses.2 source _⟩
  | skipped node rest ih => exact ih uses source es
  | converted node inner outcome answer rest ihinner ihrest =>
    obtain ⟨⟨within, result⟩, later⟩ := uses
    exact ⟨⟨ihinner within node es, known _ result⟩, ihrest later source _⟩

/-! ### Laying out nodes -/

namespace Job

/-- Every child comes before its parents, and every node stands where its draft has put it. -/
structure Laid (job : Job τ σ) (es : List Emission) : Prop where
  older : ∀ (i : Nat) (e : Emission), es[i]? = some e → ∀ c ∈ e.node.children, c.index < i
  stands : ∀ (i : Nat) (e : Emission), es[i]? = some e →
    e.Stands job.lines (ParseTree.span job.tree e.source) (Emission.carried es) e.node

/-- A state with the emissions `es`, of which the handles `own` are known. -/
structure Keeps (job : Job τ σ) (w : Workspace σ) (es : List Emission) (own : List Target.Handle) :
    Prop where
  sound : w.Sound
  nodes : w.nodes.toList = es.map Emission.node
  laid : job.Laid es
  held : ∀ h ∈ own, h.index < es.length

variable {job : Job τ σ} {w w' after settled : Workspace σ} {es new : List Emission} {e : Emission}
  {own own' given : List Target.Handle} {node : Source.Handle} {h c : Target.Handle}

theorem Laid.nil : job.Laid [] :=
  ⟨fun i e he => by simp at he, fun i e he => by simp at he⟩

theorem Laid.concat (laid : job.Laid es) (older : ∀ c ∈ e.node.children, c.index < es.length)
    (stands : e.Stands job.lines (ParseTree.span job.tree e.source) (Emission.carried es) e.node) :
    job.Laid (es ++ [e]) := by
  have each {i : Nat} {d : Emission} (hd : (es ++ [e])[i]? = some d) :
      es[i]? = some d ∨ i = es.length ∧ d = e := by
    rw [List.getElem?_append] at hd
    split at hd
    · exact .inl hd
    · next out =>
      rw [List.getElem?_singleton] at hd
      split at hd
      · obtain rfl := Option.some.inj hd
        exact .inr ⟨by omega, rfl⟩
      · cases hd
  -- what comes later does not change the spans of older nodes
  have still {d : Emission} (older : ∀ c ∈ d.node.children, c.index < es.length)
      (stands : d.Stands job.lines (ParseTree.span job.tree d.source) (Emission.carried es) d.node) :
      d.Stands job.lines (ParseTree.span job.tree d.source) (Emission.carried (es ++ [e]))
        d.node := by
    obtain ⟨span, spans, stamped, located, carried, asked⟩ := stands
    refine ⟨span, spans, stamped, located, ?_, asked⟩
    rw [← carried]
    exact List.map_congr_left fun c hc => Emission.carried_append (older c hc) [e]
  refine ⟨fun i d hd => ?_, fun i d hd => ?_⟩
  · rcases each hd with hd | ⟨rfl, rfl⟩
    · exact laid.older i d hd
    · exact older
  · rcases each hd with hd | ⟨rfl, rfl⟩
    · have bound := (List.getElem?_eq_some_iff.1 hd).1
      refine still (fun c hc => ?_) (laid.stands i d hd)
      exact Nat.lt_trans (laid.older i d hd c hc) bound
    · exact still older stands

theorem Laid.grounded (laid : job.Laid es) (root : Target.Handle) :
    (Emission.arena root es).Grounded := by
  intro h c hc
  have bound := Target.Tree.lt_size_of_mem_childrenOf hc
  obtain ⟨node, hn⟩ := Option.isSome_iff_exists.1 (Target.Tree.node?_isSome.2 bound)
  rw [Target.Tree.childrenOf_eq hn] at hc
  rw [Emission.node?_arena, Option.map_eq_some_iff] at hn
  obtain ⟨e, he, rfl⟩ := hn
  exact laid.older _ e he c hc

namespace Keeps

theorem mono (keeps : job.Keeps w es own) (sub : own' ⊆ own) : job.Keeps w es own' :=
  ⟨keeps.sound, keeps.nodes, keeps.laid, fun h hh => keeps.held h (sub hh)⟩

theorem handOver (keeps : job.Keeps w es own) (node : Source.Handle) :
    job.Keeps { w with current := node } es own :=
  ⟨⟨keeps.sound.coherent, keeps.sound.within⟩, keeps.nodes, keeps.laid, keeps.held⟩

theorem size (keeps : job.Keeps w es own) : w.nodes.size = es.length := by
  simpa using congrArg List.length keeps.nodes

theorem of_adds_nil (keeps : job.Keeps w es own) (adds : w.Adds w' []) : job.Keeps w' es own := by
  refine ⟨adds.sound, ?_, keeps.laid, keeps.held⟩
  rw [adds.nodes, List.map_nil, List.append_nil, keeps.nodes]

/-- Handles that are known denote nodes that are there. -/
theorem lt_of_known (keeps : job.Keeps w es own) (known : Emission.Known es own h) :
    h.index < es.length := by
  obtain ⟨g, hg, below⟩ := known
  have lower := (keeps.laid.grounded g).le_of_below below
  exact Nat.lt_of_le_of_lt lower (keeps.held g hg)

theorem node? (keeps : job.Keeps w es own) (h : Target.Handle) :
    (w.node? h).bind (fun n => n.span) = Emission.carried es h := by
  rw [Workspace.node?, ← Array.getElem?_toList, keeps.nodes, List.getElem?_map, Emission.carried]
  cases es[h.index]? <;> rfl

/-- All nodes that are there have spans. -/
theorem exists_spans (keeps : job.Keeps w es own) {hs : List Target.Handle}
    (there : ∀ h ∈ hs, h.index < es.length) :
    ∃ spans : List Span, hs.map (Emission.carried es) = spans.map some := by
  induction hs with
  | nil => exact ⟨[], rfl⟩
  | cons h hs ih =>
    obtain ⟨spans, rest⟩ := ih fun h' hh => there h' (List.mem_cons_of_mem h hh)
    have he := List.getElem?_eq_getElem (there h (List.mem_cons_self ..))
    obtain ⟨span, -, stamped, -⟩ := keeps.laid.stands _ _ he
    refine ⟨span :: spans, ?_⟩
    rw [List.map_cons, List.map_cons, rest, Emission.carried, he, Option.bind_some, stamped]

/-- A node has been added whose children are there; it is known as well. -/
theorem of_adds_singleton (keeps : job.Keeps w es own) {draft : Draft} {failure : Option RuleFailure}
    (adds : w.Adds w' [⟨node, draft, job.made node draft w, failure⟩])
    (older : ∀ c ∈ draft.children, c.index < es.length) :
    job.Keeps w' (es ++ [⟨node, draft, job.made node draft w, failure⟩])
      (⟨w.nodes.size⟩ :: own) := by
  obtain ⟨spans, carried⟩ := keeps.exists_spans older
  have asked : draft.Spans (ParseTree.span job.tree node) spans
      (w.spanOf (ParseTree.span job.tree node) draft) := by
    refine Workspace.spans_spanOf ?_ _
    rw [← carried]
    exact List.map_congr_left fun c _ => keeps.node? c
  refine ⟨adds.sound, ?_, keeps.laid.concat older ⟨_, spans, rfl, rfl, carried, asked⟩,
    fun h hh => ?_⟩
  · rw [adds.nodes, keeps.nodes, List.map_append]
  · rw [List.length_append, List.length_singleton]
    rcases List.mem_cons.1 hh with rfl | hh
    · rw [keeps.size]
      exact Nat.lt_succ_self _
    · exact Nat.lt_succ_of_lt (keeps.held h hh)

theorem later (keeps : job.Keeps w es own) (keeps' : job.Keeps w' (es ++ new) own') :
    job.Keeps w' (es ++ new) (own' ++ own) := by
  refine ⟨keeps'.sound, keeps'.nodes, keeps'.laid, fun h hh => ?_⟩
  rcases List.mem_append.1 hh with hh | hh
  · exact keeps'.held h hh
  · rw [List.length_append]
    exact Nat.lt_add_right _ (keeps.held h hh)

/-- The handles in the answer for a rule that has ended are known. -/
theorem settle (keeps : job.Keeps w es own) (adds : w.Adds after new)
    (inner : job.Keeps after (es ++ new) given) {outcome : Except Stop (List Target.Handle)}
    {answer : Converted} (result : ∀ h ∈ handlesIn outcome, Emission.Known (es ++ new) given h)
    (settles : job.settle node w.checkpoint outcome after = (answer, settled)) :
    job.Keeps settled (es ++ job.leaves node outcome new) (handlesIn answer ++ own) := by
  rcases outcome with (message | failure) | produced
  · by_cases allowed : job.settings.allowInvalid = true
    · -- of the rule only its placeholder is left, which has no children
      have step := job.adds_settle keeps.sound adds node (.error (.failed message))
      have first := job.fst_settle_failed allowed keeps.sound adds node message
      rw [settles] at step first
      obtain rfl : answer = .ok [⟨w.nodes.size⟩] := first
      simp only [leaves, if_pos allowed] at step ⊢
      exact keeps.of_adds_singleton step fun c hc => absurd hc List.not_mem_nil
    · simp only [Job.settle, if_neg allowed] at settles
      obtain ⟨rfl, rfl⟩ := Prod.mk.inj settles
      simp only [leaves, if_neg allowed]
      exact keeps.later (inner.mono (List.nil_subset _))
  · obtain ⟨rfl, rfl⟩ := Prod.mk.inj settles
    exact keeps.later (inner.mono (List.nil_subset _))
  · obtain ⟨rfl, rfl⟩ := Prod.mk.inj settles
    have told := inner.of_adds_nil
      (.tell inner.sound (.converted (ParseTree.kind job.tree node) node produced.length))
    have known : ∀ h ∈ produced, h.index < (es ++ new).length := fun h hh =>
      inner.lt_of_known (result h hh)
    exact keeps.later ⟨told.sound, told.nodes, told.laid, known⟩

end Keeps

/-- A program that stays within what it knows lays out its nodes as their drafts ask. -/
theorem Runs.keeps {a : Action σ α} {course : Course} {result : α}
    (h : job.Runs node a w course result w') (stays : course.StaysWithin job node es own)
    (keeps : job.Keeps w es own) :
    job.Keeps w' (es ++ course.emissions job node) (course.given ++ own) := by
  induction h generalizing es own with
  | done => exact (List.append_nil es).symm ▸ keeps
  | @emit _ node draft _ w _ rest _ _ ih =>
    obtain ⟨known, later⟩ := stays
    have older : ∀ c ∈ draft.children, c.index < es.length := fun c hc =>
      keeps.lt_of_known (known c hc)
    have emitted := keeps.of_adds_singleton (job.adds_emit keeps.sound node draft) older
    have step := ih later emitted
    rw [List.append_assoc] at step
    exact step.mono fun h hh => by simpa [Course.given, or_left_comm] using hh
  | skip _ _ ih => exact ih stays (keeps.of_adds_nil (job.adds_skip keeps.sound _))
  | @convert _ _ m _ w after settled _ _ inner rest outcome answer _ _ ran settles _ ihran ihgoes =>
    obtain ⟨⟨within, result⟩, later⟩ := stays
    -- the rule knows no handles when it starts
    have fresh : job.Keeps { w with current := m } es [] :=
      (keeps.mono (List.nil_subset _)).handOver m
    have adds := (ran.adds fresh.sound).handBack
    have ended := (ihran within fresh).handOver w.current
    rw [List.append_nil] at ended
    have step := ihgoes later (keeps.settle adds ended result settles)
    rw [List.append_assoc] at step
    exact step.mono fun h hh => by simpa [Course.given, or_left_comm] using hh
  | store _ ih =>
    exact ih stays
      ⟨⟨keeps.sound.coherent, keeps.sound.within⟩, keeps.nodes, keeps.laid, keeps.held⟩
  | look _ ih | current _ ih | settings _ ih | position _ ih | load _ ih => exact ih stays keeps

end Job

namespace Parens

/-- The small conversion with all positions, tokens and comments. -/
theorem converts_full : ∃ depth report conversion,
    lexed.convert depth tree settings.full () = some report ∧
      report.outcome = .ok conversion := by
  obtain ⟨root, w, converted⟩ := converts_root (Converter.opening tree)
  obtain ⟨course, runs, -⟩ := Job.exists_runs_convert converted
  have full := Converter.runs_of_eq (c := lexed) (s := settings) blind_rules settings.full
    rfl rfl rfl rfl runs
  have answered := full.convert_eq rfl (Nat.le_refl course.depth)
  exact ⟨course.depth, Converter.exists_ok (by decide) rfl answered⟩

end Parens

/-! ### Finished trees -/

namespace Converter

variable {c : Converter τ σ} {depth : Nat} {tree : τ} {s : Settings} {memory : σ}
  {report : Report σ} {conversion : Conversion}

namespace Making

variable (m : c.Making tree s memory conversion)

theorem laid (stays : m.course.StaysWithin (c.job tree s) (ParseTree.root tree) [] []) :
    (c.job tree s).Laid m.emissions := by
  have begins : (c.job tree s).Keeps (begun tree memory) [] [] :=
    ⟨Workspace.sound_start _ _ _, rfl, .nil, fun _ hh => absurd hh List.not_mem_nil⟩
  exact (m.runs.keeps stays begins).laid

include m in
/-- If all positions are kept, finishing only puts tokens and comments on the root. -/
theorem tree_eq (ranges : s.ranges = true) (locations : s.locations = true) :
    conversion.tree = { (Emission.arena m.root m.emissions).compact.1 with
      tokens := (if s.tokens then c.tokens else none).map
        (Target.placeTokens (c.job tree s).lines)
      comments := (if s.comments then c.comments else none).map
        (Target.placeComments (c.job tree s).lines) } := by
  have kept (t : Target.Tree) : t.strip s.ranges s.locations = t := by
    rw [Target.Tree.strip, ranges, locations]
    rfl
  have finished := congrArg Conversion.tree m.finished
  simp only [finish, kept, m.holds.tree] at finished
  rw [finished]
  cases (if s.tokens then c.tokens else none) <;>
    cases (if s.comments then c.comments else none) <;> rfl

/-- A node that is handed out carries the span that it was emitted with. -/
theorem carried (ranges : s.ranges = true) (locations : s.locations = true)
    {h h' : Target.Handle} (hh : m.table[h.index]? = some (some h')) :
    (conversion.tree.node? h').bind (fun n => n.span) = Emission.carried m.emissions h := by
  have bound := (Target.Tree.mem_reachable.1 (Target.Tree.exists_table.1 ⟨h', hh⟩)).1
  obtain ⟨n, hn⟩ := Option.isSome_iff_exists.1 (Target.Tree.node?_isSome.2 bound)
  have node : conversion.tree.node? h' = some (m.table.node n) := by
    rw [m.tree_eq ranges locations]
    exact Target.Tree.node?_compact.2 ⟨h, n, hn, hh, rfl⟩
  rw [Emission.node?_arena, Option.map_eq_some_iff] at hn
  obtain ⟨e, he, rfl⟩ := hn
  rw [node, Emission.carried, he]
  rfl

/-- What stood where its draft had put it stands so in the finished tree. -/
theorem stands (stays : m.course.StaysWithin (c.job tree s) (ParseTree.root tree) [] [])
    (ranges : s.ranges = true) (locations : s.locations = true) {i : Nat} {e : Emission}
    (he : m.emissions[i]? = some e) {h' : Target.Handle} (hh : m.table[i]? = some (some h')) :
    e.Stands (c.job tree s).lines (ParseTree.span tree e.source)
      (fun h => (conversion.tree.node? h).bind fun n => n.span) (m.table.node e.node) := by
  have laid := m.laid stays
  obtain ⟨span, spans, stamped, located, carried, asked⟩ := laid.stands i e he
  refine ⟨span, spans, stamped, located, ?_, asked⟩
  rw [← carried, Target.Renumbering.children_node, List.map_map]
  refine List.map_congr_left fun x hx => ?_
  -- the children of a node that is kept are kept
  have child : x ∈ (Emission.arena m.root m.emissions).childrenOf ⟨i⟩ := by
    rwa [Target.Tree.childrenOf_eq (Emission.node?_of_emitted he m.root)]
  obtain ⟨bound, below⟩ := Target.Tree.mem_reachable.1
    (Target.Tree.exists_table (h := ⟨i⟩).1 ⟨h', hh⟩)
  obtain ⟨x', hx'⟩ := Target.Tree.exists_table.2 (Target.Tree.mem_reachable.2
    ⟨Nat.lt_trans (laid.older i e he x hx) bound, Relation.ReflTransGen.tail below child⟩)
  have renamed : m.table.handle x = x' := Target.Renumbering.handle_eq hx'
  rw [Function.comp_apply, renamed]
  exact m.carried ranges locations hx'

/-- The positions of a finished tree: each node stands where its draft has put it, tokens and comments
are where they were found, and all of them are located in the text of the parse tree. -/
structure Coheres (m : c.Making tree s memory conversion) (lines : LineTable) : Prop where
  nodes : List.Forall₂ (fun e node => Emission.Became m.table e node ∧
      e.Stands lines (ParseTree.span tree e.source)
        (fun h => (conversion.tree.node? h).bind fun n => n.span) node)
    m.yield conversion.tree.nodes.toList
  tokens : conversion.tree.tokens = (if s.tokens then c.tokens else none).map fun source =>
    ((source (ParseTree.text tree)).mergeSort fun a b => a.start ≤ b.start).map fun t =>
      ⟨t.kind, t.value, ⟨t.start, t.stop⟩, lines.location ⟨t.start, t.stop⟩⟩
  comments : conversion.tree.comments = (if s.comments then c.comments else none).map fun source =>
    ((source (ParseTree.text tree)).mergeSort fun a b => a.start ≤ b.start).map fun t =>
      ⟨t.style, t.text, ⟨t.start, t.stop⟩, lines.location ⟨t.start, t.stop⟩⟩

end Making

/-- If the rules that have run stayed within what they were given and could find, all positions in the
finished tree fit together. -/
theorem positions_cohere (done : c.convert depth tree s memory = some report)
    (ok : report.outcome = .ok conversion) (ranges : s.ranges = true)
    (locations : s.locations = true)
    (stays : ∀ m : c.Making tree s memory conversion,
      m.course.StaysWithin (c.job tree s) (ParseTree.root tree) [] []) :
    ∃ m : c.Making tree s memory conversion, m.Coheres (.ofText (ParseTree.text tree)) := by
  obtain ⟨m⟩ := exists_making done ok
  have eq := m.tree_eq ranges locations
  refine ⟨m, ?_, ?_, ?_⟩
  · have nodes : conversion.tree.nodes.toList = m.yield.map fun e => m.table.node e.node := by
      rw [eq]
      exact m.holds.tree ▸ m.holds.nodes
    have became := m.became
    rw [nodes, List.forall₂_map_right_iff] at became ⊢
    obtain ⟨length, each⟩ := List.forall₂_iff_get.1 became
    refine List.forall₂_iff_get.2 ⟨length, fun j hj hj' => ⟨each j hj hj', ?_⟩⟩
    have found : m.yield[j]? = some (m.yield.get ⟨j, hj⟩) := List.getElem?_eq_getElem hj
    obtain ⟨i, he, hh⟩ := (Target.Renumbering.getElem?_pick (m := 0)).1 found
    have kept : m.table[i]? = some (some ⟨0 + j⟩) := by
      simpa [Making.table, Target.Tree.table] using hh
    exact m.stands (stays m) ranges locations he kept
  · rw [eq]
    refine congrArg (fun place => Option.map place _) (funext fun source => Eq.symm ?_)
    exact List.map_mergeSort fun _ _ _ _ => rfl
  · rw [eq]
    refine congrArg (fun place => Option.map place _) (funext fun source => Eq.symm ?_)
    exact List.map_mergeSort fun _ _ _ _ => rfl

theorem positions_cohere_parens : ∃ depth report conversion,
    Parens.lexed.convert depth Parens.tree Parens.settings.full () = some report ∧
      report.outcome = .ok conversion ∧ Parens.settings.full.ranges = true ∧
      Parens.settings.full.locations = true ∧
      (∀ m : Parens.lexed.Making Parens.tree Parens.settings.full () conversion,
        m.course.StaysWithin (Parens.lexed.job Parens.tree Parens.settings.full)
          (ParseTree.root Parens.tree) [] []) ∧
      ∃ m : Parens.lexed.Making Parens.tree Parens.settings.full () conversion,
        m.Coheres (.ofText (ParseTree.text Parens.tree)) := by
  obtain ⟨depth, report, conversion, done, ok⟩ := Parens.converts_full
  have stays (m : Parens.lexed.Making Parens.tree Parens.settings.full () conversion) :
      m.course.StaysWithin (Parens.lexed.job Parens.tree Parens.settings.full)
        (ParseTree.root Parens.tree) [] [] :=
    (m.usesOwn Parens.usesOwn_rules).staysWithin _ _ _
  exact ⟨depth, report, conversion, done, ok, rfl, rfl, stays,
    positions_cohere done ok rfl rfl stays⟩

end Converter

end TreeConversion
