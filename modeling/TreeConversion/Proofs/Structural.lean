import TreeConversion.Proofs.Emissions
import TreeConversion.Proofs.Preorder
import TreeConversion.Proofs.Verdict

/-!
# Structural rules

A structural rule has the children of its node converted and emits one node that holds what comes of
them (`Rule.Structural`).  With such rules only, the nodes that have a rule are converted in
pre-order, and each is converted to a node that has just the targets of its children for its children
(`Job.Grown`); or else the engine stops at the first node in pre-order that is refused
(`Job.goes`).
-/

namespace TreeConversion

variable {σ α : Type}

/-! ### Programs that only ask -/

/-- The program neither emits nor converts, and whatever it comes to is as given. -/
def Action.Asks (P : α → Prop) : Action σ α → Prop
  | .done result => P result
  | .emit _ _ => False
  | .convert _ _ => False
  | .look _ next => ∀ node, (next node).Asks P
  | .current next => ∀ node, (next node).Asks P
  | .settings next => ∀ s, (next s).Asks P
  | .position _ next => ∀ p, (next p).Asks P
  | .load next => ∀ m, (next m).Asks P
  | .store _ next => next.Asks P

theorem Action.Asks.runs {τ : Type} [ParseTree τ] {a : Action σ α} {P : α → Prop} (asks : a.Asks P)
    (job : Job τ σ) (node : Source.Handle) (w : Workspace σ) :
    ∃ result memory, P result ∧ job.Runs node a w .ended result { w with memory } := by
  induction a generalizing w with
  | done result => exact ⟨result, w.memory, asks, .done result w⟩
  | emit draft next => cases asks
  | convert m next => cases asks
  | look h next ih =>
    obtain ⟨result, memory, holds, goes⟩ := ih _ (asks (w.node? h)) w
    exact ⟨result, memory, holds, .look goes⟩
  | current next ih =>
    obtain ⟨result, memory, holds, goes⟩ := ih _ (asks node) w
    exact ⟨result, memory, holds, .current goes⟩
  | settings next ih =>
    obtain ⟨result, memory, holds, goes⟩ := ih _ (asks job.settings) w
    exact ⟨result, memory, holds, .settings goes⟩
  | position m next ih =>
    obtain ⟨result, memory, holds, goes⟩ := ih _ (asks (job.positionOf m)) w
    exact ⟨result, memory, holds, .position goes⟩
  | load next ih =>
    obtain ⟨result, memory, holds, goes⟩ := ih _ (asks w.memory) w
    exact ⟨result, memory, holds, .load goes⟩
  | store m next ih =>
    obtain ⟨result, memory, holds, goes⟩ := ih asks { w with memory := m }
    exact ⟨result, memory, holds, .store goes⟩

/-! ### Structural rules -/

/-- The draft is of a node that stands for its source node and holds these children in one of its
fields; the other fields hold values. -/
structure Draft.Holds (d : Draft) (hs : List Target.Handle) : Prop where
  synthetic : d.synthetic = false
  fields : ∃ before name after, d.fields = before ++ (name, .nodes hs) :: after ∧
    ∀ f ∈ before ++ after, ∃ v, f.2 = .value v

theorem Draft.Holds.children {d : Draft} {hs : List Target.Handle} (holds : d.Holds hs) :
    d.children = hs := by
  obtain ⟨-, before, name, after, fields, values⟩ := holds
  have none {fs : List (String × Target.Field)} (values : ∀ f ∈ fs, ∃ v, f.2 = .value v) :
      (fs.flatMap fun f => f.2.children) = [] := by
    refine List.flatMap_eq_nil_iff.2 fun f hf => ?_
    obtain ⟨v, hv⟩ := values f hf
    rw [hv]
    rfl
  rw [Draft.children, fields, List.flatMap_append, List.flatMap_cons,
    none fun f hf => values f (List.mem_append_left _ hf),
    none fun f hf => values f (List.mem_append_right _ hf), List.append_nil]
  rfl

/-- The rest of a structural rule, once the children are converted: a failure is handed on, and else
a node is emitted that holds what has come of the children. -/
def Rule.enclose (draft : List Target.Handle → Action σ Draft) :
    Converted → Action σ (Except Stop (List Target.Handle))
  | .error failure => .done (.error (.aborted failure))
  | .ok hs => (draft hs).bind fun d => .emit d fun h => .done (.ok [h])

/-- The rule has the children of its node converted and emits one node that holds what comes of
them.  What else is in the node may depend on all that a rule can ask for. -/
def Rule.Structural {τ : Type} [ParseTree τ] (rule : Rule τ σ) : Prop :=
  ∀ tree node, ∃ (β : Type) (before : Action σ β)
    (draft : β → List Target.Handle → Action σ Draft), before.Asks (fun _ => True) ∧
      (∀ x hs, (draft x hs).Asks fun d => d.Holds hs) ∧
      rule tree node =
        before.bind fun x => (Action.convertChildren tree node).bind (Rule.enclose (draft x))

/-! ### What has grown -/

namespace Course

/-- The source nodes whose rules were started, in this order. -/
def started : Course → List Source.Handle
  | ended => []
  | emitted _ _ _ rest => rest.started
  | skipped _ rest => rest.started
  | converted node inner _ _ rest => node :: (inner.started ++ rest.started)

theorem started_append (course later : Course) :
    (course.append later).started = course.started ++ later.started := by
  induction course with
  | ended => rfl
  | emitted _ _ _ _ ih => exact ih
  | skipped _ _ ih => exact ih
  | converted node inner _ _ rest _ ih =>
    rw [append, started, started, ih, List.cons_append, List.append_assoc]

theorem emissions_append {τ : Type} [ParseTree τ] (job : Job τ σ) (source : Source.Handle)
    (course later : Course) : (course.append later).emissions job source =
      course.emissions job source ++ later.emissions job source := by
  induction course with
  | ended => rfl
  | emitted draft _ node rest ih => rw [append, emissions, emissions, ih, List.cons_append]
  | skipped _ _ ih => exact ih
  | converted node inner outcome _ rest _ ih =>
    rw [append, emissions, emissions, ih, List.append_assoc]

end Course

namespace Emission

/-- The source node of the emission that a handle points to. -/
def sourceIn (es : List Emission) (h : Target.Handle) : Option Source.Handle :=
  (es[h.index]?).map source

/-- Every emission stands for its source node, is no placeholder, and has for its children, in order,
emissions of the given children of its source node. -/
def Shaped (children : Source.Handle → List Source.Handle) (es : List Emission) : Prop :=
  ∀ e ∈ es, e.node.synthetic = false ∧ e.failure = none ∧
    e.node.children.map (sourceIn es) = (children e.source).map some

variable {es new : List Emission} {children : Source.Handle → List Source.Handle}

theorem sourceIn_append {h : Target.Handle} {n : Source.Handle} (found : sourceIn es h = some n)
    (new : List Emission) : sourceIn (es ++ new) h = some n := by
  obtain ⟨e, he, rfl⟩ := Option.map_eq_some_iff.1 found
  have bound := (List.getElem?_eq_some_iff.1 he).1
  rw [sourceIn, List.getElem?_append_left bound, he]
  rfl

theorem map_sourceIn_append {hs : List Target.Handle} {ns : List Source.Handle}
    (found : hs.map (sourceIn es) = ns.map some) (new : List Emission) :
    hs.map (sourceIn (es ++ new)) = ns.map some := by
  induction hs generalizing ns with
  | nil => exact found
  | cons h hs ih =>
    cases ns with
    | nil => cases found
    | cons n ns =>
      obtain ⟨head, tail⟩ := List.cons_eq_cons.1 found
      rw [List.map_cons, List.map_cons, sourceIn_append head, ih tail]

theorem sourceIn_last (es : List Emission) (e : Emission) :
    sourceIn (es ++ [e]) ⟨es.length⟩ = some e.source := by
  rw [sourceIn, List.getElem?_append_right (Nat.le_refl _), Nat.sub_self]
  rfl

theorem Shaped.concat (shaped : Shaped children es) {e : Emission}
    (synthetic : e.node.synthetic = false) (failure : e.failure = none)
    (found : e.node.children.map (sourceIn es) = (children e.source).map some) :
    Shaped children (es ++ [e]) := by
  intro e' he'
  rcases List.mem_append.1 he' with he' | he'
  · obtain ⟨synthetic, failure, found⟩ := shaped e' he'
    exact ⟨synthetic, failure, map_sourceIn_append found _⟩
  · rw [List.mem_singleton.1 he']
    exact ⟨synthetic, failure, map_sourceIn_append found _⟩

end Emission

namespace Job

/-- Whether there is a rule for a node. -/
def known {τ : Type} [ParseTree τ] (job : Job τ σ) (n : Source.Handle) : Bool :=
  job.rules.contains (ParseTree.kind job.tree n)

variable (job : Job Source.Tree σ)

/-- The children of a node that have a rule. -/
def offspring (n : Source.Handle) : List Source.Handle := (job.tree.childrenOf n).filter job.known

/-- Run from a state with the emissions `es`, the program has given a node for each of the nodes
`tops`, and the rules for what is below these have been started in pre-order. -/
structure Grown (a : Action σ Converted) (w : Workspace σ) (es : List Emission)
    (tops : List Source.Handle) (course : Course) (hs : List Target.Handle) (w' : Workspace σ)
    (new : List Emission) : Prop where
  runs : ∀ node, job.Runs node a w course (.ok hs) w'
  started : course.started = tops.flatMap (job.tree.preorder job.known)
  emissions : ∀ node, course.emissions job node = new
  size : w'.nodes.size = (es ++ new).length
  shaped : Emission.Shaped job.offspring (es ++ new)
  sources : hs.map (Emission.sourceIn (es ++ new)) = tops.map some

/-- The first node without a rule at these nodes or below them, if it may not be left out. -/
def blocked (ns : List Source.Handle) : Option Source.Handle :=
  if job.settings.failOnUnknown then
    (ns.flatMap (job.tree.preorder fun _ => true)).find? fun n => !job.known n
  else none

/-- The program converts these nodes as structural rules do. -/
inductive Goes (a : Action σ Converted) (w : Workspace σ) (es : List Emission)
    (ns : List Source.Handle) : Prop
  | grown {course : Course} {hs : List Target.Handle} {w' : Workspace σ} {new : List Emission}
    (free : job.blocked ns = none)
    (grown : job.Grown a w es (ns.filter job.known) course hs w' new) : Goes a w es ns
  | stopped {n : Source.Handle} {course : Course} {w' : Workspace σ}
    (blocked : job.blocked ns = some n)
    (runs : ∀ node, job.Runs node a w course (.error (job.unknownFailure n)) w') : Goes a w es ns

variable {job}

theorem blocked_append (ns ms : List Source.Handle) :
    job.blocked (ns ++ ms) = (job.blocked ns).or (job.blocked ms) := by
  unfold blocked
  split
  · rw [List.flatMap_append, List.find?_append]
  · rfl

theorem blocked_of_known (forest : job.tree.Forest) {n : Source.Handle}
    (known : job.known n = true) : job.blocked [n] = job.blocked (job.tree.childrenOf n) := by
  unfold blocked
  rw [List.flatMap_singleton, forest.preorder_eq, List.filter_true, List.find?_cons, known]
  rfl

theorem blocked_of_unknown (forest : job.tree.Forest) {n : Source.Handle}
    (unknown : job.known n = false) :
    job.blocked [n] = if job.settings.failOnUnknown then some n else none := by
  unfold blocked
  rw [List.flatMap_singleton, forest.preorder_eq, List.find?_cons, unknown]
  rfl

theorem blocked_nil : job.blocked [] = none := by
  unfold blocked
  split <;> rfl

variable {w : Workspace σ} {es : List Emission}

/-! ### Lists of nodes -/

theorem Runs.cons_error {node m : Source.Handle} {w w' : Workspace σ} {course : Course}
    {failure : Failure} (first : job.Runs node (.convert m .done) w course (.error failure) w')
    (rest : List Source.Handle) :
    job.Runs node (.convertAll (m :: rest)) w course (.error failure) w' := by
  rw [← course.append_ended]
  exact first.bind _ (.done _ _)

theorem Runs.cons_ok_error {node m : Source.Handle} {rest : List Source.Handle}
    {w w' w'' : Workspace σ} {course course' : Course} {hs : List Target.Handle} {failure : Failure}
    (first : job.Runs node (.convert m .done) w course (.ok hs) w')
    (later : job.Runs node (.convertAll rest) w' course' (.error failure) w'') :
    job.Runs node (.convertAll (m :: rest)) w (course.append course') (.error failure) w'' := by
  rw [← course'.append_ended]
  refine first.bind _ ?_
  exact later.bind _ (.done _ _)

theorem Runs.cons_ok {node m : Source.Handle} {rest : List Source.Handle} {w w' w'' : Workspace σ}
    {course course' : Course} {hs hs' : List Target.Handle}
    (first : job.Runs node (.convert m .done) w course (.ok hs) w')
    (later : job.Runs node (.convertAll rest) w' course' (.ok hs') w'') :
    job.Runs node (.convertAll (m :: rest)) w (course.append course') (.ok (hs ++ hs')) w'' := by
  rw [← course'.append_ended]
  refine first.bind _ ?_
  exact later.bind _ (.done _ _)

/-- What a list of nodes gives is what the first gives and then what the others give. -/
theorem Grown.cons {m : Source.Handle} {rest : List Source.Handle} {tops tops' : List Source.Handle}
    {course course' : Course} {hs hs' : List Target.Handle} {w' w'' : Workspace σ}
    {new new' : List Emission} (first : job.Grown (.convert m .done) w es tops course hs w' new)
    (later : job.Grown (.convertAll rest) w' (es ++ new) tops' course' hs' w'' new') :
    job.Grown (.convertAll (m :: rest)) w es (tops ++ tops') (course.append course') (hs ++ hs') w''
      (new ++ new') where
  runs node := (first.runs node).cons_ok (later.runs node)
  started := by
    rw [Course.started_append, first.started, later.started, List.flatMap_append]
  emissions node := by rw [Course.emissions_append, first.emissions, later.emissions]
  size := by rw [later.size, List.append_assoc]
  shaped := List.append_assoc es new new' ▸ later.shaped
  sources := by
    have kept := Emission.map_sourceIn_append first.sources new'
    rw [List.map_append, List.map_append, ← List.append_assoc, kept, later.sources]

theorem goes_convertAll {ns : List Source.Handle}
    (each : ∀ n ∈ ns, ∀ w es, w.nodes.size = es.length → Emission.Shaped job.offspring es →
      job.Goes (.convert n .done) w es [n])
    (size : w.nodes.size = es.length) (shaped : Emission.Shaped job.offspring es) :
    job.Goes (.convertAll ns) w es ns := by
  induction ns generalizing w es with
  | nil =>
    have nothing : job.Grown (.convertAll []) w es [] .ended [] w [] := by
      refine ⟨fun _ => .done _ _, rfl, fun _ => rfl, ?_, ?_, rfl⟩
      · rw [List.append_nil, size]
      · rwa [List.append_nil]
    exact .grown blocked_nil nothing
  | cons m rest ih =>
    have split := job.blocked_append [m] rest
    rw [List.singleton_append] at split
    cases each m (List.mem_cons_self ..) w es size shaped with
    | stopped blocked runs =>
      rw [blocked, Option.some_or] at split
      exact .stopped split fun node => (runs node).cons_error rest
    | grown free first =>
      rw [free, Option.none_or] at split
      have after := ih (fun n hn => each n (List.mem_cons_of_mem _ hn)) first.size first.shaped
      cases after with
      | stopped blocked runs =>
        exact .stopped (split.trans blocked) fun node => (first.runs node).cons_ok_error (runs node)
      | grown free' later =>
        have both := first.cons later
        rw [← List.filter_append, List.singleton_append] at both
        exact .grown (split.trans free') both

/-! ### Nodes -/

theorem Runs.of_skip {n : Source.Handle} (none : job.rules.find? (ParseTree.kind job.tree n) = none)
    (node : Source.Handle) (w : Workspace σ) :
    job.Runs node (.convert n .done) w (.skipped n .ended) (job.skip n w).1 (job.skip n w).2 :=
  .skip none (.done _ _)

theorem Grown.of_skip {n : Source.Handle} (none : job.rules.find? (ParseTree.kind job.tree n) = none)
    (lenient : job.settings.failOnUnknown = false) (size : w.nodes.size = es.length)
    (shaped : Emission.Shaped job.offspring es) :
    job.Grown (.convert n .done) w es [] (.skipped n .ended) [] (job.skip n w).2 [] where
  runs node := by
    have skipped := Runs.of_skip none node w
    rwa [fst_skip_of_lenient lenient] at skipped
  started := rfl
  emissions _ := rfl
  size := by
    obtain ⟨warned, log, same, -⟩ := job.skip_eq n w
    rw [same, List.append_nil, size]
  shaped := by rwa [List.append_nil]
  sources := rfl

/-- A node without a rule is left out, or the engine stops at it. -/
theorem goes_of_unknown (forest : job.tree.Forest) {n : Source.Handle}
    (found : job.rules.find? (ParseTree.kind job.tree n) = none) (size : w.nodes.size = es.length)
    (shaped : Emission.Shaped job.offspring es) : job.Goes (.convert n .done) w es [n] := by
  have unknown : job.known n = false := by
    rw [known, Bool.eq_false_iff, ne_eq, Rulebook.contains_iff, found]
    rintro ⟨rule, none⟩
    cases none
  have blocked := blocked_of_unknown forest unknown
  cases strict : job.settings.failOnUnknown with
  | false =>
    rw [strict] at blocked
    have skipped := Grown.of_skip found strict size shaped
    have none : [n].filter job.known = [] := by simp [unknown]
    rw [← none] at skipped
    exact .grown blocked skipped
  | true =>
    rw [strict] at blocked
    have skipped (node : Source.Handle) := Runs.of_skip found node w
    have refused : (job.skip n w).1 = .error (job.unknownFailure n) := by
      simp only [skip, strict, if_true]
      rfl
    rw [refused] at skipped
    exact .stopped blocked skipped

/-- How a structural rule runs, once it is known what comes of the children of its node. -/
theorem exists_runs_structural (job : Job Source.Tree σ) (n : Source.Handle)
    {rule : Rule Source.Tree σ} (structural : rule.Structural) (w : Workspace σ) :
    ∃ memory, ∀ course w',
      (∀ failure, job.Runs n (.convertAll (job.tree.childrenOf n))
          { w with current := n, memory } course (.error failure) w' →
        job.Runs n (rule job.tree n) { w with current := n } course (.error (.aborted failure)) w') ∧
      ∀ hs, job.Runs n (.convertAll (job.tree.childrenOf n))
          { w with current := n, memory } course (.ok hs) w' →
        ∃ (d : Draft) (v : Workspace σ), d.Holds hs ∧ v.nodes = w'.nodes ∧
          job.Runs n (rule job.tree n) { w with current := n }
            (course.append (.emitted d ⟨w'.nodes.size⟩ (job.made n d v) .ended))
            (.ok [⟨w'.nodes.size⟩]) (job.emitFor n d v).2 := by
  obtain ⟨β, before, draft, asks, drafts, shape⟩ := structural job.tree n
  -- what is asked for before the children can change nothing but the memory
  obtain ⟨x, memory, -, prelude⟩ := asks.runs job n { w with current := n }
  have inside {course : Course} {w' : Workspace σ} {outcome : Except Stop (List Target.Handle)}
      (goes : job.Runs n ((Action.convertChildren job.tree n).bind (Rule.enclose (draft x)))
        { w with current := n, memory } course outcome w') :
      job.Runs n (rule job.tree n) { w with current := n } course outcome w' := by
    rw [shape]
    exact prelude.bind _ goes
  refine ⟨memory, fun course w' => ⟨fun failure goes => ?_, fun hs goes => ?_⟩⟩
  · have hands := goes.bind (Rule.enclose (draft x)) (.done _ _)
    rw [Course.append_ended] at hands
    exact inside hands
  · obtain ⟨d, memory', holds, drafting⟩ := (drafts x hs).runs job n w'
    have emitting : job.Runs n (.emit d fun h => .done (Except.ok [h] : Except Stop _))
        { w' with memory := memory' } _ _ _ := .emit (.done _ _)
    refine ⟨d, { w' with memory := memory' }, holds, rfl, inside ?_⟩
    exact goes.bind (Rule.enclose (draft x)) (drafting.bind _ emitting)

theorem Grown.enclose {n : Source.Handle} {rule : Rule Source.Tree σ} (forest : job.tree.Forest)
    (found : job.rules.find? (ParseTree.kind job.tree n) = some rule)
    {v w' : Workspace σ} {course : Course} {d : Draft} {hs : List Target.Handle}
    {new : List Emission} (holds : d.Holds hs)
    {start : Workspace σ} (children : job.Grown (.convertAll (job.tree.childrenOf n)) start es
      (job.offspring n) course hs w' new) (same : v.nodes = w'.nodes)
    (ran : job.Runs n (rule job.tree n) { w with current := n }
      (course.append (.emitted d ⟨w'.nodes.size⟩ (job.made n d v) .ended))
      (.ok [⟨w'.nodes.size⟩]) (job.emitFor n d v).2) :
    ∃ course h w' new, job.Grown (.convert n .done) w es [n] course [h] w' new := by
  let e : Emission := ⟨n, d, job.made n d v, none⟩
  refine ⟨_, _, _, new ++ [e],
    fun node => .convert found ran rfl (.done _ _), ?started, fun node => ?emissions, ?size, ?shaped,
    ?sources⟩
  case started =>
    show n :: ((course.append _).started ++ []) = _
    rw [List.flatMap_singleton, forest.preorder_eq, Course.started_append, children.started,
      List.append_nil]
    exact congrArg (n :: ·) (List.append_nil _)
  case emissions =>
    show (course.append _).emissions job n ++ [] = _
    rw [List.append_nil, Course.emissions_append, children.emissions]
    rfl
  case size =>
    show (v.nodes.push _).size = _
    have counted : (es ++ new ++ [e]).length = (es ++ new).length + 1 := List.length_append
    rw [Array.size_push, same, children.size, ← List.append_assoc, counted]
  case shaped =>
    rw [← List.append_assoc]
    refine children.shaped.concat holds.synthetic rfl ?_
    show d.children.map _ = _
    rw [holds.children]
    exact children.sources
  case sources =>
    rw [← List.append_assoc, List.map_singleton, children.size, Emission.sourceIn_last]
    rfl

/-- With structural rules only, every node is converted as it should be. -/
theorem goes (forest : job.tree.Forest)
    (structural : ∀ kind rule, job.rules.find? kind = some rule → rule.Structural)
    (n : Source.Handle) : ∀ w es, w.nodes.size = es.length → Emission.Shaped job.offspring es →
      job.Goes (.convert n .done) w es [n] := by
  induction n using forest.induction with
  | step n ih =>
    intro w es size shaped
    cases found : job.rules.find? (ParseTree.kind job.tree n) with
    | none => exact goes_of_unknown forest found size shaped
    | some rule =>
      have known : job.known n = true := Rulebook.contains_iff.2 ⟨rule, found⟩
      have blocked := blocked_of_known forest known
      obtain ⟨memory, runs⟩ := job.exists_runs_structural n (structural _ rule found) w
      -- the emissions before `n` stay what they are while its children are converted
      have children : job.Goes (.convertAll (job.tree.childrenOf n))
          { w with current := n, memory } es (job.tree.childrenOf n) :=
        goes_convertAll ih size shaped
      cases children with
      | stopped blocked' stops =>
        have ran := (runs _ _).1 _ (stops n)
        exact .stopped (blocked.trans blocked') fun node => .convert found ran rfl (.done _ _)
      | grown free grown =>
        obtain ⟨d, v, holds, same, ran⟩ := (runs _ _).2 _ (grown.runs n)
        obtain ⟨course, h, w', new, whole⟩ := grown.enclose forest found holds same ran
        have all : [n].filter job.known = [n] := by simp [known]
        rw [← all] at whole
        exact .grown (blocked.trans free) whole

end Job

end TreeConversion
