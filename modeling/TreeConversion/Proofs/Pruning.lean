import TreeConversion.Proofs.Warnings

/-!
# Leaving out is pruning

A lenient conversion passes over the nodes that have no rule, so it goes as it would if they were not
among the children of any node.  The two conversions are run side by side (`Job.Tallies.run`): what
one of them does more is to leave out nodes, which makes no difference to anything but the warnings
(`Job.hush_skip`).  A rule is to look at the children of a node only by having them converted, and
this is what `Action.Concurs` says of what it does on the two trees.
-/

namespace TreeConversion

open Source (Handle)

variable {τ σ α : Type} [ParseTree τ]

/-! ### Trees with fewer children -/

/-- The second tree is the first with no other children than those that are to be kept. -/
structure ParseTree.Prunes (keep : Handle → Bool) (tree tree' : τ) : Prop where
  root : ParseTree.root tree' = ParseTree.root tree
  kind : ParseTree.kind tree' = ParseTree.kind tree
  span : ParseTree.span tree' = ParseTree.span tree
  children : ∀ n, ParseTree.children tree' n = (ParseTree.children tree n).filter keep
  diagnostics : ParseTree.diagnostics tree' = ParseTree.diagnostics tree
  text : ParseTree.text tree' = ParseTree.text tree

/-- The tree with no other children than those that are to be kept. -/
def Source.Tree.prune (t : Source.Tree) (keep : Handle → Bool) : Source.Tree :=
  { t with nodes := t.nodes.map fun n => { n with children := n.children.filter keep } }

theorem Source.Tree.prunes (t : Source.Tree) (keep : Handle → Bool) :
    ParseTree.Prunes keep t (t.prune keep) := by
  have found (h : Handle) : (t.prune keep).node? h =
      (t.node? h).map fun n => { n with children := n.children.filter keep } :=
    Array.getElem?_map
  refine ⟨rfl, ?kind, ?span, ?children, rfl, rfl⟩
  case kind =>
    funext h
    show (((t.prune keep).node? h).map Source.Node.kind).getD "" = _
    rw [found, Option.map_map]
    rfl
  case span =>
    funext h
    show (((t.prune keep).node? h).map Source.Node.span).getD ⟨0, 0⟩ = _
    rw [found, Option.map_map]
    rfl
  case children =>
    intro h
    show (((t.prune keep).node? h).map Source.Node.children).getD [] = (t.childrenOf h).filter keep
    rw [found, Source.Tree.childrenOf]
    cases t.node? h <;> rfl

/-- The lists are the same, but for nodes that are only in one of them. -/
inductive Thinned (off : Handle → Prop) : List Handle → List Handle → Prop
  | nil : Thinned off [] []
  | both {ms ms' : List Handle} (m : Handle) (rest : Thinned off ms ms') :
    Thinned off (m :: ms) (m :: ms')
  | left {ms ms' : List Handle} {m : Handle} (gone : off m) (rest : Thinned off ms ms') :
    Thinned off (m :: ms) ms'
  | right {ms ms' : List Handle} {m : Handle} (gone : off m) (rest : Thinned off ms ms') :
    Thinned off ms (m :: ms')

theorem Thinned.symm {off : Handle → Prop} {ms ms' : List Handle} (thinned : Thinned off ms ms') :
    Thinned off ms' ms := by
  induction thinned with
  | nil => exact .nil
  | both m _ ih => exact .both m ih
  | left gone _ ih => exact .right gone ih
  | right gone _ ih => exact .left gone ih

theorem thinned_filter {off : Handle → Prop} {keep : Handle → Bool}
    (gone : ∀ m, keep m = false → off m) (ms : List Handle) : Thinned off ms (ms.filter keep) := by
  induction ms with
  | nil => exact .nil
  | cons m ms ih =>
    rw [List.filter_cons]
    split
    · exact .both m ih
    · next out => exact .left (gone m (eq_false_of_ne_true out)) ih

/-! ### Programs that only have children converted -/

/-- The programs ask for the same, but where one has the children that a node has in the one tree
converted, the other has those converted that it has in the other tree. -/
inductive Action.Concurs (tree tree' : τ) : Action σ α → Action σ α → Prop
  | done (result : α) : Concurs tree tree' (.done result) (.done result)
  | emit {next next' : Target.Handle → Action σ α} (draft : Draft)
    (goes : ∀ h, Concurs tree tree' (next h) (next' h)) :
    Concurs tree tree' (.emit draft next) (.emit draft next')
  | convert {next next' : Converted → Action σ α} (m : Handle)
    (goes : ∀ answer, Concurs tree tree' (next answer) (next' answer)) :
    Concurs tree tree' (.convert m next) (.convert m next')
  | children {next next' : Converted → Action σ α} (n : Handle)
    (goes : ∀ answer, Concurs tree tree' (next answer) (next' answer)) :
    Concurs tree tree' ((convertChildren tree n).bind next) ((convertChildren tree' n).bind next')
  | look {next next' : Option Target.Node → Action σ α} (h : Target.Handle)
    (goes : ∀ node, Concurs tree tree' (next node) (next' node)) :
    Concurs tree tree' (.look h next) (.look h next')
  | current {next next' : Handle → Action σ α}
    (goes : ∀ n, Concurs tree tree' (next n) (next' n)) :
    Concurs tree tree' (.current next) (.current next')
  | settings {next next' : Settings → Action σ α}
    (goes : ∀ s, Concurs tree tree' (next s) (next' s)) :
    Concurs tree tree' (.settings next) (.settings next')
  | position {next next' : Position → Action σ α} (m : Handle)
    (goes : ∀ p, Concurs tree tree' (next p) (next' p)) :
    Concurs tree tree' (.position m next) (.position m next')
  | load {next next' : σ → Action σ α} (goes : ∀ x, Concurs tree tree' (next x) (next' x)) :
    Concurs tree tree' (.load next) (.load next')
  | store {next next' : Action σ α} (memory : σ) (goes : Concurs tree tree' next next') :
    Concurs tree tree' (.store memory next) (.store memory next')

namespace Action

theorem Concurs.refl (tree tree' : τ) (a : Action σ α) : a.Concurs tree tree' a := by
  induction a with
  | done result => exact .done result
  | emit draft _ ih => exact .emit draft ih
  | convert m _ ih => exact .convert m ih
  | look h _ ih => exact .look h ih
  | current _ ih => exact .current ih
  | settings _ ih => exact .settings ih
  | position m _ ih => exact .position m ih
  | load _ ih => exact .load ih
  | store memory _ ih => exact .store memory ih

theorem Concurs.symm {tree tree' : τ} {a a' : Action σ α} (concurs : a.Concurs tree tree' a') :
    a'.Concurs tree' tree a := by
  induction concurs with
  | done result => exact .done result
  | emit draft _ ih => exact .emit draft ih
  | convert m _ ih => exact .convert m ih
  | children n _ ih => exact .children n ih
  | look h _ ih => exact .look h ih
  | current _ ih => exact .current ih
  | settings _ ih => exact .settings ih
  | position m _ ih => exact .position m ih
  | load _ ih => exact .load ih
  | store memory _ ih => exact .store memory ih

end Action

/-- The rules look at the children that a node has in the two trees only by having them converted. -/
def Rulebook.Concurs (rules : Rulebook τ σ) (tree tree' : τ) : Prop :=
  ∀ kind rule, rules.find? kind = some rule →
    ∀ n, (rule tree n).Concurs tree tree' (rule tree' n)

/-! ### What leaving out leaves alone -/

namespace Workspace

variable {w w' : Workspace σ}

omit [ParseTree τ]

/-- A state that has not told of nodes that are left out. -/
def hush (w : Workspace σ) : Workspace σ :=
  w.retell (fun _ => []) (Array.filter fun e => !e.isSkip)

theorem eq_of_hush_eq {β : Type} (same : w'.hush = w.hush) (f : Workspace σ → β)
    (blind : ∀ w, f w.hush = f w) : f w' = f w := by
  rw [← blind, same, blind]

theorem hush_congr (same : w'.hush = w.hush) (f : Workspace σ → Workspace σ)
    (commutes : ∀ w, (f w).hush = f w.hush) : (f w').hush = (f w).hush := by
  rw [commutes, same, commutes]

end Workspace

namespace Job

variable {job job' : Job τ σ} {w w' u : Workspace σ}
  {convert convert' : Handle → Workspace σ → Option (Converted × Workspace σ)}

theorem hush_skip (lenient : job.settings.failOnUnknown = false) (m : Handle) (w : Workspace σ) :
    ∃ v, job.skip m w = (.ok [], v) ∧ v.hush = w.hush := by
  have quiet := job.mirrors_quiet.skip m w
  have passed : { job with settings := { job.settings with quiet := true } }.skip m w.hush =
      (.ok [], w.hush) := by
    simp only [skip, lenient, Bool.true_or, Bool.false_eq_true, if_false, if_true]
  have silent : w.hush = (job.skip m w).2.hush := congrArg Prod.snd (passed.symm.trans quiet)
  refine ⟨(job.skip m w).2, ?_, silent.symm⟩
  rw [← fst_skip_of_lenient lenient w]

theorem hush_settle (job : Job τ σ) (node : Handle) (c : Workspace.Checkpoint)
    (outcome : Except Stop (List Target.Handle)) (same : w'.hush = w.hush) :
    ∃ v', job.settle node c outcome w' = ((job.settle node c outcome w).1, v') ∧
      v'.hush = (job.settle node c outcome w).2.hush := by
  have quiet := job.mirrors_quiet.settle node c outcome
  have settled : Prod.map id Workspace.hush (job.settle node c outcome w') =
      Prod.map id Workspace.hush (job.settle node c outcome w) := by
    refine (quiet w').symm.trans (.trans ?_ (quiet w))
    exact congrArg (Job.settle _ node c outcome) same
  obtain ⟨answered, silent⟩ := Prod.ext_iff.1 settled
  exact ⟨(job.settle node c outcome w').2, Prod.ext answered rfl, silent⟩

/-! ### Two conversions side by side -/

/-- There is no rule for the node. -/
def Unknown (job : Job τ σ) (m : Handle) : Prop :=
  job.rules.find? (ParseTree.kind job.tree m) = none

/-- The jobs are the same, but that nodes without a rule may be among the children in one of the trees
and not in the other. -/
structure Tallies (job job' : Job τ σ) : Prop where
  rules : job'.rules = job.rules
  settings : job'.settings = job.settings
  lines : job'.lines = job.lines
  root : ParseTree.root job'.tree = ParseTree.root job.tree
  diagnostics : ParseTree.diagnostics job'.tree = ParseTree.diagnostics job.tree
  kind : ParseTree.kind job'.tree = ParseTree.kind job.tree
  span : ParseTree.span job'.tree = ParseTree.span job.tree
  children : ∀ n,
    Thinned job.Unknown (ParseTree.children job.tree n) (ParseTree.children job'.tree n)
  concurs : job.rules.Concurs job.tree job'.tree
  lenient : job.settings.failOnUnknown = false

namespace Tallies

theorem symm (t : job.Tallies job') : job'.Tallies job where
  rules := t.rules.symm
  settings := t.settings.symm
  lines := t.lines.symm
  root := t.root.symm
  diagnostics := t.diagnostics.symm
  kind := t.kind.symm
  span := t.span.symm
  children n := by
    have same : job'.Unknown = job.Unknown := funext fun m => by rw [Unknown, Unknown, t.rules, t.kind]
    rw [same]
    exact (t.children n).symm
  concurs kind rule found n := (t.concurs kind rule (t.rules ▸ found) n).symm
  lenient := t.settings ▸ t.lenient

theorem unknown (t : job.Tallies job') {m : Handle} (unknown : job.Unknown m) : job'.Unknown m := by
  rw [Unknown, t.rules, t.kind]
  exact unknown

theorem positionOf_eq (t : job.Tallies job') : job'.positionOf = job.positionOf := by
  funext n
  rw [positionOf, positionOf, t.lines, t.span]

theorem emitFor_eq (t : job.Tallies job') : job'.emitFor = job.emitFor := by
  funext n draft w
  rw [emitFor, emitFor, t.lines, t.span]

theorem settle_eq (t : job.Tallies job') : job'.settle = job.settle := by
  funext n c outcome w
  simp only [settle, substitute, placeholder, ruleFailure, t.settings, t.kind, t.positionOf_eq,
    t.emitFor_eq]

end Tallies

/-- Whatever the first answers, the second answers too when it starts from the same state, and both
pass over the nodes that are off. -/
structure Follows (off : Handle → Prop)
    (convert convert' : Handle → Workspace σ → Option (Converted × Workspace σ)) : Prop where
  answers : ∀ m w w' answer v, w'.hush = w.hush → convert m w = some (answer, v) →
    ∃ v', convert' m w' = some (answer, v') ∧ v'.hush = v.hush
  left : ∀ m w r, off m → convert m w = some r → ∃ v, r = (.ok [], v) ∧ v.hush = w.hush
  right : ∀ m w, off m → ∃ v, convert' m w = some (.ok [], v) ∧ v.hush = w.hush

/-- What gives nothing makes no difference to what is put together. -/
theorem run_convertAll_of_nil {m : Handle} (nothing : convert m w = some (.ok [], u))
    (ms : List Handle) : job.run convert (Action.convertAll (m :: ms)) w =
      job.run convert (Action.convertAll ms) u := by
  simp only [Action.convertAll, run, nothing, run_bind]
  rcases job.run convert (Action.convertAll ms) u with _ | ⟨failure | back, v⟩ <;> rfl

/-- To have nodes converted is the same whether or not there are some among them that are off. -/
theorem Follows.convertAll {off : Handle → Prop} (follows : Follows off convert convert')
    (job' : Job τ σ) {ms ms' : List Handle} (thinned : Thinned off ms ms') {answer : Converted}
    {v : Workspace σ} (same : w'.hush = w.hush)
    (ran : job.run convert (Action.convertAll ms) w = some (answer, v)) :
    ∃ v', job'.run convert' (Action.convertAll ms') w' = some (answer, v') ∧ v'.hush = v.hush := by
  induction thinned generalizing w w' answer v with
  | nil =>
    cases ran
    exact ⟨w', rfl, same⟩
  | @both ms ms' m _ ih =>
    cases converted : convert m w with
    | none =>
      simp only [Action.convertAll, run, converted] at ran
      cases ran
    | some r =>
      obtain ⟨first, u⟩ := r
      obtain ⟨u', converted', same'⟩ := follows.answers m w w' first u same converted
      simp only [Action.convertAll, run, converted, converted'] at ran ⊢
      rcases first with failure | front
      · cases ran
        exact ⟨u', rfl, same'⟩
      · simp only [run_bind] at ran ⊢
        obtain ⟨⟨back, x⟩, rest, ends⟩ := Option.bind_eq_some_iff.1 ran
        obtain ⟨x', rest', same''⟩ := ih same' rest
        rw [rest']
        rcases back with failure | back
        · cases ends
          exact ⟨x', rfl, same''⟩
        · cases ends
          exact ⟨x', rfl, same''⟩
  | @left ms ms' m gone _ ih =>
    cases converted : convert m w with
    | none =>
      simp only [Action.convertAll, run, converted] at ran
      cases ran
    | some r =>
      obtain ⟨u, rfl, passed⟩ := follows.left m w r gone converted
      rw [run_convertAll_of_nil converted] at ran
      exact ih (same.trans passed.symm) ran
  | @right ms ms' m gone _ ih =>
    obtain ⟨u', converted, passed⟩ := follows.right m w' gone
    rw [run_convertAll_of_nil converted]
    exact ih (passed.trans same) ran

/-- A program is answered the same for both trees, if nodes are. -/
theorem Tallies.run (t : job.Tallies job') (follows : Follows job.Unknown convert convert')
    {a a' : Action σ α} (concurs : a.Concurs job.tree job'.tree a') {result : α} {v : Workspace σ}
    (same : w'.hush = w.hush) (ran : job.run convert a w = some (result, v)) :
    ∃ v', job'.run convert' a' w' = some (result, v') ∧ v'.hush = v.hush := by
  -- on both programs at once: they part only where children are converted
  induction concurs generalizing w w' with
  | done r =>
    cases ran
    exact ⟨w', rfl, same⟩
  | @emit next next' draft _ ih =>
    have current := Workspace.eq_of_hush_eq same Workspace.current fun _ => rfl
    have handle := Workspace.eq_of_hush_eq same (fun u => (job.emitFor w.current draft u).1)
      fun _ => rfl
    have emitted := Workspace.hush_congr same (fun u => (job.emitFor w.current draft u).2)
      fun _ => rfl
    simp only [Job.run, t.emitFor_eq, current, handle] at ran ⊢
    exact ih _ emitted ran
  | convert m _ ih =>
    simp only [Job.run] at ran ⊢
    split at ran
    case h_2 => cases ran
    case h_1 answer u converted =>
      obtain ⟨u', converted', same'⟩ := follows.answers m w w' answer u same converted
      rw [converted']
      exact ih _ same' ran
  | children n _ ih =>
    rw [run_bind] at ran ⊢
    obtain ⟨⟨answer, u⟩, first, goes⟩ := Option.bind_eq_some_iff.1 ran
    obtain ⟨u', first', same'⟩ := follows.convertAll job' (t.children n) same first
    rw [Action.convertChildren, first']
    exact ih _ same' goes
  | look h _ ih =>
    have node := Workspace.eq_of_hush_eq same (Workspace.node? · h) fun _ => rfl
    simp only [Job.run, node] at ran ⊢
    exact ih _ same ran
  | current _ ih =>
    have current := Workspace.eq_of_hush_eq same Workspace.current fun _ => rfl
    simp only [Job.run, current] at ran ⊢
    exact ih _ same ran
  | settings _ ih =>
    simp only [Job.run, t.settings] at ran ⊢
    exact ih _ same ran
  | position m _ ih =>
    simp only [Job.run, t.positionOf_eq] at ran ⊢
    exact ih _ same ran
  | load _ ih =>
    have memory := Workspace.eq_of_hush_eq same Workspace.memory fun _ => rfl
    simp only [Job.run, memory] at ran ⊢
    exact ih _ same ran
  | store memory _ ih =>
    have stored := Workspace.hush_congr same (fun u => { u with memory }) fun _ => rfl
    exact ih stored ran

/-- A node without a rule is passed over for both trees. -/
theorem Tallies.passes (t : job.Tallies job') {m : Handle} (unknown : job.Unknown m) (depth : Nat)
    (w : Workspace σ) : ∃ v, job'.convert (depth + 1) m w = some (.ok [], v) ∧ v.hush = w.hush := by
  obtain ⟨v, passed, silent⟩ := hush_skip t.symm.lenient m w
  refine ⟨v, ?_, silent⟩
  rw [Job.convert, t.unknown unknown, passed]

/-- A node with a rule is answered the same for both trees, if nodes are on its behalf. -/
theorem Tallies.convert_of_find (t : job.Tallies job') {depth depth' : Nat}
    (follows : Follows job.Unknown (job.convert depth) (job'.convert depth')) {m : Handle}
    {rule : Rule τ σ} (found : job.rules.find? (ParseTree.kind job.tree m) = some rule)
    {answer : Converted} {v : Workspace σ} (same : w'.hush = w.hush)
    (converted : job.convert (depth + 1) m w = some (answer, v)) :
    ∃ v', job'.convert (depth' + 1) m w' = some (answer, v') ∧ v'.hush = v.hush := by
  rw [Job.convert, found] at converted
  rw [Job.convert, t.rules, t.kind, found]
  cases ran : job.run (job.convert depth) (rule job.tree m) { w with current := m } with
  | none =>
    simp only [ran] at converted
    cases converted
  | some r =>
    obtain ⟨outcome, after⟩ := r
    have handed := Workspace.hush_congr same (fun u => { u with current := m }) fun _ => rfl
    obtain ⟨after', ran', same'⟩ := t.run follows (t.concurs _ rule found m) handed ran
    have current := Workspace.eq_of_hush_eq same Workspace.current fun _ => rfl
    have checkpoint := Workspace.eq_of_hush_eq same Workspace.checkpoint fun _ => rfl
    have back := Workspace.hush_congr same' (fun u => { u with current := w.current }) fun _ => rfl
    obtain ⟨v', settled, silent⟩ := job.hush_settle m w.checkpoint outcome back
    simp only [ran, Option.some.injEq] at converted
    rw [converted] at settled silent
    exact ⟨v', by simp only [ran', t.settle_eq, current, checkpoint, settled], silent⟩

/-- Every node is answered the same for both trees.  One level more is asked for, as there may be
nodes to be left out below the deepest rule. -/
theorem Tallies.follows (t : job.Tallies job') (depth : Nat) :
    Follows job.Unknown (job.convert depth) (job'.convert (depth + 1)) := by
  induction depth with
  | zero =>
    refine ⟨fun m w w' answer v same converted => ?_, fun m w r gone converted => ?_,
      fun m w gone => t.passes gone 0 w⟩
    · cases converted
    · cases converted
  | succ depth ih =>
    refine ⟨?answers, ?left, fun m w gone => t.passes gone _ w⟩
    case left =>
      intro m w r gone converted
      obtain ⟨v, passed, silent⟩ := t.symm.passes (t.unknown gone) depth w
      rw [passed] at converted
      exact ⟨v, (Option.some.inj converted).symm, silent⟩
    case answers =>
      intro m w w' answer v same converted
      cases found : job.rules.find? (ParseTree.kind job.tree m) with
      | none =>
        obtain ⟨u, passed, silent⟩ := t.symm.passes (t.unknown found) depth w
        obtain ⟨u', passed', silent'⟩ := t.passes found (depth + 1) w'
        rw [passed] at converted
        cases converted
        exact ⟨u', passed', silent'.trans (same.trans silent.symm)⟩
      | some rule => exact t.convert_of_find ih found same converted

end Job

/-! ### Conversions -/

namespace Converter

variable {c : Converter τ σ} {tree tree' : τ} {s : Settings} {memory : σ} {report : Report σ}

theorem tallies_of_prunes (lenient : s.failOnUnknown = false)
    (prunes : ParseTree.Prunes (fun n => c.rules.contains (ParseTree.kind tree n)) tree tree')
    (concurs : c.rules.Concurs tree tree') : (c.job tree s).Tallies (c.job tree' s) where
  rules := rfl
  settings := rfl
  lines := congrArg LineTable.ofText prunes.text
  root := prunes.root
  diagnostics := prunes.diagnostics
  kind := prunes.kind
  span := prunes.span
  children n := by
    have unknown (m : Handle) (out : c.rules.contains (ParseTree.kind tree m) = false) :
        (c.job tree s).Unknown m := by
      refine Option.eq_none_iff_forall_ne_some.2 fun rule found => ?_
      have known := Rulebook.contains_iff.2 ⟨rule, found⟩
      rw [Bool.eq_false_iff] at out
      exact out known
    have thinned := thinned_filter unknown (ParseTree.children tree n)
    rw [← prunes.children n] at thinned
    exact thinned
  concurs := concurs
  lenient := lenient

theorem hush_wrapUp (c : Converter τ σ) (tree : τ) (s : Settings) (answer : Converted)
    (w : Workspace σ) : (c.wrapUp tree s answer w).hush = c.wrapUp tree s answer w.hush := by
  have quiet := c.wrapUp_quiet tree s answer w
  rcases answer with failure | _ | ⟨root, _ | ⟨next, more⟩⟩ <;> exact quiet.symm

theorem wrapUp_eq (t : (c.job tree s).Tallies (c.job tree' s)) :
    c.wrapUp tree' s = c.wrapUp tree s := by
  have rootFailure : (c.job tree' s).rootFailure = (c.job tree s).rootFailure := by
    funext count
    simp only [Job.rootFailure, Job.ruleFailure, t.kind, t.root, t.positionOf_eq]
  funext answer w
  rcases answer with failure | _ | ⟨root, _ | ⟨next, more⟩⟩ <;>
    simp only [wrapUp, rootFailure, t.lines]

theorem Ends.tallies (t : (c.job tree s).Tallies (c.job tree' s))
    (ends : c.Ends tree s memory report) :
    ∃ report', c.Ends tree' s memory report' ∧ report'.hush = report.hush := by
  have root : ParseTree.root tree' = ParseTree.root tree := t.root
  have kind : ParseTree.kind tree' = ParseTree.kind tree := t.kind
  have diagnostics : ParseTree.diagnostics tree' = ParseTree.diagnostics tree := t.diagnostics
  obtain ⟨depth, converted⟩ := ends
  by_cases accepts : c.Accepts tree s
  · have accepts' : c.Accepts tree' s := ⟨accepts.settings, diagnostics.trans accepts.text⟩
    have begins : begun tree' memory = begun tree memory := by rw [begun, begun, root, kind]
    rw [convert_eq accepts, Option.map_eq_some_iff] at converted
    obtain ⟨⟨answer, w⟩, answered, rfl⟩ := converted
    obtain ⟨w', answered', silent⟩ := (t.follows depth).answers _ _ _ answer w rfl answered
    refine ⟨c.wrapUp tree' s answer w', ⟨depth + 1, ?_⟩, ?_⟩
    · rw [convert_eq accepts', begins, root]
      exact congrArg (Option.map _) answered'
    · rw [hush_wrapUp, hush_wrapUp, wrapUp_eq t, silent]
  · refine ⟨report, ⟨depth, ?_⟩, rfl⟩
    rw [← converted]
    have lines : LineTable.ofText (ParseTree.text tree') = .ofText (ParseTree.text tree) := t.lines
    have opens : opening tree' = opening tree := by rw [opening, opening, root, kind]
    rcases exists_of_not_accepts accepts with ⟨problem, hp⟩ | ⟨hp, first, rest, hd⟩
    · rw [convert_of_problem hp, convert_of_problem hp, opens]
    · have refused : c.convert depth tree s memory = _ :=
        convert_of_refusal hp (by rw [hd]; rfl) depth memory
      have refused' : c.convert depth tree' s memory = _ :=
        convert_of_refusal hp (by rw [diagnostics, hd]; rfl) depth memory
      rw [refused, refused', opens, diagnostics, lines]

/-- A lenient conversion goes as on the tree in which no node without a rule is a child, and differs
from that in no more than warnings of nodes that are left out. -/
theorem skips_as_pruned (lenient : s.failOnUnknown = false)
    (prunes : ParseTree.Prunes (fun n => c.rules.contains (ParseTree.kind tree n)) tree tree')
    (concurs : c.rules.Concurs tree tree') :
    (∀ report, c.Ends tree s memory report →
      ∃ report', c.Ends tree' s memory report' ∧ report'.hush = report.hush) ∧
    ∀ report', c.Ends tree' s memory report' →
      ∃ report, c.Ends tree s memory report ∧ report.hush = report'.hush := by
  have tallies : (c.job tree s).Tallies (c.job tree' s) := tallies_of_prunes lenient prunes concurs
  exact ⟨fun _ ends => ends.tallies tallies, fun _ ends => ends.tallies tallies.symm⟩

end Converter

namespace Blots

/-- The tree without the blots. -/
def pruned : Source.Tree := tree.prune fun n => converter.rules.contains (ParseTree.kind tree n)

theorem concurs (tree' tree'' : Source.Tree) : converter.rules.Concurs tree' tree'' := by
  refine Rulebook.forall_insert (Rulebook.forall_insert Rulebook.forall_empty ?list) ?group
  case list => exact fun n => .children n fun answer => .refl _ _ _
  case group => exact fun n => .children n fun answer => .refl _ _ _

theorem contains_converter (kind : String) :
    converter.rules.contains kind = ("Group" == kind || "List" == kind) := by
  simp [converter, Rulebook.contains, Rulebook.insert, Rulebook.empty, Std.HashMap.contains_insert]

theorem children_pruned : ParseTree.children pruned ⟨0⟩ = [⟨1⟩] := by
  rw [pruned, (Source.Tree.prunes _ _).children]
  simp only [contains_converter]
  rfl

end Blots

theorem Converter.skips_as_pruned_blots : Parens.settings.failOnUnknown = false ∧
    Blots.converter.rules.Concurs Blots.tree Blots.pruned ∧
    ParseTree.children Blots.tree ⟨0⟩ = [⟨1⟩, ⟨3⟩] ∧ ParseTree.children Blots.pruned ⟨0⟩ = [⟨1⟩] ∧
    ∃ report report', Blots.converter.Ends Blots.tree Parens.settings () report ∧
      Blots.converter.Ends Blots.pruned Parens.settings () report' ∧ report'.hush = report.hush := by
  obtain ⟨course, report, takes, -, -⟩ := Blots.takes
  have concurs := Blots.concurs Blots.tree Blots.pruned
  obtain ⟨report', ends', same⟩ :=
    (skips_as_pruned rfl (Source.Tree.prunes Blots.tree _) concurs).1 report takes.ends
  exact ⟨rfl, concurs, rfl, Blots.children_pruned, report, report', takes.ends, ends', same⟩

end TreeConversion
