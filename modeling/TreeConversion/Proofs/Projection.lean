import TreeConversion.Proofs.Endings
import TreeConversion.Proofs.Placeholders

/-!
# What settings show and hide

A rule that never asks for the settings runs the same way whatever is to be shown of its work.
`Job.Mirrors` says that the engine does the same under other settings, up to what it tells;
`Mirrors.runs` carries this through whole courses.  A conversion is then the one in which all is
shown, less what is not asked for (`Conversion.Shows`), and a quiet conversion is the same one
without the warnings of nodes that are left out (`Report.hush`).  As the courses are the same, both
need to go to the same depth (`Converter.rel_convert`).
-/

namespace TreeConversion

variable {τ σ α : Type}

/-! ### Rules that do not see the settings -/

/-- The program never asks for the settings. -/
def Action.Blind : Action σ α → Prop
  | .done _ => True
  | .emit _ next => ∀ h, (next h).Blind
  | .convert _ next => ∀ answer, (next answer).Blind
  | .look _ next => ∀ node, (next node).Blind
  | .current next => ∀ node, (next node).Blind
  | .settings _ => False
  | .position _ next => ∀ p, (next p).Blind
  | .load next => ∀ m, (next m).Blind
  | .store _ next => next.Blind

theorem Action.Blind.bind {β : Type} {a : Action σ α} {f : α → Action σ β} (blind : a.Blind)
    (goes : ∀ result, (f result).Blind) : (a.bind f).Blind := by
  induction a with
  | done result => exact goes result
  | settings => exact blind.elim
  | store memory next ih => exact ih blind
  | emit _ next ih | convert _ next ih | look _ next ih | current next ih | position _ next ih
  | load next ih => exact fun x => ih x (blind x)

theorem Action.blind_convertAll (nodes : List Source.Handle) :
    (convertAll nodes : Action σ Converted).Blind := by
  induction nodes with
  | nil => trivial
  | cons node rest ih =>
    rintro (failure | front)
    · trivial
    · refine ih.bind ?_
      rintro (failure | back) <;> trivial

/-- No rule ever asks for the settings. -/
def Rulebook.Blind (rules : Rulebook τ σ) : Prop :=
  ∀ kind rule, rules.find? kind = some rule → ∀ tree node, (rule tree node).Blind

/-! ### The same work, told otherwise -/

/-- The same state, with another memory of what has been told. -/
def Workspace.retell (warned : List String → List String) (log : Array Event → Array Event)
    (w : Workspace σ) : Workspace σ :=
  { w with warned := warned w.warned, log := log w.log }

/-- The event warns of a node that is left out. -/
def Event.isSkip : Event → Bool
  | .skipped .. => true
  | _ => false

variable [ParseTree τ]

namespace Job

variable {job : Job τ σ} {s : Settings} {warned : List String → List String}
  {log : Array Event → Array Event}

/-- Under the settings `s` the engine does the same, and what it tells is as given. -/
structure Mirrors (job : Job τ σ) (s : Settings) (warned : List String → List String)
    (log : Array Event → Array Event) : Prop where
  allowInvalid : s.allowInvalid = job.settings.allowInvalid
  placeholderKind : s.placeholderKind = job.settings.placeholderKind
  push : ∀ told e, e.isSkip = false → log (told.push e) = (log told).push e
  skip : ∀ node w, { job with settings := s }.skip node (w.retell warned log) =
    Prod.map id (Workspace.retell warned log) (job.skip node w)

namespace Mirrors

theorem settle (m : job.Mirrors s warned log) (node : Source.Handle) (c : Workspace.Checkpoint)
    (outcome : Except Stop (List Target.Handle)) (w : Workspace σ) :
    { job with settings := s }.settle node c outcome (w.retell warned log) =
      Prod.map id (Workspace.retell warned log) (job.settle node c outcome w) := by
  rcases outcome with (message | failure) | produced
  · have told := m.push w.log (.substituted (job.ruleFailure node message)) rfl
    simp only [Job.settle, m.allowInvalid]
    split
    · simp only [substitute, placeholder, m.placeholderKind]
      simp only [Workspace.retell, Workspace.tell, Workspace.rollback, emitFor, Workspace.emitFor,
        Prod.map, id, told]
      rfl
    · rfl
  · rfl
  · simp only [Job.settle, Workspace.retell, Workspace.tell, Prod.map, id]
    rw [m.push _ _ rfl]

/-- What has been told makes no difference to programs that do not see the settings. -/
theorem runs (m : job.Mirrors s warned log) (rules : job.rules.Blind) {node : Source.Handle}
    {a : Action σ α} {w w' : Workspace σ} {course : Course} {result : α}
    (h : job.Runs node a w course result w') (blind : a.Blind) :
    { job with settings := s }.Runs node a (w.retell warned log) course result
      (w'.retell warned log) := by
  induction h with
  | done => exact .done _ _
  | emit _ ih => exact .emit (ih (blind _))
  | @skip _ _ n next w _ _ _ unknown _ ih =>
    have skipped := m.skip n w
    refine .skip unknown ?_
    rw [skipped]
    exact ih (blind _)
  | @convert _ _ n _ w after _ _ _ _ _ outcome _ _ found _ settles _ ihran ihgoes =>
    have settled := m.settle n w.checkpoint outcome { after with current := w.current }
    rw [settles] at settled
    exact .convert found (ihran (rules _ _ found _ n)) settled (ihgoes (blind _))
  | look _ ih => exact .look (ih (blind _))
  | current _ ih => exact .current (ih (blind _))
  | settings => exact blind.elim
  | position _ ih => exact .position (ih (blind _))
  | load _ ih => exact .load (ih (blind _))
  | store _ ih => exact .store (ih blind)

/-- What is done under the settings `s` is done from any state that is told the same. -/
theorem lift (m : job.Mirrors s warned log) (rules : job.rules.Blind) {node : Source.Handle}
    {a : Action σ α} {v v' w : Workspace σ} {course : Course} {result : α}
    (h : { job with settings := s }.Runs node a v course result v') (blind : a.Blind)
    (told : w.retell warned log = v) :
    ∃ w', job.Runs node a w course result w' ∧ w'.retell warned log = v' := by
  induction h generalizing w with
  | done => exact ⟨w, .done _ _, told⟩
  | @emit _ node draft next _ _ _ _ _ ih =>
    subst told
    obtain ⟨w', goes, rfl⟩ := ih (blind _) (w := (job.emitFor node draft w).2) rfl
    exact ⟨w', .emit goes, rfl⟩
  | @skip _ _ n next _ _ _ _ unknown _ ih =>
    subst told
    have skipped := m.skip n w
    rw [skipped] at ih
    obtain ⟨w', goes, rfl⟩ := ih (blind _) (w := (job.skip n w).2) rfl
    exact ⟨w', .skip unknown goes, rfl⟩
  | @convert _ _ n _ _ _ _ _ _ _ _ outcome _ _ found _ settles _ ihran ihgoes =>
    subst told
    have blind' := rules _ _ found job.tree n
    obtain ⟨after, ran, rfl⟩ := ihran blind' (w := { w with current := n }) rfl
    have settled := m.settle n w.checkpoint outcome { after with current := w.current }
    obtain ⟨rfl, rfl⟩ := Prod.mk.inj (settles.symm.trans settled)
    obtain ⟨w', goes, rfl⟩ := ihgoes (blind _) rfl
    exact ⟨w', .convert found ran rfl goes, rfl⟩
  | look _ ih =>
    subst told
    obtain ⟨w', goes, rfl⟩ := ih (blind _) rfl
    exact ⟨w', .look goes, rfl⟩
  | current _ ih =>
    obtain ⟨w', goes, rfl⟩ := ih (blind _) told
    exact ⟨w', .current goes, rfl⟩
  | settings => exact blind.elim
  | position _ ih =>
    obtain ⟨w', goes, rfl⟩ := ih (blind _) told
    exact ⟨w', .position goes, rfl⟩
  | load _ ih =>
    subst told
    obtain ⟨w', goes, rfl⟩ := ih (blind _) rfl
    exact ⟨w', .load goes, rfl⟩
  | @store _ _ memory _ _ _ _ _ _ ih =>
    subst told
    obtain ⟨w', goes, rfl⟩ := ih blind (w := { w with memory }) rfl
    exact ⟨w', .store goes, rfl⟩

end Mirrors

/-- Settings that the engine does not look at. -/
theorem mirrors_of_eq (allowInvalid : s.allowInvalid = job.settings.allowInvalid)
    (placeholderKind : s.placeholderKind = job.settings.placeholderKind)
    (failOnUnknown : s.failOnUnknown = job.settings.failOnUnknown)
    (quiet : s.quiet = job.settings.quiet) : job.Mirrors s id id where
  allowInvalid := allowInvalid
  placeholderKind := placeholderKind
  push _ _ _ := rfl
  skip node w := by
    simp only [Job.skip, failOnUnknown, quiet]
    rfl

/-- To be quiet is to leave out the warnings of nodes that are left out. -/
theorem mirrors_quiet (job : Job τ σ) : job.Mirrors { job.settings with quiet := true } (fun _ => [])
    (Array.filter fun e => !e.isSkip) where
  allowInvalid := rfl
  placeholderKind := rfl
  push told e he := by simp [he]
  skip node w := by
    simp only [Job.skip, Bool.true_or, if_true]
    split
    · rfl
    · split
      · rfl
      · simp only [Prod.map, id, Workspace.retell, Workspace.tell, Array.filter_push, Event.isSkip]
        rfl

/-- Every node that is left of a course carries its span and the location of that span. -/
theorem Runs.placed {job : Job τ σ} {node : Source.Handle} {a : Action σ α} {w w' : Workspace σ}
    {course : Course} {result : α} (h : job.Runs node a w course result w') :
    ∀ e ∈ course.emissions job node, ∃ span, e.node.span = some span ∧
      e.node.location = some (job.lines.location span) := by
  induction h with
  | done => exact fun e he => absurd he List.not_mem_nil
  | emit _ ih =>
    intro e he
    rcases List.mem_cons.1 he with rfl | he
    · exact ⟨_, rfl, rfl⟩
    · exact ih e he
  | convert _ _ _ _ ihran ihgoes =>
    intro e he
    rcases List.mem_append.1 he with he | he
    · rcases mem_leaves he with he | ⟨message, rfl⟩
      · exact ihran e he
      · exact ⟨_, rfl, rfl⟩
    · exact ihgoes e he
  | skip _ _ ih | look _ ih | current _ ih | settings _ ih | position _ ih | load _ ih
  | store _ ih => exact ih

end Job

/-! ### What is shown -/

/-- The settings with all switches on that only ask for something to be handed out. -/
def Settings.full (s : Settings) : Settings :=
  { s with ranges := true, locations := true, tokens := true, comments := true, origins := true }

/-- A node as it is handed out when all is asked for, and as it is shown under these settings. -/
structure Target.Node.Shows (s : Settings) (full shown : Target.Node) : Prop where
  kind : shown.kind = full.kind
  fields : shown.fields = full.fields
  synthetic : shown.synthetic = full.synthetic
  span : ∃ span, full.span = some span ∧ shown.span = if s.ranges then some span else none
  location : ∃ location, full.location = some location ∧
    shown.location = if s.locations then some location else none

/-- A conversion in which all is handed out, and what is shown of it under these settings. -/
structure Conversion.Shows (s : Settings) (full shown : Conversion) : Prop where
  failures : shown.failures = full.failures
  root : shown.tree.root = full.tree.root
  nodes : List.Forall₂ (Target.Node.Shows s) full.tree.nodes.toList shown.tree.nodes.toList
  tokens : ∃ tokens, full.tree.tokens = some tokens ∧
    shown.tree.tokens = if s.tokens then some tokens else none
  comments : ∃ comments, full.tree.comments = some comments ∧
    shown.tree.comments = if s.comments then some comments else none
  origins : ∃ origins, full.origins = some origins ∧
    shown.origins = if s.origins then some origins else none

/-- The reports of a conversion in which all is handed out and of one under these settings: both
failed in the same way, or both went well. -/
structure Report.Shows (s : Settings) (full shown : Report σ) : Prop where
  memory : shown.memory = full.memory
  outcome : match full.outcome, shown.outcome with
    | .error failure, .error failure' => failure' = failure
    | .ok conversion, .ok conversion' => conversion.Shows s conversion'
    | _, _ => False

/-- A report without the warnings of nodes that are left out. -/
def Report.hush (r : Report σ) : Report σ := { r with log := r.log.filter fun e => !e.isSkip }

namespace Parens

/-- The rules with a source of tokens and one of comments. -/
def lexed : Converter Source.Tree Unit :=
  ⟨rules, some fun _ => [⟨"Close", ")", 5, 6⟩, ⟨"Open", "(", 0, 1⟩], some fun _ => []⟩

theorem blind_rules : rules.Blind := by
  have name : ∀ tree node, (name tree node).Blind := fun _ _ _ => trivial
  have blot : ∀ tree node, (blot tree node).Blind := fun _ _ _ => trivial
  have list : ∀ tree node, (list tree node).Blind := by
    intro tree node
    refine (Action.blind_convertAll _).bind ?_
    rintro (failure | hs)
    · trivial
    · exact fun _ _ => trivial
  exact Rulebook.forall_insert
    (Rulebook.forall_insert (Rulebook.forall_insert Rulebook.forall_empty list) name) blot

end Parens

namespace Converter

variable {c : Converter τ σ} {tree : τ} {s : Settings} {memory : σ} {course : Course}
  {answer : Converted} {w : Workspace σ}

omit [ParseTree τ] in
/-- What a finished conversion holds, field by field. -/
theorem finish_eq (c : Converter τ σ) (s : Settings) (lines : LineTable) {h : Harvest}
    (all : ∀ t : Target.Handle, t.index < h.tree.size → h.tree.Below h.tree.root t) :
    (c.finish s lines h).1 = {
      tree := {
        nodes := h.tree.nodes.map (Target.Node.strip s.ranges s.locations)
        root := h.tree.root
        tokens := ((if s.tokens then c.tokens else none).map
          (Target.placeTokens lines)).or h.tree.tokens
        comments := ((if s.comments then c.comments else none).map
          (Target.placeComments lines)).or h.tree.comments }
      origins := if s.origins then some h.origins else none
      failures := h.failures } := by
  rw [finish, Target.Tree.strip_eq all]
  cases (if s.tokens then c.tokens else none) <;>
    cases (if s.comments then c.comments else none) <;> rfl

omit [ParseTree τ] in
theorem shows_finish (tokens : c.tokens.isSome) (comments : c.comments.isSome) (s : Settings)
    (lines : LineTable) {h : Harvest}
    (all : ∀ t : Target.Handle, t.index < h.tree.size → h.tree.Below h.tree.root t)
    (placed : ∀ node ∈ h.tree.nodes.toList, node.span.isSome ∧ node.location.isSome)
    (bare : h.tree.tokens = none ∧ h.tree.comments = none) :
    (c.finish s.full lines h).1.Shows s (c.finish s lines h).1 := by
  obtain ⟨tokenSource, ht⟩ := Option.isSome_iff_exists.1 tokens
  obtain ⟨commentSource, hc⟩ := Option.isSome_iff_exists.1 comments
  rw [finish_eq c s lines all, finish_eq c s.full lines all, ht, hc, bare.1, bare.2]
  refine ⟨rfl, rfl, ?_, ⟨_, rfl, ?_⟩, ⟨_, rfl, ?_⟩, ⟨_, rfl, rfl⟩⟩
  · simp only [Array.toList_map, List.forall₂_map_left_iff, List.forall₂_map_right_iff,
      List.forall₂_same]
    intro node hn
    obtain ⟨spanned, located⟩ := placed node hn
    obtain ⟨span, hs⟩ := Option.isSome_iff_exists.1 spanned
    obtain ⟨location, hl⟩ := Option.isSome_iff_exists.1 located
    refine ⟨rfl, rfl, rfl, ⟨span, hs, ?_⟩, ⟨location, hl, ?_⟩⟩
    · rw [← hs]
      rfl
    · rw [← hl]
      rfl
  · cases s.tokens <;> rfl
  · cases s.comments <;> rfl

theorem shows_wrapUp (tokens : c.tokens.isSome) (comments : c.comments.isSome)
    (runs : (c.job tree s).Runs (ParseTree.root tree) (.convert (ParseTree.root tree) .done)
      (begun tree memory) course answer w) :
    (c.wrapUp tree s.full answer w).Shows s (c.wrapUp tree s answer w) := by
  rcases answer with failure | _ | ⟨root, _ | ⟨next, more⟩⟩
  · exact ⟨rfl, rfl⟩
  · exact ⟨rfl, rfl⟩
  · let m : c.Making tree s memory _ := ⟨course, root, w, runs, rfl⟩
    have holds := m.holds
    have tree : (w.harvest root).tree = (Emission.arena root m.emissions).compact.1 := holds.tree
    refine ⟨rfl, shows_finish tokens comments s _ ?_ ?_ ?_⟩
    · rw [tree]
      exact Target.Tree.below_root_compact
    · intro node hn
      rw [show (w.harvest root).tree.nodes.toList = _ from holds.nodes] at hn
      obtain ⟨e, he, rfl⟩ := List.mem_map.1 hn
      obtain ⟨span, hs, hl⟩ := runs.placed e (Target.Renumbering.mem_of_mem_pick he)
      exact ⟨Option.isSome_iff_exists.2 ⟨_, hs⟩, Option.isSome_iff_exists.2 ⟨_, hl⟩⟩
    · rw [tree]
      exact ⟨rfl, rfl⟩
  · exact ⟨rfl, rfl⟩

/-! ### Conversions under other settings -/

theorem Accepts.congr {s' : Settings} (same : c.problem? s' = c.problem? s)
    (accepts : c.Accepts tree s) : c.Accepts tree s' :=
  ⟨same.trans accepts.settings, accepts.text⟩

/-- A conversion that does not come to the engine ends at once, and of the settings only the problem
with them counts. -/
theorem Ends.refused {s' : Settings} {report : Report σ} (ends : c.Ends tree s memory report)
    (refuses : ¬ c.Accepts tree s) (same : c.problem? s' = c.problem? s) :
    c.Goes tree s' memory none report ∧ report.hush = report ∧ ∀ t, report.Shows t report := by
  obtain ⟨failure, log, silent, all⟩ : ∃ failure log, log.filter (fun e => !e.isSkip) = log ∧
      ∀ t, c.problem? t = c.problem? s → ∀ depth : Nat,
        c.convert depth tree t memory = some ⟨.error failure, log, memory⟩ := by
    rcases exists_of_not_accepts refuses with ⟨problem, hp⟩ | ⟨hp, first, rest, hd⟩
    · exact ⟨_, _, rfl, fun t same depth => convert_of_problem (same.trans hp) depth tree memory⟩
    · refine ⟨_, _, ?_, fun t same depth =>
        convert_of_refusal (same.trans hp) (by rw [hd]; rfl) depth memory⟩
      rw [hd, opening]
      cases rest <;> rfl
  obtain ⟨depth, converted⟩ := ends
  cases (all s rfl depth).symm.trans converted
  refine ⟨.refused (mt (Accepts.congr same.symm) refuses) ⟨0, all s' same 0⟩, ?_, fun t => ⟨rfl, rfl⟩⟩
  rw [Report.hush, silent]

omit [ParseTree τ] in
theorem problem?_full (tokens : c.tokens.isSome) (comments : c.comments.isSome) (s : Settings) :
    c.problem? s.full = c.problem? s := by
  have noTokens : c.tokens.isNone = false := by simpa using tokens
  have noComments : c.comments.isNone = false := by simpa using comments
  simp only [problem?, noTokens, noComments, Bool.and_false]
  rfl

/-- The engine runs the same courses under settings that it does not tell apart. -/
theorem runs_of_eq (blind : c.rules.Blind) (s' : Settings)
    (allowInvalid : s'.allowInvalid = s.allowInvalid)
    (placeholderKind : s'.placeholderKind = s.placeholderKind)
    (failOnUnknown : s'.failOnUnknown = s.failOnUnknown) (quiet : s'.quiet = s.quiet)
    (runs : (c.job tree s).Runs (ParseTree.root tree) (.convert (ParseTree.root tree) .done)
      (begun tree memory) course answer w) :
    (c.job tree s').Runs (ParseTree.root tree) (.convert (ParseTree.root tree) .done)
      (begun tree memory) course answer w :=
  have mirrors : (c.job tree s).Mirrors s' id id :=
    Job.mirrors_of_eq allowInvalid placeholderKind failOnUnknown quiet
  mirrors.runs blind runs fun _ => trivial

theorem mirrors_quiet (c : Converter τ σ) (tree : τ) (s : Settings) :
    (c.job tree { s with quiet := false }).Mirrors { s with quiet := true } (fun _ => [])
      (Array.filter fun e => !e.isSkip) :=
  Job.mirrors_quiet _

omit [ParseTree τ] in
theorem filter_finish (c : Converter τ σ) (s : Settings) (lines : LineTable) (h : Harvest) :
    (c.finish s lines h).2.filter (fun e => !e.isSkip) = (c.finish s lines h).2 := by
  rw [finish]
  cases (if s.tokens then c.tokens else none) <;>
    cases (if s.comments then c.comments else none) <;> rfl

theorem wrapUp_quiet (c : Converter τ σ) (tree : τ) (s : Settings) (answer : Converted)
    (w : Workspace σ) :
    c.wrapUp tree { s with quiet := true } answer
        (w.retell (fun _ => []) (Array.filter fun e => !e.isSkip)) =
      (c.wrapUp tree { s with quiet := false } answer w).hush := by
  rcases answer with failure | _ | ⟨root, _ | ⟨next, more⟩⟩
  · rfl
  · rfl
  · have dropped (before after : Nat) :
        (dropLog before after).filter (fun e => !e.isSkip) = dropLog before after := by
      unfold dropLog
      split <;> rfl
    have append (log : Array Event) {told : List Event}
        (silent : told.filter (fun e => !e.isSkip) = told) :
        (log ++ told).filter (fun e => !e.isSkip) = log.filter (fun e => !e.isSkip) ++ told := by
      refine Array.toList_inj.1 ?_
      rw [Array.toList_filter, Array.toList_appendList, List.filter_append, silent,
        Array.toList_appendList, Array.toList_filter]
    simp only [wrapUp, Report.hush, append _ (dropped _ _), append _ (filter_finish _ _ _ _)]
    rfl
  · rfl

/-- What carries over to other settings from all that ends in the engine and from all that never
comes there, carries over. -/
theorem Goes.carry {s' : Settings} (related : Report σ → Report σ → Prop)
    (same : c.problem? s' = c.problem? s)
    (idle : ∀ report : Report σ, report.hush = report → (∀ t, report.Shows t report) →
      related report report)
    (lifts : ∀ {course answer w},
      (c.job tree s).Runs (ParseTree.root tree) (.convert (ParseTree.root tree) .done)
        (begun tree memory) course answer w →
      ∃ w', (c.job tree s').Runs (ParseTree.root tree) (.convert (ParseTree.root tree) .done)
          (begun tree memory) course answer w' ∧
        related (c.wrapUp tree s answer w) (c.wrapUp tree s' answer w'))
    {course : Option Course} {report : Report σ} (goes : c.Goes tree s memory course report) :
    ∃ report', c.Goes tree s' memory course report' ∧ related report report' := by
  cases goes with
  | refused refuses ends =>
    obtain ⟨goes, silent, shows⟩ := ends.refused refuses same
    exact ⟨_, goes, idle report silent shows⟩
  | taken takes =>
    obtain ⟨accepts, answer, w, rfl, runs⟩ := takes
    obtain ⟨w', runs', holds⟩ := lifts runs
    exact ⟨_, .taken ⟨accepts.congr same, answer, w', rfl, runs'⟩, holds⟩

theorem Goes.exists_full (blind : c.rules.Blind) (tokens : c.tokens.isSome)
    (comments : c.comments.isSome) {course : Option Course} {shown : Report σ}
    (goes : c.Goes tree s memory course shown) :
    ∃ full, c.Goes tree s.full memory course full ∧ full.Shows s shown := by
  have same := problem?_full tokens comments s
  refine goes.carry (fun shown full => full.Shows s shown) same (fun _ _ shows => shows s) ?_
  intro course answer w runs
  have runs' := runs_of_eq (s := s) blind s.full rfl rfl rfl rfl runs
  exact ⟨w, runs', shows_wrapUp tokens comments runs⟩

theorem Goes.exists_shown (blind : c.rules.Blind) (tokens : c.tokens.isSome)
    (comments : c.comments.isSome) {course : Option Course} {full : Report σ}
    (goes : c.Goes tree s.full memory course full) :
    ∃ shown, c.Goes tree s memory course shown ∧ full.Shows s shown := by
  have same := (problem?_full tokens comments s).symm
  refine goes.carry (fun full shown => full.Shows s shown) same (fun _ _ shows => shows s) ?_
  intro course answer w runs
  have runs' := runs_of_eq (s := s.full) blind s rfl rfl rfl rfl runs
  exact ⟨w, runs', shows_wrapUp tokens comments runs'⟩

theorem goes_quiet_iff (blind : c.rules.Blind) {course : Option Course} {quiet : Report σ} :
    c.Goes tree { s with quiet := true } memory course quiet ↔
      ∃ loud, c.Goes tree { s with quiet := false } memory course loud ∧ quiet = loud.hush := by
  have mirrors := mirrors_quiet c tree s
  have same : c.problem? { s with quiet := true } = c.problem? { s with quiet := false } := rfl
  constructor
  · intro goes
    refine goes.carry (fun quiet loud => quiet = loud.hush) same.symm
      (fun _ silent _ => silent.symm) ?_
    intro course answer w' runs
    obtain ⟨w, lifted, rfl⟩ :=
      mirrors.lift blind runs (fun _ => trivial) (w := begun tree memory) rfl
    exact ⟨w, lifted, wrapUp_quiet c tree s answer w⟩
  · rintro ⟨loud, goes, rfl⟩
    have carried := goes.carry (fun loud quiet => quiet = loud.hush) same
      (fun _ silent _ => silent.symm) fun {_ answer w} runs =>
        ⟨_, mirrors.runs blind runs (fun _ => trivial), wrapUp_quiet c tree s answer w⟩
    obtain ⟨quiet, goes', rfl⟩ := carried
    exact goes'

/-- Where the same courses are gone with related reports, conversions that may go to the same depth
give related reports. -/
theorem rel_convert {s' : Settings} {related : Report σ → Report σ → Prop}
    (forth : ∀ course report, c.Goes tree s memory course report →
      ∃ report', c.Goes tree s' memory course report' ∧ related report report')
    (back : ∀ course report', c.Goes tree s' memory course report' →
      ∃ report, c.Goes tree s memory course report ∧ related report report') (depth : Nat) :
    Option.Rel related (c.convert depth tree s memory) (c.convert depth tree s' memory) := by
  cases converted : c.convert depth tree s memory with
  | some report =>
    obtain ⟨course, goes, deep⟩ := convert_eq_some_iff.1 converted
    obtain ⟨report', goes', holds⟩ := forth course report goes
    rw [convert_eq_some_iff.2 ⟨course, goes', deep⟩]
    exact .some holds
  | none =>
    cases converted' : c.convert depth tree s' memory with
    | none => exact .none
    | some report' =>
      obtain ⟨course, goes', deep⟩ := convert_eq_some_iff.1 converted'
      obtain ⟨report, goes, -⟩ := back course report' goes'
      cases converted.symm.trans (convert_eq_some_iff.2 ⟨course, goes, deep⟩)

/-- What settings show and hide of one and the same work. -/
structure Projects (c : Converter τ σ) (tree : τ) (s : Settings) (memory : σ) : Prop where
  shown : c.tokens.isSome → c.comments.isSome → ∀ course shown,
    c.Goes tree s memory course shown →
      ∃ full, c.Goes tree s.full memory course full ∧ full.Shows s shown
  full : c.tokens.isSome → c.comments.isSome → ∀ course full,
    c.Goes tree s.full memory course full →
      ∃ shown, c.Goes tree s memory course shown ∧ full.Shows s shown
  quiet : ∀ course quiet, c.Goes tree { s with quiet := true } memory course quiet ↔
    ∃ loud, c.Goes tree { s with quiet := false } memory course loud ∧ quiet = loud.hush
  /-- However deep they may go, both conversions give a report or both give none. -/
  converts : c.tokens.isSome → c.comments.isSome → ∀ depth,
    Option.Rel (fun full shown => full.Shows s shown) (c.convert depth tree s.full memory)
      (c.convert depth tree s memory)
  hushes : ∀ depth, c.convert depth tree { s with quiet := true } memory =
    (c.convert depth tree { s with quiet := false } memory).map Report.hush

/-- A conversion shows the one in which all is handed out, less what is not asked for; and when it
is to be quiet it is the same but for the warnings of nodes that are left out. -/
theorem flags_project (blind : c.rules.Blind) (tree : τ) (s : Settings) (memory : σ) :
    c.Projects tree s memory where
  shown tokens comments _ _ goes := goes.exists_full blind tokens comments
  full tokens comments _ _ goes := goes.exists_shown blind tokens comments
  quiet _ _ := goes_quiet_iff blind
  converts tokens comments := rel_convert (fun _ _ goes => goes.exists_shown blind tokens comments)
    fun _ _ goes => goes.exists_full blind tokens comments
  hushes depth := by
    refine Option.ext fun quiet => ?_
    rw [Option.map_eq_some_iff, convert_eq_some_iff]
    constructor
    · rintro ⟨course, goes, deep⟩
      obtain ⟨loud, goes', rfl⟩ := (goes_quiet_iff blind).1 goes
      exact ⟨loud, convert_eq_some_iff.2 ⟨course, goes', deep⟩, rfl⟩
    · rintro ⟨loud, converted, rfl⟩
      obtain ⟨course, goes, deep⟩ := convert_eq_some_iff.1 converted
      exact ⟨course, (goes_quiet_iff blind).2 ⟨loud, goes, rfl⟩, deep⟩

theorem flags_project_parens : Parens.rules.Blind ∧ Parens.lexed.tokens.isSome ∧
    Parens.lexed.comments.isSome ∧ ∃ course shown full,
      Parens.lexed.Goes Parens.tree Parens.settings () (some course) shown ∧
      Parens.lexed.Goes Parens.tree Parens.settings.full () (some course) full ∧
      full.Shows Parens.settings shown ∧
      Parens.lexed.convert 2 Parens.tree Parens.settings () = some shown ∧
      Parens.lexed.convert 2 Parens.tree Parens.settings.full () = some full ∧
      Parens.lexed.convert 2 Parens.tree { Parens.settings with quiet := true } () =
        some shown.hush := by
  obtain ⟨root, w, answered⟩ := Parens.converts_root (opening Parens.tree)
  have accepts : Parens.lexed.Accepts Parens.tree Parens.settings := ⟨by decide, rfl⟩
  have converted : Parens.lexed.convert 2 Parens.tree Parens.settings () =
      some (Parens.lexed.wrapUp Parens.tree Parens.settings (.ok [root]) w) := by
    rw [convert_eq accepts]
    exact congrArg (Option.map _) answered
  obtain ⟨course, takes, deep⟩ := exists_takes converted accepts
  have projects := flags_project (c := Parens.lexed) Parens.blind_rules Parens.tree
    Parens.settings ()
  obtain ⟨full, goes, shows⟩ := projects.shown rfl rfl _ _ (.taken takes)
  have convertedFull : Parens.lexed.convert 2 Parens.tree Parens.settings.full () = some full :=
    convert_eq_some_iff.2 ⟨some course, goes, by simpa using deep⟩
  have hushed : Parens.lexed.convert 2 Parens.tree { Parens.settings with quiet := true } () =
      (Parens.lexed.convert 2 Parens.tree Parens.settings ()).map Report.hush := projects.hushes 2
  rw [converted] at hushed
  exact ⟨Parens.blind_rules, rfl, rfl, course, _, full, .taken takes, goes, shows, converted,
    convertedFull, hushed⟩

end Converter

end TreeConversion
