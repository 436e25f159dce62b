import TreeConversion.Proofs.Endings

/-!
# What decides how a conversion fails

A rule is honest if it aborts only with a failure that the engine has handed to it.  On a course of
honest rules every failure was raised by the engine at some node (`Job.Raised`), and then the
settings say of which kind it can be; so the settings, the sources and the diagnostics decide what
can come out (`Converter.Verdict`).
-/

namespace TreeConversion

variable {τ σ α β : Type} [ParseTree τ]

/-! ### Failures that are handed on -/

/-- The failure in an answer, if there is one. -/
def failuresIn : Converted → List Failure
  | .ok _ => []
  | .error failure => [failure]

omit [ParseTree τ] in
theorem failuresIn_eq_of_mem {answer : Converted} {failure : Failure}
    (hf : failure ∈ failuresIn answer) : failuresIn answer = [failure] := by
  rcases answer with failure' | produced
  · rw [List.mem_singleton.1 hf]
    rfl
  · cases hf

/-- The failure that a rule aborts with, if it aborts. -/
def abortsIn : Except Stop β → List Failure
  | .error (.aborted failure) => [failure]
  | _ => []

/-- The failure at a node for whose kind there is no rule. -/
def Job.unknownFailure (job : Job τ σ) (node : Source.Handle) : Failure :=
  .unknownKind (ParseTree.kind job.tree node) (job.positionOf node)

/-- The failure in the answer for a node for whose kind there is no rule, if there is one. -/
def Job.refusals (job : Job τ σ) (node : Source.Handle) : List Failure :=
  if job.settings.failOnUnknown then [job.unknownFailure node] else []

namespace Course

/-- The failures that programs were handed on a course, at any depth. -/
def handed (job : Job τ σ) : Course → List Failure
  | ended => []
  | emitted _ _ _ rest => rest.handed job
  | skipped node rest => job.refusals node ++ rest.handed job
  | converted _ inner _ answer rest => inner.handed job ++ failuresIn answer ++ rest.handed job

/-- No rule on the course makes up a failure to abort with: it was handed one like it before, to
that rule or to another. -/
def Honest (job : Job τ σ) : List Failure → Course → Prop
  | _, ended => True
  | seen, emitted _ _ _ rest => rest.Honest job seen
  | seen, skipped node rest => rest.Honest job (job.refusals node ++ seen)
  | seen, converted _ inner outcome answer rest =>
    (inner.Honest job seen ∧ abortsIn outcome ⊆ inner.handed job ++ seen) ∧
      rest.Honest job (inner.handed job ++ failuresIn answer ++ seen)

end Course

namespace Job

variable {job : Job τ σ}

/-- The engine itself fails so at this node: there is no rule for it, or its rule has failed. -/
inductive FatalAt (job : Job τ σ) (node : Source.Handle) : Failure → Prop
  | unknown (strict : job.settings.failOnUnknown = true)
    (none : job.rules.find? (ParseTree.kind job.tree node) = none) :
    FatalAt job node (.unknownKind (ParseTree.kind job.tree node) (job.positionOf node))
  | rule (strict : job.settings.allowInvalid = false) (message : String) :
    FatalAt job node (.rule ⟨ParseTree.kind job.tree node, job.positionOf node, message⟩)

/-- The engine itself fails so at some node. -/
def Raised (job : Job τ σ) (failure : Failure) : Prop := ∃ node, job.FatalAt node failure

theorem fatalAt_of_mem_refusals {node : Source.Handle}
    (unknown : job.rules.find? (ParseTree.kind job.tree node) = none) {failure : Failure}
    (hf : failure ∈ job.refusals node) : job.FatalAt node failure := by
  rw [refusals] at hf
  split at hf
  · next strict => exact List.mem_singleton.1 hf ▸ .unknown strict unknown
  · cases hf

theorem failuresIn_skip (job : Job τ σ) (node : Source.Handle) (w : Workspace σ) :
    failuresIn (job.skip node w).1 = job.refusals node := by
  unfold skip refusals
  dsimp only
  split
  · rfl
  · split <;> rfl

theorem fst_skip_of_lenient {node : Source.Handle} (lenient : job.settings.failOnUnknown = false)
    (w : Workspace σ) : (job.skip node w).1 = .ok [] := by
  simp only [skip, lenient, Bool.false_eq_true, if_false]
  split_ifs <;> rfl

/-- An answer fails because the rule aborts or because its failure is fatal. -/
theorem mem_failuresIn_settle {node : Source.Handle} {c : Workspace.Checkpoint}
    {outcome : Except Stop (List Target.Handle)} {w w' : Workspace σ} {answer : Converted}
    (settles : job.settle node c outcome w = (answer, w')) {failure : Failure}
    (hf : failure ∈ failuresIn answer) : failure ∈ abortsIn outcome ∨ job.Raised failure := by
  rcases outcome with (message | aborted) | produced
  · simp only [settle] at settles
    split at settles
    · obtain ⟨rfl, -⟩ := Prod.mk.inj settles
      cases hf
    · next strict =>
      obtain ⟨rfl, -⟩ := Prod.mk.inj settles
      rw [List.mem_singleton.1 hf]
      exact .inr ⟨node, .rule (Bool.eq_false_iff.2 strict) message⟩
  · obtain ⟨rfl, -⟩ := Prod.mk.inj settles
    exact .inl hf
  · obtain ⟨rfl, -⟩ := Prod.mk.inj settles
    cases hf

/-- Where no failure is made up, every failure has been raised by the engine. -/
theorem Runs.raised {node : Source.Handle} {a : Action σ α} {w w' : Workspace σ}
    {course : Course} {result : α} (h : job.Runs node a w course result w') {seen : List Failure}
    (before : ∀ failure ∈ seen, job.Raised failure) (honest : course.Honest job seen) :
    ∀ failure ∈ course.handed job, job.Raised failure := by
  induction h generalizing seen with
  | done => exact fun failure hf => absurd hf List.not_mem_nil
  | emit _ ih => exact ih before honest
  | @skip _ _ m _ _ _ _ _ unknown _ ih =>
    have here : ∀ failure ∈ job.refusals m, job.Raised failure := fun failure hf =>
      ⟨m, fatalAt_of_mem_refusals unknown hf⟩
    exact List.forall_mem_append.2
      ⟨here, ih (List.forall_mem_append.2 ⟨here, before⟩) honest⟩
  | @convert _ m _ _ _ _ _ _ _ inner _ _ answer _ _ _ settles _ ihran ihgoes =>
    obtain ⟨⟨inside, aborts⟩, later⟩ := honest
    have below : ∀ failure ∈ inner.handed job, job.Raised failure := ihran before inside
    have here : ∀ failure ∈ failuresIn answer, job.Raised failure := by
      intro failure hf
      rcases mem_failuresIn_settle settles hf with aborted | raised
      · exact (List.mem_append.1 (aborts aborted)).elim (below failure) (before failure)
      · exact raised
    have now := List.forall_mem_append.2 ⟨below, here⟩
    exact List.forall_mem_append.2
      ⟨now, ihgoes (List.forall_mem_append.2 ⟨now, before⟩) later⟩
  | look _ ih | current _ ih | settings _ ih | position _ ih | load _ ih | store _ ih =>
    exact ih before honest

theorem Runs.failuresIn_subset_handed {node m : Source.Handle} {w w' : Workspace σ}
    {course : Course} {answer : Converted}
    (h : job.Runs node (.convert m .done) w course answer w') :
    failuresIn answer ⊆ course.handed job := by
  cases h with
  | skip unknown goes =>
    cases goes
    rw [job.failuresIn_skip, Course.handed]
    exact List.subset_append_left _ _
  | convert found ran settles goes =>
    cases goes
    rw [Course.handed, Course.handed, List.append_nil]
    exact List.subset_append_right _ _

end Job

/-! ### Honest rules -/

namespace Action

/-- Whatever the engine answers, the failures `out` of the result are among those that the program
was handed or that are given. -/
def Honest (out : α → List Failure) : Action σ α → List Failure → Prop
  | .done result, given => out result ⊆ given
  | .emit _ next, given => ∀ h, (next h).Honest out given
  | .convert _ next, given => ∀ answer, (next answer).Honest out (failuresIn answer ++ given)
  | .look _ next, given => ∀ node, (next node).Honest out given
  | .current next, given => ∀ node, (next node).Honest out given
  | .settings next, given => ∀ s, (next s).Honest out given
  | .position _ next, given => ∀ p, (next p).Honest out given
  | .load next, given => ∀ m, (next m).Honest out given
  | .store _ next, given => next.Honest out given

theorem honest_convertAll_bind {out : α → List Failure} {f : Converted → Action σ α}
    {given : List Failure} (nodes : List Source.Handle)
    (goes : ∀ answer, (f answer).Honest out (failuresIn answer ++ given)) :
    ((convertAll nodes).bind f).Honest out given := by
  induction nodes generalizing f with
  | nil => exact goes (.ok [])
  | cons node rest ih =>
    rintro (failure | front)
    · exact goes (.error failure)
    · show (((convertAll rest).bind _).bind f).Honest out given
      rw [bind_assoc]
      refine ih ?_
      rintro (failure | back)
      · exact goes (.error failure)
      · exact goes (.ok (front ++ back))

end Action

namespace Rulebook

omit [ParseTree τ] in
theorem contains_iff {rules : Rulebook τ σ} {kind : String} :
    rules.contains kind = true ↔ ∃ rule, rules.find? kind = some rule := by
  rw [contains, Std.HashMap.contains_eq_isSome_getElem?, Option.isSome_iff_exists]
  rfl

/-- Rules that abort only with failures that they were handed. -/
def Honest (rules : Rulebook τ σ) : Prop :=
  ∀ kind rule, rules.find? kind = some rule → ∀ tree node, (rule tree node).Honest abortsIn []

theorem Honest.course {job : Job τ σ} (rules : job.rules.Honest) {node : Source.Handle}
    {a : Action σ α} {w w' : Workspace σ} {course : Course} {result : α}
    (h : job.Runs node a w course result w') {out : α → List Failure} {given seen : List Failure}
    (honest : a.Honest out given) (known : given ⊆ seen) :
    course.Honest job seen ∧ out result ⊆ course.handed job ++ given := by
  induction h generalizing given seen with
  | done => exact ⟨trivial, honest⟩
  | emit _ ih => exact ih (honest _) known
  | @skip _ _ m _ w _ _ _ _ _ ih =>
    have honest := honest (job.skip m w).1
    rw [job.failuresIn_skip] at honest
    have known' : job.refusals m ++ given ⊆ job.refusals m ++ seen := fun f hf =>
      List.mem_append.2 ((List.mem_append.1 hf).imp_right fun hf => known hf)
    obtain ⟨later, result⟩ := ih honest known'
    refine ⟨later, List.Subset.trans result fun f hf => ?_⟩
    simpa [Course.handed, or_assoc, or_left_comm] using hf
  | @convert _ _ m _ _ _ _ _ _ inner _ _ answer _ found _ _ _ ihran ihgoes =>
    obtain ⟨within, aborts⟩ := ihran (rules _ _ found _ m) (List.nil_subset seen)
    have known' : failuresIn answer ++ given ⊆ inner.handed job ++ failuresIn answer ++ seen := by
      intro f hf
      rw [List.append_assoc]
      refine List.mem_append_right _ (List.mem_append.2 ?_)
      exact (List.mem_append.1 hf).imp_right fun hf => known hf
    obtain ⟨later, result⟩ := ihgoes (honest answer) known'
    rw [List.append_nil] at aborts
    refine ⟨⟨⟨within, List.subset_append_of_subset_left _ aborts⟩, later⟩,
      List.Subset.trans result fun f hf => ?_⟩
    rw [Course.handed]
    simp only [List.mem_append] at hf ⊢
    tauto
  | store _ ih => exact ih honest known
  | look _ ih | current _ ih | settings _ ih | position _ ih | load _ ih => exact ih (honest _) known

end Rulebook

/-! ### What comes out -/

namespace Converter

variable {c : Converter τ σ} {tree : τ} {s : Settings} {memory : σ} {report : Report σ}
  {course : Course}

/-- What is wrong with the settings for this converter; there can be several such problems. -/
def Lacks (c : Converter τ σ) (s : Settings) : SettingsProblem → Prop
  | .blankPlaceholder => s.allowInvalid = true ∧ Text.allBlank s.placeholderKind = true
  | .noTokenSource => s.tokens = true ∧ c.tokens = none
  | .noCommentSource => s.comments = true ∧ c.comments = none
  | _ => False

/-- What is wrong with the settings, where each problem hides those that are looked for later. -/
def LacksFirst (c : Converter τ σ) (s : Settings) : SettingsProblem → Prop
  | .noTokenSource => ¬ c.Lacks s .blankPlaceholder ∧ c.Lacks s .noTokenSource
  | .noCommentSource =>
    ¬ c.Lacks s .blankPlaceholder ∧ ¬ c.Lacks s .noTokenSource ∧ c.Lacks s .noCommentSource
  | problem => c.Lacks s problem

/-- The rule for the root ran and gave a single node, itself or as a placeholder. -/
def RootSingle (c : Converter τ σ) (tree : τ) (course : Course) : Prop :=
  c.rules.contains (ParseTree.kind tree (ParseTree.root tree)) = true ∧
    ∃ inner outcome answer, course = .converted (ParseTree.root tree) inner outcome answer .ended ∧
      ((∃ h, outcome = .ok [h]) ∨ ∃ message, outcome = .error (.failed message))

/-- What the inputs decide about the outcome. -/
structure Verdict (c : Converter τ σ) (tree : τ) (s : Settings) (memory : σ) : Prop where
  settings : (∃ report problem, c.Ends tree s memory report ∧
    report.outcome = .error (.settings problem)) ↔ ∃ problem, c.Lacks s problem
  first : ∀ problem, (∃ report, c.Ends tree s memory report ∧
    report.outcome = .error (.settings problem)) ↔ c.LacksFirst s problem
  source : ∀ failure, (∃ report, c.Ends tree s memory report ∧
      report.outcome = .error (.source failure)) ↔
    (∀ problem, ¬ c.Lacks s problem) ∧ ∃ d rest, ParseTree.diagnostics tree = d :: rest ∧
      failure = {
        message := d.message
        position := (LineTable.ofText (ParseTree.text tree)).position d.start
        span := d.span
        code := d.code }
  /-- The report is the same whatever the rules are, and even if none may run. -/
  idle : ((∃ problem, c.Lacks s problem) ∨ ParseTree.diagnostics tree ≠ []) →
    ∃ report, report.memory = memory ∧ ∀ rules depth,
      Converter.convert { c with rules } depth tree s memory = some report
  unknown : ∀ report kind position, c.Ends tree s memory report →
    report.outcome = .error (.unknownKind kind position) → s.failOnUnknown = true
  rule : s.allowInvalid = true → ∀ report failure, c.Ends tree s memory report →
    report.outcome = .error (.rule failure) →
      ∃ count, count ≠ 1 ∧ failure = (c.job tree s).rootFailure count
  lenient : s.allowInvalid = true → s.failOnUnknown = false → (∀ problem, ¬ c.Lacks s problem) →
    ParseTree.diagnostics tree = [] → ∀ report, c.Ends tree s memory report →
      ((∃ conversion, report.outcome = .ok conversion) ↔
        ∃ course, c.Takes tree s memory course report ∧ c.RootSingle tree course)

omit [ParseTree τ] in
theorem problem?_eq_some {problem : SettingsProblem} :
    c.problem? s = some problem ↔ c.LacksFirst s problem := by
  have blank : s.placeholderBlank = true ↔ c.Lacks s .blankPlaceholder := by
    rw [Settings.placeholderBlank, Bool.and_eq_true, Lacks]
  have tokens : (s.tokens && c.tokens.isNone) = true ↔ c.Lacks s .noTokenSource := by
    rw [Bool.and_eq_true, Option.isNone_iff_eq_none, Lacks]
  have comments : (s.comments && c.comments.isNone) = true ↔ c.Lacks s .noCommentSource := by
    rw [Bool.and_eq_true, Option.isNone_iff_eq_none, Lacks]
  have reported (message : String) : ¬ c.Lacks s (.reported message) := id
  have unreadable (fault : Json.Fault) : ¬ c.Lacks s (.unreadable fault) := id
  unfold problem?
  split_ifs with h₁ h₂ h₃ <;> cases problem <;> simp_all [LacksFirst]

omit [ParseTree τ] in
theorem problem?_eq_none : c.problem? s = none ↔ ∀ problem, ¬ c.Lacks s problem := by
  constructor
  · intro none problem lacks
    have first : ∃ problem, c.LacksFirst s problem := by
      by_cases blank : c.Lacks s .blankPlaceholder
      · exact ⟨.blankPlaceholder, blank⟩
      · by_cases tokens : c.Lacks s .noTokenSource
        · exact ⟨.noTokenSource, blank, tokens⟩
        · cases problem with
          | blankPlaceholder => exact absurd lacks blank
          | noTokenSource => exact absurd lacks tokens
          | noCommentSource => exact ⟨.noCommentSource, blank, tokens, lacks⟩
          | unreadable => cases lacks
          | reported => cases lacks
    obtain ⟨problem, first⟩ := first
    cases none.symm.trans (problem?_eq_some.2 first)
  · intro fine
    cases found : c.problem? s with
    | none => rfl
    | some problem =>
      have first := problem?_eq_some.1 found
      cases problem with
      | noTokenSource => exact absurd first.2 (fine _)
      | noCommentSource => exact absurd first.2.2 (fine _)
      | blankPlaceholder => exact absurd first (fine .blankPlaceholder)
      | unreadable => cases first
      | reported => cases first

/-- The ways in which a conversion with honest rules ends, and what is known on each. -/
inductive Way (c : Converter τ σ) (tree : τ) (s : Settings) : Except Failure Conversion → Prop
  | settings {problem : SettingsProblem} (first : c.LacksFirst s problem) :
    Way c tree s (.error (.settings problem))
  | source (fine : ∀ problem, ¬ c.Lacks s problem) {d : Source.Diagnostic}
    {rest : List Source.Diagnostic} (found : ParseTree.diagnostics tree = d :: rest) :
    Way c tree s (.error (.source ⟨d.message,
      (LineTable.ofText (ParseTree.text tree)).position d.start, d.span, d.code⟩))
  | raised {node : Source.Handle} {failure : Failure}
    (fatal : (c.job tree s).FatalAt node failure) : Way c tree s (.error failure)
  | root {count : Nat} (several : count ≠ 1) :
    Way c tree s (.error (.rule ((c.job tree s).rootFailure count)))
  | ok (conversion : Conversion) : Way c tree s (.ok conversion)

theorem Way.lacksFirst {problem : SettingsProblem}
    (way : c.Way tree s (.error (.settings problem))) : c.LacksFirst s problem := by
  cases way with
  | settings first => exact first
  | raised fatal => cases fatal

/-- A conversion that has come to the engine fails as the engine has failed, or for its root. -/
theorem Takes.way (takes : c.Takes tree s memory course report)
    (honest : course.Honest (c.job tree s) []) : c.Way tree s report.outcome := by
  obtain ⟨-, answer, w, rfl, runs⟩ := takes
  have raised := runs.raised (fun _ hf => absurd hf List.not_mem_nil) honest
  rcases answer with failure | _ | ⟨root, _ | ⟨next, more⟩⟩
  · have handed := runs.failuresIn_subset_handed (List.mem_singleton_self failure)
    obtain ⟨node, fatal⟩ := raised failure handed
    exact .raised fatal
  · exact .root Nat.zero_ne_one
  · exact .ok _
  · exact .root (by simp)

theorem convert_of_diagnostics (fine : ∀ problem, ¬ c.Lacks s problem) {d : Source.Diagnostic}
    {rest : List Source.Diagnostic} (found : ParseTree.diagnostics tree = d :: rest)
    (rules : Rulebook τ σ) (depth : Nat) (memory : σ) :
    Converter.convert { c with rules } depth tree s memory =
      some ⟨.error (.source ⟨d.message, (LineTable.ofText (ParseTree.text tree)).position d.start,
        d.span, d.code⟩), opening tree ++ refusalLog (d :: rest), memory⟩ := by
  have fine : Converter.problem? { c with rules } s = none := problem?_eq_none.2 fine
  rw [convert_of_refusal fine (by rw [found]; rfl), found]

/-- A conversion ends at the first problem with the settings, at the first diagnostic, or in the
engine. -/
theorem Ends.way (ends : c.Ends tree s memory report)
    (honest : ∀ course, c.Takes tree s memory course report → course.Honest (c.job tree s) []) :
    c.Way tree s report.outcome := by
  cases bad : c.problem? s with
  | some problem =>
    obtain ⟨depth, converted⟩ := ends
    rw [convert_of_problem bad] at converted
    cases converted
    exact .settings (problem?_eq_some.1 bad)
  | none =>
    have fine := problem?_eq_none.1 bad
    cases found : ParseTree.diagnostics tree with
    | cons d rest =>
      obtain ⟨depth, converted⟩ := ends
      rw [convert_of_diagnostics fine found c.rules] at converted
      cases converted
      exact .source fine found
    | nil =>
      obtain ⟨course, takes⟩ := ends.exists_takes ⟨bad, found⟩
      exact takes.way (honest course takes)

/-- Where the settings or the text are not in order, no rule is asked. -/
theorem idle_of_stopped
    (stopped : (∃ problem, c.Lacks s problem) ∨ ParseTree.diagnostics tree ≠ []) :
    ∃ report, report.memory = memory ∧ ∀ rules depth,
      Converter.convert { c with rules } depth tree s memory = some report := by
  cases bad : c.problem? s with
  | some problem =>
    exact ⟨_, rfl, fun rules depth =>
      convert_of_problem (c := { c with rules }) bad depth tree memory⟩
  | none =>
    have fine := problem?_eq_none.1 bad
    cases found : ParseTree.diagnostics tree with
    | nil =>
      rcases stopped with ⟨problem, lacks⟩ | found'
      · exact absurd lacks (fine problem)
      · exact absurd found found'
    | cons d rest =>
      exact ⟨_, rfl, fun rules depth => convert_of_diagnostics fine found rules depth memory⟩

omit [ParseTree τ] in
theorem LacksFirst.lacks {problem : SettingsProblem} (first : c.LacksFirst s problem) :
    c.Lacks s problem := by
  cases problem with
  | noTokenSource => exact first.2
  | noCommentSource => exact first.2.2
  | blankPlaceholder | unreadable | reported => exact first

omit [ParseTree τ] in
theorem exists_lacksFirst {problem : SettingsProblem} (lacks : c.Lacks s problem) :
    ∃ first, c.LacksFirst s first := by
  cases bad : c.problem? s with
  | some first => exact ⟨first, problem?_eq_some.1 bad⟩
  | none => exact absurd lacks (problem?_eq_none.1 bad problem)

/-- Where no failure is fatal by the settings, a conversion that comes to the engine goes well just
when the rule for the root gives a single node. -/
theorem Takes.ok_iff (takes : c.Takes tree s memory course report)
    (honest : course.Honest (c.job tree s) []) (allowed : s.allowInvalid = true)
    (lenient : s.failOnUnknown = false) :
    (∃ conversion, report.outcome = .ok conversion) ↔ c.RootSingle tree course := by
  obtain ⟨-, answer, w, rfl, runs⟩ := takes
  have none (failure : Failure) : ¬ (c.job tree s).Raised failure := by
    rintro ⟨node, ⟨strict, -⟩ | strict⟩
    · cases lenient.symm.trans strict
    · cases allowed.symm.trans strict
  have raised := runs.raised (fun _ hf => absurd hf List.not_mem_nil) honest
  cases runs with
  | skip unknown goes =>
    cases goes
    rw [(c.job tree s).fst_skip_of_lenient lenient]
    constructor
    · rintro ⟨conversion, ok⟩
      cases ok
    · rintro ⟨-, inner, outcome, answer, same, -⟩
      cases same
  | @convert _ _ _ _ _ _ _ _ _ inner _ outcome _ _ found ran settles goes =>
    cases goes
    have known := Rulebook.contains_iff.2 ⟨_, found⟩
    rcases outcome with (message | aborted) | produced
    · simp only [Job.settle, job, allowed, if_true] at settles
      obtain ⟨rfl, rfl⟩ := Prod.mk.inj settles
      exact iff_of_true ⟨_, rfl⟩ ⟨known, inner, _, _, rfl, .inr ⟨message, rfl⟩⟩
    · obtain ⟨rfl, rfl⟩ := Prod.mk.inj settles
      refine absurd (raised aborted ?_) (none aborted)
      exact List.mem_append_left _ (List.mem_append_right _ (List.mem_singleton_self aborted))
    · obtain ⟨rfl, rfl⟩ := Prod.mk.inj settles
      constructor
      · rintro ⟨conversion, ok⟩
        rcases produced with _ | ⟨h, _ | ⟨next, more⟩⟩
        · cases ok
        · exact ⟨known, inner, _, _, rfl, .inl ⟨h, rfl⟩⟩
        · cases ok
      · rintro ⟨-, inner', outcome, answer, same, ⟨h, rfl⟩ | ⟨message, rfl⟩⟩
        · cases same
          exact ⟨_, rfl⟩
        · cases same

/-- With honest rules, the settings, the sources and the diagnostics decide how a conversion can
fail. -/
theorem failure_decided (honest : ∀ course report, c.Takes tree s memory course report →
    course.Honest (c.job tree s) []) : c.Verdict tree s memory := by
  have ways {report : Report σ} (ends : c.Ends tree s memory report)
      {outcome : Except Failure Conversion} (comes : report.outcome = outcome) :
      c.Way tree s outcome := comes ▸ ends.way fun course => honest course report
  have reports {problem : SettingsProblem} (first : c.LacksFirst s problem) :
      ∃ report, c.Ends tree s memory report ∧ report.outcome = .error (.settings problem) :=
    ⟨_, ⟨0, convert_of_problem (problem?_eq_some.2 first) 0 tree memory⟩, rfl⟩
  refine ⟨?settings, ?first, ?source, ?idle, ?unknown, ?rule, ?lenient⟩
  case settings =>
    constructor
    · rintro ⟨report, problem, ends, failed⟩
      exact ⟨problem, (ways ends failed).lacksFirst.lacks⟩
    · rintro ⟨problem, lacks⟩
      obtain ⟨first, isFirst⟩ := exists_lacksFirst lacks
      obtain ⟨report, ends, failed⟩ := reports isFirst
      exact ⟨report, first, ends, failed⟩
  case first =>
    intro problem
    constructor
    · rintro ⟨report, ends, failed⟩
      exact (ways ends failed).lacksFirst
    · exact reports
  case source =>
    intro failure
    constructor
    · rintro ⟨report, ends, failed⟩
      cases ways ends failed with
      | source fine found => exact ⟨fine, _, _, found, rfl⟩
      | raised fatal => cases fatal
    · rintro ⟨fine, d, rest, found, rfl⟩
      exact ⟨_, ⟨0, convert_of_diagnostics fine found c.rules 0 memory⟩, rfl⟩
  case idle => exact idle_of_stopped
  case unknown =>
    intro report kind position ends failed
    cases ways ends failed with
    | raised fatal => cases fatal with | unknown strict none => exact strict
  case rule =>
    intro allowed report failure ends failed
    cases ways ends failed with
    | raised fatal => cases fatal with | rule strict message => cases allowed.symm.trans strict
    | root several => exact ⟨_, several, rfl⟩
  case lenient =>
    intro allowed lenient fine found report ends
    constructor
    · intro ok
      obtain ⟨course, takes⟩ := ends.exists_takes ⟨problem?_eq_none.2 fine, found⟩
      have single := takes.ok_iff (honest course report takes) allowed lenient
      exact ⟨course, takes, single.1 ok⟩
    · rintro ⟨course, takes, single⟩
      exact (takes.ok_iff (honest course report takes) allowed lenient).2 single

/-- Rules that are honest whatever they are answered are honest on every course. -/
theorem Takes.honest (rules : c.rules.Honest) (takes : c.Takes tree s memory course report) :
    course.Honest (c.job tree s) [] := by
  obtain ⟨-, answer, w, -, runs⟩ := takes
  have root : (Action.convert (ParseTree.root tree) .done : Action σ Converted).Honest failuresIn
      [] := fun answer => List.subset_append_left _ _
  exact (Rulebook.Honest.course rules runs root (List.Subset.refl [])).1

end Converter

theorem Parens.honest_rules : rules.Honest := by
  refine Rulebook.forall_insert
    (Rulebook.forall_insert (Rulebook.forall_insert Rulebook.forall_empty ?list) ?name) ?blot
  case name => exact fun tree node h => List.Subset.refl []
  case blot => exact fun tree node h => List.Subset.refl []
  case list =>
    intro tree node
    refine Action.honest_convertAll_bind _ ?_
    rintro (failure | hs)
    · exact List.subset_append_left _ _
    · exact fun _ h => List.nil_subset _

theorem Converter.failure_decided_parens :
    (∀ course report, Parens.converter.Takes Parens.tree Parens.settings () course report →
      course.Honest (Parens.converter.job Parens.tree Parens.settings) []) ∧
    Parens.converter.Verdict Parens.tree Parens.settings () ∧ ∃ report conversion course,
      Parens.converter.convert 2 Parens.tree Parens.settings () = some report ∧
      report.outcome = .ok conversion ∧
      Parens.converter.Takes Parens.tree Parens.settings () course report ∧
      Parens.converter.RootSingle Parens.tree course := by
  have honest (course : Course) (report : Report Unit)
      (takes : Parens.converter.Takes Parens.tree Parens.settings () course report) :=
    takes.honest Parens.honest_rules
  have verdict := failure_decided honest
  have fine : ∀ problem, ¬ Parens.converter.Lacks Parens.settings problem :=
    problem?_eq_none.1 (by decide)
  obtain ⟨report, conversion, converted, ok⟩ := Parens.converts
  have single := verdict.lenient rfl rfl fine rfl report ⟨2, converted⟩
  obtain ⟨course, takes, gives⟩ := single.1 ⟨conversion, ok⟩
  exact ⟨honest, verdict, report, conversion, course, converted, ok, takes, gives⟩

end TreeConversion
