import TreeConversion.Proofs.Verdict

/-!
# The first fatal failure

Rules that hand on every failure at once let the first fatal failure through: it is the last step of
the course (`Course.Stops`), and it is what the conversion fails with.  A node that gives several
nodes where a single one is asked for makes the rule fail that has asked (`Job.FansOut`).
-/

namespace TreeConversion

variable {τ σ α β : Type} [ParseTree τ]

/-! ### Steps -/

/-- What the engine does on a course. -/
inductive Step where
  /-- The rule for a source node is started. -/
  | started (node : Source.Handle)
  /-- A node is emitted for a source node. -/
  | emitted (node : Source.Handle) (draft : Draft)
  /-- A source node cannot be converted, by no fault of a node below it. -/
  | fatal (node : Source.Handle) (failure : Failure)

/-- What the engine does when the rule for a node has ended. -/
def Job.closing (job : Job τ σ) (node : Source.Handle) :
    Except Stop (List Target.Handle) → List Step
  | .error (.failed message) =>
    if job.settings.allowInvalid then [.emitted node (job.placeholder message)]
    else [.fatal node (.rule (job.ruleFailure node message))]
  | _ => []

namespace Course

/-- The steps of a course, taken for a source node, in the order in which they are done. -/
def steps (job : Job τ σ) (source : Source.Handle) : Course → List Step
  | ended => []
  | emitted draft _ _ rest => .emitted source draft :: rest.steps job source
  | skipped node rest => (job.refusals node).map (Step.fatal node) ++ rest.steps job source
  | converted node inner outcome _ rest =>
    .started node :: (inner.steps job node ++ job.closing node outcome) ++ rest.steps job source

/-- A program on this course ends at once with each failure that it is handed. -/
def Relays (job : Job τ σ) : Course → List Failure → Prop
  | ended, _ => True
  | emitted _ _ _ rest, out => rest.Relays job out
  | skipped node rest, out =>
    (∀ failure ∈ job.refusals node, rest = ended ∧ out = [failure]) ∧ rest.Relays job out
  | converted _ _ _ answer rest, out =>
    (∀ failure ∈ failuresIn answer, rest = ended ∧ out = [failure]) ∧ rest.Relays job out

/-- All rules on this course do so. -/
def HandsOn (job : Job τ σ) : Course → Prop
  | ended => True
  | emitted _ _ _ rest => rest.HandsOn job
  | skipped _ rest => rest.HandsOn job
  | converted _ inner outcome _ rest =>
    (inner.Relays job (abortsIn outcome) ∧ inner.HandsOn job) ∧ rest.HandsOn job

end Course

/-- None of the steps is fatal. -/
def Step.Quiet (steps : List Step) : Prop := ∀ node failure, .fatal node failure ∉ steps

/-- None of the steps is fatal but perhaps the last, and that gives what comes out. -/
inductive Step.Stops (out : List Failure) : List Step → Prop
  | never {steps : List Step} (quiet : Quiet steps) : Stops out steps
  | last {steps : List Step} {node : Source.Handle} {failure : Failure} (quiet : Quiet steps)
    (comes : out = [failure]) : Stops out (steps ++ [.fatal node failure])

namespace Step

variable {steps steps' : List Step} {out : List Failure}

theorem quiet_nil : Quiet [] := fun _ _ => List.not_mem_nil

theorem Quiet.append (quiet : Quiet steps) (quiet' : Quiet steps') : Quiet (steps ++ steps') := by
  intro node failure fatal
  rcases List.mem_append.1 fatal with fatal | fatal
  · exact quiet node failure fatal
  · exact quiet' node failure fatal

theorem quiet_singleton {step : Step} (mild : ∀ node failure, step ≠ .fatal node failure) :
    Quiet [step] := fun node failure fatal =>
  mild node failure (List.mem_singleton.1 fatal).symm

theorem Stops.after (stops : Stops out steps') (quiet : Quiet steps) :
    Stops out (steps ++ steps') := by
  cases stops with
  | never quiet' => exact .never (quiet.append quiet')
  | last quiet' comes =>
    rw [← List.append_assoc]
    exact .last (quiet.append quiet') comes

theorem Stops.quiet (stops : Stops [] steps) : Quiet steps := by
  cases stops with
  | never quiet => exact quiet
  | last quiet comes => cases comes

/-- What comes before and after a fatal step. -/
theorem Stops.at_fatal (stops : Stops out steps) {before after : List Step} {node : Source.Handle}
    {failure : Failure} (split : steps = before ++ .fatal node failure :: after) :
    after = [] ∧ Quiet before ∧ out = [failure] := by
  cases stops with
  | never quiet =>
    refine absurd ?_ (quiet node failure)
    rw [split]
    exact List.mem_append_right _ (List.mem_cons_self ..)
  | @last init node' failure' quiet comes =>
    rcases List.eq_nil_or_concat' after with rfl | ⟨middle, last, rfl⟩
    · obtain ⟨rfl, same⟩ := List.append_inj' split rfl
      cases same
      exact ⟨rfl, quiet, comes⟩
    · have split' : init ++ [.fatal node' failure'] =
          (before ++ .fatal node failure :: middle) ++ [last] := by simpa using split
      obtain ⟨rfl, -⟩ := List.append_inj' split' rfl
      exact absurd (List.mem_append_right _ (List.mem_cons_self ..)) (quiet node failure)

end Step

/-! ### Runs -/

namespace Job

variable {job : Job τ σ}

theorem stops_refusals {node : Source.Handle} {out : List Failure}
    (relays : ∀ failure ∈ job.refusals node, out = [failure]) :
    Step.Stops out ((job.refusals node).map (Step.fatal node)) := by
  unfold refusals at relays ⊢
  split
  · next strict =>
    rw [if_pos strict] at relays
    exact .last Step.quiet_nil (relays _ (List.mem_singleton_self _))
  · exact .never Step.quiet_nil

/-- A rule has ended: if nothing was fatal below its node, only its own failure can be so now. -/
theorem stops_settle {node : Source.Handle} {c : Workspace.Checkpoint}
    {outcome : Except Stop (List Target.Handle)} {w w' : Workspace σ} {answer : Converted}
    (settles : job.settle node c outcome w = (answer, w')) {inner : List Step}
    (stops : Step.Stops (abortsIn outcome) inner) :
    Step.Stops (failuresIn answer) (inner ++ job.closing node outcome) := by
  rcases outcome with (message | failure) | produced
  · simp only [settle, closing] at settles ⊢
    split at settles
    · next allowed =>
      rw [if_pos allowed]
      exact .never (stops.quiet.append (Step.quiet_singleton fun _ _ => Step.noConfusion))
    · next strict =>
      obtain ⟨rfl, -⟩ := Prod.mk.inj settles
      rw [if_neg strict]
      exact .last stops.quiet rfl
  · obtain ⟨rfl, -⟩ := Prod.mk.inj settles
    show Step.Stops [failure] (inner ++ [])
    rw [List.append_nil]
    exact stops
  · obtain ⟨rfl, -⟩ := Prod.mk.inj settles
    show Step.Stops [] (inner ++ [])
    rw [List.append_nil]
    exact stops

/-- With rules that hand on every failure, a fatal failure is the last step of a run. -/
theorem Runs.stops {node : Source.Handle} {a : Action σ α} {w w' : Workspace σ} {course : Course}
    {result : α} (h : job.Runs node a w course result w') {out : List Failure}
    (relays : course.Relays job out) (handsOn : course.HandsOn job) :
    Step.Stops out (course.steps job node) := by
  -- on the run: what is fatal in the course of a rule makes that rule abort, and so ends all
  -- programs that wait for it
  induction h generalizing out with
  | done => exact .never Step.quiet_nil
  | emit _ ih =>
    exact (ih relays handsOn).after (Step.quiet_singleton fun _ _ => Step.noConfusion)
  | @skip _ _ m _ _ _ _ _ _ _ ih =>
    obtain ⟨here, later⟩ := relays
    rw [Course.steps]
    by_cases strict : job.refusals m = []
    · rw [strict]
      exact ih later handsOn
    · obtain ⟨failure, hf⟩ := List.exists_mem_of_ne_nil _ strict
      obtain ⟨rfl, -⟩ := here failure hf
      rw [Course.steps, List.append_nil]
      exact stops_refusals fun failure hf => (here failure hf).2
  | @convert _ _ m _ _ _ _ _ _ _ _ _ answer _ _ _ settles _ ihran ihgoes =>
    obtain ⟨here, later⟩ := relays
    obtain ⟨⟨passes, inside⟩, beside⟩ := handsOn
    have started : Step.Quiet [.started m] :=
      Step.quiet_singleton fun _ _ => Step.noConfusion
    have stops := (stops_settle settles (ihran passes inside)).after started
    rw [Course.steps]
    cases answer with
    | ok produced => exact (ihgoes later beside).after stops.quiet
    | error failure =>
      obtain ⟨rfl, rfl⟩ := here failure (List.mem_singleton_self failure)
      rw [Course.steps, List.append_nil]
      exact stops
  | look _ ih | current _ ih | settings _ ih | position _ ih | load _ ih | store _ ih =>
    exact ih relays handsOn

theorem fatalAt_of_mem_closing {n node : Source.Handle} {outcome : Except Stop (List Target.Handle)}
    {failure : Failure} (fatal : .fatal n failure ∈ job.closing node outcome) :
    job.FatalAt n failure := by
  rcases outcome with (message | aborted) | produced
  · rw [closing] at fatal
    split at fatal
    · cases List.mem_singleton.1 fatal
    · next strict =>
      cases List.mem_singleton.1 fatal
      exact .rule (Bool.eq_false_iff.2 strict) message
  · cases fatal
  · cases fatal

/-- A fatal step is a failure of the engine at that node. -/
theorem Runs.fatalAt {node : Source.Handle} {a : Action σ α} {w w' : Workspace σ} {course : Course}
    {result : α} (h : job.Runs node a w course result w') {n : Source.Handle} {failure : Failure}
    (fatal : .fatal n failure ∈ course.steps job node) : job.FatalAt n failure := by
  induction h with
  | done => cases fatal
  | emit _ ih =>
    rcases List.mem_cons.1 fatal with same | later
    · cases same
    · exact ih later
  | skip unknown _ ih =>
    rcases List.mem_append.1 fatal with here | later
    · obtain ⟨refusal, hr, same⟩ := List.mem_map.1 here
      cases same
      exact fatalAt_of_mem_refusals unknown hr
    · exact ih later
  | convert _ _ _ _ ihran ihgoes =>
    rcases List.mem_append.1 fatal with here | later
    · rcases List.mem_cons.1 here with same | here
      · cases same
      · rcases List.mem_append.1 here with inside | closing
        · exact ihran inside
        · exact fatalAt_of_mem_closing closing
    · exact ihgoes later
  | look _ ih | current _ ih | settings _ ih | position _ ih | load _ ih | store _ ih =>
    exact ih fatal

/-- The engine's own program hands on its failure. -/
theorem Runs.relays {node m : Source.Handle} {w w' : Workspace σ} {course : Course}
    {answer : Converted} (h : job.Runs node (.convert m .done) w course answer w') :
    course.Relays job (failuresIn answer) := by
  cases h with
  | skip unknown goes =>
    cases goes
    refine ⟨fun failure hf => ⟨rfl, ?_⟩, trivial⟩
    rw [← job.failuresIn_skip m w] at hf
    exact failuresIn_eq_of_mem hf
  | convert found ran settles goes =>
    cases goes
    exact ⟨fun failure hf => ⟨rfl, failuresIn_eq_of_mem hf⟩, trivial⟩

end Job

/-! ### Rules that hand on -/

namespace Action

/-- Whatever the engine answers, the program ends at once with `hand failure` where it is handed a
failure. -/
def HandsOn (hand : Failure → α) : Action σ α → Prop
  | .done _ => True
  | .emit _ next => ∀ h, (next h).HandsOn hand
  | .convert _ next =>
    (∀ failure, next (.error failure) = .done (hand failure)) ∧
      ∀ hs, (next (.ok hs)).HandsOn hand
  | .look _ next => ∀ node, (next node).HandsOn hand
  | .current next => ∀ node, (next node).HandsOn hand
  | .settings next => ∀ s, (next s).HandsOn hand
  | .position _ next => ∀ p, (next p).HandsOn hand
  | .load next => ∀ m, (next m).HandsOn hand
  | .store _ next => next.HandsOn hand

/-- A refusal of several nodes need not be handed on for this: it is not a failure yet. -/
theorem handsOn_convertSingle_bind {tree : τ} {node : Source.Handle} {hand : Failure → α}
    {f : Except Stop (Option Target.Handle) → Action σ α}
    (ends : ∀ failure, f (.error (.aborted failure)) = .done (hand failure))
    (refused : ∀ message, (f (.error (.failed message))).HandsOn hand)
    (goes : ∀ h, (f (.ok h)).HandsOn hand) : ((convertSingle tree node).bind f).HandsOn hand := by
  refine ⟨ends, fun hs => ?_⟩
  rcases hs with _ | ⟨h, _ | ⟨next, more⟩⟩
  · exact goes none
  · exact goes (some h)
  · exact refused _

end Action

namespace Rulebook

/-- Rules that hand on every failure at once. -/
def HandsOn (rules : Rulebook τ σ) : Prop :=
  ∀ kind rule, rules.find? kind = some rule →
    ∀ tree node, (rule tree node).HandsOn fun failure => .error (.aborted failure)

theorem HandsOn.course {job : Job τ σ} (rules : job.rules.HandsOn) {node : Source.Handle}
    {a : Action σ α} {w w' : Workspace σ} {course : Course} {result : α}
    (h : job.Runs node a w course result w') {hand : Failure → α} {out : α → List Failure}
    (handed : ∀ failure, out (hand failure) = [failure]) (handsOn : a.HandsOn hand) :
    course.HandsOn job ∧ course.Relays job (out result) := by
  induction h with
  | done => exact ⟨trivial, trivial⟩
  | emit _ ih => exact ih handed (handsOn _)
  | @skip _ _ m _ w _ _ _ _ goes ih =>
    obtain ⟨ends, later⟩ := handsOn
    have refused := job.failuresIn_skip m w
    cases answer : (job.skip m w).1 with
    | ok hs =>
      rw [answer] at ih refused
      obtain ⟨inside, relays⟩ := ih handed (later hs)
      exact ⟨inside, fun failure hf => absurd (refused ▸ hf) List.not_mem_nil, relays⟩
    | error failure =>
      rw [answer, ends] at goes
      rw [answer] at refused
      cases goes
      refine ⟨trivial, fun other hf => ⟨rfl, ?_⟩, trivial⟩
      rw [← refused] at hf
      rw [handed, List.mem_singleton.1 hf]
  | @convert _ _ m _ _ _ _ _ _ inner _ outcome answer _ found _ _ goes ihran ihgoes =>
    obtain ⟨ends, later⟩ := handsOn
    have within : inner.HandsOn job ∧ inner.Relays job (abortsIn outcome) :=
      ihran (fun _ => rfl) (rules _ _ found _ m)
    cases answer with
    | ok hs =>
      obtain ⟨beside, relays⟩ := ihgoes handed (later hs)
      exact ⟨⟨within.symm, beside⟩, fun failure hf => absurd hf List.not_mem_nil, relays⟩
    | error failure =>
      rw [ends] at goes
      cases goes
      refine ⟨⟨within.symm, trivial⟩, fun other hf => ⟨rfl, ?_⟩, trivial⟩
      rw [handed, List.mem_singleton.1 hf]
  | store _ ih => exact ih handed handsOn
  | look _ ih | current _ ih | settings _ ih | position _ ih | load _ ih =>
    exact ih handed (handsOn _)

end Rulebook

/-! ### A single node -/

namespace Job

/-- What is said where a node gives several nodes in the place of one. -/
def fanOut (job : Job τ σ) (m : Source.Handle) (count : Nat) : String :=
  "expected a single node from " ++ ParseTree.kind job.tree m ++ ", got " ++ toString count

/-- The rule for `n` has come to a point where it asks for a single node in the place of `m`, gets
a number of nodes, and hands the refusal on. -/
inductive FansOut (job : Job τ σ) (n m : Source.Handle) (w : Workspace σ) :
    Nat → Course → Workspace σ → Prop
  | intro {β : Type} {rule : Rule τ σ} {before : Action σ β}
    {f : β → Action σ (Except Stop (List Target.Handle))}
    {after : Except Stop (Option Target.Handle) → Action σ (Except Stop (List Target.Handle))}
    {x : β} {w₁ w₂ : Workspace σ} {c₁ c₂ : Course} {hs : List Target.Handle}
    (found : job.rules.find? (ParseTree.kind job.tree n) = some rule)
    (shape : rule job.tree n = before.bind f)
    (comes : job.Runs n before { w with current := n } c₁ x w₁)
    (asks : f x = (Action.convertSingle job.tree m).bind after)
    (gives : job.Runs n (.convert m .done) w₁ c₂ (.ok hs) w₂)
    (several : 2 ≤ hs.length)
    (handsOn : ∀ stop, after (.error stop) = .done (.error stop)) :
    FansOut job n m w hs.length (c₁.append c₂) w₂

variable {job : Job τ σ} {n m top : Source.Handle} {w w₂ : Workspace σ} {count : Nat}
  {inner : Course}

/-- An answer of several nodes is turned into a refusal. -/
theorem Runs.single {node : Source.Handle} {w w' : Workspace σ} {course : Course}
    {hs : List Target.Handle} (gives : job.Runs node (.convert m .done) w course (.ok hs) w')
    (several : 2 ≤ hs.length)
    {after : Except Stop (Option Target.Handle) → Action σ (Except Stop (List Target.Handle))}
    (handsOn : ∀ stop, after (.error stop) = .done (.error stop)) :
    job.Runs node ((Action.convertSingle job.tree m).bind after) w course
      (.error (.failed (job.fanOut m hs.length))) w' := by
  obtain ⟨h, next, more, rfl⟩ : ∃ h next more, hs = h :: next :: more := by
    match hs, several with
    | h :: next :: more, _ => exact ⟨h, next, more, rfl⟩
  rw [← course.append_ended]
  refine gives.bind _ ?_
  show job.Runs node (after (.error _)) w' .ended _ w'
  rw [handsOn]
  exact .done _ _

/-- The refusal is the failure of the rule that has asked. -/
theorem FansOut.refused (h : job.FansOut n m w count inner w₂) : ∃ rule,
    job.rules.find? (ParseTree.kind job.tree n) = some rule ∧
      job.Runs n (rule job.tree n) { w with current := n } inner
        (.error (.failed (job.fanOut m count))) w₂ := by
  obtain ⟨found, shape, comes, asks, gives, several, handsOn⟩ := h
  rename_i c₁ c₂ hs
  have single := gives.single several handsOn
  rw [← asks] at single
  have whole := comes.bind _ single
  rw [← shape] at whole
  exact ⟨_, found, whole⟩

end Job

/-! ### Conversions -/

namespace Converter

variable {c : Converter τ σ} {tree : τ} {s : Settings} {memory : σ} {report : Report σ}
  {course : Course}

/-- Rules that hand on failures whatever they are answered do so on every course. -/
theorem Takes.handsOn (rules : c.rules.HandsOn) (takes : c.Takes tree s memory course report) :
    course.HandsOn (c.job tree s) := by
  obtain ⟨-, answer, w, -, runs⟩ := takes
  have root : (Action.convert (ParseTree.root tree) .done : Action σ Converted).HandsOn .error :=
    ⟨fun _ => rfl, fun _ => trivial⟩
  have both : course.HandsOn (c.job tree s) ∧ course.Relays (c.job tree s) (failuresIn answer) :=
    Rulebook.HandsOn.course rules runs (fun _ => rfl) root
  exact both.1

/-- After the first fatal failure nothing more is done, and the conversion fails with it; and where
several nodes are given in the place of a single one, the failure is that of the node whose rule has
asked for it. -/
theorem first_failure_wins (takes : c.Takes tree s memory course report)
    (handsOn : course.HandsOn (c.job tree s)) :
    (∀ depth report', c.convert depth tree s memory = some report' ↔
      course.depth ≤ depth ∧ report' = report) ∧
    (∀ before node failure after,
      course.steps (c.job tree s) (ParseTree.root tree) = before ++ .fatal node failure :: after →
        (c.job tree s).FatalAt node failure ∧
          after = [] ∧ Step.Quiet before ∧ report.outcome = .error failure) ∧
    ∀ n m w count inner w₂, (c.job tree s).FansOut n m w count inner w₂ →
      let message := (c.job tree s).fanOut m count
      let failure : RuleFailure :=
        ⟨ParseTree.kind tree n, (c.job tree s).positionOf n, message⟩
      ∀ top, ∃ answer w',
        (c.job tree s).Runs top (.convert n .done) w
          (.converted n inner (.error (.failed message)) answer .ended) answer w' ∧
        (s.allowInvalid = false → answer = .error (.rule failure) ∧
          (c.job tree s).closing n (.error (.failed message)) = [.fatal n (.rule failure)]) ∧
        (s.allowInvalid = true → ∃ h, answer = .ok [h] ∧
          w'.failures.back? = some (h, failure)) := by
  refine ⟨fun depth report' => takes.convert_eq_some_iff, ?first, ?fan⟩
  case first =>
    intro before node failure after split
    obtain ⟨-, answer, w, rfl, runs⟩ := takes
    have stops := runs.stops runs.relays handsOn
    obtain ⟨rfl, quiet, comes⟩ := stops.at_fatal split
    refine ⟨runs.fatalAt (split ▸ List.mem_append_right _ (List.mem_cons_self ..)), rfl, quiet, ?_⟩
    cases answer with
    | ok produced => cases comes
    | error failure' =>
      cases comes
      rfl
  case fan =>
    intro n m w count inner w₂ fansOut message failure top
    obtain ⟨rule, found, ran⟩ := fansOut.refused
    refine ⟨_, _, .convert found ran (Prod.eta _).symm (.done _ _), fun strict => ?_,
      fun allowed => ?_⟩
    · have strict : (c.job tree s).settings.allowInvalid = false := strict
      simp only [Job.settle, Job.closing, strict, Bool.false_eq_true, if_false]
      exact ⟨rfl, rfl⟩
    · have allowed : (c.job tree s).settings.allowInvalid = true := allowed
      simp only [Job.settle, allowed, if_true, Job.substitute]
      exact ⟨_, rfl, Array.back?_push⟩

end Converter

/-! ### A small conversion that fails -/

namespace Parens

/-- Gives two nodes. -/
def twins : Rule Source.Tree Unit := fun _ _ =>
  .emit ⟨"Left", [], .source, false⟩ fun left =>
  .emit ⟨"Right", [], .source, false⟩ fun right => .done (.ok [left, right])

def handOn : Except Stop (Option Target.Handle) → Action Unit (Except Stop (List Target.Handle))
  | .error stop => .done (.error stop)
  | .ok h => .done (.ok h.toList)

/-- Asks for a single node in the place of the first name. -/
def sole : Rule Source.Tree Unit := fun tree _ => (Action.convertSingle tree ⟨1⟩).bind handOn

def picky : Converter Source.Tree Unit :=
  ⟨(Rulebook.empty.insert "List" sole).insert "Name" twins, none, none⟩

theorem find_sole : picky.rules.find? "List" = some sole := by simp [picky]

theorem find_twins : picky.rules.find? "Name" = some twins := by simp [picky]

theorem handsOn_picky : picky.rules.HandsOn := by
  refine Rulebook.forall_insert (Rulebook.forall_insert Rulebook.forall_empty ?list) ?name
  case name => exact fun tree node left right => trivial
  case list =>
    intro tree node
    exact Action.handsOn_convertSingle_bind (fun _ => rfl) (fun _ => trivial) fun _ => trivial

theorem fansOut_picky : ∃ inner w, (picky.job tree .standard).FansOut ⟨0⟩ ⟨1⟩
    (Converter.begun tree ()) 2 inner w ∧ inner.depth = 1 := by
  have shape : sole tree ⟨0⟩ = (Action.done () : Action Unit Unit).bind fun _ => sole tree ⟨0⟩ := rfl
  have asks : sole tree ⟨0⟩ = (Action.convertSingle tree ⟨1⟩).bind handOn := rfl
  have gives : (picky.job tree .standard).Runs ⟨0⟩ (.convert ⟨1⟩ .done)
      { Converter.begun tree () with current := ⟨0⟩ } _ (.ok [_, _]) _ :=
    .convert find_twins (.emit (.emit (.done _ _))) rfl (.done _ _)
  exact ⟨_, _, .intro find_sole shape (.done () _) asks gives (Nat.le_refl 2) fun _ => rfl, rfl⟩

end Parens

theorem Converter.first_failure_wins_parens :
    let job := Parens.picky.job Parens.tree .standard
    let failure : Failure :=
      .rule ⟨"List", job.positionOf ⟨0⟩, "expected a single node from Name, got 2"⟩
    ∃ course report before inner w,
      Parens.picky.Takes Parens.tree .standard () course report ∧ course.HandsOn job ∧
      Parens.picky.convert 2 Parens.tree .standard () = some report ∧
      course.steps job ⟨0⟩ = before ++ [.fatal ⟨0⟩ failure] ∧ report.outcome = .error failure ∧
      job.FansOut ⟨0⟩ ⟨1⟩ (begun Parens.tree ()) 2 inner w ∧
      ∃ answer w', job.Runs ⟨0⟩ (.convert ⟨0⟩ .done) (begun Parens.tree ()) course answer w' ∧
        answer = .error failure := by
  intro job failure
  obtain ⟨inner, w, fansOut, deep⟩ := Parens.fansOut_picky
  have said : job.fanOut ⟨1⟩ 2 = "expected a single node from Name, got 2" := by decide
  obtain ⟨rule, found, ran⟩ := fansOut.refused
  rw [said] at ran
  have takes : Parens.picky.Takes Parens.tree .standard () _ _ :=
    ⟨⟨by decide, rfl⟩, _, _, rfl, .convert found ran rfl (.done _ _)⟩
  have handsOn := takes.handsOn Parens.handsOn_picky
  obtain ⟨converts, first, fan⟩ := first_failure_wins takes handsOn
  obtain ⟨answer, w', runs, strict, -⟩ := fan ⟨0⟩ ⟨1⟩ _ _ _ _ fansOut ⟨0⟩
  obtain ⟨fatal, closing⟩ := strict rfl
  rw [said] at fatal closing runs
  subst fatal
  have enough : max (inner.depth + 1) 0 ≤ 2 := by rw [deep]; decide
  have split : Course.steps job ⟨0⟩
      (.converted ⟨0⟩ inner (.error (.failed "expected a single node from Name, got 2"))
        (.error failure) .ended) = (.started ⟨0⟩ :: inner.steps job ⟨0⟩) ++ [.fatal ⟨0⟩ failure] := by
    rw [Course.steps, closing, Course.steps, List.append_nil]
    rfl
  exact ⟨_, _, _, inner, w, takes, handsOn, (converts 2 _).2 ⟨enough, rfl⟩, split,
    (first _ _ _ _ split).2.2.2, fansOut, _, w', runs, rfl⟩

end TreeConversion
