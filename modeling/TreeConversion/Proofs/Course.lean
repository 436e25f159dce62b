import TreeConversion.Conversion.Converter
import Mathlib.Data.List.Basic

/-!
# The course of a conversion

A `Course` is all that a rule asked for, one request after the other, together with the whole course
of each rule that ran on its behalf.  `Job.Runs` says how a program runs for a source node and which
course it takes; here it is the nesting of the rules, and no state, that tells for which node a rule
runs.  Whatever the engine answers has come about in this way (`Job.exists_runs`), every course is
run by the engine if that may go as deep (`Job.Runs.run_eq`), and a program takes one course only
(`Job.Runs.unique`).
-/

namespace TreeConversion

/-- What a program asked for and what came of it. -/
inductive Course where
  | ended
  | emitted (draft : Draft) (handle : Target.Handle) (node : Target.Node) (rest : Course)
  /-- A source node without a rule was to be converted. -/
  | skipped (node : Source.Handle) (rest : Course)
  /-- The rule for a source node ran. -/
  | converted (node : Source.Handle) (inner : Course) (outcome : Except Stop (List Target.Handle))
      (answer : Converted) (rest : Course)

/-- One course after the other. -/
def Course.append : Course → Course → Course
  | ended, later => later
  | emitted draft handle node rest, later => emitted draft handle node (rest.append later)
  | skipped node rest, later => skipped node (rest.append later)
  | converted node inner outcome answer rest, later =>
    converted node inner outcome answer (rest.append later)

theorem Course.append_ended (course : Course) : course.append .ended = course := by
  induction course with
  | ended => rfl
  | emitted draft handle node rest ih => rw [append, ih]
  | skipped node rest ih => rw [append, ih]
  | converted node inner outcome answer rest _ ih => rw [append, ih]

/-- How many nodes are being converted at the same time, at most. -/
def Course.depth : Course → Nat
  | ended => 0
  | emitted _ _ _ rest => rest.depth
  | skipped _ rest => max 1 rest.depth
  | converted _ inner _ _ rest => max (inner.depth + 1) rest.depth

theorem Course.depth_append (course later : Course) :
    (course.append later).depth = max course.depth later.depth := by
  induction course with
  | ended => exact (Nat.zero_max _).symm
  | emitted draft handle node rest ih => exact ih
  | skipped node rest ih => rw [append, depth, depth, ih, Nat.max_assoc]
  | converted node inner outcome answer rest _ ih => rw [append, depth, depth, ih, Nat.max_assoc]

/-- The node that a draft gives at a span. -/
def Draft.made (d : Draft) (lines : LineTable) (span : Span) : Target.Node where
  kind := d.kind
  span := some span
  location := some (lines.location span)
  fields := d.fields
  synthetic := d.synthetic

namespace Job

variable {τ σ α : Type} [ParseTree τ] (job : Job τ σ)

/-- The node that a draft gives for a source node. -/
def made (node : Source.Handle) (draft : Draft) (w : Workspace σ) : Target.Node :=
  draft.made job.lines (w.spanOf (ParseTree.span job.tree node) draft)

/-- A program, run for a source node from one state to another with a result, takes a course. -/
inductive Runs : {α : Type} → Source.Handle → Action σ α → Workspace σ → Course → α →
    Workspace σ → Prop
  | done {α : Type} {node : Source.Handle} (result : α) (w : Workspace σ) :
    Runs node (.done result) w .ended result w
  | emit {α : Type} {node : Source.Handle} {draft : Draft} {next : Target.Handle → Action σ α}
      {w w' : Workspace σ} {rest : Course} {result : α}
      (goes : Runs node (next (job.emitFor node draft w).1) (job.emitFor node draft w).2 rest
        result w') :
    Runs node (.emit draft next) w
      (.emitted draft (job.emitFor node draft w).1 (job.made node draft w) rest) result w'
  | skip {α : Type} {node m : Source.Handle} {next : Converted → Action σ α}
      {w w' : Workspace σ} {rest : Course} {result : α}
      (unknown : job.rules.find? (ParseTree.kind job.tree m) = none)
      (goes : Runs node (next (job.skip m w).1) (job.skip m w).2 rest result w') :
    Runs node (.convert m next) w (.skipped m rest) result w'
  | convert {α : Type} {node m : Source.Handle} {next : Converted → Action σ α}
      {w after settled w' : Workspace σ} {rule : Rule τ σ} {inner rest : Course}
      {outcome : Except Stop (List Target.Handle)} {answer : Converted} {result : α}
      (found : job.rules.find? (ParseTree.kind job.tree m) = some rule)
      (ran : Runs m (rule job.tree m) { w with current := m } inner outcome after)
      (settles : job.settle m w.checkpoint outcome { after with current := w.current } =
        (answer, settled))
      (goes : Runs node (next answer) settled rest result w') :
    Runs node (.convert m next) w (.converted m inner outcome answer rest) result w'
  | look {α : Type} {node : Source.Handle} {h : Target.Handle}
      {next : Option Target.Node → Action σ α} {w w' : Workspace σ} {course : Course} {result : α}
      (goes : Runs node (next (w.node? h)) w course result w') :
    Runs node (.look h next) w course result w'
  | current {α : Type} {node : Source.Handle} {next : Source.Handle → Action σ α}
      {w w' : Workspace σ} {course : Course} {result : α}
      (goes : Runs node (next node) w course result w') :
    Runs node (.current next) w course result w'
  | settings {α : Type} {node : Source.Handle} {next : Settings → Action σ α}
      {w w' : Workspace σ} {course : Course} {result : α}
      (goes : Runs node (next job.settings) w course result w') :
    Runs node (.settings next) w course result w'
  | position {α : Type} {node m : Source.Handle} {next : Position → Action σ α}
      {w w' : Workspace σ} {course : Course} {result : α}
      (goes : Runs node (next (job.positionOf m)) w course result w') :
    Runs node (.position m next) w course result w'
  | load {α : Type} {node : Source.Handle} {next : σ → Action σ α}
      {w w' : Workspace σ} {course : Course} {result : α}
      (goes : Runs node (next w.memory) w course result w') :
    Runs node (.load next) w course result w'
  | store {α : Type} {node : Source.Handle} {memory : σ} {next : Action σ α}
      {w w' : Workspace σ} {course : Course} {result : α}
      (goes : Runs node next { w with memory } course result w') :
    Runs node (.store memory next) w course result w'

/-! ### What the engine does by itself -/

/-- Leaving a node out changes no more than what has been told. -/
theorem skip_eq (node : Source.Handle) (w : Workspace σ) :
    ∃ warned log, (job.skip node w).2 = { w with warned, log } ∧ w.warned <:+ warned := by
  simp only [skip]
  split
  · exact ⟨_, _, rfl, List.suffix_refl _⟩
  · split
    · exact ⟨_, _, rfl, List.suffix_refl _⟩
    · exact ⟨_, _, rfl, List.suffix_cons _ _⟩

@[simp] theorem current_skip (node : Source.Handle) (w : Workspace σ) :
    (job.skip node w).2.current = w.current := by
  obtain ⟨warned, log, h, -⟩ := job.skip_eq node w
  rw [h]

@[simp] theorem current_settle (node : Source.Handle) (c : Workspace.Checkpoint)
    (outcome : Except Stop (List Target.Handle)) (w : Workspace σ) :
    (job.settle node c outcome w).2.current = w.current := by
  rcases outcome with (message | failure) | produced
  · simp only [settle]
    split <;> rfl
  · rfl
  · rfl

/-! ### Every answer has a course -/

variable {job}

/-- What is asked of a way to convert nodes: each of its answers leaves the running rule in its
place and can be put in front of the course that the rule takes from there, and no more than `depth`
nodes are converted at the same time for it. -/
def Answers (job : Job τ σ) (depth : Nat)
    (convert : Source.Handle → Workspace σ → Option (Converted × Workspace σ)) : Prop :=
  ∀ m w answer w', convert m w = some (answer, w') → w'.current = w.current ∧
    ∀ {α : Type} (next : Converted → Action σ α) (rest : Course) (result : α) (v : Workspace σ),
      job.Runs w.current (next answer) w' rest result v → ∃ course,
        job.Runs w.current (.convert m next) w course result v ∧ course.depth ≤ max depth rest.depth

theorem Answers.exists_runs {depth : Nat}
    {convert : Source.Handle → Workspace σ → Option (Converted × Workspace σ)}
    (answers : job.Answers depth convert) {a : Action σ α} {w w' : Workspace σ} {result : α}
    (ran : job.run convert a w = some (result, w')) :
    ∃ course, job.Runs w.current a w course result w' ∧ course.depth ≤ depth := by
  induction a generalizing w with
  | done r =>
    obtain ⟨rfl, rfl⟩ := Prod.mk.inj (Option.some.inj ran)
    exact ⟨_, .done r w, Nat.zero_le depth⟩
  | emit draft next ih =>
    obtain ⟨course, goes, deep⟩ := ih _ ran
    exact ⟨_, .emit goes, deep⟩
  | convert m next ih =>
    simp only [run] at ran
    split at ran
    · next answer w₁ hc =>
      obtain ⟨hcur, course⟩ := answers m w answer w₁ hc
      obtain ⟨rest, goes, deep⟩ := ih _ ran
      obtain ⟨course, runs, deep'⟩ := course next rest _ _ (hcur ▸ goes)
      exact ⟨course, runs, by omega⟩
    · cases ran
  | look h next ih =>
    obtain ⟨course, goes, deep⟩ := ih _ ran
    exact ⟨course, .look goes, deep⟩
  | current next ih =>
    obtain ⟨course, goes, deep⟩ := ih _ ran
    exact ⟨course, .current goes, deep⟩
  | settings next ih =>
    obtain ⟨course, goes, deep⟩ := ih _ ran
    exact ⟨course, .settings goes, deep⟩
  | position m next ih =>
    obtain ⟨course, goes, deep⟩ := ih _ ran
    exact ⟨course, .position goes, deep⟩
  | load next ih =>
    obtain ⟨course, goes, deep⟩ := ih _ ran
    exact ⟨course, .load goes, deep⟩
  | store memory next ih =>
    obtain ⟨course, goes, deep⟩ := ih ran
    exact ⟨course, .store goes, deep⟩

theorem answers_convert (job : Job τ σ) (depth : Nat) : job.Answers depth (job.convert depth) := by
  induction depth with
  | zero => intro m w answer w' h; cases h
  | succ depth ih =>
    intro m w answer w' h
    rw [convert] at h
    split at h
    · next unknown =>
      obtain ⟨rfl, rfl⟩ := Prod.mk.inj (Option.some.inj h)
      refine ⟨job.current_skip m w, fun next rest result v goes => ⟨_, .skip unknown goes, ?_⟩⟩
      exact Nat.max_le.2 ⟨by omega, Nat.le_max_right ..⟩
    · next rule found =>
      split at h
      · next outcome after ran =>
        obtain ⟨inner, runs, deep⟩ := ih.exists_runs ran
        have settles := Option.some.inj h
        refine ⟨?_, fun next rest result v goes => ⟨_, .convert found runs settles goes, ?_⟩⟩
        · have kept := job.current_settle m w.checkpoint outcome { after with current := w.current }
          rwa [settles] at kept
        · exact Nat.max_le.2 ⟨by omega, Nat.le_max_right ..⟩
      · cases h

/-- A program that the engine runs takes a course, which is as deep as the engine may go at most. -/
theorem exists_runs {depth : Nat} {a : Action σ α} {w w' : Workspace σ} {result : α}
    (ran : job.run (job.convert depth) a w = some (result, w')) :
    ∃ course, job.Runs w.current a w course result w' ∧ course.depth ≤ depth :=
  (answers_convert job depth).exists_runs ran

theorem exists_runs_convert {depth : Nat} {node : Source.Handle} {w w' : Workspace σ}
    {answer : Converted} (h : job.convert depth node w = some (answer, w')) :
    ∃ course, job.Runs w.current (.convert node .done) w course answer w' ∧ course.depth ≤ depth :=
  exists_runs (by rw [run, h]; rfl)

/-- A course is run by the engine if that may go as deep as the course does. -/
theorem Runs.run_eq {node : Source.Handle} {a : Action σ α} {w w' : Workspace σ} {course : Course}
    {result : α} (h : job.Runs node a w course result w') (here : w.current = node) {depth : Nat}
    (enough : course.depth ≤ depth) : job.run (job.convert depth) a w = some (result, w') := by
  induction h generalizing depth with
  | done => rfl
  | emit _ ih =>
    subst here
    exact ih rfl enough
  | @skip _ _ m next w w' rest result unknown _ ih =>
    obtain ⟨one, later⟩ := Nat.max_le.1 enough
    obtain ⟨below, rfl⟩ : ∃ n, depth = n + 1 := ⟨depth - 1, by omega⟩
    have skipped : job.convert (below + 1) m w = some (job.skip m w) := by
      rw [Job.convert, unknown]
    rw [run, skipped]
    exact ih (by rw [current_skip, here]) later
  | @convert _ _ m next w after settled w' rule inner rest outcome answer result found ran settles
      goes ihran ihgoes =>
    have back : settled.current = w.current := by
      have kept := job.current_settle m w.checkpoint outcome { after with current := w.current }
      rwa [settles] at kept
    obtain ⟨inside, later⟩ := Nat.max_le.1 enough
    obtain ⟨below, rfl⟩ : ∃ n, depth = n + 1 := ⟨depth - 1, by omega⟩
    have converted : job.convert (below + 1) m w = some (answer, settled) := by
      have ran := ihran rfl (Nat.le_of_succ_le_succ inside)
      rw [Job.convert, found]
      simp only [ran, settles]
    rw [run, converted]
    exact ihgoes (back.trans here) later
  | look _ ih => exact ih here enough
  | current _ ih =>
    subst here
    exact ih rfl enough
  | settings _ ih => exact ih here enough
  | position _ ih => exact ih here enough
  | load _ ih => exact ih here enough
  | store _ ih => exact ih here enough

theorem Runs.convert_eq {node m : Source.Handle} {w w' : Workspace σ} {course : Course}
    {answer : Converted} (h : job.Runs node (.convert m .done) w course answer w')
    (here : w.current = node) {depth : Nat} (enough : course.depth ≤ depth) :
    job.convert depth m w = some (answer, w') := by
  have ran := h.run_eq here enough
  rw [run] at ran
  split at ran
  · next answer' w'' same =>
    cases ran
    exact same
  · cases ran

/-- A program takes one course only, with one result. -/
theorem Runs.unique {node : Source.Handle} {a : Action σ α} {w v v' : Workspace σ}
    {course course' : Course} {result result' : α} (h : job.Runs node a w course result v)
    (h' : job.Runs node a w course' result' v') :
    course = course' ∧ result = result' ∧ v = v' := by
  induction h generalizing course' v' with
  | done => cases h'; exact ⟨rfl, rfl, rfl⟩
  | emit _ ih =>
    cases h' with
    | emit goes =>
      obtain ⟨rfl, same⟩ := ih goes
      exact ⟨rfl, same⟩
  | skip unknown _ ih =>
    cases h' with
    | skip _ goes =>
      obtain ⟨rfl, same⟩ := ih goes
      exact ⟨rfl, same⟩
    | convert found => cases unknown.symm.trans found
  | convert found _ settles _ ihran ihgoes =>
    cases h' with
    | skip unknown => cases unknown.symm.trans found
    | convert found' ran' settles' goes' =>
      obtain rfl := Option.some.inj (found.symm.trans found')
      obtain ⟨rfl, rfl, rfl⟩ := ihran ran'
      obtain ⟨rfl, rfl⟩ := Prod.mk.inj (settles.symm.trans settles')
      obtain ⟨rfl, same⟩ := ihgoes goes'
      exact ⟨rfl, same⟩
  | look _ ih => cases h' with | look goes => exact ih goes
  | current _ ih => cases h' with | current goes => exact ih goes
  | settings _ ih => cases h' with | settings goes => exact ih goes
  | position _ ih => cases h' with | position goes => exact ih goes
  | load _ ih => cases h' with | load goes => exact ih goes
  | store _ ih => cases h' with | store goes => exact ih goes

/-- A program that goes on with another takes the courses of the two one after the other. -/
theorem Runs.bind {β : Type} {node : Source.Handle} {a : Action σ α} {w w' w'' : Workspace σ}
    {course later : Course} {x : α} {result : β} (h : job.Runs node a w course x w')
    (f : α → Action σ β) (goes : job.Runs node (f x) w' later result w'') :
    job.Runs node (a.bind f) w (course.append later) result w'' := by
  induction h with
  | done => exact goes
  | emit _ ih => exact .emit (ih f goes)
  | skip unknown _ ih => exact .skip unknown (ih f goes)
  | convert found ran settles _ _ ihgoes => exact .convert found ran settles (ihgoes f goes)
  | look _ ih => exact .look (ih f goes)
  | current _ ih => exact .current (ih f goes)
  | settings _ ih => exact .settings (ih f goes)
  | position _ ih => exact .position (ih f goes)
  | load _ ih => exact .load (ih f goes)
  | store _ ih => exact .store (ih f goes)

end Job

/-! ### A small conversion -/

namespace Parens

/-- A list of two names in parentheses, the second of which is a blot. -/
def tree : Source.Tree where
  text := "(a, ?)"
  nodes := #[⟨"List", ⟨0, 6⟩, [⟨1⟩, ⟨2⟩], []⟩, ⟨"Name", ⟨1, 2⟩, [], []⟩, ⟨"Blot", ⟨4, 5⟩, [], []⟩]
  root := ⟨0⟩
  diagnostics := []
  tokens := []
  comments := []

def name : Rule Source.Tree Unit := fun _ _ =>
  .emit ⟨"Identifier", [], .source, false⟩ fun h => .done (.ok [h])

/-- Fails after it has emitted a node. -/
def blot : Rule Source.Tree Unit := fun _ _ =>
  .emit ⟨"Scratch", [], .source, false⟩ fun _ => .done (.error (.failed "no meaning"))

/-- Leaves a node unattached. -/
def list : Rule Source.Tree Unit := fun tree node =>
  (Action.convertChildren tree node).bind fun
    | .error failure => .done (.error (.aborted failure))
    | .ok hs =>
      .emit ⟨"Scratch", [], .source, true⟩ fun _ =>
      .emit ⟨"Sequence", [("items", .nodes hs)], .children, false⟩ fun h => .done (.ok [h])

def rules : Rulebook Source.Tree Unit :=
  ((Rulebook.empty.insert "List" list).insert "Name" name).insert "Blot" blot

def settings : Settings := { Settings.standard with allowInvalid := true }

def job : Job Source.Tree Unit := ⟨tree, rules, settings, .ofText tree.text⟩

theorem find_list : rules.find? "List" = some list := by simp [rules]

theorem find_name : rules.find? "Name" = some name := by simp [rules]

theorem find_blot : rules.find? "Blot" = some blot := by simp [rules]

end Parens

end TreeConversion
