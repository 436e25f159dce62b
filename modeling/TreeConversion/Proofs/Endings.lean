import TreeConversion.Proofs.Harvest

/-!
# How conversions end

A conversion whose settings and text are in order hands its root to the engine and wraps up the
answer (`Converter.convert_eq`).  So it ends with a report just when the root takes a course that is
not too deep (`Takes.convert_eq_some_iff`), and the course is all that rules did on the way.  With
those that do not come to the engine it is `Converter.convert_eq_some_iff`.
-/

namespace TreeConversion.Converter

variable {τ σ : Type} [ParseTree τ] {c : Converter τ σ} {depth : Nat} {tree : τ} {s : Settings}
  {memory : σ} {report report' : Report σ} {course : Course}

/-! ### Before any rule -/

/-- Nothing keeps the root from the engine. -/
structure Accepts (c : Converter τ σ) (tree : τ) (s : Settings) : Prop where
  settings : c.problem? s = none
  text : ParseTree.diagnostics tree = []

theorem exists_of_not_accepts (refuses : ¬ c.Accepts tree s) :
    (∃ problem, c.problem? s = some problem) ∨
      c.problem? s = none ∧ ∃ first rest, ParseTree.diagnostics tree = first :: rest := by
  cases hp : c.problem? s with
  | some problem => exact .inl ⟨problem, rfl⟩
  | none =>
    cases hd : ParseTree.diagnostics tree with
    | nil => exact absurd ⟨hp, hd⟩ refuses
    | cons first rest => exact .inr ⟨rfl, first, rest, rfl⟩

/-- What is told of every conversion at first. -/
def opening (tree : τ) : Array Event := #[.began (ParseTree.kind tree (ParseTree.root tree))]

theorem convert_of_problem {problem : SettingsProblem} (bad : c.problem? s = some problem)
    (depth : Nat) (tree : τ) (memory : σ) : c.convert depth tree s memory =
      some ⟨.error (.settings problem), opening tree, memory⟩ := by
  simp only [convert, bad, opening]

theorem convert_of_refusal {failure : SourceFailure} (fine : c.problem? s = none)
    (bad : refusal? (.ofText (ParseTree.text tree)) (ParseTree.diagnostics tree) = some failure)
    (depth : Nat) (memory : σ) : c.convert depth tree s memory =
      some ⟨.error (.source failure), opening tree ++ refusalLog (ParseTree.diagnostics tree),
        memory⟩ := by
  simp only [convert, fine, bad, opening]

/-! ### After the last rule -/

/-- The report that is made of the answer for the root and of the state that the engine leaves. -/
def wrapUp (c : Converter τ σ) (tree : τ) (s : Settings) : Converted → Workspace σ → Report σ
  | .error failure, w => ⟨.error failure, w.log, w.memory⟩
  | .ok [root], w =>
    let h := w.harvest root
    let (conversion, told) := c.finish s (c.job tree s).lines h
    ⟨.ok conversion, w.log ++ dropLog w.nodes.size h.tree.size ++ told, w.memory⟩
  | .ok produced, w =>
    ⟨.error (.rule ((c.job tree s).rootFailure produced.length)), w.log, w.memory⟩

theorem convert_eq (accepts : c.Accepts tree s) (depth : Nat) (memory : σ) :
    c.convert depth tree s memory =
      ((c.job tree s).convert depth (ParseTree.root tree) (begun tree memory)).map
        fun (answer, w) => c.wrapUp tree s answer w := by
  simp only [convert, accepts.settings, accepts.text, refusal?, Job.harvest]
  change _ = ((c.job tree s).convert depth (ParseTree.root (c.job tree s).tree)
    (begun tree memory)).map _
  cases converted : (c.job tree s).convert depth (ParseTree.root (c.job tree s).tree)
      (begun tree memory) with
  | none =>
    rw [job, begun] at converted
    simp only [converted, Option.map_none]
  | some r =>
    rw [job, begun] at converted
    obtain ⟨failure | produced, w⟩ := r
    · simp only [converted, Option.map_some, wrapUp]
    · rcases produced with _ | ⟨root, _ | ⟨next, more⟩⟩ <;>
        simp only [converted, Option.map_some, wrapUp, job]

/-! ### Ends -/

/-- The conversion ends with this report if rules may be nested deep enough. -/
def Ends (c : Converter τ σ) (tree : τ) (s : Settings) (memory : σ) (report : Report σ) : Prop :=
  ∃ depth, c.convert depth tree s memory = some report

/-- The conversion comes to the engine, takes this course there and ends with this report. -/
structure Takes (c : Converter τ σ) (tree : τ) (s : Settings) (memory : σ) (course : Course)
    (report : Report σ) : Prop where
  accepts : c.Accepts tree s
  runs : ∃ answer w, report = c.wrapUp tree s answer w ∧
    (c.job tree s).Runs (ParseTree.root tree) (.convert (ParseTree.root tree) .done)
      (begun tree memory) course answer w

theorem Takes.convert_eq (h : c.Takes tree s memory course report) {depth : Nat}
    (enough : course.depth ≤ depth) : c.convert depth tree s memory = some report := by
  obtain ⟨accepts, answer, w, rfl, runs⟩ := h
  rw [Converter.convert_eq accepts, runs.convert_eq rfl enough, Option.map_some]

theorem Takes.ends (h : c.Takes tree s memory course report) : c.Ends tree s memory report :=
  ⟨course.depth, h.convert_eq (Nat.le_refl _)⟩

theorem Takes.unique {course' : Course} (h : c.Takes tree s memory course report)
    (h' : c.Takes tree s memory course' report') : course = course' ∧ report = report' := by
  obtain ⟨-, answer, w, rfl, runs⟩ := h
  obtain ⟨-, answer', w', rfl, runs'⟩ := h'
  obtain ⟨rfl, rfl, rfl⟩ := runs.unique runs'
  exact ⟨rfl, rfl⟩

theorem exists_takes (converted : c.convert depth tree s memory = some report)
    (accepts : c.Accepts tree s) :
    ∃ course, c.Takes tree s memory course report ∧ course.depth ≤ depth := by
  rw [convert_eq accepts, Option.map_eq_some_iff] at converted
  obtain ⟨⟨answer, w⟩, same, rfl⟩ := converted
  obtain ⟨course, runs, deep⟩ := Job.exists_runs_convert same
  exact ⟨course, ⟨accepts, answer, w, rfl, runs⟩, deep⟩

theorem Ends.exists_takes (h : c.Ends tree s memory report) (accepts : c.Accepts tree s) :
    ∃ course, c.Takes tree s memory course report := by
  obtain ⟨depth, converted⟩ := h
  obtain ⟨course, takes, -⟩ := Converter.exists_takes converted accepts
  exact ⟨course, takes⟩

/-- What the conversion gives for each depth that it may go to is told by its course. -/
theorem Takes.convert_eq_some_iff (h : c.Takes tree s memory course report) :
    c.convert depth tree s memory = some report' ↔ course.depth ≤ depth ∧ report' = report := by
  constructor
  · intro converted
    obtain ⟨course', takes, deep⟩ := Converter.exists_takes converted h.accepts
    obtain ⟨rfl, rfl⟩ := h.unique takes
    exact ⟨deep, rfl⟩
  · rintro ⟨enough, rfl⟩
    exact h.convert_eq enough

/-- The conversion goes this course, if it comes to the engine, and ends with this report. -/
inductive Goes (c : Converter τ σ) (tree : τ) (s : Settings) (memory : σ) :
    Option Course → Report σ → Prop
  | refused {report : Report σ} (refuses : ¬ c.Accepts tree s)
    (ends : c.Ends tree s memory report) : Goes c tree s memory none report
  | taken {course : Course} {report : Report σ} (takes : c.Takes tree s memory course report) :
    Goes c tree s memory (some course) report

/-- What keeps the root from the engine does so at any depth. -/
theorem exists_refused (refuses : ¬ c.Accepts tree s) (memory : σ) :
    ∃ report, ∀ depth, c.convert depth tree s memory = some report := by
  rcases exists_of_not_accepts refuses with ⟨problem, bad⟩ | ⟨fine, first, rest, found⟩
  · exact ⟨_, fun depth => convert_of_problem bad depth tree memory⟩
  · exact ⟨_, fun depth => convert_of_refusal fine (congrArg (refusal? _) found) depth memory⟩

/-- A conversion that may go to some depth gives a report just when it ends with it and its course, if
any, is not deeper. -/
theorem convert_eq_some_iff : c.convert depth tree s memory = some report ↔
    ∃ course, c.Goes tree s memory course report ∧ ∀ d ∈ course, d.depth ≤ depth := by
  constructor
  · intro converted
    by_cases accepts : c.Accepts tree s
    · obtain ⟨course, takes, deep⟩ := exists_takes converted accepts
      exact ⟨some course, .taken takes, by simpa using deep⟩
    · have shallow : ∀ d ∈ (none : Option Course), d.depth ≤ depth :=
        fun d hd => absurd hd (Option.not_mem_none d)
      exact ⟨none, .refused accepts ⟨depth, converted⟩, shallow⟩
  · rintro ⟨course, goes, deep⟩
    cases goes with
    | refused refuses ends =>
      obtain ⟨report', always⟩ := exists_refused refuses memory
      obtain ⟨depth', converted⟩ := ends
      rw [always, ← always depth', converted]
    | taken takes => exact takes.convert_eq (deep _ (Option.mem_some_self _))

end TreeConversion.Converter
