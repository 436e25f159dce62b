import TreeConversion.Conversion.Rulebook
import TreeConversion.Conversion.Workspace

/-!
# Converting source nodes

`convert` runs the rule for the kind of a node; the rule may have further nodes converted.  A node
without a rule is left out or makes the conversion fail, and a rule that fails gives way to a
placeholder or makes the conversion fail.  How deep rules may be nested is bounded by the first
argument, and the answer is `none` if that is not enough.
-/

namespace TreeConversion

/-- What stays the same throughout a conversion. -/
structure Job (τ σ : Type) where
  tree : τ
  rules : Rulebook τ σ
  settings : Settings
  lines : LineTable

/-- What comes of having a node converted. -/
abbrev Converted := Except Failure (List Target.Handle)

namespace Job

variable {τ σ α : Type} [ParseTree τ]

/-- Where a source node starts. -/
def positionOf (job : Job τ σ) (node : Source.Handle) : Position :=
  job.lines.position (ParseTree.span job.tree node).start

/-- Emits a node for the given source node. -/
def emitFor (job : Job τ σ) (node : Source.Handle) (draft : Draft) (w : Workspace σ) :
    Target.Handle × Workspace σ :=
  w.emitFor job.lines node (ParseTree.span job.tree node) draft

/-- The failure of the rule for a node. -/
def ruleFailure (job : Job τ σ) (node : Source.Handle) (message : String) : RuleFailure :=
  ⟨ParseTree.kind job.tree node, job.positionOf node, message⟩

/-! ### A node without a rule -/

/-- Leaves a node out, warning of its kind once. -/
def skip (job : Job τ σ) (node : Source.Handle) (w : Workspace σ) : Converted × Workspace σ :=
  let kind := ParseTree.kind job.tree node
  let position := job.positionOf node
  if job.settings.failOnUnknown then (.error (.unknownKind kind position), w)
  else if job.settings.quiet || w.warned.contains kind then (.ok [], w)
  else (.ok [], { w with warned := kind :: w.warned }.tell (.skipped kind position))

/-! ### A node with a rule -/

/-- The node that stands in for one whose rule failed. -/
def placeholder (job : Job τ σ) (message : String) : Draft where
  kind := job.settings.placeholderKind
  fields := [("message", .value (.string message))]
  span := .source
  synthetic := false

/-- Takes back what a failed rule has done and puts a placeholder there. -/
def substitute (job : Job τ σ) (node : Source.Handle) (c : Workspace.Checkpoint)
    (failure : RuleFailure) (w : Workspace σ) : Converted × Workspace σ :=
  let w := (w.tell (.substituted failure)).rollback c
  let (h, w) := job.emitFor node (job.placeholder failure.message) w
  (.ok [h], { w with failures := w.failures.push (h, failure) })

/-- What comes of a node whose rule has ended. -/
def settle (job : Job τ σ) (node : Source.Handle) (c : Workspace.Checkpoint)
    (outcome : Except Stop (List Target.Handle)) (w : Workspace σ) : Converted × Workspace σ :=
  match outcome with
  | .ok produced =>
    (.ok produced, w.tell (.converted (ParseTree.kind job.tree node) node produced.length))
  | .error (.aborted failure) => (.error failure, w)
  | .error (.failed message) =>
    let failure := job.ruleFailure node message
    if job.settings.allowInvalid then job.substitute node c failure w
    else (.error (.rule failure), w)

/-- Runs a program, given how it has nodes converted. -/
def run (job : Job τ σ)
    (convert : Source.Handle → Workspace σ → Option (Converted × Workspace σ)) :
    Action σ α → Workspace σ → Option (α × Workspace σ)
  | .done result, w => some (result, w)
  | .emit draft next, w =>
    let (h, w) := job.emitFor w.current draft w
    job.run convert (next h) w
  | .convert node next, w =>
    match convert node w with
    | some (converted, w) => job.run convert (next converted) w
    | none => none
  | .look h next, w => job.run convert (next (w.node? h)) w
  | .current next, w => job.run convert (next w.current) w
  | .settings next, w => job.run convert (next job.settings) w
  | .position node next, w => job.run convert (next (job.positionOf node)) w
  | .load next, w => job.run convert (next w.memory) w
  | .store memory next, w => job.run convert next { w with memory }

/-- Converts a node, with rules nested at most `depth` deep. -/
def convert (job : Job τ σ) :
    Nat → Source.Handle → Workspace σ → Option (Converted × Workspace σ)
  | 0, _, _ => none
  | depth + 1, node, w =>
    match job.rules.find? (ParseTree.kind job.tree node) with
    | none => some (job.skip node w)
    | some rule =>
      match job.run (job.convert depth) (rule job.tree node) { w with current := node } with
      | some (outcome, after) =>
        some (job.settle node w.checkpoint outcome { after with current := w.current })
      | none => none

/-! ### Programs put together, and deeper nesting -/

/-- A program that goes on with another is run like the two one after the other. -/
theorem run_bind {β : Type} (job : Job τ σ)
    (convert : Source.Handle → Workspace σ → Option (Converted × Workspace σ))
    (a : Action σ α) (f : α → Action σ β) (w : Workspace σ) :
    job.run convert (a.bind f) w =
      (job.run convert a w).bind fun (x, w) => job.run convert (f x) w := by
  induction a generalizing w with
  | done => rfl
  | store memory next ih => exact ih _
  | convert node next ih =>
    simp only [Action.bind, run]
    cases convert node w with
    | none => rfl
    | some r => exact ih _ _
  | _ _ => simp_all [Action.bind, run]

theorem run_mono {job : Job τ σ}
    {convert convert' : Source.Handle → Workspace σ → Option (Converted × Workspace σ)}
    (h : ∀ node w r, convert node w = some r → convert' node w = some r)
    {a : Action σ α} {w : Workspace σ} {r : α × Workspace σ}
    (hr : job.run convert a w = some r) : job.run convert' a w = some r := by
  induction a generalizing w with
  | done => exact hr
  | store memory next ih => exact ih hr
  | convert node next ih =>
    simp only [run] at hr ⊢
    cases hc : convert node w with
    | none => simp [hc] at hr
    | some answer =>
      rw [hc] at hr
      rw [h _ _ _ hc]
      exact ih _ hr
  | _ _ => simp_all [run]

theorem convert_succ {job : Job τ σ} {depth : Nat} {node : Source.Handle} {w : Workspace σ}
    {r : Converted × Workspace σ} (hr : job.convert depth node w = some r) :
    job.convert (depth + 1) node w = some r := by
  induction depth generalizing node w r with
  | zero => simp [convert] at hr
  | succ depth ih =>
    rw [convert] at hr ⊢
    split at hr
    · exact hr
    · split at hr
      · rename_i outcome after ran
        rw [run_mono (fun _ _ _ => ih) ran]
        exact hr
      · simp at hr

/-- What is answered at some depth is answered so at every greater depth. -/
theorem convert_mono {job : Job τ σ} {depth depth' : Nat} {node : Source.Handle} {w : Workspace σ}
    {r : Converted × Workspace σ} (hd : depth ≤ depth') (hr : job.convert depth node w = some r) :
    job.convert depth' node w = some r := by
  induction hd with
  | refl => exact hr
  | step _ ih => exact convert_succ ih

end Job

end TreeConversion
