import TreeConversion.Proofs.Emissions

/-!
# A rule that fails is undone

A state of the engine is `Reached` if a running rule can find it between two of its requests, at any
depth.  In such a state, having a node converted whose rule fails adds one placeholder, one pair of
origins and one failure to the state and nothing else, whatever the rule and the rules below it did.
-/

namespace TreeConversion

/-! ### One pair more -/

namespace Origins

variable {o o' : Origins} {target : Target.Handle} {source : Source.Handle}

/-- Every question about `o'` is answered as for `o` with one pair more, whose target comes last. -/
structure Gains (o o' : Origins) (target : Target.Handle) (source : Source.Handle) : Prop where
  toList : o'.toList = o.toList ++ [(target, source)]
  sourceOf : ∀ t, o'.sourceOf t = if t = target then some source else o.sourceOf t
  targetsOf : ∀ s, o'.targetsOf s = o.targetsOf s ++ if s = source then [target] else []
  hasSource : ∀ s, o'.hasSource s = (s == source || o.hasSource s)
  size : o'.size = o.size + 1
  sourceCount : o'.sourceCount = if o.hasSource source then o.sourceCount else o.sourceCount + 1

theorem gains_of_toList (h : o.Coherent) (h' : o'.Coherent)
    (pairs : o'.toList = o.toList ++ [(target, source)]) : o.Gains o' target source := by
  have last : ∀ s, (target, s) ∉ o.toList := fun s hs =>
    Nat.lt_irrefl _ ((List.pairwise_append.1 (pairs ▸ ascending_toList o')).2.2 _ hs
      (target, source) (by simp))
  have lists : ∀ s, o'.targetsOf s = o.targetsOf s ++ if s = source then [target] else [] := by
    intro s
    rw [h'.targetsOf, h.targetsOf, pairs, among_append, among_singleton]
    simp only [eq_comm]
  refine ⟨pairs, fun t => ?_, lists, fun s => ?_, ?_, ?_⟩
  · refine Option.ext fun s => ?_
    rw [← mem_toList, pairs, List.mem_append, List.mem_singleton, mem_toList]
    by_cases ht : t = target
    · subst ht
      have new : o.sourceOf t ≠ some s := fun hs => last s (mem_toList.2 hs)
      simp [new, eq_comm]
    · simp [ht]
  · rw [Bool.eq_iff_iff, h'.hasSource, Bool.or_eq_true, h.hasSource, lists, beq_iff_eq]
    by_cases hs : s = source <;> simp [hs]
  · rw [Origins.size, Origins.size, h'.count, h.count, pairs, List.length_append,
      List.length_singleton]
  · rw [h'.sourceCount, h.sourceCount, pairs, List.map_append, List.map_singleton]
    have perm := (List.perm_append_singleton source (o.toList.map Prod.snd)).dedup
    have known : o.hasSource source = true ↔ source ∈ o.toList.map Prod.snd := by
      rw [Origins.hasSource, Std.HashMap.contains_iff_mem, h.mem_targets_iff]
    rw [perm.length_eq]
    by_cases hs : source ∈ o.toList.map Prod.snd
    · rw [if_pos (known.2 hs), List.dedup_cons_of_mem hs]
    · rw [if_neg (hs ∘ known.1), List.dedup_cons_of_notMem hs, List.length_cons]

end Origins

/-! ### States that are reached -/

namespace Job

variable {τ σ α : Type} [ParseTree τ] (job : Job τ σ)

/-- While a program runs from the first state, the second is found between two requests of it or of
a rule that runs on its behalf. -/
inductive Passes : {α : Type} → Action σ α → Workspace σ → Workspace σ → Prop
  | here {α : Type} (a : Action σ α) (w : Workspace σ) : Passes a w w
  | emit {α : Type} {draft : Draft} {next : Target.Handle → Action σ α} {w v : Workspace σ}
      (later : Passes (next (job.emitFor w.current draft w).1)
        (job.emitFor w.current draft w).2 v) :
    Passes (.emit draft next) w v
  | inside {α : Type} {m : Source.Handle} {next : Converted → Action σ α} {w v : Workspace σ}
      {rule : Rule τ σ} (found : job.rules.find? (ParseTree.kind job.tree m) = some rule)
      (within : Passes (rule job.tree m) { w with current := m } v) :
    Passes (.convert m next) w v
  | convert {α : Type} {m : Source.Handle} {next : Converted → Action σ α}
      {w w' v : Workspace σ} {depth : Nat} {answer : Converted}
      (answered : job.convert depth m w = some (answer, w'))
      (later : Passes (next answer) w' v) :
    Passes (.convert m next) w v
  | look {α : Type} {h : Target.Handle} {next : Option Target.Node → Action σ α}
      {w v : Workspace σ} (later : Passes (next (w.node? h)) w v) :
    Passes (.look h next) w v
  | current {α : Type} {next : Source.Handle → Action σ α} {w v : Workspace σ}
      (later : Passes (next w.current) w v) : Passes (.current next) w v
  | settings {α : Type} {next : Settings → Action σ α} {w v : Workspace σ}
      (later : Passes (next job.settings) w v) : Passes (.settings next) w v
  | position {α : Type} {m : Source.Handle} {next : Position → Action σ α} {w v : Workspace σ}
      (later : Passes (next (job.positionOf m)) w v) : Passes (.position m next) w v
  | load {α : Type} {next : σ → Action σ α} {w v : Workspace σ}
      (later : Passes (next w.memory) w v) : Passes (.load next) w v
  | store {α : Type} {memory : σ} {next : Action σ α} {w v : Workspace σ}
      (later : Passes next { w with memory } v) : Passes (.store memory next) w v

/-- The conversion of the tree can come to this state. -/
def Reached (log : Array Event) (memory : σ) (v : Workspace σ) : Prop :=
  job.Passes (.convert (ParseTree.root job.tree) .done)
    (.start (ParseTree.root job.tree) log memory) v

variable {job}

theorem sound_convert {depth : Nat} {node : Source.Handle} {w w' : Workspace σ}
    {answer : Converted} (h : job.convert depth node w = some (answer, w')) (sound : w.Sound) :
    w'.Sound :=
  let ⟨_, runs, _⟩ := exists_runs_convert h
  (runs.adds sound).sound

theorem Passes.sound {a : Action σ α} {w v : Workspace σ} (h : job.Passes a w v)
    (sound : w.Sound) : v.Sound := by
  induction h with
  | here => exact sound
  | emit _ ih => exact ih (job.sound_emitFor sound _ _)
  | inside _ _ ih => exact ih ⟨sound.coherent, sound.within⟩
  | convert answered _ ih => exact ih (sound_convert answered sound)
  | store _ ih => exact ih ⟨sound.coherent, sound.within⟩
  | look _ ih | current _ ih | settings _ ih | position _ ih | load _ ih => exact ih sound

theorem Reached.sound {log : Array Event} {memory : σ} {v : Workspace σ}
    (h : job.Reached log memory v) : v.Sound :=
  Passes.sound h (Workspace.sound_start _ _ _)

/-! ### A rule that fails -/

/-- From one state to another, a placeholder for a node has been added and nothing else. -/
structure AddsPlaceholder (job : Job τ σ) (node : Source.Handle) (message : String)
    (w w' : Workspace σ) : Prop where
  nodes : w'.nodes = w.nodes.push {
    kind := job.settings.placeholderKind
    span := some (ParseTree.span job.tree node)
    location := some (job.lines.location (ParseTree.span job.tree node))
    fields := [("message", .value (.string message))]
    synthetic := false }
  origins : w.origins.Gains w'.origins ⟨w.nodes.size⟩ node
  failures : w'.failures = w.failures.push (⟨w.nodes.size⟩, {
    kind := ParseTree.kind job.tree node
    position := job.lines.position (ParseTree.span job.tree node).start
    message })
  current : w'.current = w.current
  warned : w.warned <:+ w'.warned

theorem addsPlaceholder_of_adds {node : Source.Handle} {message : String} {w w' : Workspace σ}
    (sound : w.Sound) (h : w.Adds w' [job.standIn node message]) :
    job.AddsPlaceholder node message w w' where
  nodes := Array.toList_inj.1 (by rw [h.nodes, Array.toList_push]; rfl)
  origins := Origins.gains_of_toList sound.coherent h.sound.coherent h.origins
  failures := Array.toList_inj.1 (by rw [h.failures, Array.toList_push]; rfl)
  current := h.current
  warned := h.warned

/-- When a rule fails, its node is converted to a placeholder, and the state is as before but for
that placeholder. -/
theorem convert_of_failed {log : Array Event} {memory : σ} {w after : Workspace σ}
    {node : Source.Handle} {rule : Rule τ σ} {depth : Nat} {message : String}
    (allowed : job.settings.allowInvalid = true) (reached : job.Reached log memory w)
    (found : job.rules.find? (ParseTree.kind job.tree node) = some rule)
    (failed : job.run (job.convert depth) (rule job.tree node) { w with current := node } =
      some (.error (.failed message), after)) :
    ∃ w', job.convert (depth + 1) node w = some (.ok [⟨w.nodes.size⟩], w') ∧
      job.AddsPlaceholder node message w w' := by
  have sound := reached.sound
  obtain ⟨course, runs, -⟩ := exists_runs failed
  have inner := (runs.adds ⟨sound.coherent, sound.within⟩).handBack
  have settled := job.adds_settle sound inner node (.error (.failed message))
  simp only [leaves, if_pos allowed] at settled
  refine ⟨_, ?_, addsPlaceholder_of_adds sound settled⟩
  have answer := job.fst_settle_failed allowed sound inner node message
  rw [convert, found, ← answer]
  simp only [failed]

theorem convert_of_failed_parens : ∃ w after, Parens.job.settings.allowInvalid = true ∧
    Parens.job.Reached #[] () w ∧ w.nodes.size = 1 ∧
    Parens.job.rules.find? (ParseTree.kind Parens.job.tree ⟨2⟩) = some Parens.blot ∧
    Parens.job.run (Parens.job.convert 0) (Parens.blot Parens.job.tree ⟨2⟩)
      { w with current := ⟨2⟩ } = some (.error (.failed "no meaning"), after) ∧
    ∃ w', Parens.job.convert 1 ⟨2⟩ w = some (.ok [⟨w.nodes.size⟩], w') ∧
      Parens.job.AddsPlaceholder ⟨2⟩ "no meaning" w w' := by
  -- the state in which the rule for the list has had the first of its two names converted
  let begun : Workspace Unit := .start ⟨0⟩ #[] ()
  have answered : ∃ w, Parens.job.convert 1 ⟨1⟩ begun = some (.ok [⟨0⟩], w) ∧ w.nodes.size = 1 := by
    have rule : Parens.job.rules.find? (ParseTree.kind Parens.job.tree ⟨1⟩) = some Parens.name :=
      Parens.find_name
    rw [convert, rule]
    exact ⟨_, rfl, rfl⟩
  obtain ⟨w, answered, size⟩ := answered
  have reached : Parens.job.Reached #[] () w :=
    .inside Parens.find_list (.convert answered (.here _ _))
  exact ⟨w, _, rfl, reached, size, Parens.find_blot, rfl,
    convert_of_failed rfl reached Parens.find_blot rfl⟩

end Job

end TreeConversion
