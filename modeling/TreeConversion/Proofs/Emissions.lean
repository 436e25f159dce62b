import TreeConversion.Proofs.Course
import TreeConversion.Proofs.Origins

/-!
# What a course leaves behind

`Course.emissions` lists the nodes that are there after a course and were not there before: those
that rules emitted, and in the place of all that a failed rule has done, its placeholder.  A run
adds exactly these to the nodes, to the origins and to the failures of a state (`Job.Runs.adds`),
whatever was made and taken back in between.
-/

namespace TreeConversion

/-- A node that a rule emitted or that stands in for a failed rule. -/
structure Emission where
  /-- The source node whose rule was running, or whose rule failed. -/
  source : Source.Handle
  draft : Draft
  node : Target.Node
  /-- The failure that the node stands in for, if it is a placeholder. -/
  failure : Option RuleFailure

/-- The source node that the node stands for; none if it is synthetic. -/
def Emission.origin? (e : Emission) : Option Source.Handle :=
  if e.node.synthetic then none else some e.source

theorem Origins.sourceOf_of_pairs {o : Origins} {es : List Emission}
    (pairs : o.toList = pairsFrom 0 (es.map Emission.origin?)) (h : Target.Handle) :
    o.sourceOf h = (es[h.index]?).bind Emission.origin? := by
  refine Option.ext fun s => ?_
  rw [← Origins.mem_toList, pairs, mem_pairsFrom_zero, List.getElem?_map]
  simp [Option.bind_eq_some_iff, Option.map_eq_some_iff]

variable {τ σ α : Type} [ParseTree τ]

/-- What stands in for a source node whose rule failed. -/
def Job.standIn (job : Job τ σ) (node : Source.Handle) (message : String) : Emission where
  source := node
  draft := job.placeholder message
  node := (job.placeholder message).made job.lines (ParseTree.span job.tree node)
  failure := some (job.ruleFailure node message)

/-- What is left of the emissions of a rule once it has ended. -/
def Job.leaves (job : Job τ σ) (node : Source.Handle) (outcome : Except Stop (List Target.Handle))
    (emissions : List Emission) : List Emission :=
  match outcome with
  | .error (.failed message) =>
    if job.settings.allowInvalid then [job.standIn node message] else emissions
  | _ => emissions

/-- The emissions of a course, taken for a source node, that are not taken back. -/
def Course.emissions (job : Job τ σ) (source : Source.Handle) : Course → List Emission
  | .ended => []
  | .emitted draft _ node rest => ⟨source, draft, node, none⟩ :: rest.emissions job source
  | .skipped _ rest => rest.emissions job source
  | .converted node inner outcome _ rest =>
    job.leaves node outcome (inner.emissions job node) ++ rest.emissions job source

/-! ### Adding to a state -/

namespace Workspace

variable {w w' w'' : Workspace σ} {es es' : List Emission}

/-- The origins are coherent and only of nodes that are there. -/
structure Sound (w : Workspace σ) : Prop where
  coherent : w.origins.Coherent
  within : ∀ p ∈ w.origins.toList, p.1.index < w.nodes.size

theorem sound_start (root : Source.Handle) (log : Array Event) (memory : σ) :
    (start root log memory).Sound :=
  ⟨Origins.coherent_empty, fun _ hp => absurd hp List.not_mem_nil⟩

/-- From one state to another, exactly these emissions have been added. -/
structure Adds (w w' : Workspace σ) (es : List Emission) : Prop where
  nodes : w'.nodes.toList = w.nodes.toList ++ es.map Emission.node
  origins : w'.origins.toList =
    w.origins.toList ++ Origins.pairsFrom w.nodes.size (es.map Emission.origin?)
  failures : w'.failures.toList =
    w.failures.toList ++ Origins.pairsFrom w.nodes.size (es.map Emission.failure)
  current : w'.current = w.current
  warned : w.warned <:+ w'.warned
  sound : w'.Sound

namespace Adds

theorem size (h : w.Adds w' es) : w'.nodes.size = w.nodes.size + es.length := by
  simpa using congrArg List.length h.nodes

theorem refl (sound : w.Sound) : w.Adds w [] :=
  ⟨by simp, by simp [Origins.pairsFrom], by simp [Origins.pairsFrom], rfl, List.suffix_refl _,
    sound⟩

theorem trans (h : w.Adds w' es) (h' : w'.Adds w'' es') : w.Adds w'' (es ++ es') where
  nodes := by rw [h'.nodes, h.nodes, List.map_append, List.append_assoc]
  origins := by
    rw [h'.origins, h.origins, h.size, List.map_append, Origins.pairsFrom_append, List.length_map,
      List.append_assoc]
  failures := by
    rw [h'.failures, h.failures, h.size, List.map_append, Origins.pairsFrom_append, List.length_map,
      List.append_assoc]
  current := h'.current.trans h.current
  warned := h.warned.trans h'.warned
  sound := h'.sound

theorem of_eq (sound : w.Sound) (hn : w'.nodes = w.nodes) (ho : w'.origins = w.origins)
    (hf : w'.failures = w.failures) (hc : w'.current = w.current) (hw : w.warned <:+ w'.warned) :
    w.Adds w' [] where
  nodes := by simp [hn]
  origins := by simp [ho, Origins.pairsFrom]
  failures := by simp [hf, Origins.pairsFrom]
  current := hc
  warned := hw
  sound := ⟨ho ▸ sound.coherent, by rw [ho, hn]; exact sound.within⟩

theorem tell (sound : w.Sound) (e : Event) : w.Adds (w.tell e) [] :=
  .of_eq sound rfl rfl rfl rfl (List.suffix_refl _)

theorem handBack {node : Source.Handle} (h : { w with current := node }.Adds w' es) :
    w.Adds { w' with current := w.current } es :=
  ⟨h.nodes, h.origins, h.failures, rfl, h.warned, ⟨h.sound.coherent, h.sound.within⟩⟩

/-- Taking back what was added since a checkpoint. -/
theorem rollback (h : w.Adds w' es) (sound : w.Sound) : w.Adds (w'.rollback w.checkpoint) [] where
  nodes := by simp [Workspace.rollback, checkpoint, h.nodes]
  origins := by
    have before : ∀ p ∈ w.origins.toList, decide (p.1.index < w.nodes.size) = true :=
      fun p hp => decide_eq_true (sound.within p hp)
    have after : ∀ p ∈ Origins.pairsFrom w.nodes.size (es.map Emission.origin?),
        ¬ decide (p.1.index < w.nodes.size) = true := fun p hp => by
      simpa using (Origins.le_of_mem_pairsFrom hp).1
    simp only [Workspace.rollback, checkpoint, Origins.toList_forget, h.origins, List.filter_append,
      List.filter_eq_self.2 before, List.filter_eq_nil_iff.2 after]
    rfl
  failures := by simp [Workspace.rollback, checkpoint, h.failures, Origins.pairsFrom]
  current := h.current
  warned := h.warned
  sound := by
    refine ⟨h.sound.coherent.forget _, fun p hp => ?_⟩
    simp only [Workspace.rollback, Origins.toList_forget, List.mem_filter, decide_eq_true_eq] at hp
    simpa [Workspace.rollback, checkpoint, h.size] using hp.2

end Adds

end Workspace

namespace Job

variable (job : Job τ σ) {w w' : Workspace σ}

/-! ### Steps -/

theorem sound_emitFor (sound : w.Sound) (node : Source.Handle) (draft : Draft) :
    (job.emitFor node draft w).2.Sound := by
  have above : ∀ p ∈ w.origins.toList, p.1.index < (⟨w.nodes.size⟩ : Target.Handle).index :=
    sound.within
  have size : (job.emitFor node draft w).2.nodes.size = w.nodes.size + 1 := Array.size_push _
  refine ⟨?_, fun p hp => ?_⟩
  · simp only [emitFor, Workspace.emitFor]
    split
    · exact sound.coherent
    · exact sound.coherent.record above
  · rw [size]
    simp only [emitFor, Workspace.emitFor] at hp
    split at hp
    · exact Nat.lt_succ_of_lt (sound.within p hp)
    · rw [Origins.toList_record above, List.mem_append, List.mem_singleton] at hp
      rcases hp with hp | rfl
      · exact Nat.lt_succ_of_lt (sound.within p hp)
      · exact Nat.lt_succ_self _

/-- A node is emitted; as a placeholder it comes with a failure. -/
theorem adds_emitFor (sound : w.Sound) (node : Source.Handle) (draft : Draft)
    (failure : Option RuleFailure) {failures : Array (Target.Handle × RuleFailure)}
    (hf : failures.toList = w.failures.toList ++ Origins.pairsFrom w.nodes.size [failure]) :
    w.Adds { (job.emitFor node draft w).2 with failures }
      [⟨node, draft, job.made node draft w, failure⟩] where
  nodes := by simp [emitFor, Workspace.emitFor, made, Draft.made]
  origins := by
    have above : ∀ p ∈ w.origins.toList, p.1.index < (⟨w.nodes.size⟩ : Target.Handle).index :=
      sound.within
    cases hs : draft.synthetic <;>
      simp [emitFor, Workspace.emitFor, hs, Emission.origin?, made, Draft.made, Origins.pairsFrom,
        Origins.toList_record above]
  failures := hf
  current := rfl
  warned := List.suffix_refl _
  sound :=
    have sound := job.sound_emitFor sound node draft
    ⟨sound.coherent, sound.within⟩

theorem adds_emit (sound : w.Sound) (node : Source.Handle) (draft : Draft) :
    w.Adds (job.emitFor node draft w).2 [⟨node, draft, job.made node draft w, none⟩] :=
  job.adds_emitFor sound node draft none (List.append_nil _).symm

theorem adds_skip (sound : w.Sound) (node : Source.Handle) : w.Adds (job.skip node w).2 [] := by
  obtain ⟨warned, log, h, hw⟩ := job.skip_eq node w
  rw [h]
  exact .of_eq sound rfl rfl rfl rfl hw

/-- Of a rule that gives way to a placeholder, nothing else is left. -/
theorem adds_substitute (sound : w.Sound) {es : List Emission} (h : w.Adds w' es)
    (node : Source.Handle) (message : String) :
    w.Adds (job.substitute node w.checkpoint (job.ruleFailure node message) w').2
      [job.standIn node message] := by
  have told := Workspace.Adds.tell h.sound (.substituted (job.ruleFailure node message))
  have back := (h.trans told).rollback sound
  exact back.trans (job.adds_emitFor back.sound node (job.placeholder message)
    (some (job.ruleFailure node message)) Array.toList_push)

theorem fst_settle_failed (allowed : job.settings.allowInvalid = true) (sound : w.Sound)
    {es : List Emission} (h : w.Adds w' es) (node : Source.Handle) (message : String) :
    (job.settle node w.checkpoint (.error (.failed message)) w').1 = .ok [⟨w.nodes.size⟩] := by
  have size : (w'.rollback w.checkpoint).nodes.size = w.nodes.size := (h.rollback sound).size
  simp only [settle, if_pos allowed]
  exact congrArg (fun n => Except.ok [Target.Handle.mk n]) size

/-- What a rule that has ended leaves behind. -/
theorem adds_settle (sound : w.Sound) {es : List Emission} (h : w.Adds w' es)
    (node : Source.Handle) (outcome : Except Stop (List Target.Handle)) :
    w.Adds (job.settle node w.checkpoint outcome w').2 (job.leaves node outcome es) := by
  rcases outcome with (message | failure) | produced
  · simp only [settle, leaves]
    split
    · exact job.adds_substitute sound h node message
    · exact h
  · exact h
  · exact List.append_nil es ▸ h.trans (.tell h.sound _)

/-! ### Runs -/

variable {job}

/-- A run adds to its state exactly the emissions of its course. -/
theorem Runs.adds {node : Source.Handle} {a : Action σ α} {course : Course} {result : α}
    (h : job.Runs node a w course result w') (sound : w.Sound) :
    w.Adds w' (course.emissions job node) := by
  -- on the run: a rule that fails has first added all its emissions, which settling takes back
  induction h with
  | done => exact .refl sound
  | @emit _ node draft _ w _ _ _ _ ih =>
    have step := job.adds_emit sound node draft
    exact step.trans (ih step.sound)
  | @skip _ _ m _ w _ _ _ _ _ ih =>
    have step := job.adds_skip sound m
    exact step.trans (ih step.sound)
  | @convert _ _ m _ w _ settled _ _ _ _ outcome answer _ _ _ settles _ ihran ihgoes =>
    have inner := (ihran ⟨sound.coherent, sound.within⟩).handBack
    have step := job.adds_settle sound inner m outcome
    rw [settles] at step
    exact step.trans (ihgoes step.sound)
  | @store _ _ memory _ w _ _ _ _ ih =>
    have step : w.Adds { w with memory } [] :=
      .of_eq sound rfl rfl rfl rfl (List.suffix_refl _)
    exact step.trans (ih step.sound)
  | look _ ih | current _ ih | settings _ ih | position _ ih | load _ ih => exact ih sound

end Job

end TreeConversion
