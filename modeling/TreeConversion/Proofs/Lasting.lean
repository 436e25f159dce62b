import TreeConversion.Proofs.Rollback

/-!
# What a rule has seen lasts

Whatever a rule has the engine do, and whatever comes of it, the state that the rule then finds still
holds all that it has found before, under the same handles (`Workspace.Lasts`).  A checkpoint is taken
when a rule starts, so a rollback ends where the rules that wait for it have left off; a failure that
is handed on, or kept to itself by a rule on the way, takes nothing back at all.
-/

namespace TreeConversion

namespace Workspace

variable {σ : Type} {w w' : Workspace σ} {es : List Emission}

/-- The second state holds what the first does, and more of it may have come since. -/
structure Lasts (w w' : Workspace σ) : Prop where
  node? : ∀ h node, w.node? h = some node → w'.node? h = some node
  failures : w.failures.toList <+: w'.failures.toList
  sourceOf : ∀ h : Target.Handle, h.index < w.nodes.size →
    w'.origins.sourceOf h = w.origins.sourceOf h
  targetsOf : ∀ s, (w'.origins.targetsOf s).filter (fun h => h.index < w.nodes.size) =
    w.origins.targetsOf s
  current : w'.current = w.current

theorem Adds.lasts (h : w.Adds w' es) (sound : w.Sound) : w.Lasts w' := by
  -- pairs that have come since are of targets that were not there yet
  have late : ∀ p ∈ Origins.pairsFrom w.nodes.size (es.map Emission.origin?),
      ¬ p.1.index < w.nodes.size := fun p hp => Nat.not_lt.2 (Origins.le_of_mem_pairsFrom hp).1
  refine ⟨?_, ⟨_, h.failures.symm⟩, ?_, ?_, h.current⟩
  · intro t node hn
    rw [Workspace.node?, ← Array.getElem?_toList] at hn ⊢
    obtain ⟨bound, -⟩ := List.getElem?_eq_some_iff.1 hn
    rw [h.nodes, List.getElem?_append_left bound, hn]
  · intro t bound
    refine Option.ext fun s => ?_
    rw [← Origins.mem_toList, ← Origins.mem_toList, h.origins, List.mem_append]
    constructor
    · rintro (old | new)
      · exact old
      · exact absurd bound (late _ new)
    · exact Or.inl
  · intro s
    have old : ∀ t ∈ Origins.among w.origins.toList s, decide (t.index < w.nodes.size) = true := by
      intro t ht
      exact decide_eq_true (sound.within _ (Origins.mem_among.1 ht))
    have new : ∀ t ∈ Origins.among (Origins.pairsFrom w.nodes.size (es.map Emission.origin?)) s,
        ¬ decide (t.index < w.nodes.size) = true := by
      intro t ht
      simpa using late _ (Origins.mem_among.1 ht)
    rw [h.sound.coherent.targetsOf, sound.coherent.targetsOf, h.origins, Origins.among_append,
      List.filter_append, List.filter_eq_self.2 old, List.filter_eq_nil_iff.2 new, List.append_nil]

end Workspace

namespace Job

variable {τ σ α : Type} [ParseTree τ] {job : Job τ σ} {log : Array Event} {memory : σ}
  {w w' : Workspace σ} {depth : Nat}

/-- The node that is emitted next is made for this source node, and comes from it unless it is
synthetic. -/
def EmitsFor (job : Job τ σ) (node : Source.Handle) (w : Workspace σ) : Prop :=
  ∀ (convert : Source.Handle → Workspace σ → Option (Converted × Workspace σ)) (draft : Draft),
    ∃ later, job.run convert (.emit draft .done) w = some (⟨w.nodes.size⟩, later) ∧
      later.node? ⟨w.nodes.size⟩ = some (job.made node draft w) ∧
      later.origins.sourceOf ⟨w.nodes.size⟩ = if draft.synthetic then none else some node

theorem emitsFor_current (job : Job τ σ) (sound : w.Sound) : job.EmitsFor w.current w := by
  intro convert draft
  refine ⟨_, rfl, Array.getElem?_push_size, ?_⟩
  have unknown : w.origins.sourceOf ⟨w.nodes.size⟩ = none := by
    rw [Option.eq_none_iff_forall_ne_some]
    intro s hs
    exact Nat.lt_irrefl _ (sound.within _ (Origins.mem_toList.2 hs))
  show Origins.sourceOf (if draft.synthetic then w.origins else w.origins.record w.current _) _ = _
  split
  · exact unknown
  · rw [Origins.sourceOf_record, if_pos rfl]

/-- From a state that a rule can find, whatever program has run, such as one that has a node or the
children of a node converted: when it has come to a result, all that was in the state is there as
before, and a node that is emitted now is emitted for the same source node as before. -/
theorem seen_lasts (reached : job.Reached log memory w) {a : Action σ α} {result : α}
    (ran : job.run (job.convert depth) a w = some (result, w')) :
    w.Lasts w' ∧ job.EmitsFor w.current w' := by
  obtain ⟨course, runs, -⟩ := exists_runs ran
  have adds := runs.adds reached.sound
  have emits := job.emitsFor_current adds.sound
  rw [adds.current] at emits
  exact ⟨adds.lasts reached.sound, emits⟩

/-- The first name has been converted before, and now both children of the list are: what fails is
taken back, and the node of the first name is still there. -/
theorem seen_lasts_parens : ∃ w w' result, Parens.job.Reached #[] () w ∧ w.nodes.size = 1 ∧
    Parens.job.run (Parens.job.convert 1) (.convertChildren Parens.tree ⟨0⟩) w =
      some (result, w') ∧ w.Lasts w' ∧ Parens.job.EmitsFor w.current w' := by
  let begun : Workspace Unit := { Workspace.start ⟨0⟩ #[] () with current := ⟨0⟩ }
  have name : Parens.job.rules.find? (ParseTree.kind Parens.job.tree ⟨1⟩) = some Parens.name :=
    Parens.find_name
  have blot : Parens.job.rules.find? (ParseTree.kind Parens.job.tree ⟨2⟩) = some Parens.blot :=
    Parens.find_blot
  obtain ⟨w, answered, size⟩ : ∃ w, Parens.job.convert 1 ⟨1⟩ begun = some (.ok [⟨0⟩], w) ∧
      w.nodes.size = 1 := by
    rw [convert, name]
    exact ⟨_, rfl, rfl⟩
  have reached : Parens.job.Reached #[] () w :=
    .inside Parens.find_list (.convert answered (.here _ _))
  obtain ⟨result, w', ran⟩ : ∃ result w', Parens.job.run (Parens.job.convert 1)
      (.convertChildren Parens.tree ⟨0⟩) w = some (result, w') := by
    have children : ParseTree.children Parens.tree ⟨0⟩ = [⟨1⟩, ⟨2⟩] := rfl
    have allowed : Parens.job.settings.allowInvalid = true := rfl
    simp only [Action.convertChildren, children, Action.convertAll, Action.bind, run, convert, name,
      blot, Parens.name, Parens.blot, settle, substitute, allowed, if_true]
    exact ⟨_, _, rfl⟩
  obtain ⟨lasts, emits⟩ := seen_lasts reached ran
  exact ⟨w, w', result, reached, size, ran, lasts, emits⟩

end Job

end TreeConversion
