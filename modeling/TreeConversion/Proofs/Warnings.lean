import TreeConversion.Proofs.Endings
import TreeConversion.Proofs.Placeholders
import TreeConversion.Proofs.Projection
import TreeConversion.Proofs.Verdict

/-!
# What a conversion warns of

A conversion warns once of each kind for which there is no rule, where it first meets it, and of each
rule that has failed, when it gives way to a placeholder.  Both are read off the course: a rollback
takes back nodes, origins and failures, but neither the kinds that have been warned of nor what has
been told (`Job.Runs.tells`).
-/

namespace TreeConversion

open Source (Handle)

variable {τ σ α : Type} [ParseTree τ]

/-- The failure of a rule in whose place a placeholder has been put. -/
def Event.substituted? : Event → Option RuleFailure
  | .substituted failure => some failure
  | _ => none

/-! ### What is met on a course -/

/-- The failure of a rule that has ended so. -/
def Job.ownFailure (job : Job τ σ) (node : Handle) :
    Except Stop (List Target.Handle) → List RuleFailure
  | .error (.failed message) => [job.ruleFailure node message]
  | _ => []

namespace Course

/-- The nodes without a rule that were to be converted, in this order, at any depth and whatever has
become of what is around them. -/
def met : Course → List Handle
  | ended => []
  | emitted _ _ _ rest => rest.met
  | skipped node rest => node :: rest.met
  | converted _ inner _ _ rest => inner.met ++ rest.met

/-- The failures of all rules that have failed, at any depth, in the order in which they ended. -/
def failed (job : Job τ σ) : Course → List RuleFailure
  | ended => []
  | emitted _ _ _ rest => rest.failed job
  | skipped _ rest => rest.failed job
  | converted node inner outcome _ rest =>
    (inner.failed job ++ job.ownFailure node outcome) ++ rest.failed job

end Course

/-! ### First of its kind -/

section unseen

variable (kind : Handle → String) (seen : List String) (ms ns : List Handle)

/-- The nodes of whose kind there is none before them, nor has one been seen. -/
def unseen : List String → List Handle → List Handle
  | _, [] => []
  | seen, n :: ns => if kind n ∈ seen then unseen seen ns else n :: unseen (kind n :: seen) ns

theorem unseen_append : unseen kind seen (ms ++ ns) =
    unseen kind seen ms ++ unseen kind (((unseen kind seen ms).map kind).reverse ++ seen) ns := by
  induction ms generalizing seen with
  | nil => rfl
  | cons m ms ih =>
    rw [List.cons_append, unseen, unseen]
    split
    · exact ih seen
    · rw [ih, List.map_cons, List.reverse_cons, List.append_assoc]
      rfl

theorem unseen_eq : unseen kind seen ns =
    (ns.filter fun n => kind n ∉ seen).eraseDupsBy fun m n => kind m == kind n := by
  induction ns generalizing seen with
  | nil => rfl
  | cons n ns ih =>
    rw [unseen]
    split
    · next known => simp [ih, known]
    · next new =>
      rw [List.filter_cons_of_pos (by simpa using new), List.eraseDupsBy_cons, ih, List.filter_filter]
      congr 3
      funext m
      simp

theorem unseen_nil : unseen kind [] ns = ns.eraseDupsBy fun m n => kind m == kind n := by
  simp [unseen_eq]

end unseen

/-! ### Steps -/

namespace Job

variable (job : Job τ σ) {w w' w'' : Workspace σ} {ms ms' : List Handle} {fs fs' : List RuleFailure}

/-- The nodes without a rule, if the settings let them be left out with a warning. -/
def heeded (ns : List Handle) : List Handle :=
  if job.settings.failOnUnknown || job.settings.quiet then [] else ns

/-- The failures of rules, if the settings let placeholders stand in for them. -/
def excused (fs : List RuleFailure) : List RuleFailure :=
  if job.settings.allowInvalid then fs else []

omit [ParseTree τ] in
theorem heeded_append : job.heeded (ms ++ ms') = job.heeded ms ++ job.heeded ms' := by
  unfold heeded
  split <;> rfl

omit [ParseTree τ] in
theorem excused_append : job.excused (fs ++ fs') = job.excused fs ++ job.excused fs' := by
  unfold excused
  split <;> rfl

/-- From one state to another, the nodes `ms` have been met that have no rule, and placeholders have
been put in the place of the failures `fs`; of both it has been told as it should be. -/
structure Tells (w w' : Workspace σ) (ms : List Handle) (fs : List RuleFailure) : Prop where
  warned : w'.warned =
    ((unseen (ParseTree.kind job.tree) w.warned ms).map (ParseTree.kind job.tree)).reverse ++ w.warned
  skips : w'.log.toList.filter Event.isSkip = w.log.toList.filter Event.isSkip ++
    (unseen (ParseTree.kind job.tree) w.warned ms).map fun n =>
      .skipped (ParseTree.kind job.tree n) (job.positionOf n)
  substitutes : w'.log.toList.filterMap Event.substituted? =
    w.log.toList.filterMap Event.substituted? ++ fs

variable {job}

theorem Tells.trans (h : job.Tells w w' ms fs) (h' : job.Tells w' w'' ms' fs') :
    job.Tells w w'' (ms ++ ms') (fs ++ fs') where
  warned := by
    rw [h'.warned, h.warned, unseen_append, List.map_append, List.reverse_append, List.append_assoc]
  skips := by
    rw [h'.skips, h.skips, h.warned, unseen_append, List.map_append, List.append_assoc]
  substitutes := by rw [h'.substitutes, h.substitutes, List.append_assoc]

theorem tells_nothing (job : Job τ σ) (w : Workspace σ) : job.Tells w w [] [] :=
  ⟨rfl, by simp [unseen], by simp⟩

theorem tells_tell (job : Job τ σ) (w : Workspace σ) {e : Event} (other : e.isSkip = false) :
    job.Tells w (w.tell e) [] e.substituted?.toList := by
  refine ⟨rfl, ?_, ?_⟩
  · simp [Workspace.tell, other, unseen]
  · rw [Workspace.tell, Array.toList_push, List.filterMap_append]
    cases e <;> rfl

theorem tells_skip (job : Job τ σ) (m : Handle) (w : Workspace σ) :
    job.Tells w (job.skip m w).2 (job.heeded [m]) [] := by
  have nothing := job.tells_nothing w
  unfold skip heeded
  cases strict : job.settings.failOnUnknown
  · cases quiet : job.settings.quiet
    · by_cases known : ParseTree.kind job.tree m ∈ w.warned
      · have silent : unseen (ParseTree.kind job.tree) w.warned [m] = [] := by simp [unseen, known]
        refine ⟨?_, ?_, ?_⟩ <;> simp [known, silent]
      · have loud : unseen (ParseTree.kind job.tree) w.warned [m] = [m] := by simp [unseen, known]
        refine ⟨?_, ?_, ?_⟩ <;>
          simp [known, loud, Workspace.tell, Event.isSkip, Event.substituted?]
    · simpa using nothing
  · simpa using nothing

/-- A rollback leaves alone what has been told. -/
theorem tells_settle (job : Job τ σ) (node : Handle) (c : Workspace.Checkpoint)
    (outcome : Except Stop (List Target.Handle)) (w : Workspace σ) :
    job.Tells w (job.settle node c outcome w).2 [] (job.excused (job.ownFailure node outcome)) := by
  rcases outcome with (message | failure) | produced
  · have told := job.tells_tell w (e := .substituted (job.ruleFailure node message)) rfl
    simp only [settle, ownFailure, excused]
    split
    · exact ⟨told.warned, told.skips, told.substitutes⟩
    · exact job.tells_nothing w
  · rw [ownFailure, excused, ite_self]
    · exact job.tells_nothing w
    · exact fun message same => by cases same
  · rw [ownFailure, excused, ite_self]
    · exact job.tells_tell w rfl
    · exact fun message same => by cases same

/-! ### Runs -/

/-- A run tells of what is met on its course. -/
theorem Runs.tells {node : Handle} {a : Action σ α} {course : Course} {result : α}
    (h : job.Runs node a w course result w') :
    job.Tells w w' (job.heeded course.met) (job.excused (course.failed job)) := by
  -- on the run: what a rule has told stays told when the rule has failed
  induction h with
  | done =>
    refine ⟨?_, ?_, ?_⟩ <;> simp [Course.met, Course.failed, heeded, excused, unseen]
  | @skip _ _ m _ w _ _ _ _ _ ih =>
    have step := (job.tells_skip m w).trans ih
    rw [← heeded_append] at step
    exact step
  | @convert _ _ m _ w after settled _ _ inner rest outcome answer _ _ _ settles _ ihran ihgoes =>
    have told : job.Tells w { after with current := w.current } _ _ :=
      ⟨ihran.warned, ihran.skips, ihran.substitutes⟩
    have settling := job.tells_settle m w.checkpoint outcome { after with current := w.current }
    rw [settles] at settling
    have step := (told.trans settling).trans ihgoes
    rw [List.append_nil, ← heeded_append, ← excused_append, ← excused_append] at step
    exact step
  | store _ ih => exact ⟨ih.warned, ih.skips, ih.substitutes⟩
  | emit _ ih => exact ⟨ih.warned, ih.skips, ih.substitutes⟩
  | look _ ih | current _ ih | settings _ ih | position _ ih | load _ ih => exact ih

/-- The failures of the placeholders that are left are among those that placeholders have been put in
the place of, in the same order. -/
theorem sublist_failed (job : Job τ σ) (source : Handle) (course : Course) :
    ((course.emissions job source).filterMap Emission.failure).Sublist
      (job.excused (course.failed job)) := by
  induction course generalizing source with
  | ended => exact List.nil_sublist _
  | emitted _ _ _ rest ih => exact ih source
  | skipped _ rest ih => exact ih source
  | converted node inner outcome _ rest ihinner ihrest =>
    have own : ((job.leaves node outcome (inner.emissions job node)).filterMap
        Emission.failure).Sublist (job.excused (inner.failed job ++ job.ownFailure node outcome)) := by
      have inside := ihinner node
      rw [excused_append]
      rcases outcome with (message | failure) | produced
      · rw [leaves]
        split
        · next allowed =>
          show List.Sublist [job.ruleFailure node message] _
          rw [excused, excused, if_pos allowed, if_pos allowed]
          exact List.sublist_append_right _ _
        · exact inside.trans (List.sublist_append_left _ _)
      · exact inside.trans (List.sublist_append_left _ _)
      · exact inside.trans (List.sublist_append_left _ _)
    rw [Course.emissions, Course.failed, List.filterMap_append, excused_append]
    exact own.append (ihrest source)

end Job

/-! ### Conversions -/

namespace Converter

variable {c : Converter τ σ} {tree : τ} {s : Settings} {memory : σ} {report : Report σ}
  {conversion : Conversion}

omit [ParseTree τ] in
theorem warnings_of_mild {events : List Event} (mild : ∀ e ∈ events, e.level ≠ .warning) :
    events.filter Event.isSkip = [] ∧ events.filterMap Event.substituted? = [] := by
  refine ⟨List.filter_eq_nil_iff.2 ?_, List.filterMap_eq_nil_iff.2 ?_⟩
  all_goals
    intro e he
    have := mild e he
    cases e <;> simp_all [Event.level, Event.isSkip, Event.substituted?]

/-- After the last rule there is nothing left to warn of. -/
theorem exists_mild (c : Converter τ σ) (tree : τ) (s : Settings) (answer : Converted)
    (w : Workspace σ) : ∃ later, (c.wrapUp tree s answer w).log.toList = w.log.toList ++ later ∧
      ∀ e ∈ later, e.level ≠ .warning := by
  rcases answer with failure | _ | ⟨root, _ | ⟨next, more⟩⟩
  · exact ⟨[], (List.append_nil _).symm, fun e he => absurd he List.not_mem_nil⟩
  · exact ⟨[], (List.append_nil _).symm, fun e he => absurd he List.not_mem_nil⟩
  · let h := w.harvest root
    refine ⟨dropLog w.nodes.size h.tree.size ++ (c.finish s (c.job tree s).lines h).2, ?_,
      List.forall_mem_append.2 ⟨?dropped, ?finished⟩⟩
    · simp only [wrapUp, Array.toList_appendList, List.append_assoc, h]
    case dropped =>
      unfold dropLog
      split <;> simp [Event.level]
    case finished =>
      rw [finish]
      cases (if s.tokens then c.tokens else none) <;>
        cases (if s.comments then c.comments else none) <;>
        simp [withTokens, withComments, Target.Tree.attachTokens, Target.Tree.attachComments,
          Event.level]
  · exact ⟨[], (List.append_nil _).symm, fun e he => absurd he List.not_mem_nil⟩

/-- A conversion that does not come to the engine fails and warns of nothing. -/
theorem Ends.idle (ends : c.Ends tree s memory report) (refuses : ¬ c.Accepts tree s) :
    (∃ failure, report.outcome = .error failure) ∧ ∀ e ∈ report.log.toList, e.level ≠ .warning := by
  obtain ⟨depth, converted⟩ := ends
  rcases exists_of_not_accepts refuses with ⟨problem, hp⟩ | ⟨hp, first, rest, hd⟩
  · rw [convert_of_problem hp] at converted
    cases converted
    exact ⟨⟨_, rfl⟩, by simp [opening, Event.level]⟩
  · rw [convert_of_refusal hp (by rw [hd]; rfl), hd] at converted
    cases converted
    refine ⟨⟨_, rfl⟩, ?_⟩
    cases rest <;> simp [opening, refusalLog, Event.level]

theorem Making.sublist_failed (m : c.Making tree s memory conversion) :
    conversion.failures.Sublist ((c.job tree s).excused (m.course.failed (c.job tree s))) := by
  have left : (m.yield.filterMap Emission.failure).Sublist (m.emissions.filterMap Emission.failure) :=
    (Target.Renumbering.pick_sublist _ _).filterMap _
  rw [m.failures]
  exact left.trans (Job.sublist_failed _ _ _)

/-- A conversion that ends has warned once of each kind without a rule that was met on its course, in
the order in which these kinds came up and each with the place of the first node of the kind, unless
the settings keep it from that; and it has warned of each rule that has failed, in the order in which
they ended, if placeholders are allowed.  The failures that are handed out are among the latter. -/
theorem warnings_exact (ends : c.Ends tree s memory report) :
    ∃ course, c.Goes tree s memory course report ∧
      report.log.toList.filter Event.isSkip =
        (if s.failOnUnknown || s.quiet then []
          else ((course.elim [] Course.met).eraseDupsBy fun m n =>
              ParseTree.kind tree m == ParseTree.kind tree n).map fun n =>
            .skipped (ParseTree.kind tree n) ((c.job tree s).positionOf n)) ∧
      report.log.toList.filterMap Event.substituted? =
        (if s.allowInvalid then course.elim [] (Course.failed (c.job tree s)) else []) ∧
      ∀ conversion, report.outcome = .ok conversion →
        conversion.failures.Sublist (report.log.toList.filterMap Event.substituted?) := by
  by_cases accepts : c.Accepts tree s
  · obtain ⟨course, -, answer, w, rfl, runs⟩ := ends.exists_takes accepts
    obtain ⟨later, log, mild⟩ := c.exists_mild tree s answer w
    obtain ⟨noSkips, noSubstitutes⟩ := warnings_of_mild mild
    obtain ⟨-, skips, substitutes⟩ := runs.tells
    refine ⟨some course, .taken ⟨accepts, answer, w, rfl, runs⟩, ?skips, ?substitutes, ?among⟩
    case skips =>
      have fresh : (begun tree memory).warned = [] := rfl
      rw [log, List.filter_append, noSkips, List.append_nil, skips, fresh, unseen_nil]
      show [] ++ ((if s.failOnUnknown || s.quiet then [] else course.met).eraseDupsBy _).map _ = _
      by_cases silent : (s.failOnUnknown || s.quiet) = true
      · rw [if_pos silent, if_pos silent]
        rfl
      · rw [if_neg silent, if_neg silent]
        rfl
    case substitutes =>
      rw [log, List.filterMap_append, noSubstitutes, List.append_nil, substitutes]
      rfl
    case among =>
      intro conversion ok
      obtain ⟨depth, done⟩ := ends
      obtain ⟨m⟩ := exists_making done ok
      obtain ⟨rfl, -⟩ := m.runs.unique runs
      rw [log, List.filterMap_append, noSubstitutes, List.append_nil, substitutes]
      exact m.sublist_failed
  · obtain ⟨⟨failure, failed⟩, mild⟩ := ends.idle accepts
    obtain ⟨noSkips, noSubstitutes⟩ := warnings_of_mild mild
    refine ⟨none, .refused accepts ends, ?_, ?_, ?_⟩
    · rw [noSkips]
      split <;> rfl
    · rw [noSubstitutes]
      split <;> rfl
    · intro conversion ok
      cases failed.symm.trans ok

end Converter

/-! ### A small conversion that leaves nodes out -/

namespace Blots

/-- A list of a group and a blot; there is a blot in the group as well. -/
def tree : Source.Tree where
  text := "((?), ?)"
  nodes := #[⟨"List", ⟨0, 8⟩, [⟨1⟩, ⟨3⟩], []⟩, ⟨"Group", ⟨1, 4⟩, [⟨2⟩], []⟩,
    ⟨"Blot", ⟨2, 3⟩, [], []⟩, ⟨"Blot", ⟨6, 7⟩, [], []⟩]
  root := ⟨0⟩
  diagnostics := []
  tokens := []
  comments := []

/-- Fails after it has had the children converted. -/
def group : Rule Source.Tree Unit := fun tree node =>
  (Action.convertChildren tree node).bind fun _ => .done (.error (.failed "empty"))

/-- There is no rule for blots. -/
def converter : Converter Source.Tree Unit :=
  ⟨(Rulebook.empty.insert "List" Parens.list).insert "Group" group, none, none⟩

def job : Job Source.Tree Unit := converter.job tree Parens.settings

theorem find_list : converter.rules.find? "List" = some Parens.list := by simp [converter]

theorem find_group : converter.rules.find? "Group" = some group := by simp [converter]

theorem find_blot : converter.rules.find? "Blot" = none := by
  rw [converter, Rulebook.find?_insert, Rulebook.find?_insert]
  simp [Rulebook.empty, Rulebook.find?]

theorem runs_skip {α : Type} {node m : Handle} {next : Converted → Action Unit α}
    {w w' : Workspace Unit} {rest : Course} {result : α}
    (unknown : converter.rules.find? (ParseTree.kind tree m) = none)
    (goes : job.Runs node (next (.ok [])) (job.skip m w).2 rest result w') :
    job.Runs node (.convert m next) w (.skipped m rest) result w' :=
  .skip unknown (by rw [Job.fst_skip_of_lenient rfl]; exact goes)

theorem runs_group (w : Workspace Unit) : ∃ after,
    job.Runs ⟨1⟩ (group tree ⟨1⟩) w (.skipped ⟨2⟩ .ended) (.error (.failed "empty")) after :=
  ⟨_, runs_skip find_blot (.done _ _)⟩

theorem takes : ∃ course report, converter.Takes tree Parens.settings () course report ∧
    course.met = [⟨2⟩, ⟨3⟩] ∧ course.failed job = [job.ruleFailure ⟨1⟩ "empty"] := by
  obtain ⟨after, inner⟩ := runs_group { Converter.begun tree () with current := ⟨1⟩ }
  have ran : job.Runs ⟨0⟩ (.convert ⟨0⟩ .done) (Converter.begun tree ()) _ (.ok [_]) _ :=
    .convert find_list
      (.convert find_group inner rfl (runs_skip find_blot (.emit (.emit (.done _ _))))) rfl
      (.done _ _)
  exact ⟨_, _, ⟨⟨by decide, rfl⟩, _, _, rfl, ran⟩, rfl, rfl⟩

end Blots

/-- The group is taken back with its blot, and still the other blot is not warned of. -/
theorem Converter.warnings_exact_blots : ∃ report,
    Blots.converter.Ends Blots.tree Parens.settings () report ∧
    report.log.toList.filter Event.isSkip = [.skipped "Blot" (Blots.job.positionOf ⟨2⟩)] ∧
    report.log.toList.filterMap Event.substituted? = [Blots.job.ruleFailure ⟨1⟩ "empty"] := by
  obtain ⟨course, report, takes, met, failed⟩ := Blots.takes
  obtain ⟨_, goes, skips, substitutes, -⟩ := warnings_exact takes.ends
  cases goes with
  | refused refuses => exact absurd takes.accepts refuses
  | taken takes' =>
    obtain ⟨rfl, -⟩ := takes.unique takes'
    rw [Option.elim_some, met] at skips
    exact ⟨report, takes.ends, skips, substitutes.trans failed⟩

end TreeConversion
