import TreeConversion.Proofs.Harvest
import TreeConversion.Proofs.Render

/-!
# Rules that use their own handles only

A rule uses its own handles only if what it puts into nodes and into its result was given to it by
the engine, in the same run of the rule (`Course.UsesOwn`; for programs, `Action.UsesOwn`).  While
it runs, no handle that it has been given is taken back or comes to denote another node, since a
rollback ends at a checkpoint that is later; so children always come before their parents
(`Workspace.Safe`), and all handles of the finished tree are sound.
-/

namespace TreeConversion

variable {τ σ α β : Type} [ParseTree τ]

/-! ### Handles that are given and used -/

/-- The handles in an answer. -/
def handlesIn {ε : Type} : Except ε (List Target.Handle) → List Target.Handle
  | .ok hs => hs
  | .error _ => []

namespace Course

/-- The handles that a program was given on its course. -/
def given : Course → List Target.Handle
  | ended => []
  | emitted _ handle _ rest => handle :: rest.given
  | skipped _ rest => rest.given
  | converted _ _ _ answer rest => handlesIn answer ++ rest.given

/-- What every rule on the course puts into nodes and into its result was given to it before; the
program whose course this is may also use `own`. -/
def UsesOwn : Course → List Target.Handle → Prop
  | ended, _ => True
  | emitted draft handle _ rest, own => draft.children ⊆ own ∧ rest.UsesOwn (handle :: own)
  | skipped _ rest, own => rest.UsesOwn own
  | converted _ inner outcome answer rest, own =>
    (inner.UsesOwn [] ∧ handlesIn outcome ⊆ inner.given) ∧
      rest.UsesOwn (handlesIn answer ++ own)

end Course

/-! ### States -/

namespace Workspace

/-- Every child comes before its parents. -/
def Grounded (w : Workspace σ) : Prop :=
  ∀ (i : Nat) (node : Target.Node), w.nodes[i]? = some node → ∀ c ∈ node.children, c.index < i

/-- A state in which these handles may be used. -/
structure Safe (w : Workspace σ) (own : List Target.Handle) : Prop where
  sound : w.Sound
  grounded : w.Grounded
  held : ∀ h ∈ own, h.index < w.nodes.size

variable {w w' : Workspace σ} {own own' : List Target.Handle}

theorem safe_start (root : Source.Handle) (log : Array Event) (memory : σ) :
    (start root log memory).Safe [] :=
  ⟨sound_start root log memory, fun _ _ hn => by simp [start] at hn,
    fun _ hh => absurd hh List.not_mem_nil⟩

namespace Safe

theorem mono (safe : w.Safe own) (sub : own' ⊆ own) : w.Safe own' :=
  ⟨safe.sound, safe.grounded, fun h hh => safe.held h (sub hh)⟩

theorem handOver (safe : w.Safe own) (node : Source.Handle) : { w with current := node }.Safe own :=
  ⟨⟨safe.sound.coherent, safe.sound.within⟩, safe.grounded, safe.held⟩

theorem of_adds_nil (safe : w.Safe own) (adds : w.Adds w' []) : w'.Safe own := by
  have nodes : w'.nodes = w.nodes := Array.toList_inj.1 (by rw [adds.nodes]; simp)
  exact ⟨adds.sound, fun i node hn => safe.grounded i node (nodes ▸ hn),
    fun h hh => nodes ▸ safe.held h hh⟩

/-- A node has been added whose children may be used; it may be used as well. -/
theorem of_adds_singleton (safe : w.Safe own) {e : Emission} (adds : w.Adds w' [e])
    (children : e.node.children ⊆ own) : w'.Safe (⟨w.nodes.size⟩ :: own) := by
  have nodes : w'.nodes = w.nodes.push e.node :=
    Array.toList_inj.1 (by rw [adds.nodes, Array.toList_push]; rfl)
  refine ⟨adds.sound, fun i node hn c hc => ?_, fun h hh => ?_⟩
  · rw [nodes, Array.getElem?_push] at hn
    split at hn
    · next last =>
      obtain rfl := Option.some.inj hn
      exact last ▸ safe.held c (children hc)
    · exact safe.grounded i node hn c hc
  · rw [nodes, Array.size_push]
    rcases List.mem_cons.1 hh with rfl | hh
    · exact Nat.lt_succ_self _
    · exact Nat.lt_succ_of_lt (safe.held h hh)

theorem later (safe : w.Safe own) (safe' : w'.Safe own') {es : List Emission}
    (adds : w.Adds w' es) : w'.Safe (own' ++ own) := by
  refine ⟨safe'.sound, safe'.grounded, fun h hh => ?_⟩
  rcases List.mem_append.1 hh with hh | hh
  · exact safe'.held h hh
  · rw [adds.size]
    exact Nat.lt_add_right _ (safe.held h hh)

end Safe

end Workspace

/-! ### Runs -/

namespace Job

variable {job : Job τ σ} {w after settled w' : Workspace σ} {own given : List Target.Handle}

theorem handlesIn_skip (job : Job τ σ) (node : Source.Handle) (w : Workspace σ) :
    handlesIn (job.skip node w).1 = [] := by
  unfold skip
  dsimp only
  split
  · rfl
  · split <;> rfl

theorem safe_emitFor (safe : w.Safe own) (node : Source.Handle) {draft : Draft}
    (children : draft.children ⊆ own) :
    (job.emitFor node draft w).2.Safe ((job.emitFor node draft w).1 :: own) :=
  safe.of_adds_singleton (job.adds_emit safe.sound node draft) children

/-- The handles in the answer for a rule that has ended may be used. -/
theorem safe_settle (safe : w.Safe own) {es : List Emission} (adds : w.Adds after es)
    (inner : after.Safe given) {node : Source.Handle}
    {outcome : Except Stop (List Target.Handle)} {answer : Converted}
    (result : handlesIn outcome ⊆ given)
    (settles : job.settle node w.checkpoint outcome after = (answer, settled)) :
    settled.Safe (handlesIn answer ++ own) := by
  have step := job.adds_settle safe.sound adds node outcome
  rw [settles] at step
  rcases outcome with (message | failure) | produced
  · by_cases allowed : job.settings.allowInvalid = true
    · -- of the rule only its placeholder is left, which has no children
      have first := job.fst_settle_failed allowed safe.sound adds node message
      rw [settles] at first
      obtain rfl : answer = .ok [⟨w.nodes.size⟩] := first
      simp only [leaves, if_pos allowed] at step
      exact safe.of_adds_singleton step (List.nil_subset _)
    · simp only [settle, if_neg allowed] at settles
      obtain ⟨rfl, rfl⟩ := Prod.mk.inj settles
      exact safe.later (inner.mono (List.nil_subset _)) adds
  · obtain ⟨rfl, rfl⟩ := Prod.mk.inj settles
    exact safe.later (inner.mono (List.nil_subset _)) adds
  · obtain ⟨rfl, rfl⟩ := Prod.mk.inj settles
    have told (e : Event) := inner.of_adds_nil (.tell inner.sound e)
    exact safe.later ((told _).mono result) step

/-- A program that uses its own handles only may use all handles that it has been given. -/
theorem Runs.safe {node : Source.Handle} {a : Action σ α} {course : Course} {result : α}
    (h : job.Runs node a w course result w') (uses : course.UsesOwn own) (safe : w.Safe own) :
    w'.Safe (course.given ++ own) := by
  induction h generalizing own with
  | done => exact safe
  | @emit _ node draft _ w _ rest _ _ ih =>
    have step := ih uses.2 (safe_emitFor safe node uses.1)
    exact step.mono fun h hh => by simpa [Course.given, or_left_comm] using hh
  | skip _ _ ih => exact ih uses (safe.of_adds_nil (job.adds_skip safe.sound _))
  | @convert _ _ m _ w after settled _ _ inner rest outcome answer _ _ ran settles _ ihran ihgoes =>
    obtain ⟨⟨within, result⟩, later⟩ := uses
    -- the rule has no handles when it starts, and those it was given are not handed back
    have fresh : { w with current := m }.Safe [] := (safe.mono (List.nil_subset _)).handOver m
    have adds := (ran.adds fresh.sound).handBack
    have ended := (ihran within fresh).handOver w.current
    rw [List.append_nil] at ended
    have step := ihgoes later (safe_settle safe adds ended result settles)
    exact step.mono fun h hh => by simpa [Course.given, or_left_comm] using hh
  | store _ ih =>
    exact ih uses ⟨⟨safe.sound.coherent, safe.sound.within⟩, safe.grounded, safe.held⟩
  | look _ ih | current _ ih | settings _ ih | position _ ih | load _ ih => exact ih uses safe

theorem Runs.handlesIn_subset_given {node m : Source.Handle} {course : Course} {answer : Converted}
    (h : job.Runs node (.convert m .done) w course answer w') :
    handlesIn answer ⊆ course.given := by
  cases h with
  | skip unknown goes =>
    cases goes
    rw [job.handlesIn_skip]
    exact List.nil_subset _
  | convert found ran settles goes =>
    cases goes
    exact List.subset_append_left _ _

end Job

/-! ### Programs -/

namespace Action

/-- Whatever the engine answers, the program puts into nodes only handles that it was given or that
are among `own`, and so are the handles `out` of its result. -/
def UsesOwn (out : α → List Target.Handle) : Action σ α → List Target.Handle → Prop
  | .done result, own => out result ⊆ own
  | .emit draft next, own => draft.children ⊆ own ∧ ∀ h, (next h).UsesOwn out (h :: own)
  | .convert _ next, own => ∀ answer, (next answer).UsesOwn out (handlesIn answer ++ own)
  | .look _ next, own => ∀ node, (next node).UsesOwn out own
  | .current next, own => ∀ node, (next node).UsesOwn out own
  | .settings next, own => ∀ s, (next s).UsesOwn out own
  | .position _ next, own => ∀ p, (next p).UsesOwn out own
  | .load next, own => ∀ m, (next m).UsesOwn out own
  | .store _ next, own => next.UsesOwn out own

variable {out : α → List Target.Handle} {out' : β → List Target.Handle}
  {own : List Target.Handle}

theorem UsesOwn.bind {a : Action σ α} {f : α → Action σ β} (uses : a.UsesOwn out own)
    (goes : ∀ result own', own ⊆ own' → out result ⊆ own' → (f result).UsesOwn out' own') :
    (a.bind f).UsesOwn out' own := by
  induction a generalizing own with
  | done result => exact goes result own (List.Subset.refl _) uses
  | emit draft next ih =>
    refine ⟨uses.1, fun h => ih h (uses.2 h) fun result own' sub => ?_⟩
    exact goes result own' (List.Subset.trans (List.subset_cons_self _ _) sub)
  | convert node next ih =>
    refine fun answer => ih answer (uses answer) fun result own' sub => ?_
    exact goes result own' (List.Subset.trans (List.subset_append_right _ _) sub)
  | store memory next ih => exact ih uses goes
  | look _ next ih | current next ih | settings next ih | position _ next ih | load next ih =>
    exact fun x => ih x (uses x) goes

theorem usesOwn_convertAll (nodes : List Source.Handle) (own : List Target.Handle) :
    (convertAll nodes : Action σ _).UsesOwn handlesIn own := by
  induction nodes generalizing own with
  | nil => exact List.nil_subset _
  | cons node rest ih =>
    rintro (failure | front)
    · exact List.nil_subset _
    · refine (ih (front ++ own)).bind ?_
      rintro (failure | back) own' sub given
      · exact List.nil_subset _
      · have own : front ⊆ own' := List.Subset.trans (List.subset_append_left _ _) sub
        exact List.append_subset.2 ⟨own, given⟩

theorem usesOwn_convertChildren (tree : τ) (node : Source.Handle) (own : List Target.Handle) :
    (convertChildren tree node : Action σ _).UsesOwn handlesIn own :=
  usesOwn_convertAll _ own

end Action

namespace Rulebook

variable {rules : Rulebook τ σ}

/-- Rules that use their own handles only, whatever the engine answers. -/
def UsesOwn (rules : Rulebook τ σ) : Prop :=
  ∀ kind rule, rules.find? kind = some rule → ∀ tree node, (rule tree node).UsesOwn handlesIn []

/-- Such rules do so on every course. -/
theorem UsesOwn.course {job : Job τ σ} (rules : job.rules.UsesOwn) {node : Source.Handle}
    {a : Action σ α} {w w' : Workspace σ} {course : Course} {result : α}
    (h : job.Runs node a w course result w') {out : α → List Target.Handle}
    {own : List Target.Handle} (uses : a.UsesOwn out own) :
    course.UsesOwn own ∧ out result ⊆ course.given ++ own := by
  induction h generalizing own with
  | done => exact ⟨trivial, uses⟩
  | emit _ ih =>
    obtain ⟨later, result⟩ := ih (uses.2 _)
    refine ⟨⟨uses.1, later⟩, List.Subset.trans result fun h hh => ?_⟩
    simpa [Course.given, or_left_comm] using hh
  | @skip _ _ m _ w _ _ _ _ _ ih =>
    have uses := uses (job.skip m w).1
    rw [job.handlesIn_skip, List.nil_append] at uses
    exact ih uses
  | @convert _ _ m _ _ _ _ _ _ _ _ _ answer _ found _ _ _ ihran ihgoes =>
    obtain ⟨within, given⟩ := ihran (rules _ _ found _ m)
    obtain ⟨later, result⟩ := ihgoes (uses answer)
    rw [List.append_nil] at given
    refine ⟨⟨⟨within, given⟩, later⟩, List.Subset.trans result fun h hh => ?_⟩
    simpa [Course.given, or_left_comm] using hh
  | store _ ih => exact ih uses
  | look _ ih | current _ ih | settings _ ih | position _ ih | load _ ih => exact ih (uses _)

end Rulebook

namespace Parens

theorem usesOwn_rules : rules.UsesOwn := by
  have name : ∀ tree node, (name tree node).UsesOwn handlesIn [] := fun _ _ =>
    ⟨List.nil_subset _, fun _ => List.Subset.refl _⟩
  have blot : ∀ tree node, (blot tree node).UsesOwn handlesIn [] := fun _ _ =>
    ⟨List.nil_subset _, fun _ => List.nil_subset _⟩
  have list : ∀ tree node, (list tree node).UsesOwn handlesIn [] := by
    intro tree node
    refine (Action.usesOwn_convertChildren tree node []).bind ?_
    rintro (failure | hs) own - given
    · exact List.nil_subset _
    · have items : hs ⊆ own := given
      refine ⟨List.nil_subset _, fun scratch => ⟨?_, fun sequence => ?_⟩⟩
      · simpa [Draft.children, Target.Field.children] using List.subset_cons_of_subset _ items
      · exact List.cons_subset.2 ⟨List.mem_cons_self .., List.nil_subset _⟩
  exact Rulebook.forall_insert
    (Rulebook.forall_insert (Rulebook.forall_insert Rulebook.forall_empty list) name) blot

end Parens

/-! ### Finished trees -/

theorem Workspace.Grounded.tree {w : Workspace σ} (grounded : w.Grounded) (root : Target.Handle) :
    (Target.Tree.mk w.nodes root none none).Grounded := by
  intro h c hc
  have bound := Target.Tree.lt_size_of_mem_childrenOf hc
  obtain ⟨node, hn⟩ := Option.isSome_iff_exists.1 (Target.Tree.node?_isSome.2 bound)
  rw [Target.Tree.childrenOf_eq hn] at hc
  exact grounded h.index node hn c hc

namespace Converter

variable {c : Converter τ σ} {depth : Nat} {tree : τ} {s : Settings} {memory : σ}
  {report : Report σ} {conversion : Conversion}

theorem Making.usesOwn (m : c.Making tree s memory conversion) (rules : c.rules.UsesOwn) :
    m.course.UsesOwn [] :=
  have uses : (Action.convert (ParseTree.root tree) .done : Action σ Converted).UsesOwn
      handlesIn [] := fun _ => List.subset_append_left _ _
  (Rulebook.UsesOwn.course rules m.runs uses).1

/-- If the rules that have run used their own handles only, all handles of the finished tree are
sound. -/
theorem tree_sound (done : c.convert depth tree s memory = some report)
    (ok : report.outcome = .ok conversion)
    (own : ∀ m : c.Making tree s memory conversion, m.course.UsesOwn []) :
    conversion.tree.Sound := by
  obtain ⟨m⟩ := exists_making done ok
  have safe := m.runs.safe (own m) (Workspace.safe_start _ _ _)
  have root : m.root.index < m.last.nodes.size := by
    have given := m.runs.handlesIn_subset_given (List.mem_singleton_self m.root)
    exact safe.held m.root (List.mem_append_left _ given)
  have grounded := (safe.grounded.tree m.root).compact
  have live := (Target.Tree.mk m.last.nodes m.root none none).root_lt_size_compact root
  rw [m.adds.arena_eq m.root] at grounded live
  refine Target.Tree.sound_of_grounded (fun h c hc => ?_) ?_ m.below_root
  · rw [m.alike.childrenOf] at hc
    exact grounded h c hc
  · rw [m.alike.root, m.alike.size]
    exact live

theorem tree_sound_parens : ∃ report conversion,
    Parens.converter.convert 2 Parens.tree Parens.settings () = some report ∧
      report.outcome = .ok conversion ∧
      (∀ m : Parens.converter.Making Parens.tree Parens.settings () conversion,
        m.course.UsesOwn []) ∧
      conversion.tree.Sound := by
  obtain ⟨report, conversion, done, ok⟩ := Parens.converts
  have own (m : Parens.converter.Making Parens.tree Parens.settings () conversion) :
      m.course.UsesOwn [] := m.usesOwn Parens.usesOwn_rules
  exact ⟨report, conversion, done, ok, own, tree_sound done ok own⟩

end Converter

end TreeConversion
