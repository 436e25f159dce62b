import TreeConversion.Proofs.Harvest

/-!
# Failures and placeholders

The failures that a conversion hands out stand at places of its tree, in strictly ascending order:
just where a placeholder is left that the engine has put there.  If no rule emits nodes of the kind
of placeholders, a walk over the tree meets as many of that kind as there are failures.
-/

namespace TreeConversion

variable {τ σ α : Type} [ParseTree τ]

/-! ### Where emissions come from -/

/-- What rules have emitted on a course, whether it was taken back or not. -/
def Course.drafts : Course → List Draft
  | .ended => []
  | .emitted draft _ _ rest => draft :: rest.drafts
  | .skipped _ rest => rest.drafts
  | .converted _ inner _ _ rest => inner.drafts ++ rest.drafts

namespace Job

variable {job : Job τ σ}

theorem mem_leaves {node : Source.Handle} {outcome : Except Stop (List Target.Handle)}
    {es : List Emission} {e : Emission} (he : e ∈ job.leaves node outcome es) :
    e ∈ es ∨ ∃ message, e = job.standIn node message := by
  unfold leaves at he
  split at he
  · next message =>
    split at he
    · exact .inr ⟨message, List.mem_singleton.1 he⟩
    · exact .inl he
  · exact .inl he

/-- An emission was emitted by a rule, or it stands in for a rule that failed. -/
theorem Runs.mem_emissions {node : Source.Handle} {a : Action σ α} {w w' : Workspace σ}
    {course : Course} {result : α} (h : job.Runs node a w course result w') {e : Emission}
    (he : e ∈ course.emissions job node) :
    (e.failure = none ∧ ∃ draft ∈ course.drafts, e.node.kind = draft.kind) ∨
      ∃ message, e = job.standIn e.source message := by
  induction h with
  | done => cases he
  | @emit _ _ draft _ _ _ _ _ _ ih =>
    rcases List.mem_cons.1 he with rfl | he
    · exact .inl ⟨rfl, draft, List.mem_cons_self .., rfl⟩
    · rcases ih he with ⟨none, d, hd, kind⟩ | placeholder
      · exact .inl ⟨none, d, List.mem_cons_of_mem _ hd, kind⟩
      · exact .inr placeholder
  | convert _ _ _ _ ihran ihgoes =>
    rcases List.mem_append.1 he with he | he
    · rcases mem_leaves he with he | ⟨message, rfl⟩
      · rcases ihran he with ⟨none, d, hd, kind⟩ | placeholder
        · exact .inl ⟨none, d, List.mem_append_left _ hd, kind⟩
        · exact .inr placeholder
      · exact .inr ⟨message, rfl⟩
    · rcases ihgoes he with ⟨none, d, hd, kind⟩ | placeholder
      · exact .inl ⟨none, d, List.mem_append_right _ hd, kind⟩
      · exact .inr placeholder
  | skip _ _ ih | look _ ih | current _ ih | settings _ ih | position _ ih | load _ ih
  | store _ ih => exact ih he

end Job

/-! ### Places -/

/-- The places of placeholders among emissions, with the failures that they stand for. -/
def Emission.places (es : List Emission) : List (Target.Handle × RuleFailure) :=
  Origins.pairsFrom 0 (es.map Emission.failure)

namespace Emission

variable {es : List Emission}

theorem mem_places {place : Target.Handle} {failure : RuleFailure} :
    (place, failure) ∈ places es ↔ ∃ e, es[place.index]? = some e ∧ e.failure = some failure := by
  rw [places, Origins.mem_pairsFrom_zero, List.getElem?_map, Option.map_eq_some_iff]

theorem map_snd_places : (places es).map Prod.snd = es.filterMap Emission.failure := by
  rw [places, Origins.map_snd_pairsFrom, List.filterMap_map]
  rfl

end Emission

/-! ### Counting on a walk -/

theorem Target.Tree.walk_eq {ρ : Type} (t : Target.Tree)
    (visit : ρ → Target.Handle → Target.Node → ρ) (start : ρ) :
    t.walk visit start =
      t.reachable.foldl (fun r h => (t.node? h).elim r (visit r h)) start := by
  unfold walk
  congr 1
  funext r h
  cases t.node? h <;> rfl

theorem Target.Tree.walk_count {t : Target.Tree}
    (all : ∀ h : Target.Handle, h.index < t.size → t.Below t.root h) (p : Target.Node → Bool) :
    t.walk (fun n _ node => if p node then n + 1 else n) 0 = t.nodes.toList.countP p := by
  have walk (hs : List Target.Handle) (n : Nat) :
      hs.foldl (fun n h => (t.node? h).elim n fun node => if p node then n + 1 else n) n =
        n + hs.countP fun h => (t.node? h).any p := by
    induction hs generalizing n with
    | nil => rfl
    | cons h hs ih =>
      rw [List.foldl_cons, ih, List.countP_cons]
      cases hn : t.node? h with
      | none => simp
      | some node => cases hp : p node <;> simp [hp]; omega
  have nodes : t.nodes.toList.map some = (List.range t.size).map fun i => t.node? ⟨i⟩ := by
    refine List.ext_getElem (by simp [Target.Tree.size]) fun i hi hi' => ?_
    have bound : i < t.nodes.size := by simpa using hi
    simp [Target.Tree.node?, bound]
  calc t.walk (fun n _ node => if p node then n + 1 else n) 0
      = t.reachable.countP (fun h => (t.node? h).any p) := by
        rw [Target.Tree.walk_eq, walk, Nat.zero_add]
    _ = ((List.range t.size).map Target.Handle.mk).countP (fun h => (t.node? h).any p) :=
        (Target.Tree.perm_reachable all).countP_eq _
    _ = ((List.range t.size).map fun i => t.node? ⟨i⟩).countP (Option.any p) := by
        rw [List.countP_map, List.countP_map]; rfl
    _ = t.nodes.toList.countP p := by
        rw [← nodes, List.countP_map]; rfl

/-! ### Failures of a conversion -/

namespace Converter

variable {c : Converter τ σ} {depth : Nat} {tree : τ} {s : Settings} {memory : σ}
  {report : Report σ} {conversion : Conversion}

/-- The node at a place of a tree is the placeholder for this failure. -/
structure StandsAt (job : Job τ σ) (origins : Origins) (t : Target.Tree) (place : Target.Handle)
    (failure : RuleFailure) : Prop where
  node : ∃ node, t.node? place = some node ∧ node.kind = job.settings.placeholderKind ∧
    node.fields = [("message", .value (.string failure.message))]
  source : ∃ source, origins.sourceOf place = some source ∧
    failure.kind = ParseTree.kind job.tree source ∧
    failure.position = job.lines.position (ParseTree.span job.tree source).start

namespace Making

variable (m : c.Making tree s memory conversion)

theorem mem_yield {e : Emission} (he : e ∈ m.yield) :
    (e.failure = none ∧ ∃ draft ∈ m.course.drafts, e.node.kind = draft.kind) ∨
      ∃ message, e = (c.job tree s).standIn e.source message :=
  m.runs.mem_emissions (Target.Renumbering.mem_of_mem_pick he)

theorem mem_map_fst_places {t : Target.Handle} :
    t ∈ (Emission.places m.yield).map Prod.fst ↔
      ∃ node message, m.yield[t.index]? = some ((c.job tree s).standIn node message) := by
  constructor
  · intro hm
    obtain ⟨⟨t, failure⟩, hp, rfl⟩ := List.mem_map.1 hm
    obtain ⟨e, he, hf⟩ := Emission.mem_places.1 hp
    obtain ⟨none, -⟩ | ⟨message, placeholder⟩ := m.mem_yield (List.mem_of_getElem? he)
    · cases none.symm.trans hf
    · exact ⟨e.source, message, placeholder ▸ he⟩
  · rintro ⟨node, message, he⟩
    exact List.mem_map.2 ⟨(t, _), Emission.mem_places.2 ⟨_, he, rfl⟩, rfl⟩

theorem standsAt_of_mem_places {place : Target.Handle} {failure : RuleFailure}
    (hp : (place, failure) ∈ Emission.places m.yield) :
    StandsAt (c.job tree s) m.origins conversion.tree place failure := by
  obtain ⟨e, he, hf⟩ := Emission.mem_places.1 hp
  -- a failure comes with a node that stands in for the rule that failed
  obtain ⟨none, -⟩ | ⟨message, placeholder⟩ := m.mem_yield (List.mem_of_getElem? he)
  · cases none.symm.trans hf
  have same : (c.job tree s).ruleFailure e.source message = failure := by
    rw [placeholder] at hf
    exact Option.some.inj hf
  obtain ⟨node, hn, became⟩ := Emission.exists_became m.became he
  refine ⟨⟨node, hn, ?_, ?_⟩, e.source, ?_, ?_, ?_⟩
  · rw [became.kind, placeholder]
    rfl
  · rw [became.fields, placeholder, ← same]
    rfl
  · have source : e.origin? = some e.source := by rw [placeholder]; rfl
    rw [m.sourceOf, he, ← source]
    rfl
  · rw [← same]
    rfl
  · rw [← same]
    rfl

/-- If no rule emits nodes of the kind of placeholders, that kind tells the placeholders. -/
theorem countP_yield (own : ∀ draft ∈ m.course.drafts, draft.kind ≠ s.placeholderKind) :
    m.yield.countP (fun e => e.node.kind == s.placeholderKind) = conversion.failures.length := by
  rw [m.failures, List.length_filterMap_eq_countP]
  refine List.countP_congr fun e he => ?_
  rw [beq_iff_eq]
  rcases m.mem_yield he with ⟨none, draft, hd, kind⟩ | ⟨message, placeholder⟩
  · rw [none, kind]
    simp [own draft hd]
  · rw [placeholder]
    exact ⟨fun _ => rfl, fun _ => rfl⟩

end Making

/-- The places of a tree where the failures of the conversion stand. -/
structure Placed (m : c.Making tree s memory conversion) (places : List Target.Handle) : Prop where
  became : List.Forall₂ (Emission.Became m.table) m.yield conversion.tree.nodes.toList
  ascending : places.Pairwise fun a b => a.index < b.index
  mem : ∀ t, t ∈ places ↔
    ∃ node message, m.yield[t.index]? = some ((c.job tree s).standIn node message)
  stands : List.Forall₂ (StandsAt (c.job tree s) m.origins conversion.tree) places
    conversion.failures
  /-- Where rules leave the kind of placeholders to the engine, a walk can count them by it. -/
  count : (∀ draft ∈ m.course.drafts, draft.kind ≠ s.placeholderKind) →
    conversion.tree.walk (fun n _ node => if node.kind == s.placeholderKind then n + 1 else n) 0 =
      conversion.failures.length

/-- The failures that a conversion hands out are those of the placeholders in its tree, each at its
place. -/
theorem failures_stand_at_placeholders (done : c.convert depth tree s memory = some report)
    (ok : report.outcome = .ok conversion) :
    ∃ (m : c.Making tree s memory conversion) (places : List Target.Handle), Placed m places := by
  obtain ⟨m⟩ := exists_making done ok
  refine ⟨m, (Emission.places m.yield).map Prod.fst, m.became, ?ascending,
    fun t => m.mem_map_fst_places, ?stands, fun own => ?count⟩
  case ascending => exact List.pairwise_map.2 (Origins.ascending_pairsFrom _ _)
  case stands =>
    rw [m.failures, ← Emission.map_snd_places, List.forall₂_map_left_iff,
      List.forall₂_map_right_iff, List.forall₂_same]
    exact fun p hp => m.standsAt_of_mem_places hp
  case count =>
    have kinds : conversion.tree.nodes.toList.map (fun node => node.kind) =
        m.yield.map fun e => e.node.kind :=
      Emission.map_eq_of_became m.became fun _ _ b => b.kind
    have count := congrArg (List.countP (· == s.placeholderKind)) kinds
    rw [List.countP_map, List.countP_map] at count
    calc conversion.tree.walk
          (fun n _ node => if node.kind == s.placeholderKind then n + 1 else n) 0
        = conversion.tree.nodes.toList.countP (fun node => node.kind == s.placeholderKind) :=
          Target.Tree.walk_count m.below_root _
      _ = m.yield.countP (fun e => e.node.kind == s.placeholderKind) := count
      _ = conversion.failures.length := m.countP_yield own

theorem failures_stand_at_placeholders_parens : ∃ report conversion,
    Parens.converter.convert 2 Parens.tree Parens.settings () = some report ∧
      report.outcome = .ok conversion ∧
      ∃ (m : Parens.converter.Making Parens.tree Parens.settings () conversion)
        (places : List Target.Handle), Placed m places := by
  obtain ⟨report, conversion, done, ok⟩ := Parens.converts
  exact ⟨report, conversion, done, ok, failures_stand_at_placeholders done ok⟩

end Converter

end TreeConversion
