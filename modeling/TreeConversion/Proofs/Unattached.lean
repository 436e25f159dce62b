import TreeConversion.Proofs.Endings
import TreeConversion.Proofs.Padding

/-!
# Unattached nodes leave no trace

Two runs of the engine, one with rules that pad those of the other, go through states that differ only
in emissions that nothing uses.  A step of both adds to both, a rollback takes back from both, and an
emission of the padding adds to one of them (`Job.run_comes`, `Job.convert_comes`).  What can be
reached from the root in the end is the same, so the conversions have the same outcome
(`Converter.outcome_of_pads`).
-/

namespace TreeConversion

open Target Workspace

variable {τ σ : Type} [ParseTree τ]

/-- Two programs, started in the states `w` and `w'`, have come to results that are the same but for
handles that stand for each other. -/
def Comes {ε : Type} (same : σ → σ → Prop) (marks : List Bool) (es es' : List Emission)
    (w w' : Workspace σ) (r r' : Except ε (List Handle) × Workspace σ) : Prop :=
  ∃ more new new', Grow same marks es es' w w' more new new' r.2 r'.2 ∧
    ResultAlike (Twin (marks ++ more)) r.1 r'.1

variable {ε : Type} {same : σ → σ → Prop} {marks more : List Bool}
  {es es' new new' : List Emission} {w w' v v' : Workspace σ}

omit [ParseTree τ] in
theorem Workspace.Grow.comes (first : Grow same marks es es' w w' more new new' v v')
    {o o' : Option (Except ε (List Handle) × Workspace σ)}
    (later : Option.Rel (Comes same (marks ++ more) (es ++ new) (es' ++ new') v v') o o') :
    Option.Rel (Comes same marks es es' w w') o o' := by
  cases later with
  | none => exact .none
  | some comes =>
    obtain ⟨more', later, later', grow, alike⟩ := comes
    refine .some ⟨more ++ more', new ++ later, new' ++ later', first.trans grow, ?_⟩
    rw [← List.append_assoc]
    exact alike

namespace Job

variable {job : Job τ σ} {rules' : Rulebook τ σ} {after after' : Workspace σ}

/-! ### Steps -/

theorem made_alike (job : Job τ σ) (sifts : Sifts same marks es es' w w') (node : Source.Handle)
    {d d' : Draft} (alike : d.Alike (Twin marks) d') :
    (job.made node d w).Alike (Twin marks) (job.made node d' w') := by
  refine ⟨?_, alike.fields, alike.synthetic⟩
  simp only [made, Draft.made, sifts.spanOf_eq alike, alike.kind]

theorem grow_emit (job : Job τ σ) (sifts : Sifts same marks es es' w w') (node : Source.Handle)
    {d d' : Draft} (alike : d.Alike (Twin marks) d') :
    Grow same marks es es' w w' [true] [⟨node, d, job.made node d w, none⟩]
      [⟨node, d', job.made node d' w', none⟩] (job.emitFor node d w).2 (job.emitFor node d' w').2 :=
  ⟨job.adds_emit sifts.sound node d, job.adds_emit sifts.sound' node d',
    sifts.sifted.both ⟨rfl, job.made_alike sifts node alike, rfl⟩, sifts.warned, sifts.memory⟩

theorem grow_extra (job : Job τ σ) (sifts : Sifts same marks es es' w w') (node : Source.Handle)
    (d' : Draft) : Grow same marks es es' w w' [false] [] [⟨node, d', job.made node d' w', none⟩]
      w (job.emitFor node d' w').2 := by
  refine ⟨.refl sifts.sound, job.adds_emit sifts.sound' node d', ?_, sifts.warned, sifts.memory⟩
  rw [List.append_nil]
  exact sifts.sifted.extra _

theorem comes_skip (job : Job τ σ) (sifts : Sifts same marks es es' w w') (m : Source.Handle) :
    Comes same marks es es' w w' (job.skip m w) (job.skip m w') := by
  have adds := job.adds_skip sifts.sound m
  have adds' := job.adds_skip sifts.sound' m
  have warned : (job.skip m w').2.warned = (job.skip m w).2.warned := by
    simp only [skip, sifts.warned]
    split
    · exact sifts.warned
    · split
      · exact sifts.warned
      · rfl
  have memory (w : Workspace σ) : (job.skip m w).2.memory = w.memory := by
    obtain ⟨warned, log, same, -⟩ := job.skip_eq m w
    rw [same]
  have answers : ResultAlike (Twin (marks ++ [])) (job.skip m w).1 (job.skip m w').1 := by
    simp only [skip, sifts.warned]
    split
    · exact .error _
    · split <;> exact .ok .nil
  refine ⟨[], [], [], sifts.still adds adds' warned ?_, answers⟩
  rw [memory, memory]
  exact sifts.memory

/-- A placeholder is put in the place of all that a failed rule has emitted, with the padding. -/
theorem comes_substitute (job : Job τ σ) (sifts : Sifts same marks es es' w w')
    (grow : Grow same marks es es' w w' more new new' after after') (node : Source.Handle)
    (message : String) :
    Comes same marks es es' w w'
      (job.substitute node w.checkpoint (job.ruleFailure node message) after)
      (job.substitute node w'.checkpoint (job.ruleFailure node message) after') := by
  have adds := job.adds_substitute sifts.sound grow.adds node message
  have adds' := job.adds_substitute sifts.sound' grow.adds' node message
  have alike : (job.standIn node message).Alike (Twin marks) (job.standIn node message) :=
    ⟨rfl, ⟨rfl, .cons ⟨rfl, .value _⟩ .nil, rfl⟩, rfl⟩
  have first {w after : Workspace σ} {new : List Emission} (sound : w.Sound)
      (adds : w.Adds after new) :
      (job.substitute node w.checkpoint (job.ruleFailure node message) after).1 =
        .ok [⟨w.nodes.size⟩] := by
    have size : (after.rollback w.checkpoint).nodes.size = w.nodes.size := (adds.rollback sound).size
    exact congrArg (fun n => Except.ok [Handle.mk n]) size
  refine ⟨[true], _, _, ⟨adds, adds', sifts.sifted.both alike, grow.warned, grow.memory⟩, ?_⟩
  rw [first sifts.sound grow.adds, first sifts.sound' grow.adds']
  exact .ok (.cons sifts.last .nil)

/-- Rules that have ended alike come to the same. -/
theorem comes_settle (job : Job τ σ) (sifts : Sifts same marks es es' w w')
    (grow : Grow same marks es es' w w' more new new' after after')
    {outcome outcome' : Except Stop (List Handle)}
    (alike : ResultAlike (Twin (marks ++ more)) outcome outcome') (node : Source.Handle) :
    Comes same marks es es' w w' (job.settle node w.checkpoint outcome after)
      (job.settle node w'.checkpoint outcome' after') := by
  cases alike with
  | error stop =>
    cases stop with
    | aborted failure => exact ⟨more, new, new', grow, .error failure⟩
    | failed message =>
      simp only [settle]
      split
      · exact job.comes_substitute sifts grow node message
      · exact ⟨more, new, new', grow, .error _⟩
  | ok produced =>
    refine ⟨more, new, new', ⟨?_, ?_, grow.sifted, grow.warned, grow.memory⟩, .ok produced⟩
    · rw [← List.append_nil new]
      exact grow.adds.trans (.tell grow.adds.sound _)
    · rw [← List.append_nil new']
      exact grow.adds'.trans (.tell grow.adds'.sound _)

/-! ### Runs -/

/-- Having a node converted comes to the same in both runs. -/
def Agree (job : Job τ σ) (rules' : Rulebook τ σ) (same : σ → σ → Prop) (depth : Nat) : Prop :=
  ∀ m marks es es' (w w' : Workspace σ), Sifts same marks es es' w w' →
    Option.Rel (Comes same marks es es' w w') (job.convert depth m w)
      ({ job with rules := rules' }.convert depth m w')

/-- A program and one that pads it come to the same, if having a node converted does. -/
theorem run_comes {depth : Nat} (agree : job.Agree rules' same depth)
    {known : Handle → Handle → Prop} {a a' : Action σ (Except ε (List Handle))}
    (pads : a.Pads same ResultAlike known a') (within : known ≤ Twin marks)
    (sifts : Sifts same marks es es' w w') :
    Option.Rel (Comes same marks es es' w w') (job.run (job.convert depth) a w)
      ({ job with rules := rules' }.run ({ job with rules := rules' }.convert depth) a' w') := by
  induction pads generalizing marks es es' w w' with
  | @done known x x' alike =>
    have nothing := sifts.still (.refl sifts.sound) (.refl sifts.sound') sifts.warned sifts.memory
    refine .some ⟨[], [], [], nothing, ?_⟩
    rw [List.append_nil]
    exact alike.mono within
  | @emit known d d' next next' alike _ ih =>
    have emitted := job.grow_emit sifts w.current (alike.mono within)
    have le := within.trans (Twin.le_append marks [true])
    have later := ih _ _ _ le (Twin.ordered _) sifts.last (fun _ _ => id) (sifts.grow emitted)
    rw [run, run, sifts.current]
    exact emitted.comes later
  | @extra known a d' next' _ ih =>
    have emitted := job.grow_extra sifts w'.current d'
    have le := within.trans (Twin.le_append marks [false])
    have later := ih (job.emitFor w'.current d' w').1 le (sifts.grow emitted)
    exact emitted.comes later
  | @convert known m next next' _ ih =>
    have agreed := agree m marks es es' w w' sifts
    rw [run, run]
    generalize job.convert depth m w = answer at agreed ⊢
    generalize { job with rules := rules' }.convert depth m w' = answer' at agreed ⊢
    cases agreed with
    | none => exact .none
    | some comes =>
      obtain ⟨more, new, new', grow, alike⟩ := comes
      have le := within.trans (Twin.le_append marks more)
      exact grow.comes (ih _ _ _ le (Twin.ordered _) alike (fun _ _ => id) (sifts.grow grow))
  | look given _ ih =>
    obtain ⟨n, n', hn, hn', alike⟩ := sifts.exists_nodes (within _ _ given)
    rw [run, run, hn, hn']
    exact ih _ _ _ within (Twin.ordered _) alike (fun _ _ => id) sifts
  | current _ ih =>
    rw [run, run, sifts.current]
    exact ih _ within sifts
  | settings _ ih => exact ih _ within sifts
  | position _ ih => exact ih _ within sifts
  | load _ ih => exact ih _ _ sifts.memory within sifts
  | @store known m m' next next' alike _ ih =>
    have adds {w : Workspace σ} (sound : w.Sound) (m : σ) : w.Adds { w with memory := m } [] :=
      .of_eq sound rfl rfl rfl rfl (List.suffix_refl _)
    have stored := sifts.still (adds sifts.sound m) (adds sifts.sound' m') sifts.warned alike
    have le := within.trans (Twin.le_append marks [])
    exact stored.comes (ih le (sifts.grow stored))

/-- If all rules pad those of the other run, having a node converted comes to the same. -/
theorem convert_comes (pads : job.rules.Pads same rules') (depth : Nat) :
    job.Agree rules' same depth := by
  induction depth with
  | zero => exact fun _ _ _ _ _ _ _ => .none
  | succ depth ih =>
    intro m marks es es' w w' sifts
    have rules := pads (ParseTree.kind job.tree m)
    rw [convert, convert]
    simp only
    generalize job.rules.find? (ParseTree.kind job.tree m) = found at rules ⊢
    generalize rules'.find? (ParseTree.kind job.tree m) = found' at rules ⊢
    cases rules with
    | none => exact .some (job.comes_skip sifts m)
    | @some rule rule' pads =>
      -- a rule starts with no handles
      have nothing : (fun _ _ => False : Handle → Handle → Prop) ≤ Twin marks :=
        fun _ _ given => given.elim
      have ran := run_comes ih (pads job.tree m) nothing (sifts.handOver m)
      simp only
      generalize job.run (job.convert depth) (rule job.tree m) _ = answer at ran ⊢
      generalize { job with rules := rules' }.run _ (rule' job.tree m) _ = answer' at ran ⊢
      cases ran with
      | none => exact .none
      | some comes =>
        obtain ⟨more, new, new', grow, alike⟩ := comes
        exact .some (job.comes_settle sifts grow.handBack alike m)

end Job

/-! ### Conversions -/

namespace Converter

variable {c : Converter τ σ} {rules' : Rulebook τ σ} {tree : τ} {s : Settings} {memory memory' : σ}

theorem sifts_begun (tree : τ) (begins : same memory memory') :
    Sifts same [] [] [] (begun tree memory) (begun tree memory') :=
  ⟨sound_start _ _ _, sound_start _ _ _, rfl, rfl, .nil, rfl, rfl, begins⟩

/-- What can be reached from the roots is the same, and nothing else is handed out. -/
theorem outcome_wrapUp (c : Converter τ σ) (rules' : Rulebook τ σ) (tree : τ) (s : Settings)
    {r r' : Converted × Workspace σ}
    (comes : Comes same [] [] [] (begun tree memory) (begun tree memory') r r') :
    ({ c with rules := rules' }.wrapUp tree s r'.1 r'.2).outcome =
      (c.wrapUp tree s r.1 r.2).outcome := by
  obtain ⟨answer, w⟩ := r
  obtain ⟨answer', w'⟩ := r'
  obtain ⟨more, new, new', grow, alike⟩ := comes
  cases alike with
  | error failure => rfl
  | ok produced =>
    cases produced with
    | nil => rfl
    | @cons root root' rest rest' twin others =>
      cases others with
      | nil =>
        have same : w'.harvest root' = w.harvest root :=
          grow.sifted.harvest_eq twin grow.adds grow.adds'
        simp only [wrapUp, same]
        rfl
      | cons next others =>
        have count := others.length_eq
        simp only [wrapUp, List.length_cons, count]
        rfl

/-- If rules emit more nodes, but make no use of their handles, the outcome is the same. -/
theorem outcome_of_pads (pads : c.rules.Pads same rules') (begins : same memory memory')
    (depth : Nat) (tree : τ) (s : Settings) :
    ({ c with rules := rules' }.convert depth tree s memory').map Report.outcome =
      (c.convert depth tree s memory).map Report.outcome := by
  let c' := { c with rules := rules' }
  cases settings : c.problem? s with
  | some problem =>
    have settings' : c'.problem? s = some problem := settings
    rw [convert_of_problem settings, convert_of_problem settings']
    rfl
  | none =>
    have settings' : c'.problem? s = none := settings
    cases text : refusal? (.ofText (ParseTree.text tree)) (ParseTree.diagnostics tree) with
    | some failure =>
      rw [convert_of_refusal settings text, convert_of_refusal settings' text]
      rfl
    | none =>
      have clear : ParseTree.diagnostics tree = [] := by
        cases found : ParseTree.diagnostics tree with
        | nil => rfl
        | cons first rest =>
          rw [found] at text
          cases text
      have agree : (c.job tree s).Agree rules' same depth := Job.convert_comes pads depth
      have comes := agree (ParseTree.root tree) _ _ _ _ _ (sifts_begun tree begins)
      rw [convert_eq ⟨settings, clear⟩, convert_eq (c := c') ⟨settings', clear⟩]
      show Option.map _ (Option.map _ (Job.convert { c.job tree s with rules := rules' } depth _ _)) = _
      generalize (c.job tree s).convert depth _ _ = answer at comes ⊢
      generalize Job.convert { c.job tree s with rules := rules' } depth _ _ = answer' at comes ⊢
      cases comes with
      | none => rfl
      | some comes => exact congrArg some (outcome_wrapUp c rules' tree s comes)

end Converter

namespace Parens

/-- Fails without emitting anything. -/
def plainBlot : Rule Source.Tree Unit := fun _ _ => .done (.error (.failed "no meaning"))

/-- Emits the node for a list and no other. -/
def plainList : Rule Source.Tree Unit := fun tree node =>
  (Action.convertChildren tree node).bind fun
    | .error failure => .done (.error (.aborted failure))
    | .ok hs =>
      .emit ⟨"Sequence", [("items", .nodes hs)], .children, false⟩ fun h => .done (.ok [h])

def plain : Converter Source.Tree Unit :=
  ⟨((Rulebook.empty.insert "List" plainList).insert "Name" name).insert "Blot" plainBlot, none, none⟩

theorem pads_plain : plain.rules.Pads Eq rules := by
  have name : ∀ tree node, (name tree node).Pads Eq ResultAlike (fun _ _ => False)
      (name tree node) := fun _ _ =>
    .emit ⟨rfl, .nil, rfl, rfl⟩ fun _ _ _ _ _ given => .done (.ok (.cons given .nil))
  have blot : ∀ tree node, (plainBlot tree node).Pads Eq ResultAlike
      (fun _ _ => False) (blot tree node) := fun _ _ =>
    .extra fun _ => .done (.error _)
  have list : ∀ tree node, (plainList tree node).Pads Eq ResultAlike
      (fun _ _ => False) (list tree node) := by
    intro tree node
    refine (Action.pads_convertAll _ _ _).bind fun known hs hs' _ alike => ?_
    cases alike with
    | error failure => exact .done (.error _)
    | @ok hs hs' items =>
      have drafts : FieldsAlike known [("items", .nodes hs)] [("items", .nodes hs')] :=
        .cons ⟨rfl, .nodes items⟩ .nil
      exact .extra fun _ => .emit ⟨rfl, drafts, rfl, rfl⟩ fun _ _ _ _ _ given =>
        .done (.ok (.cons given .nil))
  exact ((Rulebook.pads_empty.insert "List" list).insert "Name" name).insert "Blot" blot

end Parens

theorem Converter.outcome_of_pads_parens : Parens.plain.rules.Pads Eq Parens.rules ∧
    ∃ conversion,
      (Parens.converter.convert 2 Parens.tree Parens.settings ()).map Report.outcome =
        some (.ok conversion) ∧
      (Parens.plain.convert 2 Parens.tree Parens.settings ()).map Report.outcome =
        some (.ok conversion) := by
  obtain ⟨report, conversion, done, ok⟩ := Parens.converts
  have same := outcome_of_pads (c := Parens.plain) Parens.pads_plain (rfl : () = ()) 2 Parens.tree
    Parens.settings
  have padded : (Parens.converter.convert 2 Parens.tree Parens.settings ()).map Report.outcome =
      some (.ok conversion) := by
    rw [done, Option.map_some, ok]
  exact ⟨Parens.pads_plain, conversion, padded, same.symm.trans padded⟩

end TreeConversion
