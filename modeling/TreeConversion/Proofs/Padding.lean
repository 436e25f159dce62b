import TreeConversion.Proofs.Sieve

/-!
# Programs that emit more

A program pads another one (`Action.Pads`) if it does the same, but may emit nodes of which it then
makes no use.  The two are given different handles by the engine, and a program is to use its handles
for nothing but to hand them on: whatever handles it is given in the place of others, it goes on in
the same way, as long as they come in the same order.
-/

namespace TreeConversion

open Target

variable {τ σ α β : Type}

/-- The results are the same, but for handles that are known to stand for each other. -/
inductive ResultAlike {ε : Type} (known : Handle → Handle → Prop) :
    Except ε (List Handle) → Except ε (List Handle) → Prop
  | error (e : ε) : ResultAlike known (.error e) (.error e)
  | ok {hs hs' : List Handle} (same : List.Forall₂ known hs hs') :
    ResultAlike known (.ok hs) (.ok hs')

theorem ResultAlike.mono {ε : Type} {known known' : Handle → Handle → Prop} (le : known ≤ known')
    {r r' : Except ε (List Handle)} (alike : ResultAlike known r r') : ResultAlike known' r r' := by
  cases alike with
  | error e => exact .error e
  | ok same => exact .ok (same.imp le)

/-- The drafts are the same, but for handles that are known to stand for each other. -/
structure Draft.Alike (known : Handle → Handle → Prop) (d d' : Draft) : Prop where
  kind : d'.kind = d.kind
  fields : FieldsAlike known d.fields d'.fields
  span : d'.span = d.span
  synthetic : d'.synthetic = d.synthetic

theorem Draft.Alike.mono {known known' : Handle → Handle → Prop} (le : known ≤ known')
    {d d' : Draft} (alike : d.Alike known d') : d.Alike known' d' :=
  ⟨alike.kind, alike.fields.mono le, alike.span, alike.synthetic⟩

namespace Action

/-- The second program does what the first does, but may emit more.  The handles that the two have
been given stand for each other as `known` tells, and the results are to be related by `rel`; the
memories that the engine keeps for the two are related by `same`. -/
inductive Pads (same : σ → σ → Prop) (rel : (Handle → Handle → Prop) → α → α → Prop) :
    (Handle → Handle → Prop) → Action σ α → Action σ α → Prop
  | done {known : Handle → Handle → Prop} {x x' : α} (alike : rel known x x') :
    Pads same rel known (.done x) (.done x')
  | emit {known : Handle → Handle → Prop} {d d' : Draft} {next next' : Handle → Action σ α}
    (alike : d.Alike known d')
    (goes : ∀ h h' known', known ≤ known' → Ordered known' → known' h h' →
      Pads same rel known' (next h) (next' h')) :
    Pads same rel known (.emit d next) (.emit d' next')
  /-- The second program emits a node that the first does not, and drops its handle. -/
  | extra {known : Handle → Handle → Prop} {a : Action σ α} {d' : Draft}
    {next' : Handle → Action σ α} (goes : ∀ h', Pads same rel known a (next' h')) :
    Pads same rel known a (.emit d' next')
  | convert {known : Handle → Handle → Prop} {m : Source.Handle}
    {next next' : Except Failure (List Handle) → Action σ α}
    (goes : ∀ answer answer' known', known ≤ known' → Ordered known' →
      ResultAlike known' answer answer' → Pads same rel known' (next answer) (next' answer')) :
    Pads same rel known (.convert m next) (.convert m next')
  | look {known : Handle → Handle → Prop} {h h' : Handle}
    {next next' : Option Node → Action σ α} (given : known h h')
    (goes : ∀ n n' known', known ≤ known' → Ordered known' → n.Alike known' n' →
      Pads same rel known' (next (some n)) (next' (some n'))) :
    Pads same rel known (.look h next) (.look h' next')
  | current {known : Handle → Handle → Prop} {next next' : Source.Handle → Action σ α}
    (goes : ∀ node, Pads same rel known (next node) (next' node)) :
    Pads same rel known (.current next) (.current next')
  | settings {known : Handle → Handle → Prop} {next next' : Settings → Action σ α}
    (goes : ∀ s, Pads same rel known (next s) (next' s)) :
    Pads same rel known (.settings next) (.settings next')
  | position {known : Handle → Handle → Prop} {m : Source.Handle}
    {next next' : Position → Action σ α} (goes : ∀ p, Pads same rel known (next p) (next' p)) :
    Pads same rel known (.position m next) (.position m next')
  | load {known : Handle → Handle → Prop} {next next' : σ → Action σ α}
    (goes : ∀ m m', same m m' → Pads same rel known (next m) (next' m')) :
    Pads same rel known (.load next) (.load next')
  | store {known : Handle → Handle → Prop} {m m' : σ} {next next' : Action σ α}
    (alike : same m m') (goes : Pads same rel known next next') :
    Pads same rel known (.store m next) (.store m' next')

variable {same : σ → σ → Prop} {known : Handle → Handle → Prop}

theorem Pads.bind {rel : (Handle → Handle → Prop) → α → α → Prop}
    {rel' : (Handle → Handle → Prop) → β → β → Prop} {a a' : Action σ α} {f f' : α → Action σ β}
    (pads : Pads same rel known a a')
    (goes : ∀ known' x x', known ≤ known' → rel known' x x' → Pads same rel' known' (f x) (f' x')) :
    Pads same rel' known (a.bind f) (a'.bind f') := by
  induction pads with
  | done alike => exact goes _ _ _ (fun _ _ => id) alike
  | emit alike _ ih =>
    refine .emit alike fun h h' known' le ordered new => ih h h' known' le ordered new ?_
    exact fun known'' x x' le' => goes known'' x x' (le.trans le')
  | extra _ ih => exact .extra fun h' => ih h' goes
  | convert _ ih =>
    refine .convert fun answer answer' known' le ordered alike =>
      ih answer answer' known' le ordered alike ?_
    exact fun known'' x x' le' => goes known'' x x' (le.trans le')
  | look given _ ih =>
    refine .look given fun n n' known' le ordered alike => ih n n' known' le ordered alike ?_
    exact fun known'' x x' le' => goes known'' x x' (le.trans le')
  | current _ ih => exact .current fun node => ih node goes
  | settings _ ih => exact .settings fun s => ih s goes
  | position _ ih => exact .position fun p => ih p goes
  | load _ ih => exact .load fun m m' alike => ih m m' alike goes
  | store alike _ ih => exact .store alike (ih goes)

/-- To have nodes converted is to hand on what comes of them. -/
theorem pads_convertAll (same : σ → σ → Prop) (known : Handle → Handle → Prop)
    (nodes : List Source.Handle) :
    Pads same ResultAlike known (convertAll nodes) (convertAll nodes) := by
  induction nodes generalizing known with
  | nil => exact .done (.ok .nil)
  | cons node rest ih =>
    refine .convert fun answer answer' known' _ _ alike => ?_
    cases alike with
    | error failure => exact .done (.error failure)
    | ok front =>
      refine (ih known').bind fun known'' back back' le alike => ?_
      cases alike with
      | error failure => exact .done (.error failure)
      | ok back => exact .done (.ok (List.rel_append (front.imp le) back))

end Action

namespace Rulebook

/-- The second rulebook has rules for the same kinds, and each pads the rule of the first.  A rule starts
with no handles. -/
def Pads (same : σ → σ → Prop) (rules rules' : Rulebook τ σ) : Prop :=
  ∀ kind, Option.Rel (fun rule rule' => ∀ tree node,
    (rule tree node).Pads same ResultAlike (fun _ _ => False) (rule' tree node))
    (rules.find? kind) (rules'.find? kind)

variable {same : σ → σ → Prop}

theorem pads_empty : (empty : Rulebook τ σ).Pads same empty := by
  intro kind
  have none : (empty : Rulebook τ σ).find? kind = none := by simp [empty, find?]
  rw [none]
  exact .none

theorem Pads.insert {rules rules' : Rulebook τ σ} (pads : rules.Pads same rules') (kind : String)
    {rule rule' : Rule τ σ} (more : ∀ tree node,
      (rule tree node).Pads same ResultAlike (fun _ _ => False) (rule' tree node)) :
    (rules.insert kind rule).Pads same (rules'.insert kind rule') := by
  intro other
  rw [find?_insert, find?_insert]
  split
  · exact .some more
  · exact pads other

end Rulebook

/-! ### Two states -/

namespace Workspace

/-- Two states with the emissions `es` and `es'`, which differ only in emissions that are not
marked. -/
structure Sifts (same : σ → σ → Prop) (marks : List Bool) (es es' : List Emission)
    (w w' : Workspace σ) : Prop where
  sound : w.Sound
  sound' : w'.Sound
  nodes : w.nodes.toList = es.map Emission.node
  nodes' : w'.nodes.toList = es'.map Emission.node
  sifted : Emission.Sifted marks es es'
  current : w'.current = w.current
  warned : w'.warned = w.warned
  memory : same w.memory w'.memory

/-- From two such states on, emissions have been added, and the states still differ only in emissions
that are not marked. -/
structure Grow (same : σ → σ → Prop) (marks : List Bool) (es es' : List Emission)
    (w w' : Workspace σ) (more : List Bool) (new new' : List Emission) (v v' : Workspace σ) :
    Prop where
  adds : w.Adds v new
  adds' : w'.Adds v' new'
  sifted : Emission.Sifted (marks ++ more) (es ++ new) (es' ++ new')
  warned : v'.warned = v.warned
  memory : same v.memory v'.memory

variable {same : σ → σ → Prop} {marks more more' : List Bool}
  {es es' new new' later later' : List Emission} {w w' v v' u u' : Workspace σ}

namespace Sifts

theorem grow (sifts : Sifts same marks es es' w w')
    (grow : Grow same marks es es' w w' more new new' v v') :
    Sifts same (marks ++ more) (es ++ new) (es' ++ new') v v' where
  sound := grow.adds.sound
  sound' := grow.adds'.sound
  nodes := by rw [grow.adds.nodes, sifts.nodes, List.map_append]
  nodes' := by rw [grow.adds'.nodes, sifts.nodes', List.map_append]
  sifted := grow.sifted
  current := by rw [grow.adds'.current, grow.adds.current, sifts.current]
  warned := grow.warned
  memory := grow.memory

theorem handOver (sifts : Sifts same marks es es' w w') (node : Source.Handle) :
    Sifts same marks es es' { w with current := node } { w' with current := node } :=
  ⟨⟨sifts.sound.coherent, sifts.sound.within⟩, ⟨sifts.sound'.coherent, sifts.sound'.within⟩,
    sifts.nodes, sifts.nodes', sifts.sifted, rfl, sifts.warned, sifts.memory⟩

/-- Nothing has been added. -/
theorem still (sifts : Sifts same marks es es' w w') (adds : w.Adds v []) (adds' : w'.Adds v' [])
    (warned : v'.warned = v.warned) (memory : same v.memory v'.memory) :
    Grow same marks es es' w w' [] [] [] v v' := by
  refine ⟨adds, adds', ?_, warned, memory⟩
  rw [List.append_nil, List.append_nil, List.append_nil]
  exact sifts.sifted

/-- The nodes that are emitted next stand for each other. -/
theorem last (sifts : Sifts same marks es es' w w') :
    Twin (marks ++ [true]) ⟨w.nodes.size⟩ ⟨w'.nodes.size⟩ := by
  have size : w.nodes.size = marks.count true := by
    rw [sifts.sifted.count_eq, ← Array.length_toList, sifts.nodes, List.length_map]
  have size' : w'.nodes.size = marks.length := by
    rw [sifts.sifted.length, ← Array.length_toList, sifts.nodes', List.length_map]
  rw [size, size']
  exact Twin.last marks

theorem exists_nodes (sifts : Sifts same marks es es' w w') {h h' : Handle}
    (twin : Twin marks h h') :
    ∃ n n', w.node? h = some n ∧ w'.node? h' = some n' ∧ n.Alike (Twin marks) n' := by
  obtain ⟨e, e', he, he', alike⟩ := sifts.sifted.exists_alike twin
  refine ⟨e.node, e'.node, ?_, ?_, alike.node⟩
  · rw [node?, ← Array.getElem?_toList, sifts.nodes, List.getElem?_map, he, Option.map_some]
  · rw [node?, ← Array.getElem?_toList, sifts.nodes', List.getElem?_map, he', Option.map_some]

theorem spanOf_eq (sifts : Sifts same marks es es' w w') {d d' : Draft}
    (alike : d.Alike (Twin marks) d') (here : Span) : w'.spanOf here d' = w.spanOf here d := by
  have found : d.children.filterMap (fun c => (w.node? c).bind fun n => n.span) =
      d'.children.filterMap fun c => (w'.node? c).bind fun n => n.span := by
    refine filterMap_eq_of_forall₂ alike.fields.children fun c _ c' twin => ?_
    obtain ⟨n, n', hn, hn', same⟩ := sifts.exists_nodes twin
    rw [hn, hn', Option.bind_some, Option.bind_some, same.label]
  rw [spanOf, spanOf, alike.span, found]

end Sifts

namespace Grow

theorem trans (first : Grow same marks es es' w w' more new new' v v')
    (second : Grow same (marks ++ more) (es ++ new) (es' ++ new') v v' more' later later' u u') :
    Grow same marks es es' w w' (more ++ more') (new ++ later) (new' ++ later') u u' := by
  refine ⟨first.adds.trans second.adds, first.adds'.trans second.adds', ?_, second.warned,
    second.memory⟩
  rw [← List.append_assoc, ← List.append_assoc, ← List.append_assoc]
  exact second.sifted

theorem handBack {node : Source.Handle}
    (grow : Grow same marks es es' { w with current := node } { w' with current := node } more new
      new' v v') :
    Grow same marks es es' w w' more new new' { v with current := w.current }
      { v' with current := w'.current } :=
  ⟨grow.adds.handBack, grow.adds'.handBack, grow.sifted, grow.warned, grow.memory⟩

end Grow

end Workspace

end TreeConversion
