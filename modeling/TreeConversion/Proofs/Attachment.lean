import TreeConversion.Proofs.Forest

/-!
# Builders after any calls

`Builder.ofCalls` makes the calls of a list on a new builder, where a call that attaches a node may be
refused.  Whatever the calls, the nodes form a forest (`Builder.Woods`), and the forest decides what
comes of the next attachment (`Builder.Attaching`).  Both rest on `Builder.Sound`: ranks that rise on
the way up bound the number of nodes on it, so the walk from the new parent comes to an end.
-/

namespace TreeConversion.Source.Builder

/-- A call on a builder. -/
inductive Call where
  | node (kind : String) (span : Span)
  | attr (node : Handle) (name : String) (value : Json.Value)
  | child (parent child : Handle)
  | diagnostic (d : Diagnostic)
  | token (t : Token)
  | comment (c : Comment)

/-- The builder after a call. -/
def perform (b : Builder) : Call → Builder
  | .node kind span => (b.addNode kind span []).2
  | .attr h name value => b.setAttr h name value
  | .child parent child => (b.attach parent child).2
  | .diagnostic d => b.addDiagnostic d
  | .token t => b.addToken t
  | .comment c => b.addComment c

def ofCalls (text : String) (calls : List Call) : Builder := calls.foldl perform (ofText text)

variable {b b' : Builder} {p c h top : Handle} {rank : Handle → Nat}

theorem Built.perform (built : b.Built) (call : Call) : (b.perform call).Built := by
  cases call with
  | node kind span => exact built.addNode kind span []
  | attr h name value => exact built.setAttr h name value
  | diagnostic d => exact built.addDiagnostic d
  | token t => exact built.addToken t
  | comment c => exact built.addComment c
  | child parent child => exact built.attach parent child

theorem built_ofCalls (text : String) (calls : List Call) : (ofCalls text calls).Built := by
  have after (b : Builder) (built : b.Built) : (calls.foldl Builder.perform b).Built := by
    induction calls generalizing b with
    | nil => exact built
    | cons call calls ih => exact ih _ (built.perform call)
  exact after _ (.ofText text)

/-! ### The way up -/

/-- The node so many generations above a node. -/
def climb (b : Builder) : Nat → Handle → Option Handle
  | 0, h => some h
  | n + 1, h => (b.parent? h).bind (b.climb n)

theorem Sound.rank_of_climb (sound : b.Sound) (falls : b.Falls rank) {n : Nat}
    (hh : h.index < b.nodes.size) (up : b.climb n h = some top) :
    top.index < b.nodes.size ∧ rank h + n ≤ rank top := by
  induction n generalizing h with
  | zero =>
    obtain rfl := Option.some.inj up
    exact ⟨hh, by omega⟩
  | succ n ih =>
    obtain ⟨p, hp, rest⟩ := Option.bind_eq_some_iff.1 up
    have hc := (sound.agree p h).2 hp
    have rises := falls p h hc
    obtain ⟨known, rank_le⟩ := ih (lt_size_of_mem_childrenOf hc) rest
    exact ⟨known, by omega⟩

/-- There are no more generations above a node than there are nodes. -/
theorem Sound.climb_eq_none (sound : b.Sound) (hh : h.index < b.nodes.size) :
    b.climb b.nodes.size h = none := by
  obtain ⟨rank, bounded, falls⟩ := sound.exists_rank_lt
  cases up : b.climb b.nodes.size h with
  | none => rfl
  | some top =>
    obtain ⟨known, rank_le⟩ := sound.rank_of_climb falls hh up
    have := bounded top known
    omega

theorem above_of_isBelow {steps : Nat} (found : b.isBelow top steps h = true) : b.Above h top := by
  induction steps generalizing h with
  | zero => cases found
  | succ steps ih =>
    rw [isBelow, Bool.or_eq_true, beq_iff_eq] at found
    rcases found with rfl | found
    · exact .refl
    · cases up : b.parent? h with
      | none => simp [up] at found
      | some p =>
        simp only [up] at found
        exact .head up (ih found)

/-- With as many steps as there are nodes the walk finds all that is above. -/
theorem Sound.isBelow_iff (sound : b.Sound) (hh : h.index < b.nodes.size) {steps : Nat}
    (enough : b.nodes.size ≤ steps) : b.isBelow top steps h = true ↔ b.Above h top := by
  obtain ⟨rank, bounded, falls⟩ := sound.exists_rank_lt
  refine ⟨above_of_isBelow, fun above => ?_⟩
  exact sound.isBelow_of_above bounded falls hh above (by omega)

/-! ### What comes of an attachment -/

/-- Why a child is not attached. -/
inductive Refuses (b : Builder) (p c : Handle) : AttachError → Prop
  | unknownParent (unknown : b.nodes.size ≤ p.index) : Refuses b p c (.unknownParent p)
  | unknownChild (known : p.index < b.nodes.size) (unknown : b.nodes.size ≤ c.index) :
    Refuses b p c (.unknownChild c)
  | hasParent (known : p.index < b.nodes.size) {other : Handle} (taken : b.parent? c = some other) :
    Refuses b p c (.hasParent c other)
  | cycle (known : p.index < b.nodes.size) (known' : c.index < b.nodes.size)
    (free : b.parent? c = none) (above : b.Above p c) : Refuses b p c (.cycle c p)

/-- A child can be attached: both nodes are known, it has no parent, and it is neither the new parent
nor above it. -/
structure Admits (b : Builder) (p c : Handle) : Prop where
  parent : p.index < b.nodes.size
  child : c.index < b.nodes.size
  free : b.parent? c = none
  apart : ¬ b.Above p c

/-- The two builders differ in one more child: the last one of its parent. -/
structure Gains (b : Builder) (p c : Handle) (b' : Builder) : Prop where
  parent? : ∀ d, b'.parent? d = if d = c then some p else b.parent? d
  childrenOf : ∀ q, b'.childrenOf q = if q = p then b.childrenOf p ++ [c] else b.childrenOf q
  nodes : b'.nodes.map (fun n => { n with children := [] }) =
    b.nodes.map (fun n => { n with children := [] })
  parents : b'.parents.size = b.parents.size
  rest : b' = { b with nodes := b'.nodes, parents := b'.parents }

/-- A node that is known and has no parent, as its entry among the parents shows it. -/
theorem Sound.getElem?_parents (sound : b.Sound) :
    b.parents[c.index]? = if c.index < b.nodes.size then some (b.parent? c) else none := by
  rw [parent?, ← sound.sizes]
  split
  · next known => simp [known]
  · next out => exact Array.getElem?_eq_none (Nat.le_of_not_lt out)

/-- What is answered to an attachment, told by the forest. -/
theorem Sound.attach_cases (sound : b.Sound) (p c : Handle) :
    (b.Admits p c ∧ b.attach p c = (.ok (), b.link p c)) ∨
      ∃ e, b.Refuses p c e ∧ b.attach p c = (.error e, b) := by
  unfold Builder.attach
  rw [sound.getElem?_parents]
  by_cases hp : p.index < b.nodes.size
  · rw [if_neg (Nat.not_le.2 hp)]
    by_cases hc : c.index < b.nodes.size
    · rw [if_pos hc]
      cases taken : b.parent? c with
      | some other => exact .inr ⟨_, .hasParent hp taken, rfl⟩
      | none =>
        have walk : b.isBelow c b.nodes.size p = true ↔ b.Above p c :=
          sound.isBelow_iff hp (Nat.le_refl _)
        by_cases above : b.Above p c
        · exact .inr ⟨_, .cycle hp hc taken above, if_pos (walk.2 above)⟩
        · exact .inl ⟨⟨hp, hc, taken, above⟩, if_neg (mt walk.1 above)⟩
    · rw [if_neg hc]
      exact .inr ⟨_, .unknownChild hp (Nat.le_of_not_lt hc), rfl⟩
  · rw [if_pos (Nat.le_of_not_lt hp)]
    exact .inr ⟨_, .unknownParent (Nat.le_of_not_lt hp), rfl⟩

theorem Refuses.not_admits {e : AttachError} (refuses : b.Refuses p c e) : ¬ b.Admits p c := by
  intro admits
  cases refuses with
  | unknownParent unknown => exact Nat.not_le.2 admits.parent unknown
  | unknownChild known unknown => exact Nat.not_le.2 admits.child unknown
  | hasParent known taken => cases admits.free.symm.trans taken
  | cycle known known' free above => exact admits.apart above

theorem Sound.known_of_parent? (sound : b.Sound) (up : b.parent? c = some p) :
    c.index < b.nodes.size ∧ p.index < b.nodes.size := by
  have hc := (sound.agree p c).2 up
  exact ⟨sound.present hc, lt_size_of_mem_childrenOf hc⟩

/-- One reason only counts. -/
theorem Sound.refuses_unique (sound : b.Sound) {e e' : AttachError} (refuses : b.Refuses p c e)
    (refuses' : b.Refuses p c e') : e = e' := by
  have outside {other : Handle} (unknown : b.nodes.size ≤ c.index)
      (taken : b.parent? c = some other) : False :=
    Nat.not_le.2 (sound.known_of_parent? taken).1 unknown
  cases refuses with
  | unknownParent unknown =>
    cases refuses' with
    | unknownParent => rfl
    | unknownChild known => omega
    | hasParent known => omega
    | cycle known => omega
  | unknownChild known unknown =>
    cases refuses' with
    | unknownParent unknown' => omega
    | unknownChild => rfl
    | hasParent _ taken => exact (outside unknown taken).elim
    | cycle _ known' => omega
  | hasParent known taken =>
    cases refuses' with
    | unknownParent unknown' => omega
    | unknownChild _ unknown => exact (outside unknown taken).elim
    | hasParent _ taken' => rw [Option.some.inj (taken.symm.trans taken')]
    | cycle _ _ free => cases free.symm.trans taken
  | cycle known known' free above =>
    cases refuses' with
    | unknownParent unknown => omega
    | unknownChild _ unknown => omega
    | hasParent _ taken => cases free.symm.trans taken
    | cycle => rfl

theorem Sound.gains_link (sound : b.Sound) (admits : b.Admits p c) : b.Gains p c (b.link p c) where
  parent? := parent?_link (sound.sizes ▸ admits.child)
  childrenOf := childrenOf_link admits.parent
  nodes := by
    refine Array.ext_getElem? fun i => ?_
    rw [Array.getElem?_map, Array.getElem?_map, Builder.link, Array.getElem?_modify]
    split
    · rw [Option.map_map]
      rfl
    · rfl
  parents := by simp [Builder.link]
  rest := rfl

/-! ### At all times -/

/-- The nodes form a forest, as their parents tell it and as their children do. -/
structure Woods (b : Builder) : Prop where
  parent?_iff : ∀ p c, b.parent? c = some p ↔ c ∈ b.childrenOf p
  once : ∀ p c, c ∈ b.childrenOf p → (b.childrenOf p).count c = 1
  single : ∀ p q c, c ∈ b.childrenOf p → c ∈ b.childrenOf q → p = q
  known : ∀ p c, b.parent? c = some p → c.index < b.nodes.size ∧ p.index < b.nodes.size
  ends : ∀ h : Handle, h.index < b.nodes.size → b.climb b.nodes.size h = none
  acyclic : ∀ h, ¬ Relation.TransGen (fun c p => b.parent? c = some p) h h

/-- What comes of attaching `c` below `p`. -/
structure Attaching (b : Builder) (p c : Handle) : Prop where
  ok_iff : (b.attach p c).1 = .ok () ↔ b.Admits p c
  gains : (b.attach p c).1 = .ok () → b.Gains p c (b.attach p c).2
  error_iff : ∀ e, (b.attach p c).1 = .error e ↔ b.Refuses p c e
  unchanged : ∀ e, (b.attach p c).1 = .error e → (b.attach p c).2 = b
  /-- From a known parent the walk up ends after as many steps as there are nodes, and more steps
  would find nothing else. -/
  walk : p.index < b.nodes.size → b.climb b.nodes.size p = none ∧
    ∀ steps, b.nodes.size ≤ steps → (b.isBelow c steps p = true ↔ b.Above p c)

theorem Sound.woods (sound : b.Sound) : b.Woods where
  parent?_iff p c := (sound.agree p c).symm
  once p c hc := List.count_eq_one_of_mem (sound.once p) hc
  single p q c hp hq := by
    have hp := (sound.agree p c).1 hp
    have hq := (sound.agree q c).1 hq
    exact Option.some.inj (hp.symm.trans hq)
  known _ _ up := sound.known_of_parent? up
  ends _ hh := sound.climb_eq_none hh
  acyclic h around := by
    obtain ⟨rank, falls⟩ := sound.ranked
    have rises : ∀ c p, Relation.TransGen (fun c p => b.parent? c = some p) c p →
        rank c < rank p := by
      intro c p up
      induction up with
      | single up => exact falls _ _ ((sound.agree _ _).2 up)
      | tail _ up ih => exact Nat.lt_trans ih (falls _ _ ((sound.agree _ _).2 up))
    exact Nat.lt_irrefl _ (rises h h around)

theorem Sound.attaching (sound : b.Sound) (p c : Handle) : b.Attaching p c := by
  have walk (hp : p.index < b.nodes.size) : b.climb b.nodes.size p = none ∧
      ∀ steps, b.nodes.size ≤ steps → (b.isBelow c steps p = true ↔ b.Above p c) :=
    ⟨sound.climb_eq_none hp, fun _ enough => sound.isBelow_iff hp enough⟩
  rcases sound.attach_cases p c with ⟨admits, attached⟩ | ⟨e, refuses, refused⟩
  · have answer : (b.attach p c).1 = .ok () := congrArg Prod.fst attached
    have after : (b.attach p c).2 = b.link p c := congrArg Prod.snd attached
    refine ⟨iff_of_true answer admits, fun _ => ?_, fun e => ?_, fun e error => ?_, walk⟩
    · rw [after]
      exact sound.gains_link admits
    · exact iff_of_false (fun error => by cases answer.symm.trans error)
        fun refuses => refuses.not_admits admits
    · cases answer.symm.trans error
  · have answer : (b.attach p c).1 = .error e := congrArg Prod.fst refused
    have after : (b.attach p c).2 = b := congrArg Prod.snd refused
    refine ⟨iff_of_false ?_ refuses.not_admits, fun ok => ?_, fun e' => ?_, fun _ _ => after, walk⟩
    · intro ok
      cases answer.symm.trans ok
    · cases answer.symm.trans ok
    · constructor
      · intro error
        obtain rfl := Except.error.inj (answer.symm.trans error)
        exact refuses
      · intro refuses'
        rw [answer, sound.refuses_unique refuses refuses']

/-- Whatever has been called, the nodes form a forest, and the next attachment keeps to it: it is made
just when it leaves a forest, and else nothing is. -/
theorem forest_after_calls (text : String) (calls : List Call) :
    (ofCalls text calls).Woods ∧ ∀ p c, (ofCalls text calls).Attaching p c := by
  have sound := (built_ofCalls text calls).sound
  exact ⟨sound.woods, sound.attaching⟩

/-- A list in a file.  The list can take the name, but not the file that it is in. -/
theorem forest_after_calls_listed :
    let b := ofCalls "x y" [.node "File" ⟨0, 3⟩, .node "List" ⟨0, 3⟩, .node "Name" ⟨0, 1⟩,
      .child ⟨0⟩ ⟨1⟩]
    b.Woods ∧ b.parent? ⟨1⟩ = some ⟨0⟩ ∧
      (b.Admits ⟨1⟩ ⟨2⟩ ∧ b.Gains ⟨1⟩ ⟨2⟩ (b.attach ⟨1⟩ ⟨2⟩).2) ∧
      b.Above ⟨1⟩ ⟨0⟩ ∧ b.attach ⟨1⟩ ⟨0⟩ = (.error (.cycle ⟨0⟩ ⟨1⟩), b) := by
  intro b
  obtain ⟨woods, attaching⟩ : b.Woods ∧ ∀ p c, b.Attaching p c := forest_after_calls _ _
  have attached : (b.attach ⟨1⟩ ⟨2⟩).1 = .ok () := rfl
  have refused : (b.attach ⟨1⟩ ⟨0⟩).1 = .error (.cycle ⟨0⟩ ⟨1⟩) := rfl
  have name := attaching ⟨1⟩ ⟨2⟩
  have file := attaching ⟨1⟩ ⟨0⟩
  have above : b.Above ⟨1⟩ ⟨0⟩ := by
    cases (file.error_iff _).1 refused with
    | cycle known known' free above => exact above
  exact ⟨woods, rfl, ⟨name.ok_iff.1 attached, name.gains attached⟩, above,
    Prod.ext refused (file.unchanged _ refused)⟩

end TreeConversion.Source.Builder
