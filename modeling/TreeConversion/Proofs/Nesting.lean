import TreeConversion.Proofs.Endings
import TreeConversion.Proofs.Loading
import TreeConversion.Proofs.OrderKept

/-!
# How deep conversions are nested

It is left to the rules which nodes they have converted.  Where each has none converted but children
of its own node, the nodes that are being converted at one time lie below one another in the tree.
Ranks that fall on the way down then bound how many they are (`Job.exists_runs_of_falls`), and a
builder leaves such ranks, fewer than there are nodes.  So a conversion comes to an end, never deeper
than the tree has nodes (`Converter.ends_within_size`).
-/

namespace TreeConversion

open Source (Handle)

variable {τ σ α : Type} [ParseTree τ]

/-! ### What rules have converted -/

/-- While the program runs from this state, the rule for `n` has `m` converted, be it this program or
a rule that runs on its behalf. -/
inductive Job.Calls (job : Job τ σ) : {α : Type} → Action σ α → Workspace σ → Handle → Handle → Prop
  | here {α : Type} {m : Handle} {next : Converted → Action σ α} {w : Workspace σ} :
    Calls job (.convert m next) w w.current m
  | inside {α : Type} {k n m : Handle} {next : Converted → Action σ α} {w : Workspace σ}
      {rule : Rule τ σ} (found : job.rules.find? (ParseTree.kind job.tree k) = some rule)
      (within : Calls job (rule job.tree k) { w with current := k } n m) :
    Calls job (.convert k next) w n m
  | convert {α : Type} {k n m : Handle} {next : Converted → Action σ α} {w w' : Workspace σ}
      {depth : Nat} {answer : Converted} (answered : job.convert depth k w = some (answer, w'))
      (later : Calls job (next answer) w' n m) :
    Calls job (.convert k next) w n m
  | emit {α : Type} {n m : Handle} {draft : Draft} {next : Target.Handle → Action σ α}
      {w : Workspace σ} (later : Calls job (next (job.emitFor w.current draft w).1)
        (job.emitFor w.current draft w).2 n m) :
    Calls job (.emit draft next) w n m
  | look {α : Type} {n m : Handle} {h : Target.Handle} {next : Option Target.Node → Action σ α}
      {w : Workspace σ} (later : Calls job (next (w.node? h)) w n m) : Calls job (.look h next) w n m
  | current {α : Type} {n m : Handle} {next : Handle → Action σ α} {w : Workspace σ}
      (later : Calls job (next w.current) w n m) : Calls job (.current next) w n m
  | settings {α : Type} {n m : Handle} {next : Settings → Action σ α} {w : Workspace σ}
      (later : Calls job (next job.settings) w n m) : Calls job (.settings next) w n m
  | position {α : Type} {k n m : Handle} {next : Position → Action σ α} {w : Workspace σ}
      (later : Calls job (next (job.positionOf k)) w n m) : Calls job (.position k next) w n m
  | load {α : Type} {n m : Handle} {next : σ → Action σ α} {w : Workspace σ}
      (later : Calls job (next w.memory) w n m) : Calls job (.load next) w n m
  | store {α : Type} {n m : Handle} {memory : σ} {next : Action σ α} {w : Workspace σ}
      (later : Calls job next { w with memory } n m) : Calls job (.store memory next) w n m

/-- Whatever it is answered, the program has none but such nodes converted. -/
def Action.ConvertsOnly (ok : Handle → Prop) : Action σ α → Prop
  | .done _ => True
  | .emit _ next => ∀ h, (next h).ConvertsOnly ok
  | .convert node next => ok node ∧ ∀ answer, (next answer).ConvertsOnly ok
  | .look _ next => ∀ node, (next node).ConvertsOnly ok
  | .current next => ∀ node, (next node).ConvertsOnly ok
  | .settings next => ∀ s, (next s).ConvertsOnly ok
  | .position _ next => ∀ p, (next p).ConvertsOnly ok
  | .load next => ∀ m, (next m).ConvertsOnly ok
  | .store _ next => next.ConvertsOnly ok

/-- Every rule has none but children of its own node converted. -/
def Rulebook.Descends (rules : Rulebook τ σ) : Prop :=
  ∀ kind rule, rules.find? kind = some rule →
    ∀ tree node, (rule tree node).ConvertsOnly (· ∈ ParseTree.children tree node)

namespace Action

variable {ok : Handle → Prop}

theorem ConvertsOnly.bind {β : Type} {a : Action σ α} {f : α → Action σ β}
    (first : a.ConvertsOnly ok) (later : ∀ x, (f x).ConvertsOnly ok) :
    (a.bind f).ConvertsOnly ok := by
  induction a with
  | done result => exact later result
  | convert node next ih => exact ⟨first.1, fun answer => ih answer (first.2 answer)⟩
  | store memory next ih => exact ih first
  | emit draft next ih | look h next ih | current next ih | settings next ih | position m next ih
  | load next ih => exact fun answer => ih answer (first answer)

theorem convertsOnly_convertAll {nodes : List Handle} (all : ∀ n ∈ nodes, ok n) :
    (convertAll nodes : Action σ Converted).ConvertsOnly ok := by
  induction nodes with
  | nil => trivial
  | cons node rest ih =>
    obtain ⟨first, others⟩ := List.forall_mem_cons.1 all
    refine ⟨first, fun answer => ?_⟩
    cases answer with
    | error failure => trivial
    | ok front =>
      refine (ih others).bind fun answer => ?_
      cases answer <;> trivial

end Action

namespace Job

variable {job : Job τ σ} {w : Workspace σ} {n m : Handle}

theorem Calls.mem_children (rules : job.rules.Descends) {a : Action σ α} (calls : job.Calls a w n m)
    (own : a.ConvertsOnly (· ∈ ParseTree.children job.tree w.current)) :
    m ∈ ParseTree.children job.tree n := by
  induction calls with
  | here => exact own.1
  | inside found _ ih => exact ih (rules _ _ found _ _)
  | @convert _ k n m next w w' depth answer answered _ ih =>
    have kept := (answers_convert job depth k w answer w' answered).1
    exact ih (kept ▸ own.2 answer)
  | emit _ ih | look _ ih | current _ ih | settings _ ih | position _ ih | load _ ih =>
    exact ih (own _)
  | store _ ih => exact ih own

/-! ### Down the tree -/

/-- A node is converted if the rule for it, where there is one, comes to an end. -/
theorem exists_runs_node (job : Job τ σ) (w : Workspace σ) {under : Nat}
    (inside : ∀ rule, job.rules.find? (ParseTree.kind job.tree m) = some rule →
      ∃ inner outcome after, job.Runs m (rule job.tree m) { w with current := m } inner outcome after ∧
        inner.depth ≤ under) :
    ∃ course answer w', job.Runs w.current (.convert m .done) w course answer w' ∧
      course.depth ≤ under + 1 ∧ w'.current = w.current := by
  cases found : job.rules.find? (ParseTree.kind job.tree m) with
  | none =>
    have shallow : max 1 0 ≤ under + 1 := by omega
    exact ⟨_, _, _, .skip found (.done _ _), shallow, job.current_skip m w⟩
  | some rule =>
    obtain ⟨inner, outcome, after, ran, deep⟩ := inside rule found
    have shallow : max (inner.depth + 1) 0 ≤ under + 1 := by omega
    exact ⟨_, _, _, .convert found ran rfl (.done _ _), shallow, job.current_settle ..⟩

/-- A program comes to an end if it, and every rule that runs on its behalf, has none but children of
the own node converted.  What is converted on its behalf is nested as deep as the ranks of these
children allow. -/
theorem exists_runs_of_falls {rank : Handle → Nat}
    (falls : ∀ p c, c ∈ ParseTree.children job.tree p → rank c < rank p) {depth : Nat}
    {a : Action σ α} (own : ∀ n m, job.Calls a w n m → m ∈ ParseTree.children job.tree n)
    (low : ∀ c ∈ ParseTree.children job.tree w.current, rank c < depth) :
    ∃ course result w', job.Runs w.current a w course result w' ∧ course.depth ≤ depth := by
  induction depth using Nat.strong_induction_on generalizing α w with
  | _ depth below =>
    induction a generalizing w with
    | done result => exact ⟨_, result, w, .done result w, Nat.zero_le _⟩
    | convert m next ih =>
      have lower := low m (own _ _ .here)
      obtain ⟨under, rfl⟩ : ∃ n, depth = n + 1 := ⟨depth - 1, by omega⟩
      -- the children of `m` are lower than `m`, so there is a depth left for its rule
      obtain ⟨course, answer, w₁, first, deep, same⟩ := exists_runs_node job w fun rule found =>
        below under (Nat.lt_succ_self _) (w := { w with current := m })
          (fun n k calls => own n k (.inside found calls))
          fun c hc => Nat.lt_of_lt_of_le (falls m c hc) (Nat.le_of_lt_succ lower)
      have answered := first.convert_eq rfl deep
      obtain ⟨rest, result, w', goes, deep'⟩ := ih answer (w := w₁)
        (fun n k calls => own n k (.convert answered calls)) (by rwa [same])
      refine ⟨course.append rest, result, w', first.bind next (same ▸ goes), ?_⟩
      rw [Course.depth_append]
      exact Nat.max_le.2 ⟨deep, deep'⟩
    | emit draft next ih =>
      obtain ⟨course, result, w', goes, deep⟩ := ih _ (fun n k calls => own n k (.emit calls)) low
      exact ⟨_, result, w', .emit goes, deep⟩
    | look h next ih =>
      obtain ⟨course, result, w', goes, deep⟩ := ih _ (fun n k calls => own n k (.look calls)) low
      exact ⟨course, result, w', .look goes, deep⟩
    | current next ih =>
      obtain ⟨course, result, w', goes, deep⟩ := ih _ (fun n k calls => own n k (.current calls)) low
      exact ⟨course, result, w', .current goes, deep⟩
    | settings next ih =>
      obtain ⟨course, result, w', goes, deep⟩ := ih _ (fun n k calls => own n k (.settings calls)) low
      exact ⟨course, result, w', .settings goes, deep⟩
    | position m next ih =>
      obtain ⟨course, result, w', goes, deep⟩ := ih _ (fun n k calls => own n k (.position calls)) low
      exact ⟨course, result, w', .position goes, deep⟩
    | load next ih =>
      obtain ⟨course, result, w', goes, deep⟩ := ih _ (fun n k calls => own n k (.load calls)) low
      exact ⟨course, result, w', .load goes, deep⟩
    | store memory next ih =>
      obtain ⟨course, result, w', goes, deep⟩ := ih (fun n k calls => own n k (.store calls)) low
      exact ⟨course, result, w', .store goes, deep⟩

end Job

/-! ### Trees that can be come by -/

namespace Source.Tree

/-- The trees that a builder finishes at one of its nodes, and those that are read from a text. -/
inductive Made : Tree → Prop
  | finished {b : Builder} (built : b.Built) {root : Handle} (present : root.index < b.nodes.size) :
    Made (b.finish root)
  | read {text : String} {t : Tree} (read : ofJson text = .ok t) : Made t

theorem Made.forest {t : Tree} (made : t.Made) : t.Forest ∧ t.root.index < t.size := by
  cases made with
  | finished built present => exact ⟨built.forest _, present⟩
  | @read text _ read =>
    rw [ofJson] at read
    split at read
    · cases read
    · next w _ =>
      obtain ⟨b, planted, -, grows, -⟩ := Builder.plant_ok w.root (.ofText w.text)
      rw [load, planted] at read
      have loaded : Except.ok (Builder.finish (w.comments.foldl _ _) _) = Except.ok t := read
      rw [foldl_add] at loaded
      cases loaded
      have size : b.nodes.size = w.root.flatten.length := by
        rw [← Array.length_toList, grows.nodes]
        exact Outline.length_nodesFrom
      refine ⟨(grows.built.forest ⟨0⟩).of_nodes rfl, ?_⟩
      show 0 < b.nodes.size
      rw [size, Outline.flatten_eq]
      exact Nat.succ_pos _

end Source.Tree

namespace Converter

variable {c : Converter τ σ} {tree : τ} {s : Settings} {memory : σ} {n m : Handle}

/-- In the conversion, the rule for `n` has `m` converted. -/
structure Calls (c : Converter τ σ) (tree : τ) (s : Settings) (memory : σ) (n m : Handle) :
    Prop where
  accepts : c.Accepts tree s
  calls : ∃ rule, c.rules.find? (ParseTree.kind tree (ParseTree.root tree)) = some rule ∧
    (c.job tree s).Calls (rule tree (ParseTree.root tree)) (begun tree memory) n m

theorem Calls.mem_children (rules : c.rules.Descends) (calls : c.Calls tree s memory n m) :
    m ∈ ParseTree.children tree n := by
  obtain ⟨-, rule, found, calls⟩ := calls
  exact calls.mem_children rules (rules _ _ found _ _)

/-- Where rules have none but children of their own nodes converted, the conversion of a tree that was
built or read ends, whatever fails or is left out on the way, and the nodes that are being converted
at one time are never more than the tree has. -/
theorem ends_within_size {c : Converter Source.Tree σ} {t : Source.Tree} (made : t.Made)
    (own : ∀ n m, c.Calls t s memory n m → m ∈ ParseTree.children t n) :
    ∃ course report, c.Goes t s memory course report ∧ (∀ d ∈ course, d.depth ≤ t.size) ∧
      ∀ depth, t.size ≤ depth → c.convert depth t s memory = some report := by
  obtain ⟨forest, present⟩ := made.forest
  obtain ⟨rank, bounded, falls⟩ := forest.ranked
  by_cases accepts : c.Accepts t s
  · obtain ⟨under, size⟩ : ∃ n, t.size = n + 1 := ⟨t.size - 1, by omega⟩
    have highest := bounded t.root present
    have inside (rule : Rule Source.Tree σ)
        (found : c.rules.find? (ParseTree.kind t t.root) = some rule) : ∃ inner outcome after,
        (c.job t s).Runs t.root (rule t t.root) (begun t memory) inner outcome after ∧
          inner.depth ≤ under :=
      Job.exists_runs_of_falls falls (fun n m calls => own n m ⟨accepts, rule, found, calls⟩)
        fun child hc => Nat.lt_of_lt_of_le (falls t.root child hc) (by omega)
    obtain ⟨course, answer, w, runs, deep, -⟩ :=
      Job.exists_runs_node (c.job t s) (begun t memory) inside
    rw [← size] at deep
    have takes : c.Takes t s memory course (c.wrapUp t s answer w) := ⟨accepts, answer, w, rfl, runs⟩
    refine ⟨course, _, .taken takes, fun d hd => ?_, fun depth enough => ?_⟩
    · cases hd
      exact deep
    · exact takes.convert_eq (Nat.le_trans deep enough)
  · obtain ⟨report, ends⟩ := exists_refused accepts memory
    exact ⟨none, report, .refused accepts ⟨0, ends 0⟩, fun d hd => absurd hd (Option.not_mem_none d),
      fun depth _ => ends depth⟩

end Converter

/-! ### A small conversion -/

theorem Parens.descends_rules : rules.Descends := by
  refine Rulebook.forall_insert
    (Rulebook.forall_insert (Rulebook.forall_insert Rulebook.forall_empty ?list) ?name) ?blot
  case name => exact fun tree node h => trivial
  case blot => exact fun tree node h => trivial
  case list =>
    intro tree node
    refine (Action.convertsOnly_convertAll fun n hn => hn).bind ?_
    rintro (failure | hs)
    · trivial
    · exact fun h h => trivial

/-- The rule for the list has both names converted, one of which gives way to a placeholder. -/
theorem Converter.ends_within_size_parens : (Parens.builder.finish ⟨0⟩).Made ∧
    Parens.converter.Calls (Parens.builder.finish ⟨0⟩) Parens.settings () ⟨0⟩ ⟨1⟩ ∧
    (∀ n m, Parens.converter.Calls (Parens.builder.finish ⟨0⟩) Parens.settings () n m →
      m ∈ ParseTree.children (Parens.builder.finish ⟨0⟩) n) ∧
    ∃ course report,
      Parens.converter.Goes (Parens.builder.finish ⟨0⟩) Parens.settings () course report ∧
      (∀ d ∈ course, d.depth ≤ 3) ∧
      Parens.converter.convert 3 (Parens.builder.finish ⟨0⟩) Parens.settings () = some report := by
  have made : (Parens.builder.finish ⟨0⟩).Made := .finished Parens.built_builder (by decide)
  have accepts : Parens.converter.Accepts (Parens.builder.finish ⟨0⟩) Parens.settings :=
    ⟨by decide, rfl⟩
  have own (n m : Handle)
      (calls : Parens.converter.Calls (Parens.builder.finish ⟨0⟩) Parens.settings () n m) :=
    calls.mem_children Parens.descends_rules
  obtain ⟨course, report, goes, deep, ends⟩ := ends_within_size made own
  exact ⟨made, ⟨accepts, Parens.list, Parens.find_list, .here⟩, own, course, report, goes, deep,
    ends 3 (by decide)⟩

end TreeConversion
