import TreeConversion.Proofs.Origins
import Mathlib.Data.List.Induction
import Mathlib.Logic.Function.Iterate

/-!
# What is left after forgetting

Origins are changed by recording targets and by forgetting the targets from some handle on.  As long
as each target that is recorded comes after all that are still recorded (`Change.Orderly`), the
pairs of the origins are the `survivors`, those that no later change forgets, and the origins stay
`Coherent` (`survives`).  Coherent origins with the same pairs answer all questions alike
(`Coherent.agree`), so what was forgotten leaves no trace but some room for targets
(`forgets_without_trace`).
-/

namespace TreeConversion.Origins

variable {o o' : Origins} {s : Source.Handle} {t : Target.Handle}

/-! ### Changes -/

/-- A change of origins. -/
inductive Change where
  | record (source : Source.Handle) (target : Target.Handle)
  | forget (first : Target.Handle)

def perform (o : Origins) : Change → Origins
  | .record source target => o.record source target
  | .forget first => o.forget first

/-- The origins after changes of origins without any pairs. -/
def after (changes : List Change) : Origins := changes.foldl perform empty

/-- The origins in which these pairs are recorded in order, and nothing else has ever been. -/
def ofPairs (pairs : List (Target.Handle × Source.Handle)) : Origins :=
  pairs.foldl (fun o p => o.record p.2 p.1) empty

namespace Change

def forgets (t : Target.Handle) : Change → Bool
  | record _ _ => false
  | forget first => first.index ≤ t.index

/-- The pairs that are recorded and not forgotten later, in the order in which they are recorded. -/
def survivors : List Change → List (Target.Handle × Source.Handle)
  | [] => []
  | record s t :: later =>
    if later.any (forgets t) then survivors later else (t, s) :: survivors later
  | forget _ :: later => survivors later

/-- A target that is recorded comes after all those of the pairs. -/
def Follows (pairs : List (Target.Handle × Source.Handle)) : Change → Prop
  | record _ t => ∀ p ∈ pairs, p.1.index < t.index
  | forget _ => True

instance (pairs : List (Target.Handle × Source.Handle)) : (c : Change) → Decidable (c.Follows pairs)
  | record _ t => inferInstanceAs (Decidable (∀ p ∈ pairs, p.1.index < t.index))
  | forget _ => .isTrue trivial

/-- Each target that is recorded comes after all that are still recorded then. -/
def Orderly (changes : List Change) : Prop :=
  ∀ (i : Nat) (h : i < changes.length), changes[i].Follows (survivors (changes.take i))

instance (changes : List Change) : Decidable (Orderly changes) :=
  inferInstanceAs (Decidable (∀ (i : Nat) (h : i < changes.length),
    changes[i].Follows (survivors (changes.take i))))

variable {changes earlier : List Change} {c : Change}

theorem survivors_append (later : List Change) : survivors (changes ++ later) =
    (survivors changes).filter (fun p => !later.any (forgets p.1)) ++ survivors later := by
  induction changes with
  | nil => rfl
  | cons c changes ih =>
    cases c with
    | forget first => exact ih
    | record s t =>
      simp only [List.cons_append, survivors, List.any_append, ih]
      by_cases old : changes.any (forgets t) = true
      · simp [old]
      · by_cases new : later.any (forgets t) = true
        · simp [old, new]
        · simp [old, new]

theorem survivors_record (s : Source.Handle) (t : Target.Handle) :
    survivors (changes ++ [record s t]) = survivors changes ++ [(t, s)] := by
  simp [survivors_append, survivors, forgets]

theorem survivors_forget (first : Target.Handle) : survivors (changes ++ [forget first]) =
    (survivors changes).filter fun p => p.1.index < first.index := by
  have spared (t : Target.Handle) :
      (!decide (first.index ≤ t.index)) = decide (t.index < first.index) := by
    rw [← decide_not, decide_eq_decide, Nat.not_le]
  simp only [survivors_append, survivors, forgets, List.any_cons, List.any_nil, Bool.or_false,
    List.append_nil, spared]

theorem Orderly.of_prefix (orderly : Orderly changes) (before : earlier <+: changes) :
    Orderly earlier := by
  intro i h
  obtain ⟨later, rfl⟩ := before
  have here := orderly i (by simp; omega)
  rwa [List.getElem_append_left h, List.take_append_of_le_length (Nat.le_of_lt h)] at here

theorem orderly_append_singleton :
    Orderly (changes ++ [c]) ↔ Orderly changes ∧ c.Follows (survivors changes) := by
  constructor
  · intro orderly
    have last := orderly changes.length (by simp)
    exact ⟨orderly.of_prefix (List.prefix_append _ _), by simpa using last⟩
  · rintro ⟨orderly, follows⟩ i h
    rcases Nat.lt_or_ge i changes.length with hi | hi
    · rw [List.getElem_append_left hi, List.take_append_of_le_length (Nat.le_of_lt hi)]
      exact orderly i hi
    · obtain rfl : i = changes.length := by simp at h; omega
      simpa using follows

end Change

open Change

/-! ### Answers -/

/-- Origins that answer all questions alike. -/
structure Agree (o o' : Origins) : Prop where
  sourceOf : ∀ t, o.sourceOf t = o'.sourceOf t
  targetsOf : ∀ s, o.targetsOf s = o'.targetsOf s
  firstTargetOf : ∀ s, o.firstTargetOf s = o'.firstTargetOf s
  hasSource : ∀ s, o.hasSource s = o'.hasSource s
  hasTarget : ∀ t, o.hasTarget t = o'.hasTarget t
  size : o.size = o'.size
  isEmpty : o.isEmpty = o'.isEmpty
  sourceCount : o.sourceCount = o'.sourceCount
  toList : o.toList = o'.toList

theorem Coherent.agree (h : o.Coherent) (h' : o'.Coherent) (same : o.toList = o'.toList) :
    o.Agree o' := by
  have sourceOf (t : Target.Handle) : o.sourceOf t = o'.sourceOf t :=
    Option.ext fun s => by rw [← mem_toList, ← mem_toList, same]
  have targetsOf (s : Source.Handle) : o.targetsOf s = o'.targetsOf s := by
    rw [h.targetsOf, h'.targetsOf, same]
  have count : o.count = o'.count := by rw [h.count, h'.count, same]
  refine ⟨sourceOf, targetsOf, fun s => ?_, fun s => ?_, fun t => ?_, count, ?_, ?_, same⟩
  · rw [firstTargetOf, firstTargetOf, targetsOf]
  · rw [Bool.eq_iff_iff, h.hasSource, h'.hasSource, targetsOf]
  · rw [hasTarget, hasTarget, sourceOf]
  · rw [isEmpty, isEmpty, count]
  · rw [h.sourceCount, h'.sourceCount, same]

theorem ofPairs_spec {pairs : List (Target.Handle × Source.Handle)} (ascending : Ascending pairs) :
    (ofPairs pairs).toList = pairs ∧ (ofPairs pairs).Coherent :=
  foldl_record ascending coherent_empty

/-! ### Runs -/

theorem after_append_singleton (changes : List Change) (c : Change) :
    after (changes ++ [c]) = (after changes).perform c := by
  simp [after]

/-- The pairs are the survivors, and the rest of the origins agrees with them. -/
theorem survives {changes : List Change} (orderly : Orderly changes) :
    (after changes).toList = survivors changes ∧ (after changes).Coherent := by
  induction changes using List.reverseRecOn with
  | nil => exact ⟨rfl, coherent_empty⟩
  | append_singleton changes c ih =>
    obtain ⟨orderly, follows⟩ := orderly_append_singleton.1 orderly
    obtain ⟨pairs, coherent⟩ := ih orderly
    rw [after_append_singleton]
    cases c with
    | record s t =>
      have above : ∀ p ∈ (after changes).toList, p.1.index < t.index := by
        rw [pairs]
        exact follows
      refine ⟨?_, coherent.record above⟩
      rw [perform, toList_record above, pairs, survivors_record]
    | forget first =>
      refine ⟨?_, coherent.forget first⟩
      rw [perform, toList_forget, pairs, survivors_forget]

theorem forget_eq_iterate (o : Origins) (first : Target.Handle) :
    o.forget first = dropLast^[o.sources.size - first.index] o := by
  induction o using forget.induct first with
  | case1 o more ih =>
    obtain ⟨n, hn⟩ : ∃ n, o.sources.size - first.index = n + 1 :=
      ⟨o.sources.size - first.index - 1, by omega⟩
    have fewer : o.dropLast.sources.size - first.index = n := by
      rw [size_dropLast]
      omega
    rw [forget, if_pos more, ih, fewer, hn, Function.iterate_succ_apply]
  | case2 o done =>
    have none : o.sources.size - first.index = 0 := by omega
    rw [forget, if_neg done, none, Function.iterate_zero_apply]

/-- The target that is dropped has been counted, and it is the last one of its source. -/
theorem Coherent.counts_last (h : o.Coherent) (last : o.sources.back? = some (some s)) :
    0 < o.count ∧ (o.targetsOf s).getLast? = some ⟨o.sources.size - 1⟩ := by
  obtain ⟨sources, hs⟩ := Array.back?_eq_some_iff.1 last
  have pairs : o.toList = pairsFrom 0 sources.toList ++ [(⟨sources.size⟩, s)] := by
    rw [Origins.toList, hs, Array.toList_push, pairsFrom_append]
    simp [pairsFrom]
  rw [h.count, h.targetsOf, pairs, among_append, among_singleton]
  simp [hs]

theorem Coherent.iterate_dropLast (h : o.Coherent) (n : Nat) :
    (Origins.dropLast^[n] o).Coherent := by
  induction n with
  | zero => exact h
  | succ n ih =>
    rw [Function.iterate_succ_apply']
    exact ih.dropLast

/-! ### No trace -/

/-- What is to be said of origins after changes. -/
structure Faithful (changes : List Change) : Prop where
  toList : (after changes).toList = survivors changes
  agree : (after changes).Agree (ofPairs (survivors changes))
  /-- No source is kept without a target. -/
  solid : ∀ (s : Source.Handle) (targets : Array Target.Handle),
    (after changes).targets[s]? = some targets → targets ≠ #[]
  /-- A target that may be recorded next has no source yet. -/
  fresh : ∀ s t, Change.Follows (survivors changes) (.record s t) →
    (after changes).sourceOf t = none
  /-- Whatever is forgotten next, target by target, the count covers it, and the target taken from
  its source is the one that is dropped. -/
  counted : ∀ first, (after changes).forget first =
      dropLast^[(after changes).sources.size - first.index] (after changes) ∧
    ∀ n s, (dropLast^[n] (after changes)).sources.back? = some (some s) →
      0 < (dropLast^[n] (after changes)).count ∧
      ((dropLast^[n] (after changes)).targetsOf s).getLast? =
        some ⟨(dropLast^[n] (after changes)).sources.size - 1⟩
  /-- With new handles in the same order, the pairs are those whose targets have one. -/
  renumber : ∀ table : Target.Renumbering, Target.Renumbering.Rising table.toList →
    ((after changes).renumber table).toList = table.pairs (survivors changes) ∧
      ((after changes).renumber table).Agree (ofPairs (table.pairs (survivors changes)))

/-- At any time in the course of orderly changes, the origins answer as if only the survivors had
been recorded. -/
theorem forgets_without_trace {changes earlier : List Change} (orderly : Orderly changes)
    (before : earlier <+: changes) : Faithful earlier := by
  obtain ⟨pairs, coherent⟩ := survives (orderly.of_prefix before)
  have ascending : Ascending (survivors earlier) := pairs ▸ ascending_toList _
  obtain ⟨fresh, made⟩ := ofPairs_spec ascending
  refine ⟨pairs, coherent.agree made (pairs.trans fresh.symm), ?solid, ?fresh, ?counted, ?renumber⟩
  case solid =>
    rintro s targets found rfl
    rw [coherent.targets] at found
    split at found
    · cases found
    · simp_all
  case fresh =>
    intro s t follows
    by_contra known
    obtain ⟨s', known⟩ := Option.ne_none_iff_exists'.1 known
    have mem : (t, s') ∈ survivors earlier := pairs ▸ mem_toList.2 known
    exact Nat.lt_irrefl _ (follows _ mem)
  case counted =>
    intro first
    refine ⟨forget_eq_iterate _ first, fun n s last => ?_⟩
    exact (coherent.iterate_dropLast n).counts_last last
  case renumber =>
    intro table rising
    obtain ⟨renumbered, coherent'⟩ := (after earlier).toList_renumber rising
    rw [pairs] at renumbered
    have ascending' := Target.Renumbering.ascending_pairs rising ascending
    obtain ⟨fresh', made'⟩ := ofPairs_spec ascending'
    exact ⟨renumbered, coherent'.agree made' (renumbered.trans fresh'.symm)⟩

/-- Two targets of one source, the later one forgotten, and its handle and more recorded again. -/
def Change.reuse : List Change := [
  .record ⟨0⟩ ⟨0⟩, .record ⟨1⟩ ⟨1⟩, .record ⟨0⟩ ⟨3⟩, .forget ⟨1⟩, .record ⟨5⟩ ⟨1⟩, .forget ⟨7⟩,
  .record ⟨0⟩ ⟨4⟩]

theorem forgets_without_trace_reuse : Orderly reuse ∧ reuse <+: reuse ∧
    survivors reuse = [(⟨0⟩, ⟨0⟩), (⟨1⟩, ⟨5⟩), (⟨4⟩, ⟨0⟩)] ∧ Faithful reuse := by
  have orderly : Orderly reuse := by decide
  have all := List.prefix_refl reuse
  exact ⟨orderly, all, by decide, forgets_without_trace orderly all⟩

end TreeConversion.Origins
