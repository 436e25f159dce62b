import TreeConversion.Proofs.Numbering
import Mathlib.Data.List.Dedup

/-!
# Origins as a list of pairs

The pairs of `Origins.toList` are all there is to know of origins that are `Coherent`: every
question is answered from them.  Recording a target that comes after all others adds a pair at the
end, forgetting drops the pairs from a target on, and renumbering renames the targets, so each of
these can be followed on the pairs alone.
-/

namespace TreeConversion.Origins

variable {o : Origins} {source s : Source.Handle} {target t : Target.Handle}

/-! ### Sources -/

theorem mem_toList : (t, s) ∈ o.toList ↔ o.sourceOf t = some s := by
  rw [toList, mem_pairsFrom_zero, sourceOf, Option.join_eq_some_iff, Array.getElem?_toList]

theorem ascending_toList (o : Origins) : Ascending o.toList := ascending_pairsFrom _ _

/-- Pairs in ascending order that answer where targets come from are all the pairs. -/
theorem toList_eq {pairs : List (Target.Handle × Source.Handle)} (ascending : Ascending pairs)
    (mem : ∀ t s, (t, s) ∈ pairs ↔ o.sourceOf t = some s) : o.toList = pairs :=
  (ascending_toList o).eq_of_mem_iff ascending fun ⟨t, s⟩ => by rw [mem_toList, mem]

theorem sourceOf_padded (sources : Array (Option Source.Handle)) (n i : Nat) :
    ((padded sources n)[i]?).join = (sources[i]?).join := by
  rw [padded, Array.getElem?_append]
  split
  · rfl
  · rw [Array.getElem?_replicate, Array.getElem?_eq_none (by omega)]
    split <;> rfl

theorem sourceOf_record :
    (o.record source target).sourceOf t = if t = target then some source else o.sourceOf t := by
  have room : target.index < (padded o.sources (target.index + 1)).size := by
    simp [padded]; omega
  simp only [sourceOf, record, Array.getElem?_setIfInBounds, room, if_true]
  by_cases h : t = target
  · simp [h]
  · have hi : target.index ≠ t.index := fun hi => h (by cases t; cases target; simp_all)
    rw [if_neg hi, if_neg h, sourceOf_padded]

theorem sourceOf_dropLast :
    o.dropLast.sourceOf t = if t.index < o.sources.size - 1 then o.sourceOf t else none := by
  have drops : o.dropLast.sources = o.sources.pop := by unfold dropLast; split <;> rfl
  rw [sourceOf, drops, Array.getElem?_pop]
  split <;> rfl

theorem sourceOf_forget (o : Origins) (first t : Target.Handle) :
    (o.forget first).sourceOf t = if t.index < first.index then o.sourceOf t else none := by
  induction o using forget.induct first with
  | case1 o more ih =>
    rw [forget, if_pos more, ih, sourceOf_dropLast]
    by_cases h : t.index < first.index
    · rw [if_pos h, if_pos h, if_pos (by omega)]
    · rw [if_neg h, if_neg h]
  | case2 o done =>
    rw [forget, if_neg done]
    split
    · rfl
    · rw [sourceOf, Array.getElem?_eq_none (by omega)]; rfl

/-! ### Pairs -/

theorem toList_record (above : ∀ p ∈ o.toList, p.1.index < target.index) :
    (o.record source target).toList = o.toList ++ [(target, source)] := by
  refine toList_eq ?_ fun t s => ?_
  · exact List.pairwise_append.2
      ⟨ascending_toList o, List.pairwise_singleton _ _, by simpa using above⟩
  · rw [sourceOf_record, List.mem_append, List.mem_singleton, mem_toList]
    split
    · next h =>
      subst h
      have new : o.sourceOf t ≠ some s := fun h =>
        Nat.lt_irrefl _ (above _ (mem_toList.2 h))
      simp [new, eq_comm]
    · next h => simp [h]

theorem toList_forget (o : Origins) (first : Target.Handle) :
    (o.forget first).toList = o.toList.filter fun p => p.1.index < first.index := by
  refine toList_eq ((ascending_toList o).filter _) fun t s => ?_
  rw [sourceOf_forget, List.mem_filter, mem_toList]
  by_cases h : t.index < first.index <;> simp [h]

/-! ### Coherence -/

/-- The targets of a source among these pairs. -/
def among (pairs : List (Target.Handle × Source.Handle)) (s : Source.Handle) : List Target.Handle :=
  pairs.filterMap fun p => if p.2 = s then some p.1 else none

theorem mem_among {pairs : List (Target.Handle × Source.Handle)} :
    t ∈ among pairs s ↔ (t, s) ∈ pairs := by
  simp [among]

theorem among_append (pairs more : List (Target.Handle × Source.Handle)) :
    among (pairs ++ more) s = among pairs s ++ among more s :=
  List.filterMap_append

theorem among_singleton : among [(t, source)] s = if source = s then [t] else [] := by
  unfold among
  split <;> simp_all

/-- The targets by source and the count agree with the sources of the targets, and no source is kept
without a target. -/
structure Coherent (o : Origins) : Prop where
  targets : ∀ s, o.targets[s]? =
    if among o.toList s = [] then none else some (among o.toList s).toArray
  count : o.count = o.toList.length

theorem coherent_empty : empty.Coherent where
  targets s := by simp [empty, toList, pairsFrom, among]
  count := rfl

namespace Coherent

/-! ### Questions -/

theorem targetsOf (h : o.Coherent) (s : Source.Handle) : o.targetsOf s = among o.toList s := by
  rw [Origins.targetsOf, Std.HashMap.getD_eq_getD_getElem?, h.targets]
  split <;> simp_all

theorem mem_targetsOf (h : o.Coherent) : t ∈ o.targetsOf s ↔ o.sourceOf t = some s := by
  rw [h.targetsOf, mem_among, mem_toList]

theorem ascending_targetsOf (h : o.Coherent) (s : Source.Handle) :
    (o.targetsOf s).Pairwise fun a b => a.index < b.index := by
  rw [h.targetsOf]
  refine (ascending_toList o).filterMap _ ?_
  intro p q hlt a ha b hb
  simp only [Option.ite_none_right_eq_some, Option.some.injEq] at ha hb
  exact ha.2 ▸ hb.2 ▸ hlt

theorem mem_targets (h : o.Coherent) : s ∈ o.targets ↔ o.targetsOf s ≠ [] := by
  rw [Std.HashMap.mem_iff_isSome_getElem?, h.targets, h.targetsOf]
  split <;> simp_all

theorem hasSource (h : o.Coherent) : o.hasSource s = true ↔ o.targetsOf s ≠ [] := by
  rw [Origins.hasSource, Std.HashMap.contains_iff_mem, h.mem_targets]

theorem mem_targets_iff (h : o.Coherent) : s ∈ o.targets ↔ s ∈ o.toList.map Prod.snd := by
  rw [h.mem_targets, h.targetsOf, ← List.isEmpty_eq_false_iff, List.isEmpty_eq_false_iff_exists_mem]
  simp [mem_among]

theorem sourceCount (h : o.Coherent) :
    o.sourceCount = (o.toList.map Prod.snd).dedup.length := by
  have perm : o.targets.keys.Perm (o.toList.map Prod.snd).dedup := by
    refine (List.perm_ext_iff_of_nodup Std.HashMap.nodup_keys (List.nodup_dedup _)).2 fun s => ?_
    rw [Std.HashMap.mem_keys, List.mem_dedup, h.mem_targets_iff]
  rw [Origins.sourceCount, ← Std.HashMap.length_keys, perm.length_eq]

/-! ### Recording and forgetting -/

theorem record (h : o.Coherent) (above : ∀ p ∈ o.toList, p.1.index < target.index) :
    (o.record source target).Coherent where
  targets s := by
    have list : o.targets.getD source #[] = (among o.toList source).toArray := by
      rw [← h.targetsOf, Origins.targetsOf, Array.toArray_toList]
    rw [toList_record above, among_append, among_singleton]
    simp only [Origins.record, Std.HashMap.getElem?_insert, list, beq_iff_eq]
    by_cases hs : source = s
    · subst hs; simp
    · simp [hs, h.targets s]
  count := by
    have new : o.sourceOf target = none := by
      by_contra hs
      obtain ⟨s, hs⟩ := Option.ne_none_iff_exists'.1 hs
      exact Nat.lt_irrefl _ (above _ (mem_toList.2 hs))
    have fresh : ((padded o.sources (target.index + 1))[target.index]?).join = none :=
      (sourceOf_padded _ _ _).trans new
    rw [toList_record above, List.length_append, List.length_singleton, ← h.count]
    simp [Origins.record, fresh]

theorem dropLast (h : o.Coherent) : o.dropLast.Coherent := by
  unfold Origins.dropLast
  split
  · next source last =>
    obtain ⟨sources, hs⟩ := Array.back?_eq_some_iff.1 last
    have pairs : o.toList = pairsFrom 0 sources.toList ++ [(⟨sources.size⟩, source)] := by
      rw [toList, hs, Array.toList_push, pairsFrom_append]
      simp [pairsFrom]
    refine ⟨fun s => ?_, ?_⟩
    · have before := h.targets s
      rw [pairs, among_append, among_singleton] at before
      simp only [toList, hs, Array.pop_push, dropTarget]
      by_cases hsource : source = s
      · subst hsource
        rw [if_pos rfl, if_neg (by simp)] at before
        rw [before]
        by_cases none : among (pairsFrom 0 sources.toList) source = []
        · simp [none]
        · simp [none]
      · rw [if_neg hsource, List.append_nil] at before
        rw [← before]
        split
        · split <;> simp [Std.HashMap.getElem?_erase, Std.HashMap.getElem?_insert, hsource]
        · rfl
    · have := h.count
      rw [pairs, List.length_append, List.length_singleton] at this
      simp [toList, hs, this]
  · next other =>
    -- the last place holds no source, if there is one
    have pairs : pairsFrom 0 o.sources.pop.toList = o.toList := by
      rcases hl : o.sources.back? with _ | _ | source
      · rw [Array.back?_eq_none_iff] at hl
        simp [toList, hl]
      · obtain ⟨sources, hs⟩ := Array.back?_eq_some_iff.1 hl
        rw [toList, hs, Array.toList_push, pairsFrom_append]
        simp [pairsFrom]
      · exact absurd hl (other source)
    exact ⟨fun s => by rw [h.targets, ← pairs]; rfl, by rw [h.count, ← pairs]; rfl⟩

theorem forget (h : o.Coherent) (first : Target.Handle) : (o.forget first).Coherent := by
  induction o using forget.induct first with
  | case1 o more ih =>
    rw [Origins.forget, if_pos more]
    exact ih h.dropLast
  | case2 o done =>
    rw [Origins.forget, if_neg done]
    exact h

end Coherent

/-! ### Renumbering -/

/-- Recording pairs that come after all others adds them at the end. -/
theorem foldl_record {new : Origins} {pairs : List (Target.Handle × Source.Handle)}
    (ascending : Ascending (new.toList ++ pairs)) (coherent : new.Coherent) :
    (pairs.foldl (fun new p => new.record p.2 p.1) new).toList = new.toList ++ pairs ∧
      (pairs.foldl (fun new p => new.record p.2 p.1) new).Coherent := by
  induction pairs generalizing new with
  | nil => simpa using coherent
  | cons p pairs ih =>
    have above : ∀ q ∈ new.toList, q.1.index < p.1.index := fun q hq =>
      (List.pairwise_append.1 ascending).2.2 q hq p (by simp)
    have step : (new.record p.2 p.1).toList = new.toList ++ [p] := toList_record above
    have := @ih (new.record p.2 p.1) (by simpa [step] using ascending) (coherent.record above)
    simpa [step] using this

theorem renumber_eq (o : Origins) (table : Target.Renumbering) :
    o.renumber table = (table.pairs o.toList).foldl (fun new p => new.record p.2 p.1) empty := by
  unfold renumber Target.Renumbering.pairs
  rw [List.foldl_filterMap]
  congr 1
  funext new p
  cases h : (table[p.1.index]?).join <;> simp [h]

/-- With a table that keeps the order, the pairs are those of the targets that have a new handle. -/
theorem toList_renumber (o : Origins) {table : Target.Renumbering}
    (rising : Target.Renumbering.Rising table.toList) :
    (o.renumber table).toList = table.pairs o.toList ∧ (o.renumber table).Coherent := by
  rw [renumber_eq]
  exact foldl_record (Target.Renumbering.ascending_pairs rising (ascending_toList o)) coherent_empty

end TreeConversion.Origins
