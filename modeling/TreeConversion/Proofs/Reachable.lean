import TreeConversion.Target.Compact
import Mathlib.Data.List.Nodup
import Mathlib.Data.List.Range
import Mathlib.Logic.Relation

/-!
# What can be reached

The nodes that a walk meets are those below the root, each of them once, whatever the graph
(`mem_reachable`, `nodup_reachable`).
-/

namespace TreeConversion.Target.Tree

variable {t : Tree} {h c : Handle}

/-- The second handle is met on the way down from the first; it may point nowhere. -/
def Below (t : Tree) : Handle → Handle → Prop := Relation.ReflTransGen fun a b => b ∈ t.childrenOf a

theorem node?_isSome : (t.node? h).isSome ↔ h.index < t.size := by
  simp [node?, size]

theorem node?_eq_none : t.node? h = none ↔ ¬ h.index < t.size := by
  rw [← node?_isSome, Option.not_isSome_iff_eq_none]

theorem exists_node (live : h.index < t.size) : ∃ node, t.node? h = some node :=
  Option.isSome_iff_exists.1 (node?_isSome.2 live)

theorem childrenOf_eq {node : Node} (hn : t.node? h = some node) :
    t.childrenOf h = node.children := by
  simp [childrenOf, hn]

theorem lt_size_of_mem_childrenOf (hc : c ∈ t.childrenOf h) : h.index < t.size := by
  refine node?_isSome.1 (Option.isSome_iff_ne_none.2 fun none => ?_)
  simp [childrenOf, none] at hc

/-! ### Meeting nodes -/

theorem fresh_after_mark {met : Array Bool} (hh : met[h.index]? = some false) (c : Handle) :
    (met.setIfInBounds h.index true)[c.index]? = some false ↔
      c ≠ h ∧ met[c.index]? = some false := by
  have bound := (Array.getElem?_eq_some_iff.1 hh).1
  have same : h.index = c.index ↔ c = h :=
    ⟨fun hi => by cases h; cases c; simp_all, fun hc => hc ▸ rfl⟩
  rw [Array.getElem?_setIfInBounds]
  by_cases hc : c = h
  · simp [hc, bound]
  · simp [hc, mt same.1 hc]

theorem fresh_of_mem_meet {met : Array Bool} {stack : List Handle} (hm : h ∈ t.meet met stack) :
    met[h.index]? = some false := by
  fun_induction meet t met stack with
  | case1 => cases hm
  | case2 met x stack fresh ih =>
    rcases List.mem_cons.1 hm with rfl | hm
    · exact fresh
    · exact ((fresh_after_mark fresh h).1 (ih hm)).2
  | case3 met x stack old ih => exact ih hm

theorem below_of_mem_meet {met : Array Bool} {stack : List Handle} (hm : h ∈ t.meet met stack) :
    ∃ top ∈ stack, t.Below top h := by
  fun_induction meet t met stack with
  | case1 => cases hm
  | case2 met x stack fresh ih =>
    rcases List.mem_cons.1 hm with rfl | hm
    · exact ⟨h, List.mem_cons_self .., .refl⟩
    · obtain ⟨top, htop, below⟩ := ih hm
      rcases List.mem_append.1 htop with hc | hs
      · exact ⟨x, List.mem_cons_self .., below.head hc⟩
      · exact ⟨top, List.mem_cons_of_mem _ hs, below⟩
  | case3 met x stack old ih =>
    obtain ⟨top, htop, below⟩ := ih hm
    exact ⟨top, List.mem_cons_of_mem _ htop, below⟩

theorem nodup_meet (t : Tree) (met : Array Bool) (stack : List Handle) :
    (t.meet met stack).Nodup := by
  fun_induction meet t met stack with
  | case1 => exact .nil
  | case2 met x stack fresh ih =>
    refine List.nodup_cons.2 ⟨fun hx => ?_, ih⟩
    exact ((fresh_after_mark fresh x).1 (fresh_of_mem_meet hx)).1 rfl
  | case3 met x stack old ih => exact ih

theorem mem_meet_of_mem_stack {met : Array Bool} {stack : List Handle} (hs : h ∈ stack)
    (hf : met[h.index]? = some false) : h ∈ t.meet met stack := by
  fun_induction meet t met stack with
  | case1 => cases hs
  | case2 met x stack fresh ih =>
    by_cases hx : h = x
    · exact hx ▸ List.mem_cons_self ..
    · have later : h ∈ stack := (List.mem_cons.1 hs).resolve_left hx
      exact List.mem_cons_of_mem _ (ih (List.mem_append_right _ later)
        ((fresh_after_mark fresh h).2 ⟨hx, hf⟩))
  | case3 met x stack old ih =>
    rcases List.mem_cons.1 hs with rfl | hs
    · exact absurd hf old
    · exact ih hs hf

/-- What is met leaves its children to be met. -/
theorem mem_meet_of_mem_childrenOf {met : Array Bool} {stack : List Handle}
    (hm : h ∈ t.meet met stack) (hc : c ∈ t.childrenOf h) (hf : met[c.index]? = some false) :
    c ∈ t.meet met stack := by
  fun_induction meet t met stack with
  | case1 => cases hm
  | case2 met x stack fresh ih =>
    by_cases hx : c = x
    · exact hx ▸ List.mem_cons_self ..
    · have still := (fresh_after_mark fresh c).2 ⟨hx, hf⟩
      rcases List.mem_cons.1 hm with rfl | hm
      · exact List.mem_cons_of_mem _ (mem_meet_of_mem_stack (List.mem_append_left _ hc) still)
      · exact List.mem_cons_of_mem _ (ih hm still)
  | case3 met x stack old ih => exact ih hm hf

/-! ### From the root -/

theorem mem_reachable : h ∈ t.reachable ↔ h.index < t.size ∧ t.Below t.root h := by
  have fresh {h : Handle} (hh : h.index < t.size) :
      (Array.replicate t.size false)[h.index]? = some false := by simp [hh]
  constructor
  · intro hm
    obtain ⟨top, htop, below⟩ := below_of_mem_meet hm
    have bound := (Array.getElem?_eq_some_iff.1 (fresh_of_mem_meet hm)).1
    rw [List.mem_singleton.1 htop] at below
    exact ⟨by simpa using bound, below⟩
  · rintro ⟨hh, below⟩
    induction below with
    | refl => exact mem_meet_of_mem_stack (List.mem_singleton_self _) (fresh hh)
    | tail _ hc ih =>
      exact mem_meet_of_mem_childrenOf (ih (lt_size_of_mem_childrenOf hc)) hc (fresh hh)

theorem nodup_reachable (t : Tree) : t.reachable.Nodup := nodup_meet ..

/-- If every node is below the root, a walk meets all nodes. -/
theorem perm_reachable (all : ∀ h : Handle, h.index < t.size → t.Below t.root h) :
    t.reachable.Perm ((List.range t.size).map Handle.mk) := by
  refine (List.perm_ext_iff_of_nodup (nodup_reachable t) ?_).2 fun h => ?_
  · exact List.nodup_range.map fun a b hab => congrArg Handle.index hab
  · rw [mem_reachable]
    constructor
    · rintro ⟨hh, -⟩
      exact List.mem_map.2 ⟨h.index, List.mem_range.2 hh, rfl⟩
    · intro hm
      obtain ⟨i, hi, rfl⟩ := List.mem_map.1 hm
      exact ⟨List.mem_range.1 hi, all _ (List.mem_range.1 hi)⟩

/-! ### Marks -/

theorem getElem?_foldl_mark (hs : List Handle) (marks : Array Bool) {i : Nat}
    (hi : i < marks.size) :
    (hs.foldl (fun marks h => marks.setIfInBounds h.index true) marks)[i]? =
      if ⟨i⟩ ∈ hs then some true else marks[i]? := by
  induction hs generalizing marks with
  | nil => simp
  | cons h hs ih =>
    have same : h.index = i ↔ Handle.mk i = h := ⟨fun h' => h' ▸ rfl, fun h' => h' ▸ rfl⟩
    rw [List.foldl_cons, ih _ (by simpa using hi), Array.getElem?_setIfInBounds]
    by_cases hm : Handle.mk i = h
    · subst hm
      simp [hi]
    · simp [hm, mt same.1 hm]

theorem size_kept (t : Tree) : t.kept.size = t.size := by
  have size (hs : List Handle) (marks : Array Bool) :
      (hs.foldl (fun marks h => marks.setIfInBounds h.index true) marks).size = marks.size := by
    induction hs generalizing marks with
    | nil => rfl
    | cons h hs ih => rw [List.foldl_cons, ih, Array.size_setIfInBounds]
  simp [kept, size]

theorem getElem?_kept {i : Nat} (hi : i < t.size) :
    t.kept[i]? = some (decide (⟨i⟩ ∈ t.reachable)) := by
  rw [kept, getElem?_foldl_mark _ _ (by simpa using hi)]
  by_cases hm : Handle.mk i ∈ t.reachable <;> simp [hm, hi]

end TreeConversion.Target.Tree
