import TreeConversion.Conversion.Origins
import Mathlib.Data.List.Basic

/-!
# Numbered lists

`Origins.pairsFrom` numbers the entries of a list that are there, `Renumbering.count` the marked
entries among marks, and `Renumbering.pick` keeps the marked entries of a list.  Renumbering the
pairs of a list by the count of the marks gives the pairs of what is kept (`pairs_pairsFrom`), so
whatever is recorded of the nodes of a tree follows them when some of them are left out.
-/

namespace TreeConversion

open Target

namespace Origins

variable {β : Type} {n : Nat} {xs ys : List (Option β)}

/-! ### Pairs -/

theorem mem_pairsFrom {t : Target.Handle} {b : β} :
    (t, b) ∈ pairsFrom n xs ↔ ∃ i, t.index = n + i ∧ xs[i]? = some (some b) := by
  induction xs generalizing n with
  | nil => simp [pairsFrom]
  | cons x xs ih =>
    have shift : (∃ i, t.index = n + i ∧ (x :: xs)[i]? = some (some b)) ↔
        (t.index = n ∧ x = some b) ∨ ∃ i, t.index = n + 1 + i ∧ xs[i]? = some (some b) := by
      constructor
      · rintro ⟨_ | i, ht, hx⟩
        · exact .inl ⟨ht, by simpa using hx⟩
        · exact .inr ⟨i, by omega, by simpa using hx⟩
      · rintro (⟨ht, rfl⟩ | ⟨i, ht, hx⟩)
        · exact ⟨0, ht, rfl⟩
        · exact ⟨i + 1, by omega, by simpa using hx⟩
    rw [shift, ← ih]
    cases x with
    | none => simp [pairsFrom]
    | some y => cases t; simp [pairsFrom, eq_comm]

theorem mem_pairsFrom_zero {t : Target.Handle} {b : β} :
    (t, b) ∈ pairsFrom 0 xs ↔ xs[t.index]? = some (some b) := by
  simp [mem_pairsFrom]

theorem le_of_mem_pairsFrom {p : Target.Handle × β} (h : p ∈ pairsFrom n xs) :
    n ≤ p.1.index ∧ p.1.index < n + xs.length := by
  obtain ⟨i, hi, hx⟩ := mem_pairsFrom.1 h
  have := (List.getElem?_eq_some_iff.1 hx).1
  omega

theorem pairsFrom_append :
    pairsFrom n (xs ++ ys) = pairsFrom n xs ++ pairsFrom (n + xs.length) ys := by
  induction xs generalizing n with
  | nil => rfl
  | cons x xs ih =>
    have hn : n + 1 + xs.length = n + (x :: xs).length := by simp; omega
    cases x <;> simp [pairsFrom, ih, hn]

theorem map_snd_pairsFrom : (pairsFrom n xs).map Prod.snd = xs.filterMap id := by
  induction xs generalizing n with
  | nil => rfl
  | cons x xs ih => cases x <;> simp [pairsFrom, ih]

theorem length_pairsFrom : (pairsFrom n xs).length = xs.countP Option.isSome := by
  induction xs generalizing n with
  | nil => rfl
  | cons x xs ih => cases x <;> simp [pairsFrom, ih]

/-- Pairs whose targets are in strictly ascending order. -/
abbrev Ascending (pairs : List (Target.Handle × β)) : Prop :=
  pairs.Pairwise fun p q => p.1.index < q.1.index

theorem ascending_pairsFrom (n : Nat) (xs : List (Option β)) : Ascending (pairsFrom n xs) := by
  induction xs generalizing n with
  | nil => exact .nil
  | cons x xs ih =>
    cases x with
    | none => exact ih _
    | some b => exact .cons (fun p hp => (le_of_mem_pairsFrom hp).1) (ih _)

/-- Pairs in ascending order are known by their members. -/
theorem Ascending.eq_of_mem_iff {l l' : List (Target.Handle × β)} (h : Ascending l)
    (h' : Ascending l') (mem : ∀ p, p ∈ l ↔ p ∈ l') : l = l' := by
  have nodup {k : List (Target.Handle × β)} (hk : Ascending k) : k.Nodup :=
    hk.imp fun hlt => by rintro rfl; exact Nat.lt_irrefl _ hlt
  refine ((List.perm_ext_iff_of_nodup (nodup h) (nodup h')).2 mem).eq_of_pairwise ?_ h h'
  intro p q _ _ hpq hqp
  exact absurd hpq (Nat.lt_asymm hqp)

end Origins

namespace Target.Renumbering

variable {α β : Type}

/-! ### Marks -/

/-- The entries of a list that are marked. -/
def pick (kept : List Bool) (xs : List α) : List α :=
  (xs.zip kept).filterMap fun (x, keep) => if keep then some x else none

@[simp] theorem pick_nil (kept : List Bool) : pick kept ([] : List α) = [] := by simp [pick]

@[simp] theorem pick_cons (keep : Bool) (kept : List Bool) (x : α) (xs : List α) :
    pick (keep :: kept) (x :: xs) = if keep then x :: pick kept xs else pick kept xs := by
  cases keep <;> simp [pick]

theorem pick_map (kept : List Bool) (f : α → β) (xs : List α) :
    pick kept (xs.map f) = (pick kept xs).map f := by
  induction xs generalizing kept with
  | nil => simp
  | cons x xs ih =>
    cases kept with
    | nil => simp [pick]
    | cons keep kept => cases keep <;> simp [ih]

theorem map_pick (kept : List Bool) (f : α → β) (xs : List α) :
    (xs.zip kept).filterMap (fun (x, keep) => if keep then some (f x) else none) =
      (pick kept xs).map f := by
  rw [pick, List.map_filterMap]
  congr 1
  funext ⟨x, keep⟩
  cases keep <;> rfl

theorem pick_sublist (kept : List Bool) (xs : List α) : (pick kept xs).Sublist xs := by
  induction xs generalizing kept with
  | nil => simp
  | cons x xs ih =>
    cases kept with
    | nil => simp [pick]
    | cons keep kept =>
      rw [pick_cons]
      split
      · exact (ih kept).cons_cons x
      · exact (ih kept).cons x

theorem mem_of_mem_pick {kept : List Bool} {xs : List α} {x : α} (h : x ∈ pick kept xs) :
    x ∈ xs := by
  obtain ⟨⟨y, keep⟩, hy, hx⟩ := List.mem_filterMap.1 h
  cases keep with
  | false => simp at hx
  | true => exact Option.some.inj hx ▸ (List.of_mem_zip hy).1

theorem le_of_mem_count {n : Nat} {kept : List Bool} {h : Handle} (hm : some h ∈ count n kept) :
    n ≤ h.index := by
  induction kept generalizing n with
  | nil => simp [count] at hm
  | cons keep kept ih =>
    cases keep <;> simp only [count, List.mem_cons, reduceCtorEq, Option.some.injEq, false_or] at hm
    · exact ih hm
    · rcases hm with rfl | hm
      · exact Nat.le_refl _
      · exact Nat.le_of_succ_le (ih hm)

theorem getElem?_count {n i : Nat} {kept : List Bool} :
    (∃ h, (count n kept)[i]? = some (some h)) ↔ kept[i]? = some true := by
  induction kept generalizing n i with
  | nil => simp [count]
  | cons keep kept ih => cases i <;> cases keep <;> simp [count, ih]

/-- The new number of a kept entry is its place among the entries that are kept. -/
theorem getElem?_pick {m j : Nat} {kept : List Bool} {xs : List α} {x : α} :
    (pick kept xs)[j]? = some x ↔
      ∃ i : Nat, xs[i]? = some x ∧ (count m kept)[i]? = some (some ⟨m + j⟩) := by
  induction xs generalizing m j kept with
  | nil => simp
  | cons y xs ih =>
    rcases kept with _ | ⟨_ | _, kept⟩
    · simp [pick, count]
    · rw [pick_cons, if_neg Bool.false_ne_true, ih]
      constructor
      · rintro ⟨i, hx, hi⟩
        exact ⟨i + 1, hx, hi⟩
      · rintro ⟨_ | i, hx, hi⟩
        · simp [count] at hi
        · exact ⟨i, hx, hi⟩
    · rw [pick_cons, if_pos rfl]
      cases j with
      | zero =>
        constructor
        · intro hx
          exact ⟨0, hx, rfl⟩
        · rintro ⟨_ | i, hx, hi⟩
          · exact hx
          · -- a later entry gets a greater number
            have later : m + 1 ≤ m := le_of_mem_count (List.mem_of_getElem? hi)
            exact absurd later (Nat.not_succ_le_self m)
      | succ j =>
        have hj : m + (j + 1) = m + 1 + j := by omega
        rw [List.getElem?_cons_succ, ih, hj]
        constructor
        · rintro ⟨i, hx, hi⟩
          exact ⟨i + 1, hx, hi⟩
        · rintro ⟨_ | i, hx, hi⟩
          · simp [count] at hi; omega
          · exact ⟨i, hx, hi⟩

/-- Later entries that are kept have greater numbers. -/
def Rising (table : List (Option Handle)) : Prop :=
  ∀ (i j : Nat) (a b : Handle),
    table[i]? = some (some a) → table[j]? = some (some b) → i < j → a.index < b.index

theorem rising_count (n : Nat) (kept : List Bool) : Rising (count n kept) := by
  intro i j a b
  induction kept generalizing n i j with
  | nil => simp [count]
  | cons keep kept ih =>
    intro ha hb hij
    obtain ⟨j, rfl⟩ : ∃ j', j = j' + 1 := ⟨j - 1, by omega⟩
    cases keep with
    | false =>
      cases i with
      | zero => simp [count] at ha
      | succ i => exact ih n i j ha hb (by omega)
    | true =>
      cases i with
      | zero =>
        have hn : a.index = n := by simp [count] at ha; simp [← ha]
        have later : (count (n + 1) kept)[j]? = some (some b) := hb
        have := le_of_mem_count (List.mem_of_getElem? later)
        omega
      | succ i => exact ih (n + 1) i j ha hb (by omega)

/-- The pairs whose targets have a new handle, with that handle. -/
def pairs (table : Renumbering) (ps : List (Handle × β)) : List (Handle × β) :=
  ps.filterMap fun p => ((table[p.1.index]?).join).map fun t => (t, p.2)

theorem mem_pairs {table : Renumbering} {ps : List (Handle × β)} {t : Handle} {b : β} :
    (t, b) ∈ pairs table ps ↔ ∃ h, (h, b) ∈ ps ∧ table[h.index]? = some (some t) := by
  simp only [pairs, List.mem_filterMap, Prod.exists, Option.map_eq_some_iff,
    Option.join_eq_some_iff, Prod.mk.injEq]
  constructor
  · rintro ⟨h, b, hp, t, ht, rfl, rfl⟩
    exact ⟨h, hp, ht⟩
  · rintro ⟨h, hp, ht⟩
    exact ⟨h, b, hp, t, ht, rfl, rfl⟩

theorem ascending_pairs {table : Renumbering} (rising : Rising table.toList)
    {ps : List (Handle × β)} (ascending : Origins.Ascending ps) :
    Origins.Ascending (pairs table ps) := by
  refine ascending.filterMap _ ?_
  rintro ⟨t, b⟩ ⟨t', b'⟩ hlt p hp p' hp'
  simp only [Option.map_eq_some_iff, Option.join_eq_some_iff] at hp hp'
  obtain ⟨a, ha, rfl⟩ := hp
  obtain ⟨a', ha', rfl⟩ := hp'
  exact rising _ _ a a' (by simpa using ha) (by simpa using ha') hlt

/-- The pairs of what is kept of a list are its pairs with the new numbers. -/
theorem pairs_pairsFrom (kept : List Bool) (xs : List (Option β)) :
    pairs (count 0 kept).toArray (Origins.pairsFrom 0 xs) = Origins.pairsFrom 0 (pick kept xs) := by
  refine (ascending_pairs (rising_count 0 kept) (Origins.ascending_pairsFrom _ _)).eq_of_mem_iff
    (Origins.ascending_pairsFrom _ _) ?_
  rintro ⟨t, b⟩
  rw [mem_pairs, Origins.mem_pairsFrom_zero, getElem?_pick (m := 0)]
  simp only [Origins.mem_pairsFrom_zero, List.getElem?_toArray, Nat.zero_add]
  exact ⟨fun ⟨h, hx⟩ => ⟨h.index, hx⟩, fun ⟨i, hx⟩ => ⟨⟨i⟩, hx⟩⟩

end Target.Renumbering

end TreeConversion
