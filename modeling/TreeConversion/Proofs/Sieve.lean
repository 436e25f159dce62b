import TreeConversion.Proofs.Harvest

/-!
# Emissions that are left out

Of two lists of emissions, one may be the other without some that no other emission uses.  Marks tell
which emissions stay (`Sifted`), and so which handles stand for each other (`Twin`).  From twins the
same can be reached, so what is harvested below them is the same (`Sifted.harvest_eq`).
-/

namespace TreeConversion

namespace Target

/-! ### Marks -/

namespace Renumbering

variable {α : Type} {n m i j : Nat} {kept marks : List Bool} {xs : List α}

theorem count_append (n : Nat) (marks more : List Bool) :
    count n (marks ++ more) = count n marks ++ count (n + marks.count true) more := by
  induction marks generalizing n with
  | nil => rfl
  | cons mark marks ih =>
    cases mark with
    | false => simpa [count] using ih n
    | true => simpa [count, Nat.add_assoc, Nat.add_comm 1] using ih (n + 1)

theorem length_count (n : Nat) (marks : List Bool) : (count n marks).length = marks.length := by
  induction marks generalizing n with
  | nil => rfl
  | cons mark marks ih => cases mark <;> simp [count, ih]

theorem pick_append (length : marks.length = xs.length) (more : List Bool) (ys : List α) :
    pick (marks ++ more) (xs ++ ys) = pick marks xs ++ pick more ys := by
  rw [pick, List.zip_append length.symm, List.filterMap_append]
  rfl

theorem forall₂_pick {R : α → α → Prop} (kept : List Bool) {ys : List α}
    (related : List.Forall₂ R xs ys) : List.Forall₂ R (pick kept xs) (pick kept ys) := by
  induction related generalizing kept with
  | nil => rw [pick_nil]; exact .nil
  | cons first _ ih =>
    rcases kept with _ | ⟨_ | _, kept⟩
    · exact .nil
    · exact ih kept
    · exact .cons first (ih kept)

theorem length_pick (length : marks.length = xs.length) :
    (pick marks xs).length = marks.count true := by
  induction marks generalizing xs with
  | nil => simp [pick]
  | cons mark marks ih =>
    cases xs with
    | nil => cases length
    | cons x xs =>
      have rest := ih (Nat.succ.inj length)
      cases mark <;> simp [rest]

/-- Of what stays, the same is kept as of the whole. -/
theorem pick_pick (within : List.Forall₂ (· ≤ ·) kept marks) (xs : List α) :
    pick (pick marks kept) (pick marks xs) = pick kept xs := by
  induction within generalizing xs with
  | nil => simp [pick]
  | @cons keep mark kept marks le _ ih =>
    cases xs with
    | nil => simp
    | cons x xs =>
      cases mark with
      | true => cases keep <;> simp [ih]
      | false =>
        obtain rfl : keep = false := Bool.eq_false_of_le_false le
        simp [ih]

/-- What is kept of what stays gets the number that it gets in the whole. -/
theorem count_pick (within : List.Forall₂ (· ≤ ·) kept marks) (n : Nat)
    (stays : (count m marks)[j]? = some (some ⟨m + i⟩)) :
    (count n kept)[j]? = (count n (pick marks kept))[i]? := by
  induction within generalizing n m i j with
  | nil => simp [count] at stays
  | @cons keep mark kept marks le _ ih =>
    cases mark with
    | false =>
      obtain rfl : keep = false := Bool.eq_false_of_le_false le
      cases j with
      | zero => simp [count] at stays
      | succ j => exact ih n stays
    | true =>
      cases j with
      | zero =>
        obtain rfl : i = 0 := by simp [count] at stays; omega
        cases keep <;> rfl
      | succ j =>
        have later : (count (m + 1) marks)[j]? = some (some ⟨m + i⟩) := stays
        have bound := le_of_mem_count (List.mem_of_getElem? later)
        obtain ⟨i, rfl⟩ : ∃ k, i = k + 1 := ⟨i - 1, by simp at bound; omega⟩
        rw [← Nat.add_assoc, Nat.add_right_comm] at later
        cases keep with
        | false => exact ih n later
        | true => exact ih (n + 1) later

end Renumbering

/-! ### Twins -/

/-- The handle `h` of what stays stands for the handle `h'` of the whole. -/
def Twin (marks : List Bool) (h h' : Handle) : Prop :=
  (Renumbering.count 0 marks)[h'.index]? = some (some h)

/-- Handles that stand for each other come in the same order on both sides. -/
def Ordered (known : Handle → Handle → Prop) : Prop :=
  ∀ a a' b b', known a a' → known b b' → (a.index < b.index ↔ a'.index < b'.index)

namespace Twin

variable {marks : List Bool} {a a' b b' h h' : Handle}

theorem lt_length (twin : Twin marks h h') : h'.index < marks.length := by
  rw [← Renumbering.length_count 0 marks]
  exact (List.getElem?_eq_some_iff.1 twin).1

theorem le_append (marks more : List Bool) : Twin marks ≤ Twin (marks ++ more) := by
  intro h h' twin
  rw [Twin, Renumbering.count_append, List.getElem?_append_left]
  · exact twin
  · exact (List.getElem?_eq_some_iff.1 twin).1

theorem last (marks : List Bool) :
    Twin (marks ++ [true]) ⟨marks.count true⟩ ⟨marks.length⟩ := by
  rw [Twin, Renumbering.count_append, List.getElem?_append_right, Renumbering.length_count]
  · simp [Renumbering.count]
  · exact Nat.le_of_eq (Renumbering.length_count 0 marks)

theorem eq_left (ha : Twin marks a h') (hb : Twin marks b h') : a = b :=
  Option.some.inj (Option.some.inj (Eq.trans ha.symm hb))

theorem ordered (marks : List Bool) : Ordered (Twin marks) := by
  have rising := Renumbering.rising_count 0 marks
  intro a a' b b' ha hb
  constructor
  · intro less
    rcases Nat.lt_trichotomy a'.index b'.index with lt | same | gt
    · exact lt
    · rw [Twin, same] at ha
      rw [eq_left ha hb] at less
      exact absurd less (Nat.lt_irrefl _)
    · exact absurd (rising _ _ _ _ hb ha gt) (Nat.lt_asymm less)
  · exact rising _ _ _ _ ha hb

theorem eq_right (ha : Twin marks h a') (hb : Twin marks h b') : a' = b' := by
  have first := (ordered marks _ _ _ _ ha hb).2
  have second := (ordered marks _ _ _ _ hb ha).2
  have same : a'.index = b'.index := by omega
  cases a'
  cases b'
  exact congrArg Handle.mk same

end Twin

/-! ### Nodes up to their handles -/

/-- The fields hold the same, but for handles that are known to stand for each other. -/
inductive Field.Alike (known : Handle → Handle → Prop) : Field → Field → Prop
  | node {child child' : Handle} (same : known child child') : Alike known (.node child) (.node child')
  | nodes {children children' : List Handle} (same : List.Forall₂ known children children') :
    Alike known (.nodes children) (.nodes children')
  | value (v : Json.Value) : Alike known (.value v) (.value v)

/-- Fields by the same names hold the same. -/
def FieldsAlike (known : Handle → Handle → Prop) :
    List (String × Field) → List (String × Field) → Prop :=
  List.Forall₂ fun f f' => f.1 = f'.1 ∧ f.2.Alike known f'.2

/-- The nodes are the same, but for handles that are known to stand for each other. -/
structure Node.Alike (known : Handle → Handle → Prop) (n n' : Node) : Prop where
  label : n'.toLabel = n.toLabel
  fields : FieldsAlike known n.fields n'.fields
  synthetic : n'.synthetic = n.synthetic

variable {known known' : Handle → Handle → Prop} {f f' : Field} {fs fs' : List (String × Field)}
  {n n' : Node} {table table' : Renumbering}

theorem Field.Alike.mono (le : known ≤ known') (alike : f.Alike known f') : f.Alike known' f' := by
  cases alike with
  | node same => exact .node (le _ _ same)
  | nodes same => exact .nodes (same.imp le)
  | value v => exact .value v

theorem Field.Alike.children (alike : f.Alike known f') :
    List.Forall₂ known f.children f'.children := by
  cases alike with
  | node same => exact .cons same .nil
  | nodes same => exact same
  | value v => exact .nil

theorem FieldsAlike.mono (le : known ≤ known') (alike : FieldsAlike known fs fs') :
    FieldsAlike known' fs fs' :=
  List.Forall₂.imp (fun _ _ same => ⟨same.1, same.2.mono le⟩) alike

theorem FieldsAlike.children (alike : FieldsAlike known fs fs') :
    List.Forall₂ known (fs.flatMap fun f => f.2.children) (fs'.flatMap fun f => f.2.children) :=
  List.rel_flatMap alike fun _ _ same => same.2.children

theorem Node.Alike.mono (le : known ≤ known') (alike : n.Alike known n') : n.Alike known' n' :=
  ⟨alike.label, alike.fields.mono le, alike.synthetic⟩

theorem Node.Alike.children (alike : n.Alike known n') :
    List.Forall₂ known n.children n'.children :=
  alike.fields.children

theorem map_eq_map_of_forall₂ {α β γ : Type} {R : α → β → Prop} {f : α → γ} {g : β → γ}
    {xs : List α} {ys : List β} (related : List.Forall₂ R xs ys)
    (same : ∀ x ∈ xs, ∀ y, R x y → f x = g y) : xs.map f = ys.map g := by
  induction related with
  | nil => rfl
  | @cons x y xs ys first _ ih =>
    have rest := ih fun x' hx => same x' (List.mem_cons_of_mem x hx)
    rw [List.map_cons, List.map_cons, rest, same x (List.mem_cons_self ..) y first]

theorem filterMap_eq_of_forall₂ {α β γ : Type} {R : α → β → Prop} {f : α → Option γ}
    {g : β → Option γ} {xs : List α} {ys : List β} (related : List.Forall₂ R xs ys)
    (same : ∀ x ∈ xs, ∀ y, R x y → f x = g y) : xs.filterMap f = ys.filterMap g := by
  have each := congrArg (List.filterMap id) (map_eq_map_of_forall₂ related same)
  rw [List.filterMap_map, List.filterMap_map] at each
  exact each

/-- If two tables give the children of two nodes the same new handles, they make the same of the
nodes. -/
theorem Node.Alike.node_eq (alike : n.Alike known n')
    (same : ∀ c ∈ n.children, ∀ c', known c c' → table.handle c = table'.handle c') :
    table.node n = table'.node n' := by
  have fields : n.fields.map (fun f => (f.1, table.field f.2)) =
      n'.fields.map fun f => (f.1, table'.field f.2) := by
    refine map_eq_map_of_forall₂ alike.fields ?_
    rintro ⟨name, f⟩ hf ⟨name', f'⟩ ⟨rfl, field⟩
    have same : ∀ c ∈ f.children, ∀ c', known c c' → table.handle c = table'.handle c' :=
      fun c hc => same c (List.mem_flatMap.2 ⟨_, hf, hc⟩)
    refine congrArg (Prod.mk name) ?_
    cases field with
    | node known => exact congrArg Field.node (same _ (List.mem_singleton_self _) _ known)
    | nodes known => exact congrArg Field.nodes (map_eq_map_of_forall₂ known same)
    | value v => rfl
  cases n
  cases n'
  obtain rfl := alike.label
  obtain rfl := alike.synthetic
  simp only [Renumbering.node] at fields ⊢
  rw [fields]

end Target

open Target

/-! ### Lists of emissions -/

namespace Emission

/-- The emissions are the same, but for handles that are known to stand for each other. -/
structure Alike (known : Handle → Handle → Prop) (e e' : Emission) : Prop where
  source : e'.source = e.source
  node : e.node.Alike known e'.node
  failure : e'.failure = e.failure

theorem length_kept (root : Handle) (es : List Emission) :
    (arena root es).kept.toList.length = es.length := by
  rw [Array.length_toList, Tree.size_kept, Tree.size, arena, List.size_toArray, List.length_map]

theorem getElem?_kept (root : Handle) {es : List Emission} {i : Nat} (hi : i < es.length) :
    (arena root es).kept.toList[i]? = some (decide (⟨i⟩ ∈ (arena root es).reachable)) := by
  rw [← length_kept root, Array.length_toList, Tree.size_kept] at hi
  rw [Array.getElem?_toList, Tree.getElem?_kept hi]

/-- The emissions `es` are those of `es'` that are marked. -/
structure Sifted (marks : List Bool) (es es' : List Emission) : Prop where
  length : marks.length = es'.length
  alike : List.Forall₂ (Alike (Twin marks)) es (Renumbering.pick marks es')

variable {marks : List Bool} {es es' : List Emission} {e e' : Emission} {h h' root root' : Handle}

theorem Alike.mono {known known' : Handle → Handle → Prop} (le : known ≤ known')
    (alike : e.Alike known e') : e.Alike known' e' :=
  ⟨alike.source, alike.node.mono le, alike.failure⟩

theorem Alike.origin? {known : Handle → Handle → Prop} (alike : e.Alike known e') :
    e'.origin? = e.origin? := by
  rw [Emission.origin?, Emission.origin?, alike.source, alike.node.synthetic]

namespace Sifted

theorem nil : Sifted [] [] [] := ⟨rfl, .nil⟩

theorem count_eq (sifted : Sifted marks es es') : marks.count true = es.length := by
  rw [sifted.alike.length_eq, Renumbering.length_pick sifted.length]

theorem append (sifted : Sifted marks es es') {more : List Bool} {new new' : List Emission}
    (length : more.length = new'.length)
    (alike : List.Forall₂ (Alike (Twin marks)) new (Renumbering.pick more new')) :
    Sifted (marks ++ more) (es ++ new) (es' ++ new') := by
  have le := Twin.le_append marks more
  refine ⟨?_, ?_⟩
  · rw [List.length_append, List.length_append, sifted.length, length]
  · rw [Renumbering.pick_append sifted.length]
    exact List.rel_append (sifted.alike.imp fun _ _ => Alike.mono le)
      (alike.imp fun _ _ => Alike.mono le)

/-- Both lists get an emission more. -/
theorem both (sifted : Sifted marks es es') (alike : e.Alike (Twin marks) e') :
    Sifted (marks ++ [true]) (es ++ [e]) (es' ++ [e']) :=
  sifted.append rfl (.cons alike .nil)

/-- The second list gets an emission more that is left out. -/
theorem extra (sifted : Sifted marks es es') (e' : Emission) :
    Sifted (marks ++ [false]) es (es' ++ [e']) := by
  have left_out : List.Forall₂ (Alike (Twin marks)) [] (Renumbering.pick [false] [e']) := .nil
  have more := sifted.append rfl left_out
  rwa [List.append_nil] at more

/-- Twins denote emissions that are alike. -/
theorem exists_alike (sifted : Sifted marks es es') (twin : Twin marks h h') :
    ∃ e e', es[h.index]? = some e ∧ es'[h'.index]? = some e' ∧ e.Alike (Twin marks) e' := by
  have bound : h'.index < es'.length := sifted.length ▸ twin.lt_length
  have he' : es'[h'.index]? = some es'[h'.index] := List.getElem?_eq_getElem bound
  have picked : (Renumbering.pick marks es')[h.index]? = some es'[h'.index] :=
    (Renumbering.getElem?_pick (m := 0)).2 ⟨h'.index, he', by rw [Nat.zero_add]; exact twin⟩
  obtain ⟨there, same⟩ := List.getElem?_eq_some_iff.1 picked
  have there' : h.index < es.length := sifted.alike.length_eq ▸ there
  have alike := sifted.alike.get there' there
  rw [List.get_eq_getElem, List.get_eq_getElem, same] at alike
  exact ⟨_, _, List.getElem?_eq_getElem there', he', alike⟩

/-! ### What can be reached -/

theorem childrenOf (sifted : Sifted marks es es') (twin : Twin marks h h') :
    List.Forall₂ (Twin marks) ((arena root es).childrenOf h) ((arena root' es').childrenOf h') := by
  obtain ⟨e, e', he, he', alike⟩ := sifted.exists_alike twin
  rw [Tree.childrenOf_eq (node?_of_emitted he root), Tree.childrenOf_eq (node?_of_emitted he' root')]
  exact alike.node.children

/-- What is below one of two twins has a twin below the other. -/
theorem exists_below {t t' : Tree} {R : Handle → Handle → Prop}
    (children : ∀ h h', R h h' → List.Forall₂ R (t.childrenOf h) (t'.childrenOf h'))
    (top : R root root') (below : t.Below root h) : ∃ h', R h h' ∧ t'.Below root' h' := by
  induction below with
  | refl => exact ⟨root', top, .refl⟩
  | tail _ hc ih =>
    obtain ⟨p', twin, below'⟩ := ih
    have related := children _ _ twin
    obtain ⟨i, hi, rfl⟩ := List.mem_iff_getElem.1 hc
    have hi' : i < (t'.childrenOf p').length := related.length_eq ▸ hi
    exact ⟨_, related.get hi hi', below'.tail (List.getElem_mem hi')⟩

theorem below (sifted : Sifted marks es es') (top : Twin marks root root')
    (below : (arena root es).Below root h) :
    ∃ h', Twin marks h h' ∧ (arena root' es').Below root' h' :=
  exists_below (fun _ _ twin => sifted.childrenOf twin) top below

theorem above (sifted : Sifted marks es es') (top : Twin marks root root')
    (below : (arena root' es').Below root' h') :
    ∃ h, Twin marks h h' ∧ (arena root es).Below root h := by
  have children (h' h : Handle) (twin : flip (Twin marks) h' h) :
      List.Forall₂ (flip (Twin marks)) ((arena root' es').childrenOf h')
        ((arena root es).childrenOf h) := (sifted.childrenOf twin).flip
  exact exists_below children top below

/-- Of two twins both can be reached or none. -/
theorem mem_reachable (sifted : Sifted marks es es') (top : Twin marks root root')
    (twin : Twin marks h h') :
    h ∈ (arena root es).reachable ↔ h' ∈ (arena root' es').reachable := by
  obtain ⟨e, e', he, he', -⟩ := sifted.exists_alike twin
  have live := lt_size_of_emitted he root
  have live' := lt_size_of_emitted he' root'
  rw [Tree.mem_reachable, Tree.mem_reachable, and_iff_right live, and_iff_right live']
  constructor
  · intro below
    obtain ⟨x', twin', below'⟩ := sifted.below top below
    exact twin.eq_right twin' ▸ below'
  · intro below'
    obtain ⟨x, twin', below⟩ := sifted.above top below'
    exact twin.eq_left twin' ▸ below

theorem exists_twin (sifted : Sifted marks es es') (top : Twin marks root root')
    (reached : h' ∈ (arena root' es').reachable) : ∃ h, Twin marks h h' := by
  obtain ⟨h, twin, -⟩ := sifted.above top (Tree.mem_reachable.1 reached).2
  exact ⟨h, twin⟩

theorem kept_le (sifted : Sifted marks es es') (top : Twin marks root root') :
    List.Forall₂ (· ≤ ·) (arena root' es').kept.toList marks := by
  refine List.forall₂_iff_get.2 ⟨?_, fun i hi hi' => ?_⟩
  · rw [length_kept, sifted.length]
  · rw [length_kept] at hi
    obtain ⟨_, kept⟩ := List.getElem?_eq_some_iff.1 (getElem?_kept root' hi)
    rw [List.get_eq_getElem, List.get_eq_getElem]
    show (arena root' es').kept.toList[i] ≤ _
    rw [kept]
    intro reached
    obtain ⟨h, twin⟩ := sifted.exists_twin top (of_decide_eq_true reached)
    have marked := Renumbering.getElem?_count.1 ⟨h, twin⟩
    exact (List.getElem?_eq_some_iff.1 marked).2

/-- What is kept of the first list is what is kept of the marked part of the second. -/
theorem pick_kept (sifted : Sifted marks es es') (top : Twin marks root root') :
    Renumbering.pick marks (arena root' es').kept.toList = (arena root es).kept.toList := by
  have length := (sifted.kept_le top).length_eq.symm
  refine List.ext_getElem ?_ fun i hi hi' => ?_
  · rw [Renumbering.length_pick length, sifted.count_eq, length_kept]
  · rw [length_kept] at hi'
    obtain ⟨j, hj, stays⟩ := (Renumbering.getElem?_pick (m := 0)).1 (List.getElem?_eq_getElem hi)
    have twin : Twin marks ⟨i⟩ ⟨j⟩ := by rwa [Nat.zero_add] at stays
    have bound := (List.getElem?_eq_some_iff.1 hj).1
    rw [length_kept] at bound
    have same := sifted.mem_reachable top twin
    obtain ⟨_, kept⟩ := List.getElem?_eq_some_iff.1 (getElem?_kept root hi')
    rw [getElem?_kept root' bound] at hj
    rw [← Option.some.inj hj, kept, decide_eq_decide]
    exact same.symm

theorem attached (sifted : Sifted marks es es') (top : Twin marks root root') :
    List.Forall₂ (Alike (Twin marks)) (attached root es) (attached root' es') := by
  rw [Emission.attached, Emission.attached, ← Renumbering.pick_pick (sifted.kept_le top),
    sifted.pick_kept top]
  exact Renumbering.forall₂_pick _ sifted.alike

/-- Twins get the same new handle. -/
theorem table_eq (sifted : Sifted marks es es') (top : Twin marks root root')
    (twin : Twin marks h h') :
    (arena root es).table[h.index]? = (arena root' es').table[h'.index]? := by
  have stays : (Renumbering.count 0 marks)[h'.index]? = some (some ⟨0 + h.index⟩) := by
    rw [Nat.zero_add]
    exact twin
  rw [Tree.table, Tree.table, List.getElem?_toArray, List.getElem?_toArray,
    ← sifted.pick_kept top, Renumbering.count_pick (sifted.kept_le top) 0 stays]

/-- A child of a node that is kept gets the same new handle as its twin. -/
theorem handle_eq (sifted : Sifted marks es es') (top : Twin marks root root')
    (twin : Twin marks h h') (reached : h ∈ (arena root es).reachable) :
    (arena root es).table.handle h = (arena root' es').table.handle h' := by
  obtain ⟨x, hx⟩ := Tree.exists_table.2 reached
  have hx' := sifted.table_eq top twin
  rw [hx] at hx'
  rw [Renumbering.handle_eq hx, Renumbering.handle_eq hx'.symm]

/-- Twins that are kept become the same node. -/
theorem node_eq (sifted : Sifted marks es es') (top : Twin marks root root')
    (twin : Twin marks h h') (reached : h ∈ (arena root es).reachable) {n n' : Node}
    (hn : (arena root es).node? h = some n) (hn' : (arena root' es').node? h' = some n') :
    (arena root es).table.node n = (arena root' es').table.node n' := by
  obtain ⟨e, e', he, he', alike⟩ := sifted.exists_alike twin
  have children := Tree.childrenOf_eq hn
  obtain rfl := Option.some.inj ((node?_of_emitted he root).symm.trans hn)
  obtain rfl := Option.some.inj ((node?_of_emitted he' root').symm.trans hn')
  refine alike.node.node_eq fun c hc c' twin' => sifted.handle_eq top twin' ?_
  obtain ⟨d, d', hd, -, -⟩ := sifted.exists_alike twin'
  have live := lt_size_of_emitted hd root
  rw [← children] at hc
  exact Tree.mem_reachable.2 ⟨live, (Tree.mem_reachable.1 reached).2.tail hc⟩

theorem compact_eq (sifted : Sifted marks es es') (top : Twin marks root root') :
    (arena root es).compact.1 = (arena root' es').compact.1 := by
  have node (x : Handle) :
      (arena root es).compact.1.node? x = (arena root' es').compact.1.node? x := by
    refine Option.ext fun n => ?_
    rw [Tree.node?_compact, Tree.node?_compact]
    constructor
    · rintro ⟨h, n, hn, hx, rfl⟩
      have reached := Tree.exists_table.1 ⟨x, hx⟩
      obtain ⟨h', twin, -⟩ := sifted.below top (Tree.mem_reachable.1 reached).2
      obtain ⟨e, e', -, he', -⟩ := sifted.exists_alike twin
      have hn' := node?_of_emitted he' root'
      have hx' := (sifted.table_eq top twin).symm.trans hx
      exact ⟨h', _, hn', hx', (sifted.node_eq top twin reached hn hn').symm⟩
    · rintro ⟨h', n', hn', hx', rfl⟩
      obtain ⟨h, twin⟩ := sifted.exists_twin top (Tree.exists_table.1 ⟨x, hx'⟩)
      obtain ⟨e, e', he, -, -⟩ := sifted.exists_alike twin
      have hn := node?_of_emitted he root
      have hx := (sifted.table_eq top twin).trans hx'
      have reached := Tree.exists_table.1 ⟨x, hx⟩
      exact ⟨h, _, hn, hx, sifted.node_eq top twin reached hn hn'⟩
  have nodes : (arena root es).compact.1.nodes = (arena root' es').compact.1.nodes :=
    Array.ext_getElem? fun i => node ⟨i⟩
  have reached : root ∈ (arena root es).reachable := by
    obtain ⟨e, e', he, -, -⟩ := sifted.exists_alike top
    exact Tree.mem_reachable.2 ⟨lt_size_of_emitted he root, .refl⟩
  have roots : (arena root es).compact.1.root = (arena root' es').compact.1.root :=
    sifted.handle_eq top top reached
  show Tree.mk _ _ none none = Tree.mk _ _ none none
  exact congrArg₂ (fun nodes root => Tree.mk nodes root none none) nodes roots

end Sifted

end Emission

/-! ### What is harvested -/

variable {σ : Type} {top top' : Source.Handle} {log log' : Array Event} {memory memory' : σ}
  {w w' : Workspace σ} {es es' : List Emission} {marks : List Bool} {root root' : Handle}

/-- The origins below a root are recorded from those of the attached emissions, one after the
other. -/
theorem Workspace.Adds.origins_harvest (h : (start top log memory).Adds w es) (root : Handle) :
    (w.harvest root).origins =
      (Origins.pairsFrom 0 ((Emission.attached root es).map Emission.origin?)).foldl
        (fun new p => new.record p.2 p.1) .empty := by
  have origins : w.origins.toList = Origins.pairsFrom 0 (es.map Emission.origin?) := h.origins
  have renumbered : (w.harvest root).origins =
      w.origins.renumber (Emission.arena root es).table := by
    rw [harvest, h.arena_eq root]
    rfl
  rw [renumbered, Origins.renumber_eq, origins, Tree.table, Renumbering.pairs_pairsFrom,
    Renumbering.pick_map]
  rfl

theorem Emission.Sifted.harvest_eq (sifted : Sifted marks es es') (twin : Twin marks root root')
    (h : (Workspace.start top log memory).Adds w es)
    (h' : (Workspace.start top' log' memory').Adds w' es') :
    w'.harvest root' = w.harvest root := by
  have attached := sifted.attached twin
  have tree : (w'.harvest root').tree = (w.harvest root).tree := by
    rw [(h'.holds_harvest root').tree, (h.holds_harvest root).tree, sifted.compact_eq twin]
  have origins : (w'.harvest root').origins = (w.harvest root).origins := by
    have same := map_eq_map_of_forall₂ attached fun _ _ _ alike => alike.origin?.symm
    rw [h'.origins_harvest, h.origins_harvest, same]
  have failures : (w'.harvest root').failures = (w.harvest root).failures := by
    have same := filterMap_eq_of_forall₂ attached fun _ _ _ alike => alike.failure.symm
    rw [(h'.holds_harvest root').failures, (h.holds_harvest root).failures, same]
  generalize w'.harvest root' = a at tree origins failures ⊢
  generalize w.harvest root = b at tree origins failures ⊢
  cases a
  cases b
  obtain rfl : _ = _ := tree
  obtain rfl : _ = _ := origins
  obtain rfl : _ = _ := failures
  rfl

end TreeConversion
