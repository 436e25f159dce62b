import TreeConversion.Source.Builder
import Mathlib.Data.Finset.Card
import Mathlib.Data.Finset.Range
import Mathlib.Data.List.Nodup
import Mathlib.Logic.Relation

/-!
# What a builder builds

The nodes of a tree that a builder has made form a forest (`Builder.Built.forest`).  The invariant is
that parents and children agree and that the nodes have ranks that fall on the way down
(`Builder.Sound`).  Each step keeps it: a child is attached only if it is not on the way up from its
new parent, so the ranks on that way can be raised above the rank of the child.
-/

namespace TreeConversion.Source

/-- The nodes form a forest: a node is a child once at most, and there are no more ranks than nodes
on the way down. -/
structure Tree.Forest (t : Tree) : Prop where
  present : ∀ p c, c ∈ t.childrenOf p → c.index < t.size
  once : ∀ p, (t.childrenOf p).Nodup
  single : ∀ p q c, c ∈ t.childrenOf p → c ∈ t.childrenOf q → p = q
  ranked : ∃ rank : Handle → Nat, (∀ h, h.index < t.size → rank h < t.size) ∧
    ∀ p c, c ∈ t.childrenOf p → rank c < rank p

theorem Handle.index_eq_iff {h h' : Handle} : h.index = h'.index ↔ h = h' :=
  ⟨fun same => by cases h; cases h'; exact congrArg Handle.mk same, fun same => same ▸ rfl⟩

namespace Builder

variable {b : Builder} {p q c d : Handle} {rank : Handle → Nat}

/-- The builders that can be come by. -/
inductive Built : Builder → Prop
  | ofText (text : String) : Built (ofText text)
  | addNode {b : Builder} (built : Built b) (kind : String) (span : Span) (attrs : Json.Members) :
    Built (b.addNode kind span attrs).2
  | setAttr {b : Builder} (built : Built b) (h : Handle) (name : String) (value : Json.Value) :
    Built (b.setAttr h name value)
  | attach {b : Builder} (built : Built b) (parent child : Handle) :
    Built (b.attach parent child).2
  | addDiagnostic {b : Builder} (built : Built b) (d : Diagnostic) : Built (b.addDiagnostic d)
  | addToken {b : Builder} (built : Built b) (t : Token) : Built (b.addToken t)
  | addComment {b : Builder} (built : Built b) (c : Comment) : Built (b.addComment c)

def childrenOf (b : Builder) (h : Handle) : List Handle :=
  ((b.nodes[h.index]?).map Node.children).getD []

/-- The ranks fall on the way down. -/
def Falls (b : Builder) (rank : Handle → Nat) : Prop := ∀ p c, c ∈ b.childrenOf p → rank c < rank p

/-- The second handle is met on the way up from the first. -/
def Above (b : Builder) : Handle → Handle → Prop :=
  Relation.ReflTransGen fun c p => b.parent? c = some p

structure Sound (b : Builder) : Prop where
  sizes : b.parents.size = b.nodes.size
  agree : ∀ p c, c ∈ b.childrenOf p ↔ b.parent? c = some p
  once : ∀ p, (b.childrenOf p).Nodup
  ranked : ∃ rank, b.Falls rank

theorem lt_size_of_mem_childrenOf (hc : c ∈ b.childrenOf p) : p.index < b.nodes.size := by
  by_contra out
  rw [childrenOf, Array.getElem?_eq_none (Nat.le_of_not_lt out)] at hc
  cases hc

theorem lt_size_of_parent? (hp : b.parent? c = some p) : c.index < b.parents.size := by
  by_contra out
  rw [parent?, Array.getElem?_eq_none (Nat.le_of_not_lt out)] at hp
  cases hp

theorem Sound.present (sound : b.Sound) (hc : c ∈ b.childrenOf p) : c.index < b.nodes.size :=
  sound.sizes ▸ lt_size_of_parent? ((sound.agree p c).1 hc)

/-- Where ranks fall, so do the numbers of nodes of lower rank, of which there are not so many. -/
theorem Sound.exists_rank_lt (sound : b.Sound) :
    ∃ rank, (∀ h : Handle, h.index < b.nodes.size → rank h < b.nodes.size) ∧ b.Falls rank := by
  obtain ⟨rank, falls⟩ := sound.ranked
  let lower (h : Handle) := (Finset.range b.nodes.size).filter fun i => rank ⟨i⟩ < rank h
  refine ⟨fun h => (lower h).card, fun h hh => ?_, fun p c hc => ?_⟩
  · have proper : lower h ⊂ Finset.range b.nodes.size :=
      Finset.filter_ssubset.2 ⟨h.index, Finset.mem_range.2 hh, Nat.lt_irrefl _⟩
    simpa using Finset.card_lt_card proper
  · have falls := falls p c hc
    have proper : lower c ⊂ lower p := by
      refine Finset.ssubset_iff_subset_ne.2 ⟨fun i hi => ?_, fun same => ?_⟩
      · obtain ⟨hi, less⟩ := Finset.mem_filter.1 hi
        exact Finset.mem_filter.2 ⟨hi, Nat.lt_trans less falls⟩
      · have here : c.index ∈ lower p :=
          Finset.mem_filter.2 ⟨Finset.mem_range.2 (sound.present hc), falls⟩
        rw [← same] at here
        exact Nat.lt_irrefl _ (Finset.mem_filter.1 here).2
    exact Finset.card_lt_card proper

/-! ### The way up -/

/-- A way up is found within as many steps as there are ranks left. -/
theorem Sound.isBelow_of_above (sound : b.Sound)
    (bounded : ∀ h : Handle, h.index < b.nodes.size → rank h < b.nodes.size) (falls : b.Falls rank)
    {top h : Handle} (hh : h.index < b.nodes.size) (above : b.Above h top) {steps : Nat}
    (enough : b.nodes.size ≤ rank h + steps) : b.isBelow top steps h = true := by
  induction steps generalizing h with
  | zero => exact absurd (bounded h hh) (Nat.not_lt.2 enough)
  | succ steps ih =>
    rw [isBelow, Bool.or_eq_true]
    rcases above.cases_head with rfl | ⟨p, up, rest⟩
    · exact .inl (beq_self_eq_true h)
    · have hc := (sound.agree p h).2 up
      have rises := falls p h hc
      right
      simp only [up]
      exact ih (lt_size_of_mem_childrenOf hc) rest (by omega)

theorem Sound.not_above_of_isBelow (sound : b.Sound) (hp : p.index < b.nodes.size)
    (found : b.isBelow c b.nodes.size p = false) : ¬ b.Above p c := by
  intro above
  obtain ⟨rank, bounded, falls⟩ := sound.exists_rank_lt
  have enough : b.nodes.size ≤ rank p + b.nodes.size := Nat.le_add_left ..
  rw [sound.isBelow_of_above bounded falls hp above enough] at found
  cases found

/-! ### Steps -/

theorem childrenOf_link (hp : p.index < b.nodes.size) (q : Handle) :
    (b.link p c).childrenOf q = if q = p then b.childrenOf p ++ [c] else b.childrenOf q := by
  simp only [childrenOf, link, Array.getElem?_modify, Handle.index_eq_iff, eq_comm (a := p)]
  split
  · next same =>
    subst same
    simp [hp]
  · rfl

theorem parent?_link (hc : c.index < b.parents.size) (d : Handle) :
    (b.link p c).parent? d = if d = c then some p else b.parent? d := by
  simp only [parent?, link, Array.getElem?_modify, Handle.index_eq_iff, eq_comm (a := c)]
  split
  · next same =>
    subst same
    simp [hc]
  · rfl

/-- A node without a parent may be linked to one that it is not above. -/
theorem Sound.link (sound : b.Sound) (hp : p.index < b.nodes.size) (hc : c.index < b.parents.size)
    (free : b.parent? c = none) (apart : ¬ b.Above p c) : (b.link p c).Sound where
  sizes := by simpa [Builder.link] using sound.sizes
  agree q d := by
    rw [childrenOf_link hp, parent?_link hc]
    have agree := sound.agree q d
    by_cases hd : d = c
    · subst hd
      rw [free] at agree
      by_cases hq : q = p
      · simp [hq]
      · simp [hq, agree, Ne.symm hq]
    · by_cases hq : q = p
      · subst hq
        simp [hd, agree]
      · simp [hd, hq, agree]
  once q := by
    rw [childrenOf_link hp]
    split
    · have new : c ∉ b.childrenOf p := fun hc => by
        cases free.symm.trans ((sound.agree p c).1 hc)
      exact (sound.once p).append (List.nodup_singleton c) (List.disjoint_singleton.2 new)
    · exact sound.once q
  ranked := by
    classical
    obtain ⟨rank, falls⟩ := sound.ranked
    refine ⟨fun h => if b.Above p h then rank h + rank c + 1 else rank h, fun q d hd => ?_⟩
    rw [childrenOf_link hp] at hd
    have old (hd : d ∈ b.childrenOf q) : (if b.Above p d then rank d + rank c + 1 else rank d) <
        if b.Above p q then rank q + rank c + 1 else rank q := by
      have less := falls q d hd
      by_cases above : b.Above p d
      · have further : b.Above p q := above.tail ((sound.agree q d).1 hd)
        rw [if_pos above, if_pos further]
        omega
      · rw [if_neg above]
        split <;> omega
    split at hd
    · next same =>
      subst same
      rcases List.mem_append.1 hd with hd | hd
      · exact old hd
      · have here : b.Above q q := .refl
        rw [List.mem_singleton.1 hd]
        show (if b.Above q c then _ else _) < if b.Above q q then _ else _
        rw [if_neg apart, if_pos here]
        omega
    · exact old hd

/-- The nodes have the children that they had, and the parents. -/
theorem Sound.of_same {b' : Builder} (sound : b.Sound) (sizes : b'.parents.size = b'.nodes.size)
    (children : ∀ h, b'.childrenOf h = b.childrenOf h) (parents : ∀ h, b'.parent? h = b.parent? h) :
    b'.Sound where
  sizes := sizes
  agree p c := by rw [children, parents, sound.agree]
  once p := children p ▸ sound.once p
  ranked := by
    obtain ⟨rank, falls⟩ := sound.ranked
    exact ⟨rank, fun p c hc => falls p c (children p ▸ hc)⟩

theorem sound_ofText (text : String) : (ofText text).Sound where
  sizes := rfl
  agree p c := by simp [childrenOf, parent?, ofText]
  once p := by simp [childrenOf, ofText]
  ranked := ⟨fun _ => 0, fun p c hc => by simp [childrenOf, ofText] at hc⟩

theorem childrenOf_addNode (kind : String) (span : Span) (attrs : Json.Members) (h : Handle) :
    (b.addNode kind span attrs).2.childrenOf h = b.childrenOf h := by
  simp only [childrenOf, Builder.addNode, Array.getElem?_push]
  split
  · next last => simp [last]
  · rfl

theorem Sound.addNode (sound : b.Sound) (kind : String) (span : Span) (attrs : Json.Members) :
    (b.addNode kind span attrs).2.Sound := by
  refine sound.of_same (by simpa [Builder.addNode] using sound.sizes)
    (childrenOf_addNode kind span attrs) fun h => ?_
  simp only [parent?, Builder.addNode, Array.getElem?_push]
  split
  · next last => simp [last]
  · rfl

theorem childrenOf_setAttr (h : Handle) (name : String) (value : Json.Value) (h' : Handle) :
    (b.setAttr h name value).childrenOf h' = b.childrenOf h' := by
  simp only [childrenOf, Builder.setAttr, Array.getElem?_modify]
  split
  · rw [Option.map_map]
    rfl
  · rfl

theorem Sound.setAttr (sound : b.Sound) (h : Handle) (name : String) (value : Json.Value) :
    (b.setAttr h name value).Sound :=
  sound.of_same (by simpa [Builder.setAttr] using sound.sizes) (childrenOf_setAttr h name value)
    fun _ => rfl

theorem Sound.attach (sound : b.Sound) (p c : Handle) : (b.attach p c).2.Sound := by
  unfold Builder.attach
  split
  · exact sound
  · next hp =>
    have hp := Nat.lt_of_not_le hp
    split
    · exact sound
    · exact sound
    · next free =>
      split
      · exact sound
      · next found =>
        refine sound.link hp (Array.getElem?_eq_some_iff.1 free).1 ?_ ?_
        · rw [parent?, free]
          rfl
        · exact sound.not_above_of_isBelow hp (Bool.eq_false_iff.2 found)

theorem Built.sound (built : b.Built) : b.Sound := by
  induction built with
  | ofText text => exact sound_ofText text
  | addNode _ kind span attrs ih => exact ih.addNode kind span attrs
  | setAttr _ h name value ih => exact ih.setAttr h name value
  | attach _ p c ih => exact ih.attach p c
  | addDiagnostic _ _ ih => exact ih.of_same ih.sizes (fun _ => rfl) fun _ => rfl
  | addToken _ _ ih => exact ih.of_same ih.sizes (fun _ => rfl) fun _ => rfl
  | addComment _ _ ih => exact ih.of_same ih.sizes (fun _ => rfl) fun _ => rfl

/-- What is built is a forest. -/
theorem Built.forest (built : b.Built) (root : Handle) : (b.finish root).Forest where
  present _ _ hc := built.sound.present hc
  once p := built.sound.once p
  single p q c hp hq := by
    have hp := (built.sound.agree p c).1 hp
    have hq := (built.sound.agree q c).1 hq
    exact Option.some.inj (hp.symm.trans hq)
  ranked := built.sound.exists_rank_lt

end Builder

end TreeConversion.Source
