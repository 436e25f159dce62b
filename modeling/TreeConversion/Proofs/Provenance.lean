import TreeConversion.Proofs.Harvest

/-!
# Origins fit the tree

The origins that a conversion hands out and the tree that it hands out belong together (`Fits`):
they know just the nodes of the tree that are not synthetic, both directions and all counts agree,
and a node comes from the source node whose rule was running when it was emitted.
-/

namespace TreeConversion

namespace Origins

variable {o : Origins} {t : Target.Tree} {es : List Emission}

/-- Origins that know the nodes of a tree, and nothing else. -/
structure Fits (o : Origins) (t : Target.Tree) : Prop where
  /-- A target has a source if and only if it is a node of the tree that is not synthetic. -/
  isSome_sourceOf : ∀ h, (o.sourceOf h).isSome ↔
    ∃ node, t.node? h = some node ∧ node.synthetic = false
  mem_targetsOf : ∀ s h, h ∈ o.targetsOf s ↔ o.sourceOf h = some s
  targetsOf_ascending : ∀ s, (o.targetsOf s).Pairwise fun a b => a.index < b.index
  hasSource : ∀ s, o.hasSource s = true ↔ o.targetsOf s ≠ []
  size : o.size = t.nodes.toList.countP fun node => !node.synthetic
  sourceCount : o.sourceCount = (o.toList.map Prod.snd).dedup.length
  mem_toList : ∀ h s, (h, s) ∈ o.toList ↔ o.sourceOf h = some s
  toList_ascending : o.toList.Pairwise fun p q => p.1.index < q.1.index

theorem fits_of_pairs (coherent : o.Coherent)
    (pairs : o.toList = pairsFrom 0 (es.map Emission.origin?))
    (nodes : t.nodes.toList.map Target.Node.synthetic = es.map fun e => e.node.synthetic) :
    o.Fits t where
  isSome_sourceOf h := by
    have same : (t.node? h).map Target.Node.synthetic =
        (es[h.index]?).map fun e => e.node.synthetic := by
      simpa [Target.Tree.node?] using congrArg (·[h.index]?) nodes
    have left : (∃ node, t.node? h = some node ∧ node.synthetic = false) ↔
        (t.node? h).map Target.Node.synthetic = some false := by
      simp [Option.map_eq_some_iff]
    rw [left, same, sourceOf_of_pairs pairs]
    cases he : es[h.index]? with
    | none => simp
    | some e => cases hs : e.node.synthetic <;> simp [Emission.origin?, hs]
  mem_targetsOf _ _ := coherent.mem_targetsOf
  targetsOf_ascending := coherent.ascending_targetsOf
  hasSource _ := coherent.hasSource
  size := by
    calc o.size = (es.map Emission.origin?).countP Option.isSome := by
          rw [Origins.size, coherent.count, pairs, length_pairsFrom]
      _ = es.countP (fun e => !e.node.synthetic) := by
          rw [List.countP_map]
          congr 1
          funext e
          cases hs : e.node.synthetic <;> simp [Emission.origin?, hs]
      _ = (es.map fun e => e.node.synthetic).countP (!·) := by rw [List.countP_map]; rfl
      _ = (t.nodes.toList.map Target.Node.synthetic).countP (!·) := by rw [nodes]
      _ = t.nodes.toList.countP (fun node => !node.synthetic) := by rw [List.countP_map]; rfl
  sourceCount := coherent.sourceCount
  mem_toList _ _ := Origins.mem_toList
  toList_ascending := ascending_toList o

end Origins

namespace Converter

variable {τ σ : Type} [ParseTree τ] {c : Converter τ σ} {depth : Nat} {tree : τ} {s : Settings}
  {memory : σ} {report : Report σ} {conversion : Conversion}

theorem Making.fits (m : c.Making tree s memory conversion) : m.origins.Fits conversion.tree :=
  Origins.fits_of_pairs m.holds.coherent m.holds.origins
    (Emission.map_eq_of_became m.became fun _ _ b => b.synthetic)

theorem Making.origins_eq (m : c.Making tree s memory conversion) (asked : s.origins = true) :
    conversion.origins = some m.origins :=
  (congrArg Conversion.origins m.finished).trans (if_pos asked)

/-- The origins that a conversion hands out fit its tree, and they tell for each node the source
node whose rule was running when the node was emitted. -/
theorem origins_fit_tree (done : c.convert depth tree s memory = some report)
    (ok : report.outcome = .ok conversion) (asked : s.origins = true) :
    ∃ (m : c.Making tree s memory conversion) (o : Origins), conversion.origins = some o ∧
      o.Fits conversion.tree ∧
      List.Forall₂ (Emission.Became m.table) m.yield conversion.tree.nodes.toList ∧
      ∀ h, o.sourceOf h = (m.yield[h.index]?).bind Emission.origin? := by
  obtain ⟨m⟩ := exists_making done ok
  exact ⟨m, m.origins, m.origins_eq asked, m.fits, m.became, m.sourceOf⟩

theorem origins_fit_tree_parens : ∃ report conversion,
    Parens.converter.convert 2 Parens.tree Parens.settings () = some report ∧
      report.outcome = .ok conversion ∧ Parens.settings.origins = true ∧
      ∃ (m : Parens.converter.Making Parens.tree Parens.settings () conversion) (o : Origins),
        conversion.origins = some o ∧ o.Fits conversion.tree ∧
        List.Forall₂ (Emission.Became m.table) m.yield conversion.tree.nodes.toList ∧
        ∀ h, o.sourceOf h = (m.yield[h.index]?).bind Emission.origin? := by
  obtain ⟨report, conversion, done, ok⟩ := Parens.converts
  exact ⟨report, conversion, done, ok, rfl, origins_fit_tree done ok rfl⟩

end Converter

end TreeConversion
