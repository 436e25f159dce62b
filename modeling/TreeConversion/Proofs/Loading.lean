import TreeConversion.Proofs.Attachment
import TreeConversion.Proofs.Preorder
import TreeConversion.Source.Outline

/-!
# Loading a written tree

`Outline.flatten` lists an outline and all outlines in it in pre-order.  A tree is loaded without ever
being refused an attachment, since what is planted last is not above any older node, and its nodes are
those of the list, each under its place there (`Builder.plant_ok`).  So all that was written can be
found again in the tree (`Tree.Unfolds`).
-/

namespace TreeConversion.Source

/-! ### Outlines in pre-order -/

namespace Outline

mutual

/-- An outline and all outlines in it, each before its children. -/
def flatten : Outline → List Outline
  | ⟨kind, span, attrs, children⟩ => ⟨kind, span, attrs, children⟩ :: flattenAll children

def flattenAll : List Outline → List Outline
  | [] => []
  | o :: os => o.flatten ++ flattenAll os

end

theorem flatten_eq (o : Outline) : o.flatten = o :: flattenAll o.children := by
  cases o
  rw [flatten]

/-- The handles of outlines that stand one after the other in pre-order, from number `n` on. -/
def places (n : Nat) : List Outline → List Handle
  | [] => []
  | o :: os => ⟨n⟩ :: places (n + o.flatten.length) os

/-- The node of an outline that has number `n`; what is in it is numbered from there on. -/
def node (n : Nat) (o : Outline) : Node := ⟨o.kind, o.span, places (n + 1) o.children, o.attrs⟩

/-- The nodes of outlines that are numbered from `n` on. -/
def nodesFrom (n : Nat) (os : List Outline) : List Node := os.mapIdx fun i o => o.node (n + i)

variable {n : Nat} {o d : Outline} {os ds l : List Outline}

theorem nodesFrom_append :
    nodesFrom n (os ++ ds) = nodesFrom n os ++ nodesFrom (n + os.length) ds := by
  simp only [nodesFrom, List.mapIdx_append, Nat.add_assoc, Nat.add_comm os.length]

theorem nodesFrom_cons : nodesFrom n (o :: os) = o.node n :: nodesFrom (n + 1) os := by
  simp only [nodesFrom, List.mapIdx_cons, Nat.add_assoc, Nat.add_comm 1, Nat.add_zero]

theorem length_nodesFrom : (nodesFrom n os).length = os.length := List.length_mapIdx

theorem getElem?_nodesFrom {i : Nat} : (nodesFrom n os)[i]? = (os[i]?).map (node (n + i)) :=
  List.getElem?_mapIdx

/-! ### Blocks -/

theorem block_append {i : Nat} {ms : List Outline} (h : ds <+: os.drop i) :
    ds <+: (os ++ ms).drop i := by
  rw [List.drop_append]
  exact h.trans (List.prefix_append _ _)

mutual

/-- All that is in an outline follows it without a gap. -/
theorem block_of_getElem? : ∀ (o : Outline) {i : Nat} {d : Outline}, o.flatten[i]? = some d →
    d.flatten <+: o.flatten.drop i
  | ⟨kind, span, attrs, children⟩, 0, d, h => by
    rw [flatten, List.getElem?_cons_zero] at h
    obtain rfl := Option.some.inj h
    exact List.prefix_refl _
  | ⟨kind, span, attrs, children⟩, i + 1, d, h => by
    rw [flatten, List.getElem?_cons_succ] at h
    rw [flatten, List.drop_succ_cons]
    exact block_of_getElem?_all children h

theorem block_of_getElem?_all : ∀ (os : List Outline) {i : Nat} {d : Outline},
    (flattenAll os)[i]? = some d → d.flatten <+: (flattenAll os).drop i
  | [], i, d, h => by simp [flattenAll] at h
  | o :: os, i, d, h => by
    rw [flattenAll] at h ⊢
    by_cases hi : i < o.flatten.length
    · rw [List.getElem?_append_left hi] at h
      exact block_append (block_of_getElem? o h)
    · have hi := Nat.le_of_not_lt hi
      rw [List.getElem?_append_right hi] at h
      rw [List.drop_append, List.drop_eq_nil_of_le hi, List.nil_append]
      exact block_of_getElem?_all os h

end

theorem getElem?_of_block {i : Nat} (block : o.flatten <+: l.drop i) : l[i]? = some o := by
  obtain ⟨rest, same⟩ := block
  have first := congrArg (·[0]?) same
  rw [flatten_eq, List.cons_append, List.getElem?_cons_zero, List.getElem?_drop] at first
  exact first.symm

/-- What is in an outline makes up the rest of its block. -/
theorem block_children {i : Nat} (block : o.flatten <+: l.drop i) :
    flattenAll o.children <+: l.drop (i + 1) := by
  obtain ⟨rest, same⟩ := block
  refine ⟨rest, ?_⟩
  rw [← List.drop_drop, ← same, flatten_eq]
  rfl

theorem block_cons {i : Nat} (block : flattenAll (o :: os) <+: l.drop i) :
    o.flatten <+: l.drop i ∧ flattenAll os <+: l.drop (i + o.flatten.length) := by
  rw [flattenAll] at block
  refine ⟨(List.prefix_append _ _).trans block, ?_⟩
  obtain ⟨rest, same⟩ := block
  refine ⟨rest, ?_⟩
  rw [← List.drop_drop, ← same, List.append_assoc, List.drop_left]

theorem forall₂_places {i : Nat} (block : flattenAll os <+: l.drop i) :
    List.Forall₂ (fun h o => l[h.index]? = some o) (places i os) os := by
  induction os generalizing i with
  | nil => exact .nil
  | cons o os ih =>
    obtain ⟨first, rest⟩ := block_cons block
    exact .cons (getElem?_of_block first) (ih rest)

end Outline

/-! ### Planting -/

namespace Builder

mutual

/-- Adds the nodes of an outline as `plant` does, without a look at what they are attached to. -/
def addOutline (b : Builder) : Outline → Handle × Builder
  | ⟨kind, span, attrs, children⟩ =>
    let (h, b) := b.addNode kind span attrs
    (h, b.addOutlines h children)

def addOutlines (b : Builder) (parent : Handle) : List Outline → Builder
  | [] => b
  | o :: os =>
    let (child, b) := b.addOutline o
    (b.link parent child).addOutlines parent os

end

end Builder

/-- The tree that is written so. -/
def Tree.ofWritten (w : WrittenTree) : Tree :=
  let (root, b) := (Builder.ofText w.text).addOutline w.root
  { b with diagnostics := w.diagnostics, tokens := w.tokens, comments := w.comments }.finish root

/-- The nodes, with further children for the one at place `p`. -/
def Node.adopting (ns : List Node) (p : Nat) (hs : List Handle) : List Node :=
  ns.modify p fun node => { node with children := node.children ++ hs }

namespace Node

variable {ns ms : List Node} {p : Nat} {hs hs' : List Handle}

theorem adopting_nil : adopting ns p [] = ns := by
  simp only [adopting, List.append_nil]
  exact List.modify_id p ns

theorem adopting_adopting : adopting (adopting ns p hs) p hs' = adopting ns p (hs ++ hs') := by
  rw [adopting, adopting, List.modify_modify_eq, adopting]
  congr 1
  funext node
  simp

theorem adopting_append (hp : p < ns.length) :
    adopting (ns ++ ms) p hs = adopting ns p hs ++ ms := by
  induction ns generalizing p with
  | nil => simp at hp
  | cons node ns ih =>
    cases p with
    | zero => rfl
    | succ p => exact congrArg (node :: ·) (ih (Nat.lt_of_succ_lt_succ hp))

theorem adopting_last (node : Node) : adopting (ns ++ [node]) ns.length hs =
    ns ++ [{ node with children := node.children ++ hs }] := by
  induction ns with
  | nil => rfl
  | cons first ns ih => exact congrArg (first :: ·) ih

end Node

namespace Builder

open Outline

variable {b b' : Builder} {p : Handle}

/-- From one builder to another nodes were added and only `p` has got new children; all else is as it
was. -/
structure Grows (b b' : Builder) (nodes : List Node) : Prop where
  built : b'.Built
  nodes : b'.nodes.toList = nodes
  parents : ∀ c : Handle, c.index < b.nodes.size → b'.parent? c = b.parent? c
  rest : b' = { b with nodes := b'.nodes, parents := b'.parents }

/-- From a node that is older than `n` the way up does not come to `n`. -/
theorem Sound.not_above_new (sound : b.Sound) (hp : p.index < b.nodes.size)
    (parents : ∀ c : Handle, c.index < b.nodes.size → b'.parent? c = b.parent? c) :
    ¬ b'.Above p ⟨b.nodes.size⟩ := by
  have older : ∀ x, b'.Above p x → x.index < b.nodes.size := by
    intro x above
    induction above with
    | refl => exact hp
    | tail _ up ih =>
      rw [parents _ ih] at up
      exact (sound.known_of_parent? up).2
  intro above
  exact Nat.lt_irrefl _ (older _ above)

theorem parent?_new (sound : b.Sound) (kind : String) (span : Span) (attrs : Json.Members) :
    (b.addNode kind span attrs).2.parent? ⟨b.nodes.size⟩ = none ∧
      ∀ c : Handle, c.index < b.nodes.size →
        (b.addNode kind span attrs).2.parent? c = b.parent? c := by
  refine ⟨?_, fun c hc => ?_⟩
  · simp [parent?, addNode, ← sound.sizes]
  · have known : c.index < b.parents.size := by rw [sound.sizes]; exact hc
    simp [parent?, addNode, Array.getElem?_push, Nat.ne_of_lt known]

/-- A node that has just been planted can be attached to an older one. -/
theorem Sound.attach_new (sound : b.Sound) (hp : p.index < b.nodes.size) {nodes : List Node}
    (grows : b.Grows b' nodes) (more : b.nodes.size < b'.nodes.size)
    (free : b'.parent? ⟨b.nodes.size⟩ = none) :
    b'.attach p ⟨b.nodes.size⟩ = (.ok (), b'.link p ⟨b.nodes.size⟩) := by
  have apart := sound.not_above_new hp grows.parents
  have admits : b'.Admits p ⟨b.nodes.size⟩ := ⟨Nat.lt_trans hp more, more, free, apart⟩
  rcases grows.built.sound.attach_cases p ⟨b.nodes.size⟩ with ⟨-, attached⟩ | ⟨e, refuses, -⟩
  · exact attached
  · exact absurd admits refuses.not_admits

theorem toList_link (h : Handle) :
    (b.link p h).nodes.toList = Node.adopting b.nodes.toList p.index [h] := by
  simp only [link, Array.toList_modify, Node.adopting]

mutual

/-- An outline is planted: its nodes come after those that are there, and none of it is refused. -/
theorem plant_ok : ∀ (o : Outline) {b : Builder}, b.Built →
    ∃ b', b.plant o = .ok (⟨b.nodes.size⟩, b') ∧ b.addOutline o = (⟨b.nodes.size⟩, b') ∧
      b.Grows b' (b.nodes.toList ++ nodesFrom b.nodes.size o.flatten) ∧
      b'.parent? ⟨b.nodes.size⟩ = none
  | ⟨kind, span, attrs, children⟩, b, built => by
    let b₀ := (b.addNode kind span attrs).2
    have size : b₀.nodes.size = b.nodes.size + 1 := Array.size_push _
    have here : b.nodes.size < b₀.nodes.size := by omega
    obtain ⟨free, older⟩ := parent?_new built.sound kind span attrs
    obtain ⟨b', planted, added, grows⟩ :=
      plantAll_ok children (p := ⟨b.nodes.size⟩) (built.addNode kind span attrs) here
    refine ⟨b', ?_, ?_, ⟨grows.built, ?_, fun c hc => ?_, ?_⟩, ?_⟩
    · rw [plant]
      exact congrArg (Except.map fun b => (Handle.mk _, b)) planted
    · rw [addOutline]
      exact congrArg (Prod.mk _) added
    · have before : b₀.nodes.toList = b.nodes.toList ++ [⟨kind, span, [], attrs⟩] :=
        Array.toList_push
      have last : Node.adopting (b.nodes.toList ++ [⟨kind, span, [], attrs⟩]) b.nodes.toList.length
          (places b₀.nodes.size children) = _ := Node.adopting_last _
      rw [Array.length_toList] at last
      rw [grows.nodes, before, last, size, flatten, nodesFrom_cons, List.append_assoc]
      rfl
    · have younger : c.index < b₀.nodes.size := by omega
      rw [grows.parents c younger]
      exact older c hc
    · rw [grows.rest]
      rfl
    · have kept := grows.parents ⟨b.nodes.size⟩ here
      exact kept.trans free

theorem plantAll_ok : ∀ (os : List Outline) {b : Builder} {p : Handle}, b.Built →
    p.index < b.nodes.size → ∃ b', b.plantAll p os = .ok b' ∧ b.addOutlines p os = b' ∧
      b.Grows b' (Node.adopting b.nodes.toList p.index (places b.nodes.size os) ++
        nodesFrom b.nodes.size (flattenAll os))
  | [], b, p, built, hp => by
    refine ⟨b, rfl, rfl, built, ?_, fun _ _ => rfl, rfl⟩
    rw [places, Node.adopting_nil]
    exact (List.append_nil _).symm
  | o :: os, b, p, built, hp => by
    obtain ⟨b₁, planted, added, grows, free⟩ := plant_ok o built
    have size : b₁.nodes.size = b.nodes.size + o.flatten.length := by
      rw [← Array.length_toList, grows.nodes, List.length_append, length_nodesFrom,
        Array.length_toList]
    have some_new : 0 < o.flatten.length := by rw [flatten_eq]; exact Nat.succ_pos _
    have attached := built.sound.attach_new hp grows (by omega) free
    let b₂ := b₁.link p ⟨b.nodes.size⟩
    have size₂ : b₂.nodes.size = b.nodes.size + o.flatten.length := by
      rw [← size]
      exact Array.size_modify
    have older : p.index < b₂.nodes.size := by omega
    have built' : b₂.Built := by
      have built' := grows.built.attach p ⟨b.nodes.size⟩
      rwa [attached] at built'
    obtain ⟨b', planted', added', grows'⟩ := plantAll_ok os built' older
    refine ⟨b', ?_, ?_, grows'.built, ?_, fun c hc => ?_, ?_⟩
    · rw [plantAll, planted]
      show ((b₁.attach p _).1 >>= fun _ => (b₁.attach p _).2.plantAll p os) = _
      rw [attached]
      exact planted'
    · rw [addOutlines, added]
      exact added'
    · have hp' : p.index < b.nodes.toList.length := hp
      rw [grows'.nodes, toList_link, Node.adopting_adopting, grows.nodes,
        Node.adopting_append hp', flattenAll, nodesFrom_append, List.append_assoc]
      rw [show (b₁.link p ⟨b.nodes.size⟩).nodes.size = _ from size₂]
      rfl
    · have other : c ≠ ⟨b.nodes.size⟩ := fun same => by rw [same] at hc; exact Nat.lt_irrefl _ hc
      have known : b.nodes.size < b₁.parents.size := by
        rw [grows.built.sound.sizes]; omega
      have kept : b₂.parent? c = b₁.parent? c := (parent?_link known c).trans (if_neg other)
      have younger : c.index < b₂.nodes.size := by omega
      rw [grows'.parents c younger]
      exact kept.trans (grows.parents c hc)
    · rw [grows'.rest]
      simp only [b₂, link]
      rw [grows.rest]

end

end Builder

/-! ### Loaded trees -/

namespace Tree

open Outline

/-- The outline of a node with what is below it, down to some depth. -/
def outline (t : Tree) : Nat → Handle → Outline
  | 0, _ => ⟨"", ⟨0, 0⟩, [], []⟩
  | depth + 1, h =>
    match t.node? h with
    | some node => ⟨node.kind, node.span, node.attrs, node.children.map (t.outline depth)⟩
    | none => ⟨"", ⟨0, 0⟩, [], []⟩

/-- A tree as it is written, if its nodes form a forest. -/
def toWritten (t : Tree) : WrittenTree :=
  ⟨t.text, t.outline t.size t.root, t.diagnostics, t.tokens, t.comments⟩

/-- The tree holds what is written, its nodes numbered in pre-order. -/
structure Unfolds (t : Tree) (w : WrittenTree) : Prop where
  root : t.root = ⟨0⟩
  size : t.size = w.root.flatten.length
  descendants : t.descendants = (List.range t.size).map Handle.mk
  node : ∀ i d, w.root.flatten[i]? = some d → ∃ node, t.node? ⟨i⟩ = some node ∧
    node.kind = d.kind ∧ node.span = d.span ∧ node.attrs = d.attrs ∧
    node.children = places (i + 1) d.children
  /-- The children of a node are found under their own places, in the order in which they are
  written. -/
  child : ∀ i d, w.root.flatten[i]? = some d →
    List.Forall₂ (fun h child => w.root.flatten[h.index]? = some child) (t.childrenOf ⟨i⟩) d.children
  text : t.text = w.text
  diagnostics : t.diagnostics = w.diagnostics
  tokens : t.tokens = w.tokens
  comments : t.comments = w.comments
  toWritten : t.toWritten = w

variable {t : Tree} {l : List Outline}

theorem node?_of_nodes (nodes : t.nodes.toList = nodesFrom 0 l) (i : Nat) :
    t.node? ⟨i⟩ = (l[i]?).map (Outline.node i) := by
  rw [node?, ← Array.getElem?_toList, nodes, getElem?_nodesFrom, Nat.zero_add]

theorem childrenOf_of_nodes (nodes : t.nodes.toList = nodesFrom 0 l) {i : Nat} {d : Outline}
    (here : l[i]? = some d) : t.childrenOf ⟨i⟩ = places (i + 1) d.children := by
  rw [childrenOf, node?_of_nodes nodes, here]
  rfl

mutual

theorem outline_eq (nodes : t.nodes.toList = nodesFrom 0 l) :
    ∀ (d : Outline) {i depth : Nat}, d.flatten <+: l.drop i → d.flatten.length ≤ depth →
      t.outline depth ⟨i⟩ = d
  | ⟨kind, span, attrs, children⟩, i, depth, block, enough => by
    rw [flatten, List.length_cons] at enough
    obtain ⟨depth, rfl⟩ : ∃ n, depth = n + 1 := ⟨depth - 1, by omega⟩
    have below := outlines_eq nodes children (block_children block) (by omega : _ ≤ depth)
    rw [outline, node?_of_nodes nodes, getElem?_of_block block]
    exact congrArg (Outline.mk kind span attrs) below

theorem outlines_eq (nodes : t.nodes.toList = nodesFrom 0 l) :
    ∀ (ds : List Outline) {i depth : Nat}, flattenAll ds <+: l.drop i →
      (flattenAll ds).length ≤ depth → (places i ds).map (t.outline depth) = ds
  | [], _, _, _, _ => rfl
  | d :: ds, i, depth, block, enough => by
    rw [flattenAll, List.length_append] at enough
    obtain ⟨first, rest⟩ := block_cons block
    rw [places, List.map_cons, outline_eq nodes d first (by omega),
      outlines_eq nodes ds rest (by omega)]

end

mutual

theorem preorder_of_nodes (forest : t.Forest) (nodes : t.nodes.toList = nodesFrom 0 l) :
    ∀ (d : Outline) {i : Nat}, d.flatten <+: l.drop i →
      t.preorder (fun _ => true) ⟨i⟩ = (List.range' i d.flatten.length).map Handle.mk
  | ⟨kind, span, attrs, children⟩, i, block => by
    rw [forest.preorder_eq, List.filter_true, childrenOf_of_nodes nodes (getElem?_of_block block),
      flatMap_preorder forest nodes children (block_children block), flatten, List.length_cons,
      List.range'_succ, List.map_cons]

theorem flatMap_preorder (forest : t.Forest) (nodes : t.nodes.toList = nodesFrom 0 l) :
    ∀ (ds : List Outline) {i : Nat}, flattenAll ds <+: l.drop i →
      (places i ds).flatMap (t.preorder fun _ => true) =
        (List.range' i (flattenAll ds).length).map Handle.mk
  | [], _, _ => rfl
  | d :: ds, i, block => by
    obtain ⟨first, rest⟩ := block_cons block
    rw [places, List.flatMap_cons, preorder_of_nodes forest nodes d first,
      flatMap_preorder forest nodes ds rest, ← List.map_append, List.range'_append_1, flattenAll,
      List.length_append]

end

theorem Forest.of_nodes {t' : Tree} (forest : t.Forest) (same : t'.nodes = t.nodes) :
    t'.Forest := by
  cases t
  cases t'
  obtain rfl : _ = _ := same
  exact ⟨forest.present, forest.once, forest.single, forest.ranked⟩

/-- A tree whose nodes are those of the outline that is written, one after the other, holds all of
it. -/
theorem unfolds_of_nodes {w : WrittenTree} {t : Tree} (forest : t.Forest)
    (nodes : t.nodes.toList = nodesFrom 0 w.root.flatten) (root : t.root = ⟨0⟩)
    (text : t.text = w.text) (diagnostics : t.diagnostics = w.diagnostics)
    (tokens : t.tokens = w.tokens) (comments : t.comments = w.comments) : t.Unfolds w := by
  have size : t.size = w.root.flatten.length := by
    rw [Tree.size, ← Array.length_toList, nodes, length_nodesFrom]
  have whole : w.root.flatten <+: w.root.flatten.drop 0 := List.prefix_refl _
  have node {i : Nat} {d : Outline} (here : w.root.flatten[i]? = some d) :
      t.node? ⟨i⟩ = some (d.node i) := by
    rw [node?_of_nodes nodes, here]
    rfl
  refine ⟨root, size, ?_, fun i d here => ?_, fun i d here => ?_, text, diagnostics, tokens,
    comments, ?_⟩
  · have some_node : t.root.index < t.size := by
      rw [root, size, flatten_eq]
      exact Nat.succ_pos _
    rw [forest.descendants_eq some_node, root, preorder_of_nodes forest nodes w.root whole, size,
      List.range_eq_range']
  · exact ⟨_, node here, rfl, rfl, rfl, rfl⟩
  · rw [childrenOf_of_nodes nodes here]
    exact forall₂_places (block_children (block_of_getElem? w.root here))
  · have again := outline_eq nodes w.root whole (Nat.le_of_eq size.symm)
    rw [toWritten, root, again, text, diagnostics, tokens, comments]

end Tree

open Builder in
theorem foldl_add (b : Builder) (ds : List Diagnostic) (ts : List Token) (cs : List Comment) :
    cs.foldl addComment (ts.foldl addToken (ds.foldl addDiagnostic b)) =
      { b with
        diagnostics := b.diagnostics ++ ds
        tokens := b.tokens ++ ts
        comments := b.comments ++ cs } := by
  have withDiagnostics (b : Builder) :
      ds.foldl addDiagnostic b = { b with diagnostics := b.diagnostics ++ ds } := by
    induction ds generalizing b with
    | nil => simp
    | cons d ds ih => simp [ih, addDiagnostic]
  have withTokens (b : Builder) :
      ts.foldl addToken b = { b with tokens := b.tokens ++ ts } := by
    induction ts generalizing b with
    | nil => simp
    | cons t ts ih => simp [ih, addToken]
  have withComments (b : Builder) :
      cs.foldl addComment b = { b with comments := b.comments ++ cs } := by
    induction cs generalizing b with
    | nil => simp
    | cons c cs ih => simp [ih, addComment]
  rw [withDiagnostics, withTokens, withComments]

/-- Every written tree can be loaded, and all that is written is found again in the tree. -/
theorem load_unfolds (w : WrittenTree) :
    ∃ t, Tree.load w = .ok t ∧ t = .ofWritten w ∧ t.Unfolds w ∧
      ∀ text, Json.Decoder.readText WrittenTree.decode text = .ok w → Tree.ofJson text = .ok t := by
  obtain ⟨b, planted, added, grows, -⟩ := Builder.plant_ok w.root (.ofText w.text)
  have loaded : Tree.load w = .ok (.ofWritten w) := by
    rw [Tree.load, planted]
    show Except.ok (Builder.finish (w.comments.foldl _ _) _) = _
    rw [foldl_add, Tree.ofWritten, added, grows.rest]
    rfl
  have written : Tree.ofWritten w =
      ⟨w.text, b.nodes, ⟨0⟩, w.diagnostics, w.tokens, w.comments⟩ := by
    rw [Tree.ofWritten, added, grows.rest]
    rfl
  refine ⟨_, loaded, rfl, ?_, fun text read => ?_⟩
  · rw [written]
    have nodes : b.nodes.toList = Outline.nodesFrom 0 w.root.flatten := grows.nodes
    refine Tree.unfolds_of_nodes ?_ nodes rfl rfl rfl rfl rfl
    exact (grows.built.forest ⟨0⟩).of_nodes rfl
  · rw [Tree.ofJson, read]
    simp only [loaded]
    rfl

end TreeConversion.Source
