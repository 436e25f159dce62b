import TreeConversion.Conversion.Settings
import TreeConversion.Proofs.Finish

/-!
# Passes over a finished tree

Once a tree is made, positions may be taken off it and tokens and comments put on it, in any order and
any number of times.  Such passes act on a tree by four data: whether they keep spans, whether they
keep locations, and the lists of tokens and of comments that they attach.  A sequence of them acts by
the conjunction of the switches and by the last lists (`passes_eq`), from which it follows which
passes commute.  A list that is attached is the one stable arrangement of its records (`InPlace`).
-/

namespace TreeConversion.Target

/-! ### Records in their places -/

section

variable {α : Type} {start : α → Nat} {records list other : List α}

/-- The records are in the order of their starts, those that start together in their own order. -/
structure InPlace (start : α → Nat) (records list : List α) : Prop where
  perm : list.Perm records
  ascending : list.Pairwise fun a b => start a ≤ start b
  ties : ∀ n, list.filter (start · = n) = records.filter (start · = n)

theorem inPlace_mergeSort (start : α → Nat) (records : List α) :
    InPlace start records (records.mergeSort fun a b => start a ≤ start b) := by
  have trans (a b c : α) (hab : decide (start a ≤ start b)) (hbc : decide (start b ≤ start c)) :
      decide (start a ≤ start c) := by
    simp only [decide_eq_true_eq] at *
    exact hab.trans hbc
  have total (a b : α) : decide (start a ≤ start b) || decide (start b ≤ start a) := by
    simpa using Nat.le_total (start a) (start b)
  have perm := List.mergeSort_perm records fun a b => start a ≤ start b
  refine ⟨perm, ?_, fun n => ?_⟩
  · simpa using List.pairwise_mergeSort trans total records
  · -- Records that start together are in order as they stand, and a stable sort keeps them so.
    have level : (records.filter (start · = n)).Pairwise fun a b => decide (start a ≤ start b) := by
      refine List.pairwise_of_forall_mem_list fun a ha b hb => ?_
      have ha := (List.mem_filter.1 ha).2
      have hb := (List.mem_filter.1 hb).2
      simp only [decide_eq_true_eq] at ha hb ⊢
      exact (ha.trans hb.symm).le
    have kept := (List.sublist_mergeSort trans total level List.filter_sublist).filter (start · = n)
    rw [List.filter_filter] at kept
    simp only [Bool.and_self] at kept
    exact (kept.eq_of_length (perm.filter _).length_eq.symm).symm

theorem InPlace.eq_of_ascending (placed : InPlace start records list)
    (ascending : records.Pairwise fun a b => start a ≤ start b) : list = records := by
  induction list generalizing records with
  | nil => exact placed.perm.nil_eq
  | cons a list ih =>
    obtain ⟨perm, ascends, ties⟩ := placed
    cases records with
    | nil => exact perm.eq_nil
    | cons b records =>
      have level : start a = start b := by
        have ab : start a ≤ start b := by
          rcases List.mem_cons.1 (perm.mem_iff.2 (List.mem_cons_self ..)) with same | hb
          · rw [same]
          · exact (List.pairwise_cons.1 ascends).1 b hb
        have ba : start b ≤ start a := by
          rcases List.mem_cons.1 (perm.mem_iff.1 (List.mem_cons_self ..)) with same | ha
          · rw [same]
          · exact (List.pairwise_cons.1 ascending).1 a ha
        exact Nat.le_antisymm ab ba
      obtain rfl : a = b := by
        have heads := ties (start a)
        simp only [List.filter_cons, level, decide_true, if_true] at heads
        exact (List.cons.inj heads).1
      have rest : InPlace start records list := by
        refine ⟨(List.perm_cons a).1 perm, ascends.of_cons, fun n => ?_⟩
        have all := ties n
        simp only [List.filter_cons] at all
        split at all
        · exact (List.cons.inj all).2
        · exact all
      rw [ih rest ascending.of_cons]

/-- There is one way to put records in their places. -/
theorem InPlace.unique (placed : InPlace start records list)
    (placed' : InPlace start records other) : list = other := by
  have placed : InPlace start other list :=
    ⟨placed.perm.trans placed'.perm.symm, placed.ascending,
      fun n => (placed.ties n).trans (placed'.ties n).symm⟩
  exact placed.eq_of_ascending placed'.ascending

theorem inPlace_iff : InPlace start records list ↔
    list = records.mergeSort fun a b => start a ≤ start b :=
  ⟨fun placed => placed.unique (inPlace_mergeSort start records),
    fun same => same ▸ inPlace_mergeSort start records⟩

end

/-! ### Passes -/

/-- What may be done to a tree once it is made. -/
inductive Pass where
  | strip (s : Settings)
  | tokens (lines : LineTable) (source : TokenSource)
  | comments (lines : LineTable) (source : CommentSource)

namespace Pass

def keepsSpans : Pass → Bool
  | strip s => s.ranges
  | _ => true

def keepsLocations : Pass → Bool
  | strip s => s.locations
  | _ => true

def tokens? : Pass → Option (List PlacedToken)
  | tokens lines source => some (placeTokens lines source)
  | _ => none

def comments? : Pass → Option (List PlacedComment)
  | comments lines source => some (placeComments lines source)
  | _ => none

/-- The passes are of different sorts, or both take positions off. -/
def Apart : Pass → Pass → Prop
  | tokens .., tokens .. => False
  | comments .., comments .. => False
  | _, _ => True

end Pass

namespace Tree

variable {t : Tree} {p q : Pass}

def pass (t : Tree) : Pass → Tree
  | .strip s => t.strip s.ranges s.locations
  | .tokens lines source => (t.attachTokens lines source).1
  | .comments lines source => (t.attachComments lines source).1

def passes (t : Tree) (ps : List Pass) : Tree := ps.foldl pass t

/-- The tree with the positions that are kept on the nodes that can be reached, and with these lists
where there are some. -/
def settled (t : Tree) (spans locations : Bool) (tokens : Option (List PlacedToken))
    (comments : Option (List PlacedComment)) : Tree where
  nodes := t.nodes.mapIdx fun i node =>
    if ⟨i⟩ ∈ t.reachable then
      { node with
        span := if spans then node.span else none
        location := if locations then node.location else none }
    else node
  root := t.root
  tokens := tokens.or t.tokens
  comments := comments.or t.comments

theorem node?_settled (t : Tree) (spans locations : Bool) (tokens : Option (List PlacedToken))
    (comments : Option (List PlacedComment)) (h : Handle) :
    (t.settled spans locations tokens comments).node? h =
      if h ∈ t.reachable then (t.node? h).map (Node.strip spans locations) else t.node? h := by
  rw [node?, settled, Array.getElem?_mapIdx]
  split
  · rfl
  · exact Option.map_id' ..

theorem alike_settled (t : Tree) (spans locations : Bool) (tokens : Option (List PlacedToken))
    (comments : Option (List PlacedComment)) :
    t.Alike (t.settled spans locations tokens comments) := by
  refine ⟨rfl, Array.ext (by simp [settled]) fun i _ _ => ?_⟩
  simp only [settled, Array.getElem_map, Array.getElem_mapIdx]
  split <;> rfl

theorem Alike.mem_reachable {t' : Tree} (alike : t.Alike t') (h : Handle) :
    h ∈ t'.reachable ↔ h ∈ t.reachable := by
  rw [Tree.mem_reachable, Tree.mem_reachable, alike.size, alike.below, alike.root]

theorem eq_of_node? {t' : Tree} (root : t'.root = t.root) (nodes : ∀ h, t'.node? h = t.node? h)
    (tokens : t'.tokens = t.tokens) (comments : t'.comments = t.comments) : t' = t := by
  have same : t'.nodes = t.nodes := Array.ext_getElem? fun i => nodes ⟨i⟩
  cases t
  cases t'
  simp_all

theorem settled_true (t : Tree) (tokens : Option (List PlacedToken))
    (comments : Option (List PlacedComment)) :
    t.settled true true tokens comments =
      { t with tokens := tokens.or t.tokens, comments := comments.or t.comments } := by
  refine eq_of_node? rfl (fun h => ?_) rfl rfl
  have kept : Node.strip true true = id := rfl
  rw [node?_settled, kept, Option.map_id, id, ite_self]
  rfl

/-- To be settled twice is to be settled once, and the later lists count. -/
theorem settled_settled (t : Tree) (spans locations spans' locations' : Bool)
    (tokens tokens' : Option (List PlacedToken)) (comments comments' : Option (List PlacedComment)) :
    (t.settled spans locations tokens comments).settled spans' locations' tokens' comments' =
      t.settled (spans' && spans) (locations' && locations) (tokens'.or tokens)
        (comments'.or comments) := by
  have reachable := (alike_settled t spans locations tokens comments).mem_reachable
  refine eq_of_node? rfl (fun h => ?_) Option.or_assoc.symm Option.or_assoc.symm
  rw [node?_settled, node?_settled, node?_settled]
  by_cases hh : h ∈ t.reachable
  · rw [if_pos ((reachable h).2 hh), if_pos hh, if_pos hh, Option.map_map]
    congr 1
    funext node
    cases spans' <;> cases locations' <;> rfl
  · rw [if_neg (mt (reachable h).1 hh), if_neg hh, if_neg hh]

/-- To leave a tree as it is where all positions are kept is to walk it in vain. -/
theorem strip_eq_relabel (t : Tree) (ranges locations : Bool) :
    t.strip ranges locations =
      (t.relabel (fun (_ : Unit) _ node => ((), node.toLabel.strip ranges locations)) ()).2 := by
  have each (h : Handle) := (node?_strip t ranges locations h).trans
    (node?_relabel t (fun node => node.toLabel.strip ranges locations) h).symm
  obtain ⟨nodes, walked⟩ := exists_nodes_relabel t
    (fun (_ : Unit) _ node => ((), node.toLabel.strip ranges locations)) ()
  rw [walked] at each ⊢
  refine eq_of_node? ?_ each ?_ ?_ <;> rw [strip_eq_mapIdx]

theorem pass_eq (t : Tree) (p : Pass) :
    t.pass p = t.settled p.keepsSpans p.keepsLocations p.tokens? p.comments? := by
  cases p with
  | strip s => exact strip_eq_mapIdx t s.ranges s.locations
  | tokens lines source => exact (t.settled_true (some (placeTokens lines source)) none).symm
  | comments lines source => exact (t.settled_true none (some (placeComments lines source))).symm

theorem passes_eq (t : Tree) (ps : List Pass) :
    t.passes ps = t.settled (ps.all Pass.keepsSpans) (ps.all Pass.keepsLocations)
      (ps.reverse.findSome? Pass.tokens?) (ps.reverse.findSome? Pass.comments?) := by
  induction ps generalizing t with
  | nil => exact (t.settled_true none none).symm
  | cons p ps ih =>
    -- the later passes act on what the first one leaves, in which the same nodes can be reached
    rw [passes, List.foldl_cons, ← passes, ih, pass_eq, settled_settled]
    simp only [List.all_cons, List.reverse_cons, List.findSome?_append, List.findSome?_singleton,
      Bool.and_comm]

theorem pass_comm (t : Tree) (apart : p.Apart q) : (t.pass p).pass q = (t.pass q).pass p := by
  have tokens : q.tokens?.or p.tokens? = p.tokens?.or q.tokens? := by
    cases p <;> cases q <;> first | rfl | exact apart.elim
  have comments : q.comments?.or p.comments? = p.comments?.or q.comments? := by
    cases p <;> cases q <;> first | rfl | exact apart.elim
  simp only [pass_eq, settled_settled, tokens, comments]
  rw [Bool.and_comm, Bool.and_comm q.keepsLocations]

theorem pass_strip_strip (t : Tree) (s : Settings) :
    (t.pass (.strip s)).pass (.strip s) = t.pass (.strip s) := by
  rw [pass_eq, pass_eq, settled_settled, Bool.and_self, Bool.and_self, Option.or_self, Option.or_self]

/-! ### What is left -/

/-- How passes act on a tree. -/
structure Settles (t : Tree) : Prop where
  passes : ∀ ps, t.passes ps =
    t.settled (ps.all Pass.keepsSpans) (ps.all Pass.keepsLocations)
      (ps.reverse.findSome? Pass.tokens?) (ps.reverse.findSome? Pass.comments?)
  reachable : ∀ h, h ∈ t.reachable ↔ (t.node? h).isSome ∧ t.Below t.root h
  comm : ∀ p q : Pass, p.Apart q → (t.pass p).pass q = (t.pass q).pass p
  idempotent : ∀ s, (t.pass (.strip s)).pass (.strip s) = t.pass (.strip s)
  /-- Every pass that takes positions off does as a walk through the whole tree does. -/
  walk : ∀ s, t.pass (.strip s) =
    (t.relabel (fun (_ : Unit) _ node => ((), node.toLabel.strip s.ranges s.locations)) ()).2
  tokens : ∀ (lines : LineTable) (source : TokenSource) (list : List PlacedToken),
    (t.pass (.tokens lines source)).tokens = some list ↔
      InPlace (·.span.start) ((source lines.text).map fun token =>
        { kind := token.kind
          value := token.value
          span := ⟨token.start, token.stop⟩
          location := lines.location ⟨token.start, token.stop⟩ }) list
  comments : ∀ (lines : LineTable) (source : CommentSource) (list : List PlacedComment),
    (t.pass (.comments lines source)).comments = some list ↔
      InPlace (·.span.start) ((source lines.text).map fun comment =>
        { style := comment.style
          value := comment.text
          span := ⟨comment.start, comment.stop⟩
          location := lines.location ⟨comment.start, comment.stop⟩ }) list

/-- Passes act so on every tree, whatever its graph. -/
theorem settles (t : Tree) : t.Settles where
  passes := t.passes_eq
  reachable h := by rw [mem_reachable, node?_isSome]
  comm p q apart := t.pass_comm apart
  idempotent := t.pass_strip_strip
  walk s := t.strip_eq_relabel s.ranges s.locations
  tokens lines source list := by
    rw [inPlace_iff]
    exact Option.some_inj.trans eq_comm
  comments lines source list := by
    rw [inPlace_iff]
    exact Option.some_inj.trans eq_comm

end Tree

end TreeConversion.Target
