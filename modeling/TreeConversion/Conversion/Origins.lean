import TreeConversion.Target.Compact
import Std.Data.HashMap

/-!
# Which node came from which

A target node comes from at most one source node, and a source node can give several target nodes.
Targets are recorded in ascending order, and the latest ones can be forgotten again.
-/

namespace TreeConversion

/-- The targets of each source node and the source of each target node. -/
structure Origins where
  /-- The targets of each source node that has any, in the order in which they were recorded. -/
  targets : Std.HashMap Source.Handle (Array Target.Handle)
  /-- The source of each target node; none for one that was not recorded. -/
  sources : Array (Option Source.Handle)
  /-- The number of targets recorded. -/
  count : Nat

namespace Origins

def empty : Origins := ⟨∅, #[], 0⟩

instance : Inhabited Origins := ⟨empty⟩

/-- The sources with room for `n` targets. -/
def padded (sources : Array (Option Source.Handle)) (n : Nat) : Array (Option Source.Handle) :=
  sources ++ Array.replicate (n - sources.size) none

/-- Records that `target` comes from `source`. -/
def record (o : Origins) (source : Source.Handle) (target : Target.Handle) : Origins :=
  let sources := padded o.sources (target.index + 1)
  let fresh := (sources[target.index]?).join.isNone
  { targets := o.targets.insert source ((o.targets.getD source #[]).push target)
    sources := sources.setIfInBounds target.index (some source)
    count := if fresh then o.count + 1 else o.count }

/-- Forgets the target that was recorded last of this source. -/
def dropTarget (targets : Std.HashMap Source.Handle (Array Target.Handle))
    (source : Source.Handle) : Std.HashMap Source.Handle (Array Target.Handle) :=
  match targets[source]? with
  | some ts => if ts.size ≤ 1 then targets.erase source else targets.insert source ts.pop
  | none => targets

/-- Forgets the last target there is room for. -/
def dropLast (o : Origins) : Origins :=
  match o.sources.back? with
  | some (some source) =>
    { targets := dropTarget o.targets source, sources := o.sources.pop, count := o.count - 1 }
  | _ => { o with sources := o.sources.pop }

theorem size_dropLast (o : Origins) : o.dropLast.sources.size = o.sources.size - 1 := by
  unfold dropLast
  split <;> simp

/-- Forgets the targets from `first` on. -/
def forget (o : Origins) (first : Target.Handle) : Origins :=
  if first.index < o.sources.size then forget o.dropLast first else o
termination_by o.sources.size
decreasing_by rw [size_dropLast]; omega

/-! ### Questions -/

def sourceOf (o : Origins) (target : Target.Handle) : Option Source.Handle :=
  (o.sources[target.index]?).join

/-- The targets of a source node in the order in which they were recorded. -/
def targetsOf (o : Origins) (source : Source.Handle) : List Target.Handle :=
  (o.targets.getD source #[]).toList

def firstTargetOf (o : Origins) (source : Source.Handle) : Option Target.Handle :=
  (o.targetsOf source).head?

def hasSource (o : Origins) (source : Source.Handle) : Bool := o.targets.contains source

def hasTarget (o : Origins) (target : Target.Handle) : Bool := (o.sourceOf target).isSome

def size (o : Origins) : Nat := o.count

def isEmpty (o : Origins) : Bool := o.count == 0

/-- The number of source nodes that have targets. -/
def sourceCount (o : Origins) : Nat := o.targets.size

/-- The entries that are there among these, with targets that are numbered from `next` on. -/
def pairsFrom {β : Type} (next : Nat) : List (Option β) → List (Target.Handle × β)
  | [] => []
  | some entry :: rest => (⟨next⟩, entry) :: pairsFrom (next + 1) rest
  | none :: rest => pairsFrom (next + 1) rest

/-- All recorded pairs in the order of the targets. -/
def toList (o : Origins) : List (Target.Handle × Source.Handle) := pairsFrom 0 o.sources.toList

/-- The same pairs with new handles for the targets, without those that have none. -/
def renumber (o : Origins) (table : Target.Renumbering) : Origins :=
  o.toList.foldl (fun new (target, source) => match (table[target.index]?).join with
    | some t => new.record source t
    | none => new) empty

end Origins

end TreeConversion
