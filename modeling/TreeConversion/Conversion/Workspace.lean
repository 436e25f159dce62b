import TreeConversion.Conversion.Action
import TreeConversion.Conversion.Event
import TreeConversion.Conversion.Origins
import TreeConversion.Position.LineTable

/-!
# The state of a conversion

What a conversion has made so far.  A `Checkpoint` marks how far it has come; `rollback` takes back
the nodes, origins and failures that came after it, but nothing that has been told or remembered.
-/

namespace TreeConversion

/-- What a conversion has made and told so far, and the memory that its rules share. -/
structure Workspace (σ : Type) where
  nodes : Array Target.Node
  origins : Origins
  /-- Failed rules, each with the placeholder that stands in for it. -/
  failures : Array (Target.Handle × RuleFailure)
  /-- The kinds that a warning has been given of. -/
  warned : List String
  /-- The source node whose rule is running. -/
  current : Source.Handle
  log : Array Event
  memory : σ

namespace Workspace

variable {σ : Type}

/-- The state before the first rule. -/
def start (root : Source.Handle) (log : Array Event) (memory : σ) : Workspace σ :=
  ⟨#[], .empty, #[], [], root, log, memory⟩

def tell (w : Workspace σ) (e : Event) : Workspace σ := { w with log := w.log.push e }

def node? (w : Workspace σ) (h : Target.Handle) : Option Target.Node := w.nodes[h.index]?

/-! ### Emitting -/

/-- The span of a node to be emitted for a source node with the span `here`. -/
def spanOf (w : Workspace σ) (here : Span) (draft : Draft) : Span :=
  match draft.span with
  | .source => here
  | .given span => span
  | .children =>
    (Span.cover (draft.children.filterMap fun child => (w.node? child).bind fun n => n.span)).getD
      here

/-- Adds a node for a source node whose span is `here`, and records where it came from unless it is
synthetic. -/
def emitFor (w : Workspace σ) (lines : LineTable) (source : Source.Handle) (here : Span)
    (draft : Draft) : Target.Handle × Workspace σ :=
  let span := w.spanOf here draft
  let h : Target.Handle := ⟨w.nodes.size⟩
  let node : Target.Node := {
    kind := draft.kind
    span := some span
    location := some (lines.location span)
    fields := draft.fields
    synthetic := draft.synthetic }
  (h, { w with
    nodes := w.nodes.push node
    origins := if draft.synthetic then w.origins else w.origins.record source h })

/-! ### Taking back -/

/-- How many nodes and failures there were. -/
structure Checkpoint where
  nodes : Nat
  failures : Nat

def checkpoint (w : Workspace σ) : Checkpoint := ⟨w.nodes.size, w.failures.size⟩

/-- Takes back the nodes, origins and failures since the checkpoint. -/
def rollback (w : Workspace σ) (c : Checkpoint) : Workspace σ :=
  { w with
    nodes := w.nodes.take c.nodes
    origins := w.origins.forget ⟨c.nodes⟩
    failures := w.failures.take c.failures }

end Workspace

end TreeConversion
