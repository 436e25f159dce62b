import TreeConversion.Script.Basic
import TreeConversion.Source.Tree

/-!
# Running scripts

A script is read as a rule: its steps become requests to the engine, in order.
-/

namespace TreeConversion.Script

/-- A program that can stop the rule. -/
abbrev Run := ExceptT Stop (Action Memory)

/-- What the steps of one run of a rule share. -/
structure Scope where
  it : Source.Handle
  /-- The variables that have been set. -/
  values : List (String × List Target.Handle)

namespace Scope

/-- The nodes of a variable, none if it has not been set. -/
def nodesOf (s : Scope) (name : String) : List Target.Handle := (s.values.lookup name).getD []

def allNodesOf (s : Scope) (names : List String) : List Target.Handle := names.flatMap s.nodesOf

def setVariable (s : Scope) (name : String) (handles : List Target.Handle) : Scope :=
  { s with values := (name, handles) :: s.values.filter (·.1 != name) }

def bind (s : Scope) (handles : List Target.Handle) : Binding → Scope
  | .set name => s.setVariable name handles
  | .append name => s.setVariable name (s.nodesOf name ++ handles)
  | .nowhere => s

end Scope

/-- How a step ends: the script goes on, or gives back its nodes. -/
inductive Flow where
  | on (scope : Scope)
  | out (handles : List Target.Handle)

/-! ### Requests -/

def loadMemory : Run Memory := ExceptT.lift (.load .done)

def storeMemory (m : Memory) : Run Unit := ExceptT.lift (.store m (.done ()))

def note (n : Note) : Run Unit := do storeMemory ((← loadMemory).note n)

def positionOf (node : Source.Handle) : Run Position := ExceptT.lift (.position node .done)

/-- An error of the engine stops the rule. -/
def orAbort {α : Type} (request : Action Memory (Except Failure α)) : Run α :=
  ExceptT.mk (request.bind fun
    | .ok a => .done (.ok a)
    | .error failure => .done (.error (.aborted failure)))

/-- What a probe sees of a target node. -/
def sight (h : Target.Handle) : Run Sighting :=
  ExceptT.lift (.look h fun
    | some node => .done ⟨h, node.span, some node.kind, node.location⟩
    | none => .done ⟨h, none, none, none⟩)

/-! ### What steps refer to -/

/-- The node that is reached over children of the given numbers. -/
def follow (tree : Source.Tree) : Source.Handle → List Nat → Except Stop Source.Handle
  | h, [] => .ok h
  | h, i :: rest =>
    match (tree.childrenOf h)[i]? with
    | some child => follow tree child rest
    | none => .error (.failed ("missing child " ++ toString i))

def NodeRef.resolve (tree : Source.Tree) (node : Source.Handle) (scope : Scope) :
    NodeRef → Run Source.Handle
  | .self => pure node
  | .it => pure scope.it
  | .path indices => ExceptT.mk (.done (follow tree node indices))

def Condition.holds (tree : Source.Tree) (node : Source.Handle) (scope : Scope) :
    Condition → Run Bool
  | .hasAttr name => pure (tree.attr? node name).isSome
  | .nonempty name => pure !(scope.nodesOf name).isEmpty
  | .globalSet name => return ((← loadMemory).global? name).isSome
  | .minChildren count => pure (count ≤ (tree.childrenOf node).length)
  | .switchedOn switch => ExceptT.lift (.settings fun s => .done (s.get switch))
  | .never => pure false

/-- What a field is to hold, or why the rule fails. -/
def Content.field (tree : Source.Tree) (node : Source.Handle) (scope : Scope) :
    Content → Except Stop Target.Field
  | .node name =>
    match (scope.nodesOf name).head? with
    | some h => .ok (.node h)
    | none => .error (.failed ("no node in " ++ name))
  | .optionalNode name =>
    match (scope.nodesOf name).head? with
    | some h => .ok (.node h)
    | none => .ok (.value .null)
  | .nodes names => .ok (.nodes (scope.allNodesOf names))
  | .value v => .ok (.value v)
  | .attr name otherwise => .ok (.value ((tree.attr? node name).getD otherwise))
  | .attrString name otherwise =>
    .ok (.value (((tree.attrString? node name).map .string).getD otherwise))
  | .neededAttr name message =>
    match tree.attr? node name with
    | some v => .ok (.value v)
    | none => .error (.failed message)
  | .text => .ok (.value (.ofOption ((tree.textOf? node).map .string)))
  | .sourceKind => .ok (.value (.string (ParseTree.kind tree node)))

def Template.draft (tree : Source.Tree) (node : Source.Handle) (scope : Scope) (t : Template) :
    Except Stop Draft := do
  let fields ← t.fields.mapM fun (name, content) =>
    return (name, ← content.field tree node scope)
  return ⟨t.kind, fields, t.span, t.synthetic⟩

/-- A failure made up at a node. -/
def Abort.failure (tree : Source.Tree) (node : Source.Handle) (position : Position)
    (message : String) : Abort → Failure
  | .unknownKind => .unknownKind (ParseTree.kind tree node) position
  | .rule => .rule ⟨ParseTree.kind tree node, position, message⟩
  | .source => .source ⟨message, position, ParseTree.span tree node, none⟩
  | .settings => .settings (.reported message)

/-! ### Steps -/

/-- What `attempt` gets: the nodes, or how it stopped. -/
def attempted (tree : Source.Tree) (node : Source.Handle) (single : Bool) :
    Run (Except Stop (List Target.Handle)) :=
  ExceptT.lift (
    if single then
      (Action.convertSingle tree node).bind fun
        | .ok h => .done (.ok h.toList)
        | .error stop => .done (.error stop)
    else .convert node fun
      | .ok hs => .done (.ok hs)
      | .error failure => .done (.error (.aborted failure)))

/-- The note of how something stopped. -/
def Note.ofStop : Stop → Note
  | .failed message => .failed message
  | .aborted failure => .aborted failure

/-- Runs `body` for each of the nodes as `it`. -/
def forEach (body : Scope → Run Flow) : List Source.Handle → Scope → Run Flow
  | [], scope => pure (.on scope)
  | child :: rest, scope => do
    match ← body { scope with it := child } with
    | .on after => forEach body rest { after with it := scope.it }
    | .out handles => return .out handles

mutual

/-- Runs one step of the rule for `node`. -/
def Step.run (tree : Source.Tree) (node : Source.Handle) : Step → Scope → Run Flow
  | .children ref binding, scope => do
    let parent ← ref.resolve tree node scope
    let handles ← orAbort (Action.convertChildren tree parent)
    return .on (scope.bind handles binding)
  | .convert ref binding, scope => do
    let target ← ref.resolve tree node scope
    let handles ← orAbort (.convert target .done)
    return .on (scope.bind handles binding)
  | .single ref binding, scope => do
    let target ← ref.resolve tree node scope
    let handle ← ExceptT.mk (Action.convertSingle tree target)
    return .on (scope.bind handle.toList binding)
  | .attempt ref single binding otherwise, scope => do
    let target ← ref.resolve tree node scope
    match ← attempted tree target single with
    | .ok handles => return .on (scope.bind handles binding)
    | .error stop =>
      note (.ofStop stop)
      runAll tree node otherwise (scope.bind [] binding)
  | .emit template binding, scope => do
    let draft ← ExceptT.mk (.done (template.draft tree node scope))
    let handle ← ExceptT.lift (.emit draft .done)
    return .on (scope.bind [handle] binding)
  | .fail message, _ => throw (.failed message)
  | .abort kind message, _ => do
    throw (.aborted (kind.failure tree node (← positionOf node) message))
  | .giveBack names, scope => return .out (scope.allNodesOf names)
  | .branch condition yes no, scope => do
    if ← condition.holds tree node scope then runAll tree node yes scope
    else runAll tree node no scope
  | .each body, scope => forEach (runAll tree node body) (tree.childrenOf node) scope
  | .save name names, scope => do
    storeMemory ((← loadMemory).setGlobal name (scope.allNodesOf names))
    return .on scope
  | .load name binding, scope => do
    let m ← loadMemory
    return .on (scope.bind ((m.global? name).getD []) binding)
  | .reverse names binding, scope =>
    return .on (scope.bind (scope.allNodesOf names).reverse binding)
  | .probe names, scope => do
    let current ← ExceptT.lift (.current .done)
    let position ← positionOf node
    let seen ← (scope.allNodesOf names).mapM sight
    note (.probed current position seen)
    return .on scope

/-- Runs steps in order, until one gives back its nodes. -/
def runAll (tree : Source.Tree) (node : Source.Handle) : List Step → Scope → Run Flow
  | [], scope => pure (.on scope)
  | step :: rest, scope => do
    match ← step.run tree node scope with
    | .on scope => runAll tree node rest scope
    | .out handles => return .out handles

end

/-- The rule that a script is; one that gives nothing back gives no nodes. -/
def rule (steps : List Step) : Rule Source.Tree Memory := fun tree node => do
  match ← (runAll tree node steps ⟨node, []⟩).run with
  | .ok (.on _) => return .ok []
  | .ok (.out handles) => return .ok handles
  | .error stop => return .error stop

end TreeConversion.Script
