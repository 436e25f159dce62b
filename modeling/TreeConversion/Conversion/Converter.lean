import TreeConversion.Conversion.Engine
import TreeConversion.Conversion.Finish
import TreeConversion.Source.Tree

/-!
# Conversions

A `Converter` takes a parse tree through all stages: the settings are checked, a text that the front
end could not make sense of is refused, the root is converted, what is not attached is left out,
and the tree is finished as the settings ask.
-/

namespace TreeConversion

/-- What a conversion gives. -/
structure Conversion where
  tree : Target.Tree
  /-- Which node came from which, if that is asked for. -/
  origins : Option Origins
  /-- The failures that placeholders of the tree stand for, in the order of the placeholders. -/
  failures : List RuleFailure

def Conversion.hasFailures (c : Conversion) : Bool := !c.failures.isEmpty

/-- How a conversion went. -/
structure Report (σ : Type) where
  outcome : Except Failure Conversion
  log : Array Event
  memory : σ

/-! ### A faulty text -/

/-- The failure that diagnostics amount to: the first of them counts. -/
def refusal? (lines : LineTable) : List Source.Diagnostic → Option SourceFailure
  | [] => none
  | first :: _ => some ⟨first.message, lines.position first.start, first.span, first.code⟩

/-- What is told of the diagnostics after the first. -/
def refusalLog : List Source.Diagnostic → List Event
  | _ :: next :: rest => [.diagnosticsPassedOver (next :: rest).length]
  | _ => []

/-! ### The tree that has been made -/

/-- What is left when the nodes that are not attached are left out. -/
structure Harvest where
  tree : Target.Tree
  origins : Origins
  failures : List RuleFailure

/-- The nodes below `root` with their origins and failures. -/
def Workspace.harvest {σ : Type} (w : Workspace σ) (root : Target.Handle) : Harvest :=
  let (tree, table) := Target.Tree.compact ⟨w.nodes, root, none, none⟩
  { tree
    origins := w.origins.renumber table
    failures := w.failures.toList.filterMap fun (h, failure) =>
      if (table[h.index]?).join.isSome then some failure else none }

/-- What is told of the nodes that are left out, if there are any. -/
def dropLog (before after : Nat) : List Event :=
  if after < before then [.dropped (before - after)] else []

namespace Job

variable {τ σ : Type} [ParseTree τ]

/-- The failure of a root that is not converted to a single node. -/
def rootFailure (job : Job τ σ) (count : Nat) : RuleFailure :=
  job.ruleFailure (ParseTree.root job.tree)
    ("root must convert to exactly one node, got " ++ toString count)

/-- Converts the root, which must give exactly one node. -/
def harvest (job : Job τ σ) (depth : Nat) (w : Workspace σ) :
    Option (Except Failure Harvest × Workspace σ) :=
  match job.convert depth (ParseTree.root job.tree) w with
  | none => none
  | some (.error failure, w) => some (.error failure, w)
  | some (.ok [root], w) =>
    let h := w.harvest root
    some (.ok h, { w with log := w.log ++ dropLog w.nodes.size h.tree.size })
  | some (.ok produced, w) => some (.error (.rule (job.rootFailure produced.length)), w)

end Job

/-! ### All stages -/

/-- Rules, with the places where tokens and comments can be had. -/
structure Converter (τ σ : Type) where
  rules : Rulebook τ σ
  tokens : Option TokenSource
  comments : Option CommentSource

namespace Converter

variable {τ σ : Type} [ParseTree τ]

/-- The first problem with the settings. -/
def problem? (c : Converter τ σ) (s : Settings) : Option SettingsProblem :=
  if s.placeholderBlank then some .blankPlaceholder
  else if s.tokens && c.tokens.isNone then some .noTokenSource
  else if s.comments && c.comments.isNone then some .noCommentSource
  else none

/-- The tree with the tokens of the text, if a source is given. -/
def withTokens (lines : LineTable) (source : Option TokenSource) (t : Target.Tree) :
    Target.Tree × List Event :=
  match source with
  | some source =>
    let (t, e) := t.attachTokens lines source
    (t, [e])
  | none => (t, [])

/-- The tree with the comments of the text, if a source is given. -/
def withComments (lines : LineTable) (source : Option CommentSource) (t : Target.Tree) :
    Target.Tree × List Event :=
  match source with
  | some source =>
    let (t, e) := t.attachComments lines source
    (t, [e])
  | none => (t, [])

/-- Finishes what has been made as the settings ask. -/
def finish (c : Converter τ σ) (s : Settings) (lines : LineTable) (h : Harvest) :
    Conversion × List Event :=
  let tree := h.tree.strip s.ranges s.locations
  let (tree, tokenLog) := withTokens lines (if s.tokens then c.tokens else none) tree
  let (tree, commentLog) := withComments lines (if s.comments then c.comments else none) tree
  ({ tree, origins := if s.origins then some h.origins else none, failures := h.failures },
    tokenLog ++ commentLog ++ [.finished tree.size h.origins.size h.failures.length])

/-- Converts a tree, with rules nested at most `depth` deep; the answer is `none` if that is not
enough.  The rules share a memory that starts as `memory`. -/
def convert (c : Converter τ σ) (depth : Nat) (tree : τ) (s : Settings) (memory : σ) :
    Option (Report σ) :=
  let root := ParseTree.root tree
  let log : Array Event := #[.began (ParseTree.kind tree root)]
  match c.problem? s with
  | some problem => some ⟨.error (.settings problem), log, memory⟩
  | none =>
    let lines := LineTable.ofText (ParseTree.text tree)
    let diagnostics := ParseTree.diagnostics tree
    match refusal? lines diagnostics with
    | some failure => some ⟨.error (.source failure), log ++ refusalLog diagnostics, memory⟩
    | none =>
      match (Job.mk tree c.rules s lines).harvest depth (.start root log memory) with
      | none => none
      | some (.error failure, w) => some ⟨.error failure, w.log, w.memory⟩
      | some (.ok h, w) =>
        let (conversion, told) := c.finish s lines h
        some ⟨.ok conversion, w.log ++ told, w.memory⟩

end Converter

/-- The converter for trees that know their own tokens and comments. -/
def Converter.ofTree {σ : Type} (rules : Rulebook Source.Tree σ) (t : Source.Tree) :
    Converter Source.Tree σ :=
  ⟨rules, some fun _ => t.tokens, some fun _ => t.comments⟩

end TreeConversion
