import TreeConversion.Conversion.Failure
import TreeConversion.Conversion.Settings
import TreeConversion.Target.Basic

/-!
# Rules as programs

A rule is a program that speaks with the engine: it emits target nodes, has source nodes converted,
and asks for what the engine knows.  `Action` is the syntax of such programs, one constructor per
request with the rest of the program as a function of the answer, so a rule can do no more than ask.
Programs of one conversion may also share a memory of type `σ`.
-/

namespace TreeConversion

/-- How the span of an emitted node is found. -/
inductive SpanChoice where
  /-- The span of the source node. -/
  | source
  | given (span : Span)
  /-- The cover of the spans of the children, or the span of the source node if there is none. -/
  | children
  deriving DecidableEq

/-- A target node as a rule describes it. -/
structure Draft where
  kind : String
  fields : List (String × Target.Field)
  span : SpanChoice
  /-- Whether the node is to stand for no source node. -/
  synthetic : Bool

/-- The children in the fields of a draft, in order. -/
def Draft.children (d : Draft) : List Target.Handle := d.fields.flatMap fun f => f.2.children

/-- A program with a result of type `α`. -/
inductive Action (σ α : Type) where
  | done (result : α)
  /-- Emits a node for the source node whose rule is running. -/
  | emit (draft : Draft) (next : Target.Handle → Action σ α)
  /-- Has a source node and what is below it converted. -/
  | convert (node : Source.Handle) (next : Except Failure (List Target.Handle) → Action σ α)
  /-- Looks at a target node. -/
  | look (handle : Target.Handle) (next : Option Target.Node → Action σ α)
  /-- Asks for the source node whose rule is running. -/
  | current (next : Source.Handle → Action σ α)
  | settings (next : Settings → Action σ α)
  /-- Asks where a source node starts. -/
  | position (node : Source.Handle) (next : Position → Action σ α)
  | load (next : σ → Action σ α)
  | store (memory : σ) (next : Action σ α)

namespace Action

variable {σ α β : Type}

/-- Goes on with `f` on the result. -/
def bind : Action σ α → (α → Action σ β) → Action σ β
  | done result, f => f result
  | emit draft next, f => emit draft fun h => (next h).bind f
  | convert node next, f => convert node fun r => (next r).bind f
  | look handle next, f => look handle fun n => (next n).bind f
  | current next, f => current fun h => (next h).bind f
  | settings next, f => settings fun s => (next s).bind f
  | position node next, f => position node fun p => (next p).bind f
  | load next, f => load fun m => (next m).bind f
  | store memory next, f => store memory (next.bind f)

instance : Monad (Action σ) where
  pure := done
  bind := bind

theorem bind_done (a : Action σ α) : a.bind done = a := by
  induction a with
  | done => rfl
  | store memory next ih => simp [bind, ih]
  | _ _ => simp_all [bind]

theorem bind_assoc {γ : Type} (a : Action σ α) (f : α → Action σ β) (g : β → Action σ γ) :
    (a.bind f).bind g = a.bind fun x => (f x).bind g := by
  induction a with
  | done => rfl
  | store memory next ih => simp [bind, ih]
  | _ _ => simp_all [bind]

instance : LawfulMonad (Action σ) :=
  LawfulMonad.mk' _ bind_done (fun _ _ => rfl) bind_assoc

end Action

/-- A rule: given the tree and a node of it, a program that gives the target nodes to put in the
place of the node, or stops. -/
abbrev Rule (τ σ : Type) := τ → Source.Handle → Action σ (Except Stop (List Target.Handle))

/-! ### Requests put together -/

namespace Action

variable {σ : Type}

/-- Has nodes converted one after the other, and puts what they give together. -/
def convertAll : List Source.Handle → Action σ (Except Failure (List Target.Handle))
  | [] => done (.ok [])
  | node :: rest =>
    convert node fun
      | .error failure => done (.error failure)
      | .ok front => (convertAll rest).bind fun
        | .error failure => done (.error failure)
        | .ok back => done (.ok (front ++ back))

/-- Has the children of a node converted in order. -/
def convertChildren {τ : Type} [ParseTree τ] (tree : τ) (node : Source.Handle) :
    Action σ (Except Failure (List Target.Handle)) :=
  convertAll (ParseTree.children tree node)

/-- Has a node converted that must give at most one target node. -/
def convertSingle {τ : Type} [ParseTree τ] (tree : τ) (node : Source.Handle) :
    Action σ (Except Stop (Option Target.Handle)) :=
  convert node fun
    | .error failure => done (.error (.aborted failure))
    | .ok [] => done (.ok none)
    | .ok [h] => done (.ok (some h))
    | .ok hs => done (.error (.failed
        ("expected a single node from " ++ ParseTree.kind tree node ++ ", got " ++
          toString hs.length)))

end Action

end TreeConversion
