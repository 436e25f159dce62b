import TreeConversion.Conversion.Action
import TreeConversion.Text.Quoted
import Std.Data.HashMap

/-!
# Rulebooks

A rulebook has at most one rule for each kind of source node.
-/

namespace TreeConversion

/-- The rules of a conversion, by the kind of source node they convert. -/
structure Rulebook (τ σ : Type) where
  rules : Std.HashMap String (Rule τ σ)

namespace Rulebook

variable {τ σ : Type}

def empty : Rulebook τ σ := ⟨∅⟩

/-- Sets the rule for a kind, replacing one that is there. -/
def insert (book : Rulebook τ σ) (kind : String) (rule : Rule τ σ) : Rulebook τ σ :=
  ⟨book.rules.insert kind rule⟩

def find? (book : Rulebook τ σ) (kind : String) : Option (Rule τ σ) := book.rules[kind]?

def contains (book : Rulebook τ σ) (kind : String) : Bool := book.rules.contains kind

def size (book : Rulebook τ σ) : Nat := book.rules.size

/-- The kinds that have a rule, in ascending order. -/
def kinds (book : Rulebook τ σ) : List String := book.rules.keys.mergeSort fun a b => a ≤ b

/-- A line that names the kinds. -/
def summary (book : Rulebook τ σ) : String :=
  "RuleSet \x7b kinds: " ++ Text.quotedList book.kinds ++ " \x7d"

@[simp] theorem find?_insert (book : Rulebook τ σ) (kind other : String) (rule : Rule τ σ) :
    (book.insert kind rule).find? other = if kind = other then some rule else book.find? other := by
  simp [find?, insert, Std.HashMap.getElem?_insert]

/-! ### What holds of all rules -/

variable {P : Rule τ σ → Prop}

theorem forall_empty (kind : String) (rule : Rule τ σ)
    (found : (empty : Rulebook τ σ).find? kind = some rule) : P rule := by
  simp [empty, find?] at found

theorem forall_insert {book : Rulebook τ σ} (all : ∀ kind rule, book.find? kind = some rule → P rule)
    {kind : String} {rule : Rule τ σ} (own : P rule) (other : String) (rule' : Rule τ σ)
    (found : (book.insert kind rule).find? other = some rule') : P rule' := by
  rw [find?_insert] at found
  split at found
  · exact Option.some.inj found ▸ own
  · exact all other rule' found

end Rulebook

end TreeConversion
