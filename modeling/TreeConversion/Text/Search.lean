import TreeConversion.Text.Bytes

/-!
# Where a word occurs
-/

namespace TreeConversion.Text

/-- The byte offsets at which a word occurs in a text that itself starts at `here`, from left to right
and none inside the one before.  The first `skip` characters belong to an occurrence already found;
the empty word occurs once between any two characters. -/
def occurrences (word : List Char) (here skip : Nat) : List Char → List Nat
  | [] => if word.isEmpty then [here] else []
  | c :: cs =>
    if 0 < skip then occurrences word (here + c.utf8Size) (skip - 1) cs
    else if word.isPrefixOf (c :: cs) then
      here :: occurrences word (here + c.utf8Size) (word.length - 1) cs
    else occurrences word (here + c.utf8Size) 0 cs

end TreeConversion.Text
