import TreeConversion.Conversion.Finish
import TreeConversion.Text.Search

/-!
# Tokens found by a word
-/

namespace TreeConversion.Script

/-- The source that gives a token for each occurrence of a word in the text it is handed. -/
def matching (word : String) : TokenSource := fun text =>
  (Text.occurrences word.toList 0 0 text.toList).map fun start =>
    ⟨"Match", word, start, start + Text.byteLength word.toList⟩

end TreeConversion.Script
