import TreeConversion.Position.LineTable
import Mathlib.Data.List.Chain
import Mathlib.Data.List.Infix

/-!
# The lines of a text

A text is cut from left to right into line ends and other characters (`Text.pieces`).  Lines start at
the beginning and after every line end, which is just where the table of the text says
(`LineTable.toList_starts`).  The table ascends, so that its search ends at the one entry that is at
or before an offset while the next is after it, and the entries up to there count the line ends that
have gone by (`LineTable.locates_position`).
-/

namespace TreeConversion

namespace Text

variable {cs front back front' back' mid mid' : List Char} {start middle stop : Nat}

/-! ### Offsets between characters -/

/-- The offset lies between two characters, or at an end of the text. -/
def Boundary (cs : List Char) (offset : Nat) : Prop :=
  ∃ front back, cs = front ++ back ∧ byteLength front = offset

/-- These characters stand between the two offsets. -/
def Between (cs : List Char) (start stop : Nat) (mid : List Char) : Prop :=
  ∃ front back, cs = front ++ (mid ++ back) ∧ byteLength front = start ∧
    byteLength (front ++ mid) = stop

theorem byteLength_toList (text : String) : byteLength text.toList = text.utf8ByteSize := by
  have whole (cs : List Char) : byteLength cs = (String.ofList cs).utf8ByteSize := by
    induction cs with
    | nil => simp [byteLength]
    | cons c cs ih =>
      rw [byteLength, ih, ← List.singleton_append, String.ofList_append, String.utf8ByteSize_append]
      simp
  rw [whole, String.ofList_toList]

theorem length_le_byteLength (cs : List Char) : cs.length ≤ byteLength cs := by
  induction cs with
  | nil => exact Nat.le_refl _
  | cons c cs ih =>
    have wide := c.utf8Size_pos
    rw [List.length_cons, byteLength]
    omega

theorem eq_nil_of_byteLength (none : byteLength cs = 0) : cs = [] :=
  List.eq_nil_of_length_eq_zero (Nat.le_zero.1 (none ▸ length_le_byteLength cs))

/-- Of two cuts through a text, the earlier one is in front. -/
theorem exists_append_of_le (same : front ++ back = front' ++ back')
    (le : byteLength front ≤ byteLength front') : ∃ mid, front' = front ++ mid := by
  rcases List.append_eq_append_iff.1 same with ⟨mid, rfl, -⟩ | ⟨mid, rfl, -⟩
  · exact ⟨mid, rfl⟩
  · have none : mid = [] := eq_nil_of_byteLength (by rw [byteLength_append] at le; omega)
    exact ⟨[], by rw [none, List.append_nil, List.append_nil]⟩

theorem Between.boundary (between : Between cs start stop mid) :
    Boundary cs start ∧ Boundary cs stop := by
  obtain ⟨front, back, rfl, rfl, rfl⟩ := between
  exact ⟨⟨front, _, rfl, rfl⟩, ⟨front ++ mid, back, (List.append_assoc ..).symm, rfl⟩⟩

theorem exists_between (first : Boundary cs start) (last : Boundary cs stop) (le : start ≤ stop) :
    ∃ mid, Between cs start stop mid := by
  obtain ⟨front, back, rfl, rfl⟩ := first
  obtain ⟨front', back', same, rfl⟩ := last
  obtain ⟨mid, rfl⟩ := exists_append_of_le same le
  exact ⟨mid, front, back', by rw [same, List.append_assoc], rfl, rfl⟩

theorem slice?_eq_some : slice? start stop cs = some mid ↔ Between cs start stop mid := by
  rw [slice?_eq_some_iff]
  constructor
  · rintro ⟨le, front, back, rfl, rfl, size⟩
    exact ⟨front, back, rfl, rfl, by rw [byteLength_append, size]; omega⟩
  · rintro ⟨front, back, rfl, rfl, rfl⟩
    rw [byteLength_append]
    exact ⟨by omega, front, back, rfl, rfl, by omega⟩

theorem slice?_eq_none (inside : ¬ Boundary cs stop) : slice? start stop cs = none :=
  Option.eq_none_iff_forall_ne_some.2 fun _ found => inside (slice?_eq_some.1 found).boundary.2

theorem Between.unique (between : Between cs start stop mid) (between' : Between cs start stop mid') :
    mid = mid' :=
  Option.some.inj ((slice?_eq_some.2 between).symm.trans (slice?_eq_some.2 between'))

theorem Between.size (between : Between cs start stop mid) : start + byteLength mid = stop := by
  obtain ⟨front, back, rfl, rfl, rfl⟩ := between
  rw [byteLength_append]

theorem Between.length_le (between : Between cs start stop mid) : mid.length ≤ stop - start :=
  Nat.le_trans (length_le_byteLength mid) (Nat.le_sub_of_add_le' (Nat.le_of_eq between.size))

theorem Between.trans (first : Between cs start middle mid) (second : Between cs middle stop mid') :
    Between cs start stop (mid ++ mid') := by
  obtain ⟨front, back, rfl, rfl, rfl⟩ := first
  obtain ⟨front', back', same, size, rfl⟩ := second
  rw [← List.append_assoc] at same
  obtain ⟨rest, rfl⟩ := exists_append_of_le same (Nat.le_of_eq size.symm)
  rw [byteLength_append _ rest] at size
  obtain rfl : rest = [] := eq_nil_of_byteLength (by omega)
  refine ⟨front, back', ?_, rfl, ?_⟩
  · rw [← List.append_assoc front mid back, same]
    simp
  · simp

theorem Boundary.le (between : Boundary cs stop) : stop ≤ byteLength cs := by
  obtain ⟨front, back, rfl, rfl⟩ := between
  rw [byteLength_append]
  exact Nat.le_add_right ..

/-! ### Line ends -/

/-- What a text is cut into. -/
inductive Piece where
  /-- A carriage return with its line feed. -/
  | pair
  | single (c : Char)

def Piece.chars : Piece → List Char
  | pair => ['\r', '\n']
  | single c => [c]

/-- Whether the piece ends a line. -/
def Piece.isEnd : Piece → Bool
  | pair => true
  | single c => ['\n', '\r', '\u2028', '\u2029'].contains c

/-- The text, cut from left to right. -/
def pieces : List Char → List Piece
  | [] => []
  | '\r' :: '\n' :: cs => .pair :: pieces cs
  | c :: cs => .single c :: pieces cs

/-- The parts of a cut text that go up to the end of a line. -/
def heads (ps : List Piece) : List (List Piece) :=
  ps.inits.filter fun head => head.getLast?.any Piece.isEnd

/-- The offsets at which the line ends of a cut text end. -/
def ends (ps : List Piece) : List Nat :=
  (heads ps).map fun head => byteLength (head.flatMap Piece.chars)

/-- The offsets at which the line ends of a text end. -/
def lineEnds (cs : List Char) : List Nat := ends (pieces cs)

theorem flatMap_pieces (cs : List Char) : (pieces cs).flatMap Piece.chars = cs := by
  fun_induction pieces cs with
  | case1 => rfl
  | case2 cs ih => rw [List.flatMap_cons, ih]; rfl
  | case3 c cs _ ih => rw [List.flatMap_cons, ih]; rfl

theorem exists_cons_of_head? {c : Char} (first : (pieces cs).head? = some (.single c)) :
    ∃ rest, cs = c :: rest := by
  fun_cases pieces cs with
  | case1 => cases first
  | case2 cs => cases first
  | case3 d cs apart =>
    rw [pieces.eq_3 d cs apart] at first
    cases first
    exact ⟨cs, rfl⟩

theorem paired_pieces (cs : List Char) :
    (pieces cs).IsChain fun p q => ¬ (p = .single '\r' ∧ q = .single '\n') := by
  fun_induction pieces cs with
  | case1 => exact .nil
  | case2 cs ih => exact ih.cons fun q _ both => by cases both.1
  | case3 c cs apart ih =>
    refine ih.cons fun q hq both => ?_
    obtain ⟨⟨⟩, rfl⟩ := both
    obtain ⟨rest, rfl⟩ := exists_cons_of_head? hq
    exact apart rest rfl rfl

theorem heads_cons (p : Piece) (ps : List Piece) :
    heads (p :: ps) = (if p.isEnd then [[p]] else []) ++ (heads ps).map (p :: ·) := by
  -- only behind another piece does `p` leave the last piece of a head as it was
  cases ps with
  | nil => cases h : p.isEnd <;> simp [heads, h]
  | cons q ps =>
    simp only [heads, List.inits_cons, List.map_cons, List.map_map, List.filter_cons,
      List.filter_map, Function.comp_def, List.getLast?_cons_cons]
    cases h : p.isEnd <;> simp [h]

theorem length_heads (ps : List Piece) : (heads ps).length = ps.countP Piece.isEnd := by
  induction ps with
  | nil => rfl
  | cons p ps ih =>
    rw [heads_cons, List.length_append, List.length_map, ih, List.countP_cons, Nat.add_comm]
    cases p.isEnd <;> rfl

theorem ends_cons (p : Piece) (ps : List Piece) : ends (p :: ps) =
    (if p.isEnd then [byteLength p.chars] else []) ++ (ends ps).map (byteLength p.chars + ·) := by
  rw [ends, heads_cons, List.map_append, List.map_map, ends, List.map_map]
  congr 1
  · cases p.isEnd <;> simp
  · refine List.map_congr_left fun head _ => ?_
    simp

theorem length_lineEnds (cs : List Char) : (lineEnds cs).length = (pieces cs).countP Piece.isEnd := by
  rw [lineEnds, ends, List.length_map, length_heads]

theorem lineEnds_pair (cs : List Char) :
    lineEnds ('\r' :: '\n' :: cs) = 2 :: (lineEnds cs).map (2 + ·) := ends_cons .pair (pieces cs)

theorem lineEnds_cons {c : Char} (apart : ∀ rest, c = '\r' → cs = '\n' :: rest → False) :
    lineEnds (c :: cs) = (if (Piece.single c).isEnd then [c.utf8Size] else []) ++
      (lineEnds cs).map (c.utf8Size + ·) := by
  have cut : pieces (c :: cs) = .single c :: pieces cs := pieces.eq_3 c cs apart
  rw [lineEnds, cut]
  exact ends_cons (.single c) (pieces cs)

theorem boundary_of_mem_lineEnds {e : Nat} (he : e ∈ lineEnds cs) : Boundary cs e := by
  obtain ⟨head, hh, rfl⟩ := List.mem_map.1 he
  obtain ⟨rest, whole⟩ := (List.mem_inits _ _).1 (List.mem_filter.1 hh).1
  refine ⟨head.flatMap Piece.chars, rest.flatMap Piece.chars, ?_, rfl⟩
  rw [← List.flatMap_append, whole, flatMap_pieces]

end Text

namespace LineTable

open Text

/-! ### The table -/

theorem isEnd_single (c : Char) : (Piece.single c).isEnd = isTerminator c := by
  rw [Bool.eq_iff_iff]
  simp [Piece.isEnd, isTerminator, or_assoc]

theorem startsAfter_eq (here : Nat) (cs : List Char) :
    startsAfter here cs = (lineEnds cs).map (here + ·) := by
  have shift {m n : Nat} (es : List Nat) : es.map (m + n + ·) = (es.map (n + ·)).map (m + ·) := by
    rw [List.map_map]
    exact List.map_congr_left fun e _ => Nat.add_assoc ..
  induction here, cs using startsAfter.induct with
  | case1 => rfl
  | case2 here cs ih =>
    rw [startsAfter, ih, lineEnds_pair, shift]
    rfl
  | case3 here c cs apart next stops ih =>
    rw [startsAfter.eq_3 here c cs apart, lineEnds_cons apart, isEnd_single, if_pos stops,
      if_pos stops, ih, shift]
    rfl
  | case4 here c cs apart next goes ih =>
    rw [startsAfter.eq_3 here c cs apart, lineEnds_cons apart, isEnd_single, if_neg goes,
      if_neg goes, ih, shift]
    rfl

theorem toList_starts (text : String) :
    (ofText text).starts.toList = 0 :: lineEnds text.toList := by
  have same : startsAfter 0 text.toList = lineEnds text.toList := by simp [startsAfter_eq]
  rw [ofText, same]

theorem ascending_startsAfter (here : Nat) (cs : List Char) :
    (here :: startsAfter here cs).Pairwise (· < ·) := by
  have wide (here : Nat) (c : Char) : here < here + c.utf8Size :=
    Nat.lt_add_of_pos_right c.utf8Size_pos
  rw [← List.isChain_iff_pairwise]
  induction here, cs using startsAfter.induct with
  | case1 here => exact .singleton here
  | case2 here cs ih =>
    rw [startsAfter]
    exact .cons_cons (by omega) ih
  | case3 here c cs apart next stops ih =>
    rw [startsAfter.eq_3 here c cs apart, if_pos stops]
    exact .cons_cons (wide here c) ih
  | case4 here c cs apart next goes ih =>
    rw [startsAfter.eq_3 here c cs apart, if_neg goes]
    exact ih.imp_head fun less => Nat.lt_trans (wide here c) less

theorem ascending_starts (text : String) : (0 :: lineEnds text.toList).Pairwise (· < ·) := by
  rw [← toList_starts]
  exact ascending_startsAfter 0 text.toList

theorem boundary_of_mem_starts {text : String} {s : Nat} (hs : s ∈ 0 :: lineEnds text.toList) :
    Boundary text.toList s := by
  rcases List.mem_cons.1 hs with rfl | hs
  · exact ⟨[], _, rfl, rfl⟩
  · exact boundary_of_mem_lineEnds hs

/-! ### The search -/

/-- The search ends at an entry that is not after the offset, while the next entry, if there is one,
is after it. -/
theorem search_spec {starts : Array Nat} {offset low high : Nat} (order : low < high)
    (before : starts.getD low 0 ≤ offset) (after : high < starts.size → offset < starts.getD high 0) :
    search starts offset low high < high ∧
      starts.getD (search starts offset low high) 0 ≤ offset ∧
      (search starts offset low high + 1 < starts.size →
        offset < starts.getD (search starts offset low high + 1) 0) := by
  -- the entry at `low` is never after the offset, and the one at `high`, if there is one, always is
  fun_induction search starts offset low high with
  | case1 low high more middle upper ih => exact ih (by omega) upper after
  | case2 low high more middle lower ih =>
    obtain ⟨under, here, next⟩ := ih (by omega) before fun _ => Nat.lt_of_not_le lower
    exact ⟨by omega, here, next⟩
  | case3 low high last =>
    obtain rfl : high = low + 1 := by omega
    exact ⟨Nat.lt_succ_self _, before, after⟩

section ascending

variable {starts : List Nat} (ascending : starts.Pairwise (· < ·)) {row s x : Nat}

include ascending

/-- Where an entry is not after `x` and the next one is, all before are less and all behind are
after `x`. -/
theorem exists_split (here : starts[row]? = some s)
    (after : ∀ s', starts[row + 1]? = some s' → x < s') : ∃ front back,
      starts = front ++ s :: back ∧ front.length = row ∧ (∀ e ∈ front, e < s) ∧ ∀ e ∈ back, x < e := by
  obtain ⟨bound, rfl⟩ := List.getElem?_eq_some_iff.1 here
  have split : starts = starts.take row ++ starts[row] :: starts.drop (row + 1) := by
    rw [← List.drop_eq_getElem_cons bound, List.take_append_drop]
  rw [split] at ascending
  obtain ⟨-, behind, less⟩ := List.pairwise_append.1 ascending
  refine ⟨_, _, split, List.length_take_of_le (Nat.le_of_lt bound),
    fun e he => less e he _ (List.mem_cons_self ..), fun e he => ?_⟩
  cases rest : starts.drop (row + 1) with
  | nil =>
    rw [rest] at he
    cases he
  | cons next others =>
    rw [rest] at he behind
    have first : x < next := by
      refine after next ?_
      rw [← List.head?_drop, rest]
      rfl
    rcases List.mem_cons.1 he with rfl | he
    · exact first
    · exact Nat.lt_trans first ((List.pairwise_cons.1 (List.pairwise_cons.1 behind).2).1 e he)

theorem lt_of_mem_of_lt (here : starts[row]? = some s)
    (after : ∀ s', starts[row + 1]? = some s' → x < s') {e : Nat} (he : e ∈ starts) (later : s < e) :
    x < e := by
  obtain ⟨front, back, rfl, -, less, greater⟩ := exists_split ascending here after
  rcases List.mem_append.1 he with he | he
  · exact absurd later (Nat.lt_asymm (less e he))
  · rcases List.mem_cons.1 he with rfl | he
    · exact absurd later (Nat.lt_irrefl _)
    · exact greater e he

theorem countP_eq_of_ascending (here : starts[row]? = some s) (before : s ≤ x)
    (after : ∀ s', starts[row + 1]? = some s' → x < s') : starts.countP (· ≤ x) = row + 1 := by
  obtain ⟨front, back, rfl, size, less, greater⟩ := exists_split ascending here after
  have all : front.countP (· ≤ x) = front.length := by
    refine List.countP_eq_length.2 fun e he => decide_eq_true ?_
    exact Nat.le_of_lt (Nat.lt_of_lt_of_le (less e he) before)
  have none : back.countP (· ≤ x) = 0 :=
    List.countP_eq_zero.2 fun e he => by simpa using greater e he
  rw [List.countP_append, List.countP_cons_of_pos (by simpa using before), all, none, size]

end ascending

/-- What may be answered to a search for a number in an ascending list: a row in which it is, or the
row into which it would have to be put. -/
inductive Sought (starts : List Nat) (x : Nat) : Except Nat Nat → Prop
  | found {row : Nat} (here : starts[row]? = some x) : Sought starts x (.ok row)
  | missing {row : Nat} (within : row ≤ starts.length) (below : ∀ s ∈ starts.take row, s < x)
    (above : ∀ s ∈ starts.drop row, x < s) : Sought starts x (.error row)

/-- An answer is decided by the number of entries that are not after what is sought. -/
theorem Sought.answer_eq {starts : List Nat} {x : Nat} {answer : Except Nat Nat}
    (sought : Sought starts x answer) (ascending : starts.Pairwise (· < ·)) :
    answer = .ok (starts.countP (· ≤ x) - 1) ∨ answer = .error (starts.countP (· ≤ x)) := by
  cases sought with
  | @found row here =>
    have after : ∀ s', starts[row + 1]? = some s' → x < s' := by
      intro s' next
      obtain ⟨bound, rfl⟩ := List.getElem?_eq_some_iff.1 here
      obtain ⟨bound', rfl⟩ := List.getElem?_eq_some_iff.1 next
      exact List.pairwise_iff_getElem.1 ascending row (row + 1) bound bound' (Nat.lt_succ_self row)
    rw [countP_eq_of_ascending ascending here (Nat.le_refl x) after]
    exact .inl rfl
  | @missing row within below above =>
    have front : (starts.take row).countP (· ≤ x) = row := by
      rw [List.countP_eq_length.2 fun s hs => decide_eq_true (Nat.le_of_lt (below s hs)),
        List.length_take, Nat.min_eq_left within]
    have back : (starts.drop row).countP (· ≤ x) = 0 :=
      List.countP_eq_zero.2 fun s hs => by simpa using above s hs
    rw [← List.take_append_drop row starts, List.countP_append, front, back, Nat.add_zero]
    exact .inr rfl

/-! ### Positions -/

/-- The row in which the search for an offset ends, with the start of that line. -/
theorem exists_row (text : String) (x : Nat) : ∃ row s,
    search (ofText text).starts x 0 (ofText text).starts.size = row ∧
      (ofText text).starts.getD row 0 = s ∧ (0 :: lineEnds text.toList)[row]? = some s ∧ s ≤ x ∧
      ∀ s', (0 :: lineEnds text.toList)[row + 1]? = some s' → x < s' := by
  let starts := 0 :: lineEnds text.toList
  -- the array of the table, read as the list of line starts
  have size : (ofText text).starts.size = starts.length := by
    rw [← Array.length_toList, toList_starts]
  have getD (i : Nat) : (ofText text).starts.getD i 0 = starts.getD i 0 := by
    rw [Array.getD_eq_getD_getElem?, ← Array.getElem?_toList, toList_starts,
      List.getD_eq_getElem?_getD]
  have nonempty : 0 < (ofText text).starts.size := by
    rw [size]
    exact Nat.succ_pos _
  have first : (ofText text).starts.getD 0 0 ≤ x := by
    rw [getD]
    exact Nat.zero_le x
  obtain ⟨within, before, after⟩ :=
    search_spec nonempty first fun more => absurd more (Nat.lt_irrefl _)
  generalize search (ofText text).starts x 0 (ofText text).starts.size = row at within before after
  rw [size] at within after
  rw [getD] at before after
  have here : starts[row]? = some (starts.getD row 0) := by
    rw [List.getD_eq_getElem?_getD, List.getElem?_eq_getElem within, Option.getD_some]
  refine ⟨row, starts.getD row 0, rfl, getD row, here, before, fun s' next => ?_⟩
  have more := (List.getElem?_eq_some_iff.1 next).1
  rw [List.getD_eq_getElem?_getD, next] at after
  exact after more

/-- The line of an offset starts here: no other line starts between here and the offset. -/
structure LineStart (text : String) (offset s : Nat) : Prop where
  mem : s ∈ 0 :: lineEnds text.toList
  le : s ≤ offset
  last : ∀ e ∈ lineEnds text.toList, s < e → offset < e

/-- The column of a position in the line that starts here counts the characters since then, or the
bytes if the offset is inside a character. -/
structure Counts (text : String) (s : Nat) (p : Position) : Prop where
  start : LineStart text p.offset s
  outside : Boundary text.toList p.offset →
    ∃ mid, Between text.toList s p.offset mid ∧ p.column = mid.length
  inside : ¬ Boundary text.toList p.offset → p.column = p.offset - s

/-- The position of an offset, told by the line ends of the text. -/
structure Locates (text : String) (offset : Nat) (p : Position) : Prop where
  offset : p.offset = min offset text.utf8ByteSize
  line : p.line = 1 + (lineEnds text.toList).countP (· ≤ p.offset)
  column : ∃ s, (0 :: lineEnds text.toList)[p.line - 1]? = some s ∧ Counts text s p
  /-- Any search for the offset leads to the line. -/
  sought : ∀ answer, Sought (0 :: lineEnds text.toList) p.offset answer →
    answer = .ok (p.line - 1) ∨ answer = .error p.line

theorem locates_position (text : String) (offset : Nat) :
    Locates text offset ((ofText text).position offset) := by
  have ascending := ascending_starts text
  obtain ⟨row, s, searched, start, here, before, after⟩ :=
    exists_row text (min offset (byteLength text.toList))
  have count := countP_eq_of_ascending ascending here before after
  have position : (ofText text).position offset = {
      line := row + 1
      column := ((slice? s (min offset (byteLength text.toList)) text.toList).map List.length).getD
        (min offset (byteLength text.toList) - s)
      offset := min offset (byteLength text.toList) } := by
    rw [LineTable.position, ← start, ← searched]
    simp only [ofText]
    cases slice? _ _ text.toList <;> rfl
  -- of the position, only the column is still a matter of cases
  rw [position]
  have mem := List.mem_of_getElem? here
  refine ⟨by rw [byteLength_toList], ?line, ⟨s, here, ⟨mem, before, fun e he later => ?last⟩,
    fun outside => ?outside, fun inside => ?inside⟩, fun answer sought => ?sought⟩
  case line =>
    rw [List.countP_cons_of_pos (by simp)] at count
    rw [← count, Nat.add_comm]
  case last => exact lt_of_mem_of_lt ascending here after (List.mem_cons_of_mem _ he) later
  case outside =>
    obtain ⟨mid, between⟩ := exists_between (boundary_of_mem_starts mem) outside before
    exact ⟨mid, between, by rw [slice?_eq_some.2 between]; rfl⟩
  case inside =>
    rw [slice?_eq_none inside]
    rfl
  case sought =>
    have answers := sought.answer_eq ascending
    rwa [count] at answers

/-! ### Tables of texts -/

/-- The table of a text, told by the pieces into which the text is cut. -/
structure Agrees (text : String) (t : LineTable) : Prop where
  whole : (pieces text.toList).flatMap Piece.chars = text.toList
  /-- A carriage return is not cut off from its line feed. -/
  paired : (pieces text.toList).IsChain fun p q => ¬ (p = .single '\r' ∧ q = .single '\n')
  starts : t.starts.toList = 0 :: lineEnds text.toList
  ascending : t.starts.toList.Pairwise (· < ·)
  boundary : ∀ s ∈ t.starts.toList, Boundary text.toList s ∧ s ≤ text.utf8ByteSize
  lineCount : t.lineCount = 1 + (pieces text.toList).countP Piece.isEnd
  position : ∀ offset, Locates text offset (t.position offset)

/-- The table of a text has an entry for the start of every line, and finds the line of every
offset. -/
theorem table_agrees (text : String) : Agrees text (ofText text) where
  whole := flatMap_pieces _
  paired := paired_pieces _
  starts := toList_starts text
  ascending := toList_starts text ▸ ascending_starts text
  boundary s hs := by
    have between := boundary_of_mem_starts (toList_starts text ▸ hs)
    exact ⟨between, byteLength_toList text ▸ between.le⟩
  lineCount := by
    rw [lineCount, ← Array.length_toList, toList_starts, List.length_cons, length_lineEnds,
      Nat.add_comm]
  position := locates_position text

end LineTable

end TreeConversion
