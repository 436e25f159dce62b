import TreeConversion.Proofs.Lines
import Mathlib.Data.Prod.Lex
import Mathlib.Data.Set.Function
import Mathlib.Order.Monotone.Defs

/-!
# The order of places

Places are read by line and then by column.  Offsets between characters are in the same order as
their places and can be found again from them (`LineTable.places_ordered`): within a line, their
columns are as far apart as there are characters between them.  An offset inside a character has its
column in bytes, so that its place may be behind the place of a later offset.  This is what
`LineTable.Overtakes` says, and nothing else inverts a location (`LineTable.location_ordered_iff`).
-/

namespace TreeConversion

/-- Places in the order in which they are read. -/
def Place.key (p : Place) : ℕ ×ₗ ℕ := toLex (p.line, p.column)

namespace Place

variable {p q : Place}

theorem key_lt : p.key < q.key ↔ p.line < q.line ∨ p.line = q.line ∧ p.column < q.column :=
  Prod.Lex.toLex_lt_toLex

theorem key_le : p.key ≤ q.key ↔ p.line < q.line ∨ p.line = q.line ∧ p.column ≤ q.column :=
  Prod.Lex.toLex_le_toLex

end Place

namespace LineTable

open Text

variable {text : String} {a b s s' : Nat} {mid : List Char} {p q : Position}

/-! ### Columns of one line -/

theorem LineStart.unique (here : LineStart text a s) (here' : LineStart text a s') : s = s' := by
  have behind {s s' : Nat} (here : LineStart text a s) (here' : LineStart text a s') : s' ≤ s := by
    by_contra later
    rcases List.mem_cons.1 here'.mem with rfl | mem
    · exact later (Nat.zero_le s)
    · exact Nat.not_lt.2 here'.le (here.last s' mem (Nat.lt_of_not_le later))
  exact Nat.le_antisymm (behind here' here) (behind here here')

namespace Counts

theorem column_eq (counts : Counts text s p) (between : Between text.toList s p.offset mid) :
    p.column = mid.length := by
  obtain ⟨mid', between', column⟩ := counts.outside between.boundary.2
  rw [column, between'.unique between]

theorem column_le (counts : Counts text s p) : p.column ≤ p.offset - s := by
  by_cases boundary : Boundary text.toList p.offset
  · obtain ⟨mid, between, column⟩ := counts.outside boundary
    exact column ▸ between.length_le
  · exact (counts.inside boundary).le

theorem column_add (here : Counts text s p) (there : Counts text s q)
    (between : Between text.toList p.offset q.offset mid) : q.column = p.column + mid.length := by
  obtain ⟨front, before, column⟩ := here.outside between.boundary.1
  rw [column, there.column_eq (before.trans between), List.length_append]

end Counts

/-- The offset `a` is inside a character and `b` is not, and more bytes go before `a` in their line
than characters before `b`. -/
def Overtakes (text : String) (a b : Nat) : Prop :=
  ¬ Boundary text.toList a ∧ ∃ s mid, LineStart text a s ∧ LineStart text b s ∧
    Between text.toList s b mid ∧ mid.length < a - s

theorem Counts.column_le_iff (here : Counts text s p) (there : Counts text s q)
    (le : p.offset ≤ q.offset) : p.column ≤ q.column ↔ ¬ Overtakes text p.offset q.offset := by
  constructor
  · rintro order ⟨inside, s', mid, start, -, between, fewer⟩
    obtain rfl := here.start.unique start
    rw [here.inside inside, there.column_eq between] at order
    exact Nat.not_lt.2 order fewer
  · intro apart
    by_contra inverted
    -- two columns in the same unit are in order, and no column is more than the number of bytes
    have last : Boundary text.toList q.offset := by
      by_contra inside
      have bytes := there.inside inside
      have fewer := here.column_le
      omega
    have inside : ¬ Boundary text.toList p.offset := by
      intro first
      obtain ⟨mid, between⟩ := exists_between first last le
      have grown := here.column_add there between
      omega
    obtain ⟨mid, between, chars⟩ := there.outside last
    have bytes := here.inside inside
    exact apart ⟨inside, s, mid, here.start, there.start, between, by omega⟩

/-! ### Lines -/

namespace Locates

theorem offset_eq (here : Locates text a p) (boundary : Boundary text.toList a) : p.offset = a := by
  rw [here.offset, ← byteLength_toList, Nat.min_eq_left boundary.le]

theorem offset_le (here : Locates text a p) (there : Locates text b q) (le : a ≤ b) :
    p.offset ≤ q.offset := by
  rw [here.offset, there.offset]
  omega

theorem line_le (here : Locates text a p) (there : Locates text b q) (le : a ≤ b) :
    p.line ≤ q.line := by
  rw [here.line, there.line]
  refine Nat.add_le_add_left (List.countP_mono_left fun e _ gone => ?_) 1
  exact decide_eq_true (Nat.le_trans (of_decide_eq_true gone) (here.offset_le there le))

theorem line_eq (here : Locates text a p) (there : Locates text b q)
    (start : LineStart text p.offset s) (start' : LineStart text q.offset s) : p.line = q.line := by
  -- for every offset of the line, the line ends that have gone by are those up to its start
  have gone {x e : Nat} (start : LineStart text x s) (he : e ∈ lineEnds text.toList) :
      e ≤ x ↔ e ≤ s := by
    refine ⟨fun before => ?_, fun before => Nat.le_trans before start.le⟩
    exact Nat.le_of_not_lt fun later => Nat.not_lt.2 before (start.last e he later)
  rw [here.line, there.line, List.countP_congr fun e he => ?_]
  rw [decide_eq_true_iff, decide_eq_true_iff, gone start he, gone start' he]

theorem exists_start (here : Locates text a p) (there : Locates text b q) (same : p.line = q.line) :
    ∃ s, Counts text s p ∧ Counts text s q := by
  obtain ⟨s, row, counts⟩ := here.column
  obtain ⟨s', row', counts'⟩ := there.column
  rw [same, row'] at row
  obtain rfl := Option.some.inj row
  exact ⟨s', counts, counts'⟩

theorem exists_between_of_line (here : Locates text a p) (there : Locates text b q)
    (first : Boundary text.toList a) (last : Boundary text.toList b) (le : a ≤ b)
    (same : p.line = q.line) :
    ∃ mid, Between text.toList a b mid ∧ q.column = p.column + mid.length := by
  obtain ⟨s, counts, counts'⟩ := here.exists_start there same
  obtain ⟨mid, between⟩ := exists_between first last le
  refine ⟨mid, between, counts.column_add counts' ?_⟩
  rwa [here.offset_eq first, there.offset_eq last]

theorem key_lt (here : Locates text a p) (there : Locates text b q)
    (first : Boundary text.toList a) (last : Boundary text.toList b) (less : a < b) :
    p.toPlace.key < q.toPlace.key := by
  refine Place.key_lt.2 ((here.line_le there less.le).lt_or_eq.imp_right fun same => ⟨same, ?_⟩)
  obtain ⟨mid, between, column⟩ := here.exists_between_of_line there first last less.le same
  have more : mid ≠ [] := by
    rintro rfl
    exact less.ne between.size
  have some := List.length_pos_of_ne_nil more
  omega

theorem key_le_iff (here : Locates text a p) (there : Locates text b q) (le : a ≤ b) :
    p.toPlace.key ≤ q.toPlace.key ↔ ¬ Overtakes text p.offset q.offset := by
  rw [Place.key_le]
  rcases (here.line_le there le).lt_or_eq with before | same
  · refine iff_of_true (.inl before) ?_
    rintro ⟨-, s, mid, start, start', -⟩
    exact before.ne (here.line_eq there start start')
  · obtain ⟨s, counts, counts'⟩ := here.exists_start there same
    rw [← counts.column_le_iff counts' (here.offset_le there le)]
    exact ⟨fun order => (order.resolve_left same.not_lt).2, fun order => .inr ⟨same, order⟩⟩

end Locates

/-! ### Offsets of places -/

/-- The offset of a place: behind the characters that its column counts in its line. -/
def offsetAt (t : LineTable) (p : Place) : Nat :=
  let lineStart := t.starts.getD (p.line - 1) 0
  let line := (dropBytes? lineStart t.text.toList).getD []
  lineStart + byteLength (line.take p.column)

theorem Locates.offsetAt (here : Locates text a p) (boundary : Boundary text.toList a) :
    (ofText text).offsetAt p.toPlace = a := by
  obtain ⟨s, row, counts⟩ := here.column
  have offset := here.offset_eq boundary
  obtain ⟨mid, between, column⟩ := counts.outside (offset.symm ▸ boundary)
  have start : (ofText text).starts.getD (p.line - 1) 0 = s := by
    rw [Array.getD_eq_getD_getElem?, ← Array.getElem?_toList, toList_starts, row, Option.getD_some]
  obtain ⟨front, back, whole, size, -⟩ := id between
  have line : dropBytes? s (ofText text).text.toList = some (mid ++ back) :=
    dropBytes?_eq_some_iff.2 ⟨front, whole, size⟩
  rw [LineTable.offsetAt, start, line, Option.getD_some, column, List.take_left, between.size, offset]

/-- The places of the offsets between characters. -/
structure Ordered (text : String) (t : LineTable) : Prop where
  key_lt : StrictMonoOn (fun a => (t.position a).toPlace.key) {a | Boundary text.toList a}
  /-- Columns of a line are as far apart as there are characters between the offsets. -/
  column : ∀ a b, Boundary text.toList a → Boundary text.toList b → a < b →
    (t.position a).line = (t.position b).line →
    ∃ mid, Between text.toList a b mid ∧ (t.position b).column = (t.position a).column + mid.length
  injOn : Set.InjOn (fun a => (t.position a).toPlace) {a | Boundary text.toList a}
  offsetAt : Set.LeftInvOn t.offsetAt (fun a => (t.position a).toPlace) {a | Boundary text.toList a}

/-- Offsets between characters keep their order as places, and are found again from them. -/
theorem places_ordered (text : String) : Ordered text (ofText text) := by
  have back : Set.LeftInvOn (ofText text).offsetAt (fun a => ((ofText text).position a).toPlace)
      {a | Boundary text.toList a} := fun a boundary => (locates_position text a).offsetAt boundary
  exact {
    key_lt := fun a first b last =>
      (locates_position text a).key_lt (locates_position text b) first last
    column := fun a b first last less =>
      (locates_position text a).exists_between_of_line (locates_position text b) first last less.le
    injOn := back.injOn
    offsetAt := back }

/-! ### Locations -/

section

variable {span : Span} (ordered : span.start ≤ span.stop)

include ordered

/-- A location is not inverted if its start is between characters or past the end. -/
theorem location_ordered_of_boundary
    (boundary : Boundary text.toList (min span.start text.utf8ByteSize)) :
    ((ofText text).location span).start.key ≤ ((ofText text).location span).stop.key := by
  have here := locates_position text span.start
  refine (here.key_le_iff (locates_position text span.stop) ordered).2 fun overtakes => ?_
  exact overtakes.1 (here.offset ▸ boundary)

/-- A location is inverted just where its start overtakes its stop. -/
theorem location_ordered_iff :
    ((ofText text).location span).start.key ≤ ((ofText text).location span).stop.key ↔
      ¬ Overtakes text (min span.start text.utf8ByteSize) (min span.stop text.utf8ByteSize) := by
  have here := locates_position text span.start
  have there := locates_position text span.stop
  rw [← here.offset, ← there.offset]
  exact here.key_le_iff there ordered

end

/-- Of two characters of two bytes, the offset inside the second is given three columns, and the end
of both is given two. -/
theorem location_doubled : (ofText "éé").location ⟨3, 4⟩ = ⟨⟨1, 3⟩, ⟨1, 2⟩⟩ := by decide +kernel

theorem location_ordered_iff_doubled : Span.start ⟨3, 4⟩ ≤ Span.stop ⟨3, 4⟩ ∧
    Overtakes "éé" (min 3 "éé".utf8ByteSize) (min 4 "éé".utf8ByteSize) := by
  have ordered : Span.start ⟨3, 4⟩ ≤ Span.stop ⟨3, 4⟩ := by decide
  refine ⟨ordered, not_not.1 fun apart => ?_⟩
  have order := (location_ordered_iff ordered).2 apart
  rw [location_doubled, Place.key_le] at order
  exact absurd order (by decide)

theorem location_inverted : ¬ ∀ (text : String) (span : Span), span.start ≤ span.stop →
    ((ofText text).location span).start.key ≤ ((ofText text).location span).stop.key := by
  intro ordered
  have order := ordered "éé" ⟨3, 4⟩ (by decide)
  rw [location_doubled, Place.key_le] at order
  exact absurd order (by decide)

end LineTable

end TreeConversion
