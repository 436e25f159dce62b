import TreeConversion.Conversion.Settings
import TreeConversion.Proofs.Records
import TreeConversion.Target.Json

/-!
# What is written is read back

Of each type that is written as JSON, every value is read back from what is written of it, and what
is read of any document is written so that the same is read again (`Decoder.RoundTrips`).  Offsets and
the like are to be words, and handles and codes half words; nothing else is ever read.
-/

namespace TreeConversion

open Json

theorem Json.Decoder.inverts_word : Decoder.word.Inverts .nat (· < UInt64.size) 0 :=
  inverts_natural UInt64.size

/-! ### Spans and handles -/

namespace Span

def Fits (s : Span) : Prop := s.start < UInt64.size ∧ s.stop < UInt64.size

theorem inverts : decode.Inverts toValue Fits 1 where
  reads s fit depth deep doc spells := by
    have ends : ∀ offset ∈ [s.start, s.stop], offset < UInt64.size :=
      List.forall_mem_cons.2 ⟨fit.1, List.forall_mem_singleton.2 fit.2⟩
    have read := Decoder.inverts_word.list.reads _ ends depth deep doc spells
    rw [decode, read]
    rfl
  fits depth doc s read := by
    obtain ⟨offsets, read, made⟩ := exists_of_bind_ok read
    have ends := Decoder.inverts_word.list.fits depth doc offsets read
    split at made
    · cases made
      exact ⟨ends _ List.mem_cons_self, ends _ (List.mem_cons_of_mem _ List.mem_cons_self)⟩
    · cases made

end Span

namespace Source.Handle

def Fits (h : Handle) : Prop := h.index < UInt32.size

theorem inverts : decode.Inverts toValue Fits 0 where
  reads h fit depth deep doc spells := by
    have read : Decoder.halfWord depth doc = .ok h.index :=
      (Decoder.inverts_natural _).reads h.index fit depth deep doc spells
    rw [decode, read]
    rfl
  fits depth doc h read := by
    obtain ⟨index, number, rfl⟩ := exists_of_map_ok read
    exact (Decoder.inverts_natural _).fits depth doc index number

end Source.Handle

/-! ### Places -/

namespace Place

def Fits (p : Place) : Prop := p.line < UInt64.size ∧ p.column < UInt64.size

def slots : List (Slot Place) := [
  .always "line" [] true .word (fun p line => { p with line }) line .nat,
  .always "column" [] true .word (fun p column => { p with column }) column .nat]

theorem writes : schema.Writes slots toValue Fits 0 where
  fields := rfl
  apart := by decide
  lawful := by
    have word := Decoder.inverts_word
    simp only [slots, List.forall_mem_cons]
    refine ⟨?line, ?column, List.forall_mem_nil _⟩
    case line =>
      exact Slot.lawful_always word (Nat.le_refl 0) (fun _ h => h.1) fun _ _ hb h => ⟨hb, h.2⟩
    case column =>
      exact Slot.lawful_always word (Nat.le_refl 0) (fun _ h => h.2) fun _ _ hb h => ⟨h.1, hb⟩
  swaps := by simp [slots, Slot.always]
  whole _ := rfl
  blank := ⟨by decide, by decide⟩
  written _ := ⟨_, rfl, .refl _⟩

end Place

namespace Location

def Fits (l : Location) : Prop := l.start.Fits ∧ l.stop.Fits

def slots : List (Slot Location) := [
  .always "start" [] true Place.decode (fun l start => { l with start }) start Place.toValue,
  .always "end" [] true Place.decode (fun l stop => { l with stop }) stop Place.toValue]

theorem writes : schema.Writes slots toValue Fits 1 where
  fields := rfl
  apart := by decide
  lawful := by
    have place := Place.writes.inverts
    simp only [slots, List.forall_mem_cons]
    refine ⟨?start, ?stop, List.forall_mem_nil _⟩
    case start =>
      exact Slot.lawful_always place (Nat.le_refl 1) (fun _ h => h.1) fun _ _ hb h => ⟨hb, h.2⟩
    case stop =>
      exact Slot.lawful_always place (Nat.le_refl 1) (fun _ h => h.2) fun _ _ hb h => ⟨h.1, hb⟩
  swaps := by simp [slots, Slot.always]
  whole _ := rfl
  blank := ⟨Place.writes.blank, Place.writes.blank⟩
  written _ := ⟨_, rfl, .refl _⟩

end Location

namespace Position

structure Fits (p : Position) : Prop where
  offset : p.offset < UInt64.size
  place : p.toPlace.Fits

def slots : List (Slot Position) := [
  .always "offset" [] true .word (fun p offset => { p with offset }) offset .nat,
  .always "line" [] true .word (fun p line => { p with line }) (fun p => p.line) .nat,
  .always "column" [] true .word (fun p column => { p with column }) (fun p => p.column) .nat]

theorem writes : schema.Writes slots toValue Fits 0 where
  fields := rfl
  apart := by decide
  lawful := by
    have word := Decoder.inverts_word
    simp only [slots, List.forall_mem_cons]
    refine ⟨?offset, ?line, ?column, List.forall_mem_nil _⟩
    case offset =>
      exact Slot.lawful_always word (Nat.le_refl 0) (fun _ h => h.offset) fun _ _ hb h => ⟨hb, h.2⟩
    case line =>
      exact Slot.lawful_always word (Nat.le_refl 0) (fun _ h => h.place.1)
        fun _ _ hb h => ⟨h.offset, hb, h.place.2⟩
    case column =>
      exact Slot.lawful_always word (Nat.le_refl 0) (fun _ h => h.place.2)
        fun _ _ hb h => ⟨h.offset, h.place.1, hb⟩
  swaps := by simp [slots, Slot.always]
  whole _ := rfl
  blank := ⟨by decide, by decide, by decide⟩
  written _ := ⟨_, rfl, .refl _⟩

end Position

namespace Source

/-! ### Diagnostics -/

namespace Diagnostic

structure Fits (d : Diagnostic) : Prop where
  start : d.start < UInt64.size
  length : d.length < UInt64.size
  code : ∀ code ∈ d.code, code < UInt32.size

def slots : List (Slot Diagnostic) := [
  .always "message" [] true .string (fun d message => { d with message }) message .string,
  .always "start" [] true .word (fun d start => { d with start }) start .nat,
  .always "length" [] false .word (fun d length => { d with length }) length .nat,
  .maybe "code" .halfWord (fun d code => { d with code }) code .nat]

theorem writes : schema.Writes slots toValue Fits 0 where
  fields := rfl
  apart := by decide
  lawful := by
    have word := Decoder.inverts_word
    simp only [slots, List.forall_mem_cons]
    refine ⟨?message, ?start, ?length, ?code, List.forall_mem_nil _⟩
    case message =>
      exact Slot.lawful_always Decoder.inverts_string (Nat.le_refl 0) (fun _ _ => trivial)
        fun _ _ _ h => ⟨h.start, h.length, h.code⟩
    case start =>
      exact Slot.lawful_always word (Nat.le_refl 0) (fun _ h => h.start)
        fun _ _ hb h => ⟨hb, h.length, h.code⟩
    case length =>
      exact Slot.lawful_always word (Nat.le_refl 0) (fun _ h => h.length)
        fun _ _ hb h => ⟨h.start, hb, h.code⟩
    case code =>
      refine Slot.lawful_maybe (Decoder.inverts_natural UInt32.size) (Nat.le_refl 0) ?_
        (fun _ h => h.code) fun _ _ hx h => ⟨h.start, h.length, hx⟩
      intro n spells
      cases spells
  swaps := by simp [slots, Slot.always, Slot.maybe]
  whole d := by
    obtain ⟨message, start, length, _ | code⟩ := d <;> rfl
  blank := ⟨by decide, by decide, fun code hc => by cases hc⟩
  written d := by
    refine ⟨_, rfl, ?_⟩
    obtain ⟨message, start, length, _ | code⟩ := d <;> exact .refl _

end Diagnostic

/-! ### Tokens and comments -/

namespace Token

structure Fits (t : Token) : Prop where
  start : t.start < UInt64.size
  stop : t.stop < UInt64.size

def slots : List (Slot Token) := [
  .always "kind" [] true .string (fun t kind => { t with kind }) kind .string,
  .always "value" [] true .string (fun t value => { t with value }) value .string,
  .always "start" [] true .word (fun t start => { t with start }) start .nat,
  .always "end" [] true .word (fun t stop => { t with stop }) stop .nat]

theorem writes : schema.Writes slots toValue Fits 0 where
  fields := rfl
  apart := by decide
  lawful := by
    have word := Decoder.inverts_word
    have string := Decoder.inverts_string
    simp only [slots, List.forall_mem_cons]
    refine ⟨?kind, ?value, ?start, ?stop, List.forall_mem_nil _⟩
    case kind =>
      exact Slot.lawful_always string (Nat.le_refl 0) (fun _ _ => trivial)
        fun _ _ _ h => ⟨h.start, h.stop⟩
    case value =>
      exact Slot.lawful_always string (Nat.le_refl 0) (fun _ _ => trivial)
        fun _ _ _ h => ⟨h.start, h.stop⟩
    case start =>
      exact Slot.lawful_always word (Nat.le_refl 0) (fun _ h => h.start) fun _ _ hb h => ⟨hb, h.stop⟩
    case stop =>
      exact Slot.lawful_always word (Nat.le_refl 0) (fun _ h => h.stop) fun _ _ hb h => ⟨h.start, hb⟩
  swaps := by simp [slots, Slot.always]
  whole _ := rfl
  blank := ⟨by decide, by decide⟩
  written _ := ⟨_, rfl, .refl _⟩

end Token

theorem CommentStyle.inverts : decode.Inverts toValue (fun _ => True) 0 where
  reads style _ depth _ doc spells := by
    cases style with
    | line =>
      cases spells
      rfl
    | block =>
      cases spells
      rfl
  fits _ _ _ _ := trivial

namespace Comment

structure Fits (c : Comment) : Prop where
  start : c.start < UInt64.size
  stop : c.stop < UInt64.size

def slots : List (Slot Comment) := [
  .always "style" [] true CommentStyle.decode (fun c style => { c with style }) style
    CommentStyle.toValue,
  .always "text" [] true .string (fun c text => { c with text }) text .string,
  .always "start" [] true .word (fun c start => { c with start }) start .nat,
  .always "end" [] true .word (fun c stop => { c with stop }) stop .nat]

theorem writes : schema.Writes slots toValue Fits 0 where
  fields := rfl
  apart := by decide
  lawful := by
    have word := Decoder.inverts_word
    simp only [slots, List.forall_mem_cons]
    refine ⟨?style, ?text, ?start, ?stop, List.forall_mem_nil _⟩
    case style =>
      exact Slot.lawful_always CommentStyle.inverts (Nat.le_refl 0) (fun _ _ => trivial)
        fun _ _ _ h => ⟨h.start, h.stop⟩
    case text =>
      exact Slot.lawful_always Decoder.inverts_string (Nat.le_refl 0) (fun _ _ => trivial)
        fun _ _ _ h => ⟨h.start, h.stop⟩
    case start =>
      exact Slot.lawful_always word (Nat.le_refl 0) (fun _ h => h.start) fun _ _ hb h => ⟨hb, h.stop⟩
    case stop =>
      exact Slot.lawful_always word (Nat.le_refl 0) (fun _ h => h.stop) fun _ _ hb h => ⟨h.start, hb⟩
  swaps := by simp [slots, Slot.always]
  whole _ := rfl
  blank := ⟨by decide, by decide⟩
  written _ := ⟨_, rfl, .refl _⟩

end Comment

end Source

namespace Target

namespace PlacedToken

structure Fits (t : PlacedToken) : Prop where
  span : t.span.Fits
  location : t.location.Fits

def slots : List (Slot PlacedToken) := [
  .always "type" [] true .string (fun t kind => { t with kind }) kind .string,
  .always "value" [] true .string (fun t value => { t with value }) value .string,
  .always "range" [] true Span.decode (fun t span => { t with span }) span Span.toValue,
  .always "loc" [] true Location.decode (fun t location => { t with location }) location
    Location.toValue]

theorem writes : schema.Writes slots toValue Fits 2 where
  fields := rfl
  apart := by decide
  lawful := by
    have string := Decoder.inverts_string
    simp only [slots, List.forall_mem_cons]
    refine ⟨?kind, ?value, ?span, ?location, List.forall_mem_nil _⟩
    case kind =>
      exact Slot.lawful_always string (Nat.zero_le 2) (fun _ _ => trivial)
        fun _ _ _ h => ⟨h.span, h.location⟩
    case value =>
      exact Slot.lawful_always string (Nat.zero_le 2) (fun _ _ => trivial)
        fun _ _ _ h => ⟨h.span, h.location⟩
    case span =>
      exact Slot.lawful_always Span.inverts (Nat.le_succ 1) (fun _ h => h.span)
        fun _ _ hb h => ⟨hb, h.location⟩
    case location =>
      exact Slot.lawful_always Location.writes.inverts (Nat.le_refl 2) (fun _ h => h.location)
        fun _ _ hb h => ⟨h.span, hb⟩
  swaps := by simp [slots, Slot.always]
  whole _ := rfl
  blank := ⟨⟨by decide, by decide⟩, Location.writes.blank⟩
  written _ := ⟨_, rfl, .refl _⟩

end PlacedToken

namespace PlacedComment

structure Fits (c : PlacedComment) : Prop where
  span : c.span.Fits
  location : c.location.Fits

def slots : List (Slot PlacedComment) := [
  .always "type" [] true Source.CommentStyle.decode (fun c style => { c with style }) style
    Source.CommentStyle.toValue,
  .always "value" [] true .string (fun c value => { c with value }) value .string,
  .always "range" [] true Span.decode (fun c span => { c with span }) span Span.toValue,
  .always "loc" [] true Location.decode (fun c location => { c with location }) location
    Location.toValue]

theorem writes : schema.Writes slots toValue Fits 2 where
  fields := rfl
  apart := by decide
  lawful := by
    simp only [slots, List.forall_mem_cons]
    refine ⟨?style, ?value, ?span, ?location, List.forall_mem_nil _⟩
    case style =>
      exact Slot.lawful_always Source.CommentStyle.inverts (Nat.zero_le 2) (fun _ _ => trivial)
        fun _ _ _ h => ⟨h.span, h.location⟩
    case value =>
      exact Slot.lawful_always Decoder.inverts_string (Nat.zero_le 2) (fun _ _ => trivial)
        fun _ _ _ h => ⟨h.span, h.location⟩
    case span =>
      exact Slot.lawful_always Span.inverts (Nat.le_succ 1) (fun _ h => h.span)
        fun _ _ hb h => ⟨hb, h.location⟩
    case location =>
      exact Slot.lawful_always Location.writes.inverts (Nat.le_refl 2) (fun _ h => h.location)
        fun _ _ hb h => ⟨h.span, hb⟩
  swaps := by simp [slots, Slot.always]
  whole _ := rfl
  blank := ⟨⟨by decide, by decide⟩, Location.writes.blank⟩
  written _ := ⟨_, rfl, .refl _⟩

end PlacedComment

end Target

/-! ### Settings -/

namespace Settings

def Switch.slot (switch : Switch) : Slot Settings :=
  .always switch.name switch.aliases false .bool (fun s on => s.set switch on) (·.get switch) .bool

def kindSlot : Slot Settings :=
  .always "placeholder_kind" [] false .string (fun s placeholderKind => { s with placeholderKind })
    placeholderKind .string

def slots : List (Slot Settings) := [
  Switch.ranges.slot, Switch.locations.slot, Switch.tokens.slot, Switch.comments.slot,
  Switch.failOnUnknown.slot, Switch.origins.slot, Switch.allowInvalid.slot, kindSlot,
  Switch.quiet.slot]

theorem mem_slots {p : Slot Settings} (mem : p ∈ slots) :
    p = kindSlot ∨ ∃ switch, p = Switch.slot switch := by
  simp only [slots, List.mem_cons, List.not_mem_nil, or_false] at mem
  rcases mem with h | h | h | h | h | h | h | h | h
  case inr.inr.inr.inr.inr.inr.inr.inl => exact .inl h
  all_goals exact .inr ⟨_, h⟩

theorem Switch.copy_copy (a b : Switch) (v s : Settings) :
    a.slot.copy v (b.slot.copy v s) = b.slot.copy v (a.slot.copy v s) := by
  cases a <;> cases b <;> rfl

theorem Switch.copy_kind (a : Switch) (v s : Settings) :
    a.slot.copy v (kindSlot.copy v s) = kindSlot.copy v (a.slot.copy v s) := by
  cases a <;> rfl

theorem foldl_copy (v : Settings) : slots.foldl (fun s p => p.copy v s) standard = v := by
  simp only [slots, List.foldl_cons, List.foldl_nil, Switch.slot, kindSlot, Slot.always, set, get]

theorem writes : schema.Writes slots toValue (fun _ => True) 0 where
  fields := rfl
  apart := by decide
  lawful p mem := by
    have low := Nat.le_refl 0
    rcases mem_slots mem with rfl | ⟨switch, rfl⟩
    · exact Slot.lawful_always Decoder.inverts_string low (fun _ _ => trivial) fun _ _ _ _ => trivial
    · exact Slot.lawful_always Decoder.inverts_bool low (fun _ _ => trivial) fun _ _ _ _ => trivial
  swaps := by
    refine List.pairwise_of_forall_mem_list fun p hp q hq v s => ?_
    rcases mem_slots hp with rfl | ⟨a, rfl⟩ <;> rcases mem_slots hq with rfl | ⟨b, rfl⟩
    · rfl
    · exact (b.copy_kind v s).symm
    · exact a.copy_kind v s
    · exact a.copy_copy b v s
  whole v := by
    have all : Slot.given slots v = slots := rfl
    rw [all]
    exact foldl_copy v
  blank := trivial
  written s := by
    -- the kind of placeholders is written first, but it is not the first field
    let front := (Switch.all.take 7).map fun switch => (switch.name, Value.bool (s.get switch))
    exact ⟨_, rfl, (@List.perm_middle _ _ front _).symm⟩

end Settings

/-! ### Round trips -/

/-- Every value that fits is read back from what is written of it; and what has been read of any
document is written so that it is read back, and hence written again in the same way. -/
structure Json.Decoder.RoundTrips {α : Type} (decode : Decoder α) (toValue : α → Value)
    (fits : α → Prop) : Prop where
  reads : ∀ a, fits a → ∀ doc, Document.Spells doc (toValue a) → decode nestingLimit doc = .ok a
  settles : ∀ depth doc a, decode depth doc = .ok a → ∀ doc', Document.Spells doc' (toValue a) →
    ∃ a', decode nestingLimit doc' = .ok a' ∧ a' = a ∧ Document.Spells doc' (toValue a')

theorem Json.Decoder.Inverts.roundTrips {α : Type} {decode : Decoder α} {toValue : α → Value}
    {fits : α → Prop} {height : Nat} (inverts : decode.Inverts toValue fits height)
    (low : height ≤ nestingLimit) : decode.RoundTrips toValue fits where
  reads a fit doc spells := inverts.reads a fit nestingLimit low doc spells
  settles depth doc a read doc' spells :=
    ⟨a, inverts.reads a (inverts.fits depth doc a read) nestingLimit low doc' spells, rfl, spells⟩

/-- Decoding undoes encoding, for each type that is written.  What is written of a value is a
document, and so is any other that lists the members of its objects in another order. -/
theorem decode_undoes_toValue :
    (∀ value, (Document.ofValue value).Spells value) ∧
    Span.decode.RoundTrips Span.toValue Span.Fits ∧
    Place.decode.RoundTrips Place.toValue Place.Fits ∧
    Location.decode.RoundTrips Location.toValue Location.Fits ∧
    Position.decode.RoundTrips Position.toValue Position.Fits ∧
    Source.Handle.decode.RoundTrips Source.Handle.toValue Source.Handle.Fits ∧
    Source.Diagnostic.decode.RoundTrips Source.Diagnostic.toValue Source.Diagnostic.Fits ∧
    Source.Token.decode.RoundTrips Source.Token.toValue Source.Token.Fits ∧
    Source.Comment.decode.RoundTrips Source.Comment.toValue Source.Comment.Fits ∧
    Source.CommentStyle.decode.RoundTrips Source.CommentStyle.toValue (fun _ => True) ∧
    Target.PlacedToken.decode.RoundTrips Target.PlacedToken.toValue Target.PlacedToken.Fits ∧
    Target.PlacedComment.decode.RoundTrips Target.PlacedComment.toValue Target.PlacedComment.Fits ∧
    Settings.decode.RoundTrips Settings.toValue (fun _ => True) :=
  ⟨Document.spells_ofValue, Span.inverts.roundTrips (by decide),
    Place.writes.inverts.roundTrips (by decide), Location.writes.inverts.roundTrips (by decide),
    Position.writes.inverts.roundTrips (by decide), Source.Handle.inverts.roundTrips (by decide),
    Source.Diagnostic.writes.inverts.roundTrips (by decide),
    Source.Token.writes.inverts.roundTrips (by decide),
    Source.Comment.writes.inverts.roundTrips (by decide),
    Source.CommentStyle.inverts.roundTrips (by decide),
    Target.PlacedToken.writes.inverts.roundTrips (by decide),
    Target.PlacedComment.writes.inverts.roundTrips (by decide),
    Settings.writes.inverts.roundTrips (by decide)⟩

/-- A diagnostic that is read of an array is written as an object, without the code it lacks. -/
example : Source.Diagnostic.decode nestingLimit
      (.array [.string (some "odd"), .number (some (.natural 3)), .number (some (.natural 1)), .null]
        true) = .ok ⟨"odd", 3, 1, none⟩ ∧
    Source.Diagnostic.toValue ⟨"odd", 3, 1, none⟩ =
      .object [("length", .nat 1), ("message", .string "odd"), ("start", .nat 3)] :=
  ⟨rfl, rfl⟩

end TreeConversion
