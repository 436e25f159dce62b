import TreeConversion.Json.Schema
import Mathlib.Data.List.Nodup
import Mathlib.Data.List.Perm.Basic

/-!
# Records that are read back

A schema says how a record is read; beside it stands how the record is written, field by field
(`Slot`).  If each field reads what is written of it, and what one field puts into a record no other
disturbs (`Schema.Writes`), the schema reads the whole record back, from a document that lists the
members in any order (`Schema.Writes.inverts`).
-/

namespace TreeConversion.Json

/-! ### Members in any order -/

theorem Members.perm_insert {key : String} (value : Value) {ms : Members}
    (fresh : key ∉ ms.map Prod.fst) : (ms.insert key value).Perm ((key, value) :: ms) := by
  induction ms with
  | nil => exact .refl _
  | cons m rest ih =>
    obtain ⟨k, v⟩ := m
    rw [List.map_cons, List.mem_cons, not_or] at fresh
    rw [Members.insert]
    split
    · exact .refl _
    · rw [if_neg fresh.1]
      exact ((ih fresh.2).cons _).trans (.swap _ _ _)

theorem Members.perm_foldl_insert {pairs : List (String × Value)} {ms : Members}
    (distinct : ((pairs ++ ms).map Prod.fst).Nodup) :
    (pairs.foldl (fun ms p => Members.insert p.1 p.2 ms) ms).Perm (pairs ++ ms) := by
  induction pairs generalizing ms with
  | nil => exact .refl _
  | cons p pairs ih =>
    rw [List.cons_append, List.map_cons] at distinct
    have fresh : p.1 ∉ ms.map Prod.fst := by
      intro old
      refine (List.nodup_cons.1 distinct).1 ?_
      rw [List.map_append]
      exact List.mem_append_right _ old
    have moved : (pairs ++ ms.insert p.1 p.2).Perm (p :: (pairs ++ ms)) :=
      ((perm_insert p.2 fresh).append_left pairs).trans List.perm_middle
    exact (ih ((moved.map Prod.fst).nodup_iff.2 distinct)).trans moved

theorem Members.perm_ofList {pairs : List (String × Value)}
    (distinct : (pairs.map Prod.fst).Nodup) : (Members.ofList pairs).Perm pairs := by
  have perm := @perm_foldl_insert pairs [] (by rwa [List.append_nil])
  rwa [List.append_nil] at perm

mutual

/-- The document spells the value out, with the members of each object in some order. -/
inductive Document.Spells : Document → Value → Prop
  | null : Document.Spells .null .null
  | bool (b : Bool) : Document.Spells (.bool b) (.bool b)
  | number (n : Number) : Document.Spells (.number (some n)) (.number n)
  | string (s : String) : Document.Spells (.string (some s)) (.string s)
  | array {docs : List Document} {items : List Value} (each : SpellItems docs items) :
    Document.Spells (.array docs true) (.array items)
  | object {docs : List (Option String × Document)} {ordered members : Members}
    (each : SpellMembers docs ordered) (order : ordered.Perm members) :
    Document.Spells (.object docs true) (.object members)

inductive SpellItems : List Document → List Value → Prop
  | nil : SpellItems [] []
  | cons {doc : Document} {docs : List Document} {item : Value} {items : List Value}
    (first : doc.Spells item) (rest : SpellItems docs items) :
    SpellItems (doc :: docs) (item :: items)

inductive SpellMembers : List (Option String × Document) → Members → Prop
  | nil : SpellMembers [] []
  | cons {key : String} {doc : Document} {docs : List (Option String × Document)} {value : Value}
    {members : Members} (first : doc.Spells value) (rest : SpellMembers docs members) :
    SpellMembers ((some key, doc) :: docs) ((key, value) :: members)

end

mutual

theorem Document.spells_ofValue : ∀ v : Value, (Document.ofValue v).Spells v
  | .null => .null
  | .bool b => .bool b
  | .number n => .number n
  | .string s => .string s
  | .array items => .array (spellItems_ofItems items)
  | .object members => .object (spellMembers_ofMembers members) (.refl _)

theorem spellItems_ofItems : ∀ items : List Value, SpellItems (Document.ofItems items) items
  | [] => .nil
  | v :: rest => .cons (Document.spells_ofValue v) (spellItems_ofItems rest)

theorem spellMembers_ofMembers : ∀ members : List (String × Value),
    SpellMembers (Document.ofMembers members) members
  | [] => .nil
  | (_, v) :: rest => .cons (Document.spells_ofValue v) (spellMembers_ofMembers rest)

end

/-! ### Decoders that undo what is written -/

section ok

variable {α β : Type} {x : Except Fault α} {b : β}

theorem exists_of_map_ok {f : α → β} (h : x.map f = .ok b) : ∃ a, x = .ok a ∧ f a = b := by
  cases x with
  | error fault => cases h
  | ok a => exact ⟨a, rfl, Except.ok.inj h⟩

theorem exists_of_bind_ok {f : α → Except Fault β} (h : x >>= f = .ok b) :
    ∃ a, x = .ok a ∧ f a = .ok b := by
  cases x with
  | error fault => cases h
  | ok a => exact ⟨a, rfl, h⟩

end ok

namespace Decoder

variable {α : Type} {decode : Decoder α} {toValue : α → Value} {fits : α → Prop} {height : Nat}

/-- The decoder reads what is written of a value that fits, if so many arrays and objects may be
opened, and gives no values but those that fit. -/
structure Inverts (decode : Decoder α) (toValue : α → Value) (fits : α → Prop) (height : Nat) :
    Prop where
  reads : ∀ a, fits a → ∀ depth, height ≤ depth → ∀ doc, Document.Spells doc (toValue a) →
    decode depth doc = .ok a
  fits : ∀ depth doc a, decode depth doc = .ok a → fits a

theorem inverts_natural (bound : Nat) : (natural bound).Inverts .nat (· < bound) 0 where
  reads n fit depth _ doc spells := by
    cases spells
    exact if_pos fit
  fits depth doc n read := by
    unfold natural at read
    split at read
    · split at read
      · cases read
        assumption
      · cases read
    · cases read

theorem inverts_string : string.Inverts .string (fun _ => True) 0 where
  reads s _ depth _ doc spells := by
    cases spells
    rfl
  fits _ _ _ _ := trivial

theorem inverts_bool : bool.Inverts .bool (fun _ => True) 0 where
  reads b _ depth _ doc spells := by
    cases spells
    rfl
  fits _ _ _ _ := trivial

theorem Inverts.mapM_eq (inverts : decode.Inverts toValue fits height) {depth : Nat}
    (deep : height ≤ depth) {xs : List α} (fit : ∀ x ∈ xs, fits x) {docs : List Document}
    (each : SpellItems docs (xs.map toValue)) : docs.mapM (decode depth) = .ok xs := by
  induction xs generalizing docs with
  | nil =>
    cases each
    rfl
  | cons x xs ih =>
    obtain ⟨here, later⟩ := List.forall_mem_cons.1 fit
    rw [List.map_cons] at each
    cases each with
    | cons first rest =>
      rw [List.mapM_cons, inverts.reads x here depth deep _ first, ih later rest]
      rfl

theorem Inverts.forall_mapM (inverts : decode.Inverts toValue fits height) {depth : Nat}
    {docs : List Document} {xs : List α} (read : docs.mapM (decode depth) = .ok xs) :
    ∀ x ∈ xs, fits x := by
  induction docs generalizing xs with
  | nil =>
    cases read
    exact fun x hx => absurd hx List.not_mem_nil
  | cons doc docs ih =>
    rw [List.mapM_cons] at read
    obtain ⟨x, first, read⟩ := exists_of_bind_ok read
    obtain ⟨xs', rest, read⟩ := exists_of_bind_ok read
    cases read
    exact List.forall_mem_cons.2 ⟨inverts.fits depth doc x first, ih rest⟩

theorem Inverts.list (inverts : decode.Inverts toValue fits height) :
    (Decoder.list decode).Inverts (fun xs => .array (xs.map toValue)) (fun xs => ∀ x ∈ xs, fits x)
      (height + 1) where
  reads xs fit depth deep doc spells := by
    obtain ⟨depth, rfl⟩ := Nat.exists_eq_add_of_le' (Nat.le_trans (Nat.le_add_left 1 height) deep)
    cases spells with
    | array each =>
      have read := inverts.mapM_eq (Nat.le_of_succ_le_succ deep) fit each
      show Decoder.items (decode depth) _ true = .ok xs
      rw [Decoder.items, read]
      rfl
  fits depth doc xs read := by
    unfold Decoder.list at read
    split at read
    · obtain ⟨values, read, closing⟩ := exists_of_bind_ok read
      split at closing
      · cases closing
        exact inverts.forall_mapM read
      · cases closing
    · cases read

end Decoder

/-! ### Fields that are written -/

/-- A field of a record together with the way in which it is written. -/
structure Slot (ρ : Type) where
  field : Field ρ
  /-- What is written of the field, if anything is. -/
  write : ρ → Option Value
  /-- The second record with the field as it is in the first. -/
  copy : ρ → ρ → ρ

namespace Slot

variable {ρ β : Type} {fits : ρ → Prop} {height : Nat}

abbrev name (p : Slot ρ) : String := p.field.name

/-- All names that the field goes by. -/
def names (p : Slot ρ) : List String := p.field.name :: p.field.aliases

/-- The member that is written of the field. -/
def member (p : Slot ρ) (v : ρ) : Option (String × Value) :=
  (p.write v).map fun value => (p.name, value)

/-- The fields of which something is written. -/
def given (slots : List (Slot ρ)) (v : ρ) : List (Slot ρ) :=
  slots.filter fun p => (p.write v).isSome

/-- What is written of all fields. -/
def members (slots : List (Slot ρ)) (v : ρ) : Members := slots.filterMap fun p => p.member v

/-- A field that is always written. -/
def always (name : String) (aliases : List String) (needed : Bool) (decode : Decoder β)
    (set : ρ → β → ρ) (get : ρ → β) (toValue : β → Value) : Slot ρ where
  field := ⟨name, aliases, needed, fun depth doc r => (decode depth doc).map (set r)⟩
  write v := some (toValue (get v))
  copy v r := set r (get v)

/-- What is written of the field is read as it was, what is not written need not be given, and what is
read fits. -/
structure Lawful (p : Slot ρ) (fits : ρ → Prop) (height : Nat) : Prop where
  reads : ∀ v, fits v → ∀ value ∈ p.write v, ∀ depth, height ≤ depth →
    ∀ doc, Document.Spells doc value → ∀ r, p.field.store depth doc r = .ok (p.copy v r)
  omits : ∀ v, p.write v = none → p.field.needed = false
  keeps : ∀ depth doc r r', p.field.store depth doc r = .ok r' → fits r → fits r'

theorem lawful_always {name : String} {aliases : List String} {needed : Bool} {decode : Decoder β}
    {set : ρ → β → ρ} {get : ρ → β} {toValue : β → Value} {small : β → Prop} {low : Nat}
    (inverts : decode.Inverts toValue small low) (le : low ≤ height)
    (fit : ∀ v, fits v → small (get v)) (keeps : ∀ r b, small b → fits r → fits (set r b)) :
    (always name aliases needed decode set get toValue).Lawful fits height where
  reads v hv value hw depth deep doc spells r := by
    cases hw
    have read := inverts.reads (get v) (fit v hv) depth (Nat.le_trans le deep) doc spells
    show (decode depth doc).map (set r) = _
    rw [read]
    rfl
  omits v none := by cases none
  keeps depth doc r r' stored hr := by
    obtain ⟨b, read, rfl⟩ := exists_of_map_ok stored
    exact keeps r b (inverts.fits depth doc b read) hr

/-- A field that is written if there is something in it, and may be left out or null. -/
def maybe (name : String) (decode : Decoder β) (set : ρ → Option β → ρ) (get : ρ → Option β)
    (toValue : β → Value) : Slot ρ where
  field := .optional name decode.option set
  write v := (get v).map toValue
  copy v r := set r (get v)

theorem lawful_maybe {name : String} {decode : Decoder β} {set : ρ → Option β → ρ}
    {get : ρ → Option β} {toValue : β → Value} {small : β → Prop} {low : Nat}
    (inverts : decode.Inverts toValue small low) (le : low ≤ height)
    (solid : ∀ b, ¬ Document.Spells .null (toValue b))
    (fit : ∀ v, fits v → ∀ b ∈ get v, small b)
    (keeps : ∀ r x, (∀ b ∈ x, small b) → fits r → fits (set r x)) :
    (maybe name decode set get toValue).Lawful fits height where
  reads v hv value hw depth deep doc spells r := by
    obtain ⟨b, hb, rfl⟩ := Option.map_eq_some_iff.1 hw
    have read := inverts.reads b (fit v hv b hb) depth (Nat.le_trans le deep) doc spells
    have there : decode.option depth doc = .ok (some b) := by
      unfold Decoder.option
      split
      · exact absurd spells (solid b)
      · rw [read]
        rfl
    show (decode.option depth doc).map (set r) = .ok (set r (get v))
    rw [there, hb]
    rfl
  omits _ _ := rfl
  keeps depth doc r r' stored hr := by
    obtain ⟨x, read, rfl⟩ := exists_of_map_ok stored
    refine keeps r x (fun b hb => ?_) hr
    unfold Decoder.option at read
    split at read
    · cases read
      cases hb
    · obtain ⟨b', item, rfl⟩ := exists_of_map_ok read
      cases hb
      exact inverts.fits depth doc b item

/-! ### Members of fields -/

variable {v : ρ} {slots ps : List (Slot ρ)} {pairs : Members}

/-- The members are those that are written of these fields, in this order. -/
abbrev Own (slots : List (Slot ρ)) (v : ρ) : Members → List (Slot ρ) → Prop :=
  List.Forall₂ fun pair p => p ∈ slots ∧ p.member v = some pair

theorem own_members (slots : List (Slot ρ)) (v : ρ) :
    Own slots v (members slots v) (given slots v) := by
  induction slots with
  | nil => exact .nil
  | cons p slots ih =>
    have later : Own (p :: slots) v (members slots v) (given slots v) :=
      ih.imp fun pair q own => ⟨List.mem_cons_of_mem p own.1, own.2⟩
    unfold members given
    rw [List.filterMap_cons, List.filter_cons]
    cases hw : p.write v with
    | none =>
      have omitted : p.member v = none := by rw [member, hw, Option.map_none]
      rw [omitted]
      exact later
    | some value =>
      have own : p.member v = some (p.name, value) := by rw [member, hw, Option.map_some]
      rw [own]
      exact .cons ⟨List.mem_cons_self, own⟩ later

theorem Own.names (own : Own slots v pairs ps) :
    pairs.map Prod.fst = ps.map Slot.name := by
  induction own with
  | nil => rfl
  | cons first _ ih =>
    obtain ⟨value, -, rfl⟩ := Option.map_eq_some_iff.1 first.2
    rw [List.map_cons, List.map_cons, ih]

end Slot

/-! ### Records -/

namespace Schema

variable {ρ : Type} {s : Schema ρ} {slots : List (Slot ρ)} {toValue : ρ → Value} {fits : ρ → Prop}
  {height : Nat}

/-- Records are written by these fields, each of which minds its own part of the record. -/
structure Writes (s : Schema ρ) (slots : List (Slot ρ)) (toValue : ρ → Value) (fits : ρ → Prop)
    (height : Nat) : Prop where
  fields : s.fields = slots.map Slot.field
  apart : (slots.flatMap Slot.names).Nodup
  lawful : ∀ p ∈ slots, p.Lawful fits height
  swaps : slots.Pairwise fun p q => ∀ v r, p.copy v (q.copy v r) = q.copy v (p.copy v r)
  /-- What is not written is as in the blank record. -/
  whole : ∀ v, (Slot.given slots v).foldl (fun r p => p.copy v r) s.blank = v
  blank : fits s.blank
  written : ∀ v, ∃ pairs, toValue v = .ofMembers pairs ∧ pairs.Perm (Slot.members slots v)

namespace Writes

variable {v r r' : ρ} {depth : Nat} {ps : List (Slot ρ)} {seen : List String}

theorem disjoint (writes : s.Writes slots toValue fits height) :
    slots.Pairwise fun p q => List.Disjoint p.names q.names :=
  (List.nodup_flatMap.1 writes.apart).2

theorem nodup_given (writes : s.Writes slots toValue fits height) (v : ρ) :
    ((Slot.given slots v).map Slot.name).Nodup := by
  have distinct : (slots.map Slot.name).Nodup := by
    refine List.pairwise_map.2 (writes.disjoint.imp fun {p q} disjoint same => ?_)
    have shared : p.name ∈ q.names := by
      rw [same]
      exact List.mem_cons_self
    exact disjoint List.mem_cons_self shared
  exact distinct.sublist (List.filter_sublist.map _)

/-- No other field goes by the name of this one. -/
theorem field?_name (writes : s.Writes slots toValue fits height) {p : Slot ρ} (mem : p ∈ slots) :
    s.field? p.name = some p.field := by
  have disjoint := writes.disjoint
  rw [Schema.field?, writes.fields]
  clear writes
  induction slots with
  | nil => exact absurd mem List.not_mem_nil
  | cons q slots ih =>
    obtain ⟨first, rest⟩ := List.pairwise_cons.1 disjoint
    rw [List.map_cons]
    rcases List.mem_cons.1 mem with rfl | mem
    · exact List.find?_cons_of_pos (by rw [Field.hasName, beq_self_eq_true, Bool.true_or])
    · have other : q.field.hasName p.name = false := by
        refine Bool.eq_false_iff.2 fun named => ?_
        have shared : p.name ∈ q.names := by
          rcases Bool.or_eq_true_iff.1 named with same | listed
          · rw [← beq_iff_eq.1 same]
            exact List.mem_cons_self
          · exact List.mem_cons_of_mem _ (List.contains_iff_mem.1 listed)
        exact first p mem shared List.mem_cons_self
      rw [List.find?_cons, other]
      exact ih mem rest

/-- The members are read one after the other, each into its own field. -/
theorem readMembers_eq (writes : s.Writes slots toValue fits height) (fit : fits v)
    (deep : height ≤ depth) {docs : List (Option String × Document)} {ordered : Members}
    (each : SpellMembers docs ordered)
    (own : Slot.Own slots v ordered ps)
    (distinct : (ps.map Slot.name ++ seen).Nodup) :
    s.readMembers depth docs seen r =
      .ok ((ps.map Slot.name).reverse ++ seen, ps.foldl (fun r p => p.copy v r) r) := by
  induction own generalizing docs seen r with
  | nil =>
    cases each
    rfl
  | @cons pair p ordered ps own _ ih =>
    cases each with
    | @cons key doc docs value _ first rest =>
      obtain ⟨mem, member⟩ := own
      obtain ⟨value', hw, same⟩ := Option.map_eq_some_iff.1 member
      obtain ⟨rfl, rfl⟩ := Prod.mk.inj same
      rw [List.map_cons, List.cons_append] at distinct
      have fresh : p.name ∉ seen := fun old =>
        (List.nodup_cons.1 distinct).1 (List.mem_append_right _ old)
      have later : (ps.map Slot.name ++ p.name :: seen).Nodup :=
        List.perm_middle.nodup_iff.2 distinct
      have stored := (writes.lawful p mem).reads v fit value' hw depth deep doc first r
      rw [readMembers, writes.field?_name mem]
      simp only [if_neg fresh, stored]
      show s.readMembers depth docs (p.name :: seen) (p.copy v r) = _
      rw [ih rest later, List.map_cons, List.reverse_cons, List.append_assoc, List.foldl_cons]
      rfl

theorem copy_copy (writes : s.Writes slots toValue fits height) {p q : Slot ρ} (hp : p ∈ slots)
    (hq : q ∈ slots) (v r : ρ) : p.copy v (q.copy v r) = q.copy v (p.copy v r) := by
  have swaps := writes.swaps
  have back := swaps.imp fun {p q} swap v r => (swap v r).symm
  exact swaps.forall_of_forall_of_flip (fun _ _ _ _ => rfl) back hp hq v r

/-- What must be given is written. -/
theorem firstMissing?_eq_none (writes : s.Writes slots toValue fits height)
    (names : ∀ p ∈ Slot.given slots v, p.name ∈ seen) : s.firstMissing? seen = none := by
  refine List.find?_eq_none.2 fun f hf missing => ?_
  rw [writes.fields] at hf
  obtain ⟨p, mem, rfl⟩ := List.mem_map.1 hf
  obtain ⟨needed, unseen⟩ := Bool.and_eq_true_iff.1 missing
  cases hw : p.write v with
  | none =>
    rw [(writes.lawful p mem).omits v hw] at needed
    cases needed
  | some value =>
    have known := names p (List.mem_filter.2 ⟨mem, by rw [hw]; rfl⟩)
    rw [List.contains_iff_mem.2 known] at unseen
    cases unseen

theorem reads (writes : s.Writes slots toValue fits height) (fit : fits v)
    (deep : height + 1 ≤ depth) {doc : Document} (spells : doc.Spells (toValue v)) :
    s.decode depth doc = .ok v := by
  obtain ⟨depth, rfl⟩ := Nat.exists_eq_add_of_le' (Nat.le_trans (Nat.le_add_left 1 height) deep)
  obtain ⟨pairs, written, order⟩ := writes.written v
  have own := Slot.own_members slots v
  have distinct : (pairs.map Prod.fst).Nodup := by
    rw [(order.map Prod.fst).nodup_iff, own.names]
    exact writes.nodup_given v
  rw [written] at spells
  cases spells with
  | @object docs ordered _ each order' =>
    -- the fields in the order in which the document lists their members
    have all := (order'.trans (Members.perm_ofList distinct)).trans order
    obtain ⟨ps, own', order''⟩ : ∃ ps : List (Slot ρ),
        Slot.Own slots v ordered ps ∧ ps.Perm (Slot.given slots v) :=
      List.perm_comp_forall₂ all own
    have names : (ps.map Slot.name ++ []).Nodup := by
      rw [List.append_nil]
      exact (order''.map Slot.name).nodup_iff.2 (writes.nodup_given v)
    have read := writes.readMembers_eq (r := s.blank) fit (Nat.le_of_succ_le_succ deep) each own'
      names
    have copied : ps.foldl (fun r p => p.copy v r) s.blank = v := by
      refine (order''.foldl_eq' (fun p hp q hq r => ?_) s.blank).trans (writes.whole v)
      have mem {p : Slot ρ} (hp : p ∈ ps) : p ∈ slots := List.mem_of_mem_filter (order''.mem_iff.1 hp)
      exact writes.copy_copy (mem hq) (mem hp) v r
    have complete : s.firstMissing? ((ps.map Slot.name).reverse ++ []) = none := by
      refine writes.firstMissing?_eq_none (v := v) fun p hp => ?_
      rw [List.append_nil, List.mem_reverse]
      exact List.mem_map.2 ⟨p, order''.mem_iff.2 hp, rfl⟩
    simp only [decode, read, bind, Except.bind, complete, copied, Bool.not_true, Bool.false_eq_true,
      if_false]

theorem keeps (writes : s.Writes slots toValue fits height) {f : Field ρ} (mem : f ∈ s.fields)
    {doc : Document} (stored : f.store depth doc r = .ok r') (fit : fits r) : fits r' := by
  rw [writes.fields] at mem
  obtain ⟨p, hp, rfl⟩ := List.mem_map.1 mem
  exact (writes.lawful p hp).keeps depth doc r r' stored fit

/-- What is read of an object fits, as long as what it is read into does. -/
theorem fits_readMembers (writes : s.Writes slots toValue fits height)
    {docs : List (Option String × Document)} {given : List String}
    (read : s.readMembers depth docs seen r = .ok (given, r')) (fit : fits r) : fits r' := by
  induction docs generalizing seen r with
  | nil =>
    cases read
    exact fit
  | cons entry docs ih =>
    obtain ⟨_ | key, doc⟩ := entry
    · cases read
    · rw [readMembers] at read
      split at read
      · split at read
        · cases read
        · exact ih read fit
      · next f found =>
        split at read
        · cases read
        · obtain ⟨r₁, stored, read⟩ := exists_of_bind_ok read
          exact ih read (writes.keeps (List.mem_of_find?_eq_some found) stored fit)

theorem fits_readItems (writes : s.Writes slots toValue fits height) {closed : Bool}
    {docs : List Document} {fields : List (Field ρ)} (own : ∀ f ∈ fields, f ∈ s.fields)
    (read : readItems depth closed fields docs r = .ok r') (fit : fits r) : fits r' := by
  induction fields generalizing docs r with
  | nil =>
    cases docs with
    | nil =>
      rw [readItems] at read
      split at read
      · cases read
        exact fit
      · cases read
    | cons doc docs => cases read
  | cons f fields ih =>
    obtain ⟨here, later⟩ := List.forall_mem_cons.1 own
    cases docs with
    | nil =>
      rw [readItems] at read
      split at read
      · cases read
      · exact ih later read fit
    | cons doc docs =>
      rw [readItems] at read
      obtain ⟨r₁, stored, read⟩ := exists_of_bind_ok read
      exact ih later read (writes.keeps here stored fit)

theorem inverts (writes : s.Writes slots toValue fits height) :
    s.decode.Inverts toValue fits (height + 1) where
  reads v fit depth deep doc spells := writes.reads fit deep spells
  fits depth doc r read := by
    unfold decode at read
    split at read
    · next depth docs closed =>
      obtain ⟨⟨seen, r₁⟩, given, read⟩ := exists_of_bind_ok read
      have fit := writes.fits_readMembers given writes.blank
      cases closed with
      | false => cases read
      | true =>
        cases missing : s.firstMissing? seen with
        | some f =>
          simp only [missing, Bool.not_true, Bool.false_eq_true, if_false] at read
          cases read
        | none =>
          simp only [missing, Bool.not_true, Bool.false_eq_true, if_false] at read
          cases read
          exact fit
    · exact writes.fits_readItems (fun f hf => hf) read writes.blank
    · cases read

end Writes

end Schema

end TreeConversion.Json
