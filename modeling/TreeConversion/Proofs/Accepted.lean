import TreeConversion.Conversion.Settings
import TreeConversion.Proofs.Records

/-!
# Which documents are settings

Each member of an object is about a `Key`, which goes by a name and mostly by an alias.  The members
are `Proper` if each has a key and holds a value of it, and no two have the same key; just these are
accepted, and what is read is told key by key (`decode_object_iff`, `Proper.shown_fill`).  An array
is read as an object that has its items under the first keys (`decode_array_iff_object`).
-/

namespace TreeConversion.Settings

open Json

variable {depth : Nat} {closed : Bool} {s s' : Settings} {doc : Document}

/-! ### Keys -/

/-- What a member of a document of settings can be about. -/
inductive Key where
  | ofSwitch (switch : Switch)
  | placeholderKind
  deriving DecidableEq

namespace Key

variable {key key' : Key}

/-- In the order in which an array lists their values. -/
def all : List Key := [
  .ofSwitch .ranges, .ofSwitch .locations, .ofSwitch .tokens, .ofSwitch .comments,
  .ofSwitch .failOnUnknown, .ofSwitch .origins, .ofSwitch .allowInvalid, .placeholderKind,
  .ofSwitch .quiet]

/-- There are nine names, and seven aliases. -/
def ofName? : String → Option Key
  | "include_position_ranges" | "range" => some (.ofSwitch .ranges)
  | "include_line_column" | "loc" => some (.ofSwitch .locations)
  | "include_tokens" | "tokens" => some (.ofSwitch .tokens)
  | "include_comments" | "comment" => some (.ofSwitch .comments)
  | "fail_on_unknown_node_kind" | "errorOnUnknownASTType" => some (.ofSwitch .failOnUnknown)
  | "preserve_node_maps" | "preserveNodeMaps" => some (.ofSwitch .origins)
  | "allow_invalid_ast" | "allowInvalidAST" => some (.ofSwitch .allowInvalid)
  | "placeholder_kind" => some .placeholderKind
  | "suppress_unknown_kind_warnings" => some (.ofSwitch .quiet)
  | _ => none

/-- The document is a value of the setting. -/
def Takes : Key → Document → Prop
  | .ofSwitch _, .bool _ => True
  | .placeholderKind, .string (some _) => True
  | _, _ => False

/-- The settings with the value of one of them as the document says. -/
def put : Key → Document → Settings → Settings
  | .ofSwitch switch, .bool on, s => s.set switch on
  | .placeholderKind, .string (some kind), s => { s with placeholderKind := kind }
  | _, _, s => s

def field : Key → Json.Field Settings
  | .ofSwitch switch => switch.field
  | .placeholderKind =>
    .optional "placeholder_kind" .string fun s kind => { s with placeholderKind := kind }

theorem fields_eq : schema.fields = all.map field := rfl

theorem ofName?_name (key : Key) : ofName? key.field.name = some key := by
  rcases key with switch | _
  · cases switch <;> rfl
  · rfl

theorem name_inj : key.field.name = key'.field.name ↔ key = key' := by
  constructor
  · intro same
    exact Option.some.inj (by rw [← ofName?_name key, same, ofName?_name])
  · rintro rfl
    rfl

theorem needed_eq_false (key : Key) : key.field.needed = false := by
  cases key <;> rfl

theorem mem_all (key : Key) : key ∈ all := by
  rcases key with switch | _
  · cases switch <;> decide
  · decide

/-- A field goes by the names of its key. -/
theorem hasName_iff {name : String} : key.field.hasName name = true ↔ ofName? name = some key := by
  constructor
  · intro named
    rw [Field.hasName, Bool.or_eq_true, beq_iff_eq, List.contains_iff_mem] at named
    rcases named with rfl | named
    · exact ofName?_name key
    · rcases key with switch | _
      · cases switch <;>
          simp only [field, Switch.field, Switch.aliases, List.mem_singleton,
            List.not_mem_nil] at named
        all_goals
          subst named
          rfl
      · cases named
  · intro found
    unfold ofName? at found
    split at found <;> cases found <;> rfl

theorem field?_eq (name : String) : schema.field? name = (ofName? name).map field := by
  rw [Schema.field?, fields_eq, List.find?_map]
  congr 1
  cases found : List.find? ((fun f => f.hasName name) ∘ field) all with
  | some key =>
    have named := List.find?_some found
    exact (hasName_iff.1 named).symm
  | none =>
    have unnamed := List.find?_eq_none.1 found
    cases known : ofName? name with
    | none => rfl
    | some key => exact absurd (hasName_iff.2 known) (unnamed key (mem_all key))

theorem store_ok_iff (key : Key) :
    key.field.store depth doc s = .ok s' ↔ key.Takes doc ∧ s' = key.put doc s := by
  rcases key with switch | _
  · cases doc <;> simp [field, Switch.field, Field.optional, Decoder.bool, Except.map, Takes, put,
      eq_comm]
  · rcases doc with _ | _ | _ | (_ | _) | _ | _ | _ <;>
      simp [field, Field.optional, Decoder.string, Except.map, Takes, put, eq_comm]

end Key

/-! ### Values of settings -/

/-- The value of a setting as a document. -/
def shown (s : Settings) : Key → Document
  | .ofSwitch switch => .bool (s.get switch)
  | .placeholderKind => .string (some s.placeholderKind)

theorem eq_of_shown (same : ∀ key, s.shown key = s'.shown key) : s = s' := by
  have switches (switch : Switch) : s.get switch = s'.get switch := by
    simpa [shown] using same (.ofSwitch switch)
  have kinds : s.placeholderKind = s'.placeholderKind := by
    simpa [shown] using same .placeholderKind
  rw [Settings.mk.injEq]
  exact ⟨switches .ranges, switches .locations, switches .tokens, switches .comments,
    switches .failOnUnknown, switches .origins, switches .allowInvalid, kinds, switches .quiet⟩

theorem Key.shown_put {key : Key} (takes : key.Takes doc) (s : Settings) (other : Key) :
    (key.put doc s).shown other = if key = other then doc else s.shown other := by
  unfold Takes at takes
  split at takes
  · next switch on =>
    rcases other with other | _
    · simp only [put, shown, get_set, Key.ofSwitch.injEq]
      split <;> rfl
    · cases switch <;> rfl
  · rcases other with other | _
    · cases other <;> rfl
    · rfl
  · exact takes.elim

/-! ### Members -/

/-- The key that a member is about. -/
def keyOf? (m : Option String × Document) : Option Key := m.1.bind Key.ofName?

/-- The members, each under its key, however that is named. -/
def keyed (members : List (Option String × Document)) : List (Option Key × Document) :=
  members.map fun m => (keyOf? m, m.2)

/-- What the members say of a setting. -/
def given? (members : List (Option String × Document)) (key : Key) : Option Document :=
  (members.find? fun m => keyOf? m = some key).map Prod.snd

/-- The members make settings. -/
structure Proper (members : List (Option String × Document)) : Prop where
  named : ∀ m ∈ members, (keyOf? m).isSome
  once : (members.map keyOf?).Nodup
  typed : ∀ m ∈ members, ∀ key, keyOf? m = some key → key.Takes m.2

/-- The settings with the values that the members give. -/
def fill (s : Settings) (members : List (Option String × Document)) : Settings :=
  members.foldl (fun s m => match keyOf? m with | some key => key.put m.2 s | none => s) s

variable {m : Option String × Document} {ms members members' : List (Option String × Document)}
  {key : Key}

theorem proper_nil : Proper [] :=
  ⟨fun _ h => absurd h List.not_mem_nil, List.nodup_nil, fun _ h => absurd h List.not_mem_nil⟩

theorem proper_cons (named : keyOf? m = some key) : Proper (m :: ms) ↔
    key.Takes m.2 ∧ some key ∉ ms.map keyOf? ∧ Proper ms := by
  constructor
  · rintro ⟨allNamed, once, typed⟩
    rw [List.map_cons, List.nodup_cons, named] at once
    exact ⟨typed m List.mem_cons_self key named, once.1,
      fun m' hm' => allNamed m' (List.mem_cons_of_mem _ hm'), once.2,
      fun m' hm' => typed m' (List.mem_cons_of_mem _ hm')⟩
  · rintro ⟨takes, new, proper⟩
    refine ⟨?_, ?_, ?_⟩
    · exact List.forall_mem_cons.2 ⟨by rw [named]; rfl, proper.named⟩
    · rw [List.map_cons, List.nodup_cons, named]
      exact ⟨new, proper.once⟩
    · refine List.forall_mem_cons.2 ⟨fun key' named' => ?_, proper.typed⟩
      obtain rfl := Option.some.inj (named.symm.trans named')
      exact takes

theorem not_proper_cons (unnamed : keyOf? m = none) : ¬ Proper (m :: ms) := by
  intro proper
  have named := proper.named m List.mem_cons_self
  rw [unnamed] at named
  cases named

/-- The names of the fields that these keys have. -/
def fieldNames (keys : List Key) : List String := keys.map fun key => key.field.name

theorem mem_fieldNames {keys : List Key} : key.field.name ∈ fieldNames keys ↔ key ∈ keys := by
  simp [fieldNames, Key.name_inj]

theorem readMembers_unnamed {seen : List String} (unnamed : keyOf? m = none)
    (result : List String × Settings) : schema.readMembers depth (m :: ms) seen s ≠ .ok result := by
  obtain ⟨_ | name, doc⟩ := m
  · simp [Schema.readMembers]
  · have unknown : schema.field? name = none := by
      rw [Key.field?_eq, Option.map_eq_none_iff]
      exact unnamed
    have strict : schema.strict = true := rfl
    simp [Schema.readMembers, unknown, strict]

/-- A member is read if its key is new and takes the value, and the others are read after it. -/
theorem readMembers_named {seen : List Key} (named : keyOf? m = some key)
    (result : List String × Settings) :
    schema.readMembers depth (m :: ms) (fieldNames seen) s = .ok result ↔
      key ∉ seen ∧ key.Takes m.2 ∧
        schema.readMembers depth ms (fieldNames (key :: seen)) (key.put m.2 s) = .ok result := by
  obtain ⟨_ | name, doc⟩ := m
  · cases named
  · have known : schema.field? name = some key.field := by
      rw [Key.field?_eq, Option.map_eq_some_iff]
      exact ⟨key, named, rfl⟩
    simp only [Schema.readMembers, known, mem_fieldNames]
    by_cases old : key ∈ seen
    · simp [old]
    · rw [if_neg old]
      constructor
      · intro read
        obtain ⟨r, stored, read⟩ := exists_of_bind_ok read
        obtain ⟨takes, rfl⟩ := key.store_ok_iff.1 stored
        exact ⟨old, takes, read⟩
      · rintro ⟨-, takes, read⟩
        rw [key.store_ok_iff.2 ⟨takes, rfl⟩]
        exact read

/-- The members are read one after the other, and `seen` are the keys of those that have been. -/
theorem readMembers_ok_iff {seen : List Key} :
    (∃ names, schema.readMembers depth members (fieldNames seen) s = .ok (names, s')) ↔
      Proper members ∧ (∀ key ∈ seen, some key ∉ members.map keyOf?) ∧ s' = s.fill members := by
  induction members generalizing seen s with
  | nil => simp [Schema.readMembers, proper_nil, fill, eq_comm]
  | cons m ms ih =>
    cases named : keyOf? m with
    | none => simp [readMembers_unnamed named, not_proper_cons named]
    | some key =>
      have filled : s.fill (m :: ms) = (key.put m.2 s).fill ms := by
        simp [fill, named]
      simp only [readMembers_named named, exists_and_left, ih, proper_cons named, filled,
        List.map_cons, named, List.mem_cons, not_or, Option.some.injEq, forall_eq_or_imp]
      constructor
      · rintro ⟨old, takes, proper, ⟨new, apart⟩, same⟩
        refine ⟨⟨takes, new, proper⟩, fun other mem => ⟨?_, apart other mem⟩, same⟩
        rintro rfl
        exact old mem
      · rintro ⟨⟨takes, new, proper⟩, apart, same⟩
        exact ⟨fun mem => (apart key mem).1 rfl, takes, proper,
          ⟨new, fun other mem => (apart other mem).2⟩, same⟩

theorem firstMissing?_eq_none (names : List String) : schema.firstMissing? names = none := by
  refine List.find?_eq_none.2 fun f hf missing => ?_
  rw [Key.fields_eq] at hf
  obtain ⟨key, -, rfl⟩ := List.mem_map.1 hf
  simp [key.needed_eq_false] at missing

theorem decode_object_iff : decode (depth + 1) (.object members closed) = .ok s ↔
    closed = true ∧ Proper members ∧ s = standard.fill members := by
  have read := @readMembers_ok_iff depth standard s members []
  simp only [fieldNames, List.map_nil, List.not_mem_nil, false_implies, implies_true,
    true_and] at read
  rw [← read]
  constructor
  · intro accepted
    obtain ⟨⟨names, r⟩, given, accepted⟩ := exists_of_bind_ok accepted
    cases closed with
    | false => cases accepted
    | true =>
      simp only [firstMissing?_eq_none, Bool.not_true, Bool.false_eq_true, if_false] at accepted
      cases accepted
      exact ⟨rfl, names, given⟩
  · rintro ⟨rfl, names, given⟩
    show (schema.readMembers depth members [] standard >>= _) = _
    rw [given]
    simp only [bind, Except.bind, firstMissing?_eq_none, Bool.not_true, Bool.false_eq_true,
      if_false]

/-! ### What is read -/

theorem given?_cons (named : keyOf? m = some key) (other : Key) :
    given? (m :: ms) other = if key = other then some m.2 else given? ms other := by
  by_cases same : key = other
  · simp [given?, named, same]
  · simp [given?, named, same]

theorem given?_eq_none (new : some key ∉ ms.map keyOf?) : given? ms key = none := by
  rw [given?, List.find?_eq_none.2, Option.map_none]
  intro m hm named
  exact new (List.mem_map.2 ⟨m, hm, by simpa using named⟩)

theorem Proper.shown_fill (proper : Proper members) (s : Settings) (key : Key) :
    (s.fill members).shown key = (given? members key).getD (s.shown key) := by
  induction members generalizing s with
  | nil => rfl
  | cons m ms ih =>
    obtain ⟨here, named⟩ := Option.isSome_iff_exists.1 (proper.named m List.mem_cons_self)
    obtain ⟨takes, new, proper⟩ := (proper_cons named).1 proper
    have step : s.fill (m :: ms) = (here.put m.2 s).fill ms := by
      simp [fill, named]
    rw [step, ih proper, Key.shown_put takes, given?_cons named]
    split
    · next same =>
      subst same
      rw [given?_eq_none new]
      rfl
    · rfl

/-! ### Members in another order -/

theorem proper_iff : Proper members ↔
    (∀ p ∈ keyed members, ∃ key, p.1 = some key ∧ key.Takes p.2) ∧
      ((keyed members).map Prod.fst).Nodup := by
  have keys : (keyed members).map Prod.fst = members.map keyOf? := by simp [keyed]
  rw [keys]
  constructor
  · rintro ⟨named, once, typed⟩
    refine ⟨fun p hp => ?_, once⟩
    obtain ⟨m, hm, rfl⟩ := List.mem_map.1 hp
    obtain ⟨key, here⟩ := Option.isSome_iff_exists.1 (named m hm)
    exact ⟨key, here, typed m hm key here⟩
  · rintro ⟨each, once⟩
    have takes : ∀ m ∈ members, ∃ key, keyOf? m = some key ∧ key.Takes m.2 := fun m hm =>
      each (keyOf? m, m.2) (List.mem_map.2 ⟨m, hm, rfl⟩)
    refine ⟨fun m hm => ?_, once, fun m hm key here => ?_⟩
    · obtain ⟨key, here, -⟩ := takes m hm
      rw [here]
      rfl
    · obtain ⟨key', here', takes⟩ := takes m hm
      obtain rfl := Option.some.inj (here.symm.trans here')
      exact takes

theorem Proper.given?_eq_some_iff (proper : Proper members) :
    given? members key = some doc ↔ (some key, doc) ∈ keyed members := by
  induction members with
  | nil => simp [given?, keyed]
  | cons m ms ih =>
    obtain ⟨here, named⟩ := Option.isSome_iff_exists.1 (proper.named m List.mem_cons_self)
    obtain ⟨-, new, proper⟩ := (proper_cons named).1 proper
    have mem : (some key, doc) ∈ keyed (m :: ms) ↔
        (key = here ∧ doc = m.2) ∨ (some key, doc) ∈ keyed ms := by
      simp [keyed, named]
    rw [mem, ← ih proper, given?_cons named]
    by_cases same : here = key
    · subst same
      simp [given?_eq_none new, eq_comm]
    · simp [same, Ne.symm same]

/-- What counts of the members is what they say under which key. -/
theorem decode_object_congr (same : (keyed members).Perm (keyed members')) :
    decode (depth + 1) (.object members closed) = .ok s ↔
      decode (depth + 1) (.object members' closed) = .ok s := by
  have proper_congr : Proper members ↔ Proper members' := by
    simp only [proper_iff, same.mem_iff, (same.map Prod.fst).nodup_iff]
  rw [decode_object_iff, decode_object_iff, proper_congr]
  refine and_congr_right fun _ => and_congr_right fun proper' => ?_
  have proper := proper_congr.2 proper'
  have filled : standard.fill members = standard.fill members' := by
    refine eq_of_shown fun key => ?_
    have given : given? members key = given? members' key := Option.ext fun doc => by
      rw [proper.given?_eq_some_iff, proper'.given?_eq_some_iff, same.mem_iff]
    rw [proper.shown_fill, proper'.shown_fill, given]
  rw [filled]

/-! ### Arrays -/

/-- The items, each with the key in its place. -/
def placed (items : List Document) : List (Key × Document) := Key.all.zip items

theorem readItems_ok_iff {keys : List Key} {items : List Document} :
    Schema.readItems depth closed (keys.map Key.field) items s = .ok s' ↔
      closed = true ∧ items.length ≤ keys.length ∧ (∀ p ∈ keys.zip items, p.1.Takes p.2) ∧
        s' = (keys.zip items).foldl (fun s p => p.1.put p.2 s) s := by
  induction keys generalizing items s with
  | nil =>
    cases items with
    | nil => cases closed <;> simp [Schema.readItems, eq_comm]
    | cons doc items => simp [Schema.readItems]
  | cons key keys ih =>
    cases items with
    | nil =>
      have later := @ih s []
      cases closed with
      | false => simp [Schema.readItems]
      | true => simpa [Schema.readItems, key.needed_eq_false] using later
    | cons doc items =>
      have later := @ih (key.put doc s) items
      rw [List.map_cons, Schema.readItems]
      simp only [List.zip_cons_cons, List.forall_mem_cons, List.length_cons, Nat.succ_le_succ_iff,
        List.foldl_cons]
      constructor
      · intro read
        obtain ⟨r, stored, read⟩ := exists_of_bind_ok read
        obtain ⟨takes, rfl⟩ := key.store_ok_iff.1 stored
        obtain ⟨closed, few, typed, same⟩ := later.1 read
        exact ⟨closed, few, ⟨takes, typed⟩, same⟩
      · rintro ⟨closed, few, ⟨takes, typed⟩, same⟩
        rw [key.store_ok_iff.2 ⟨takes, rfl⟩]
        exact later.2 ⟨closed, few, typed, same⟩

theorem map_fst_zip_sublist {α β : Type} (xs : List α) (ys : List β) :
    ((xs.zip ys).map Prod.fst).Sublist xs := by
  rw [List.zip_eq_zip_take_min, List.map_fst_zip (by simp)]
  exact List.take_sublist _ xs

theorem decode_array_iff {items : List Document} :
    decode (depth + 1) (.array items closed) = .ok s ↔
      closed = true ∧ items.length ≤ Key.all.length ∧ (∀ p ∈ placed items, p.1.Takes p.2) ∧
        s = (placed items).foldl (fun s p => p.1.put p.2 s) standard :=
  @readItems_ok_iff depth closed standard s Key.all items

/-- An array is read as an object that has its items under the keys in their places. -/
theorem decode_array_iff_object {items : List Document} (few : items.length ≤ Key.all.length)
    (same : (keyed members).Perm ((placed items).map fun p => (some p.1, p.2))) :
    decode (depth + 1) (.array items closed) = .ok s ↔
      decode (depth + 1) (.object members closed) = .ok s := by
  let listed := (placed items).map fun p => (some p.1.field.name, p.2)
  have keyed_listed : keyed listed = (placed items).map fun p => (some p.1, p.2) := by
    simp [listed, keyed, keyOf?, Key.ofName?_name]
  have proper : Proper listed ↔ ∀ p ∈ placed items, p.1.Takes p.2 := by
    have keys : ((placed items).map fun p => (some p.1, p.2)).map Prod.fst =
        ((placed items).map Prod.fst).map some := by simp
    have distinct : Key.all.Nodup := by decide
    have once : (((placed items).map Prod.fst).map some).Nodup :=
      (distinct.sublist (map_fst_zip_sublist Key.all items)).map fun _ _ => Option.some.inj
    rw [proper_iff, keyed_listed, keys, and_iff_left once, List.forall_mem_map]
    simp only [Option.some.injEq, exists_eq_left']
  have filled : standard.fill listed =
      (placed items).foldl (fun s p => p.1.put p.2 s) standard := by
    simp [listed, fill, List.foldl_map, keyOf?, Key.ofName?_name]
  rw [decode_object_congr (keyed_listed ▸ same), decode_object_iff, proper, filled,
    decode_array_iff, and_iff_right few]

/-! ### Texts -/

theorem ofJson_eq {text : String} {whole : Bool} (read : Document.read text = (doc, whole)) :
    ofJson text = decode nestingLimit doc >>= fun s =>
      if whole then .ok s else .error .malformed := by
  rw [ofJson, Decoder.readText, read]

theorem load_ok_iff {text : String} : load text = .ok s ↔
    ∃ doc, Document.read text = (doc, true) ∧ decode nestingLimit doc = .ok s := by
  have loaded : load text = .ok s ↔ ofJson text = .ok s := by
    rw [load]
    cases ofJson text <;> simp [Except.mapError]
  rcases h : Document.read text with ⟨doc, whole⟩
  rw [loaded, ofJson_eq h]
  constructor
  · intro read
    obtain ⟨r, decoded, read⟩ := exists_of_bind_ok read
    cases whole with
    | false => cases read
    | true =>
      cases read
      exact ⟨doc, rfl, decoded⟩
  · rintro ⟨doc', same, decoded⟩
    obtain ⟨rfl, rfl⟩ := Prod.mk.inj same
    rw [decoded]
    rfl

/-- How settings are read. -/
structure Reading : Prop where
  object : ∀ members, (∃ s, decode nestingLimit (.object members true) = .ok s) ↔ Proper members
  array : ∀ items, (∃ s, decode nestingLimit (.array items true) = .ok s) ↔
    items.length ≤ 9 ∧ ∀ p ∈ placed items, p.1.Takes p.2
  nothingElse : ∀ doc s, decode nestingLimit doc = .ok s →
    (∃ members, doc = .object members true) ∨ ∃ items, doc = .array items true
  /-- A setting that is not given is as in the standard settings. -/
  shown : ∀ members s, decode nestingLimit (.object members true) = .ok s →
    ∀ key, s.shown key = (given? members key).getD (standard.shown key)
  /-- The order of the members does not count, nor which of its names a key goes by. -/
  unordered : ∀ members members' s, (keyed members).Perm (keyed members') →
    (decode nestingLimit (.object members true) = .ok s ↔
      decode nestingLimit (.object members' true) = .ok s)
  /-- An array gives the same settings as an object with its items under the first keys. -/
  inOrder : ∀ items members s, items.length ≤ 9 →
    (keyed members).Perm ((placed items).map fun p => (some p.1, p.2)) →
    (decode nestingLimit (.array items true) = .ok s ↔
      decode nestingLimit (.object members true) = .ok s)
  text : ∀ text s, load text = .ok s ↔
    ∃ doc, Document.read text = (doc, true) ∧ decode nestingLimit doc = .ok s
  refused : ∀ text, (∃ s, load text = .ok s) ∨
    ∃ fault, load text = .error (.settings (.unreadable fault))

/-- Settings are read just from the documents that are settings, and as these say. -/
theorem reads_exactly : Reading where
  object members := by
    simp only [nestingLimit, decode_object_iff, true_and]
    exact ⟨fun ⟨_, proper, _⟩ => proper, fun proper => ⟨_, proper, rfl⟩⟩
  array items := by
    simp only [nestingLimit, decode_array_iff, true_and]
    exact ⟨fun ⟨_, few, typed, _⟩ => ⟨few, typed⟩, fun ⟨few, typed⟩ => ⟨_, few, typed, rfl⟩⟩
  nothingElse doc s read := by
    cases doc with
    | object members closed =>
      obtain ⟨rfl, -⟩ := decode_object_iff.1 read
      exact .inl ⟨members, rfl⟩
    | array items closed =>
      obtain ⟨rfl, -⟩ := decode_array_iff.1 read
      exact .inr ⟨items, rfl⟩
    | _ => cases read
  shown members s read key := by
    obtain ⟨-, proper, rfl⟩ := decode_object_iff.1 read
    exact proper.shown_fill standard key
  unordered _ _ _ same := decode_object_congr same
  inOrder _ _ _ few same := decode_array_iff_object few same
  text _ _ := load_ok_iff
  refused text := by
    rw [load]
    cases ofJson text with
    | ok s => exact .inl ⟨s, rfl⟩
    | error fault => exact .inr ⟨fault, rfl⟩

/-- An alias counts as the name of its setting, also where a setting is given twice. -/
example : decode nestingLimit (.object [(some "loc", .bool true)] true) =
      .ok { standard with locations := true } ∧
    decode nestingLimit
        (.object [(some "loc", .bool true), (some "include_line_column", .bool true)] true) =
      .error (.duplicateField "include_line_column") :=
  ⟨rfl, rfl⟩

end TreeConversion.Settings
