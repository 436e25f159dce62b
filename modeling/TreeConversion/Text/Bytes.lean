/-!
# Byte offsets into a text

A text is a list of characters; its places are counted in the bytes of its UTF-8 form.
`Text.slice?` cuts a text at two byte offsets and refuses to cut a character in two.
-/

namespace TreeConversion.Text

/-- The number of bytes that `cs` takes in UTF-8. -/
def byteLength : List Char → Nat
  | [] => 0
  | c :: cs => c.utf8Size + byteLength cs

/-- What follows the first `n` bytes of a text, if they end between two characters. -/
def dropBytes? : Nat → List Char → Option (List Char)
  | 0, cs => some cs
  | _ + 1, [] => none
  | n + 1, c :: cs => if c.utf8Size ≤ n + 1 then dropBytes? (n + 1 - c.utf8Size) cs else none

/-- The first `n` bytes of a text, if they end between two characters. -/
def takeBytes? : Nat → List Char → Option (List Char)
  | 0, _ => some []
  | _ + 1, [] => none
  | n + 1, c :: cs =>
    if c.utf8Size ≤ n + 1 then (takeBytes? (n + 1 - c.utf8Size) cs).map (c :: ·) else none

/-- The characters between the byte offsets `start` and `stop`; there are none to give if the
offsets are out of order, past the end or inside a character. -/
def slice? (start stop : Nat) (cs : List Char) : Option (List Char) :=
  if start ≤ stop then (dropBytes? start cs).bind (takeBytes? (stop - start)) else none

@[simp] theorem byteLength_append (as bs : List Char) :
    byteLength (as ++ bs) = byteLength as + byteLength bs := by
  induction as with
  | nil => simp [byteLength]
  | cons c as ih => simp [byteLength, ih, Nat.add_assoc]

theorem dropBytes?_eq_some_iff {n : Nat} {cs rest : List Char} :
    dropBytes? n cs = some rest ↔ ∃ front, cs = front ++ rest ∧ byteLength front = n := by
  fun_induction dropBytes? n cs with
  | case1 cs =>
    constructor
    · rintro ⟨⟩
      exact ⟨[], rfl, rfl⟩
    · rintro ⟨front, rfl, h⟩
      cases front with
      | nil => rfl
      | cons c front => simp [byteLength] at h; exact absurd h.1 (Nat.ne_of_gt c.utf8Size_pos)
  | case2 n =>
    constructor
    · simp
    · rintro ⟨front, h, hn⟩
      obtain ⟨rfl, -⟩ := List.append_eq_nil_iff.1 h.symm
      simp [byteLength] at hn
  | case3 n c cs h ih =>
    rw [ih]
    constructor
    · rintro ⟨front, rfl, hn⟩
      refine ⟨c :: front, rfl, ?_⟩
      clear ih
      rw [byteLength, hn]
      omega
    · rintro ⟨front, hf, hn⟩
      cases front with
      | nil => simp [byteLength] at hn
      | cons d front =>
        obtain ⟨rfl, rfl⟩ := List.cons.inj hf
        refine ⟨front, rfl, ?_⟩
        clear ih
        rw [byteLength] at hn
        omega
  | case4 n c cs h =>
    constructor
    · simp
    · rintro ⟨front, hf, hn⟩
      cases front with
      | nil => simp [byteLength] at hn
      | cons d front =>
        obtain ⟨rfl, rfl⟩ := List.cons.inj hf
        simp [byteLength] at hn
        omega

theorem takeBytes?_eq_some_iff {n : Nat} {cs front : List Char} :
    takeBytes? n cs = some front ↔ front <+: cs ∧ byteLength front = n := by
  fun_induction takeBytes? n cs generalizing front with
  | case1 cs =>
    constructor
    · rintro ⟨⟩
      exact ⟨by simp, rfl⟩
    · rintro ⟨-, h⟩
      cases front with
      | nil => rfl
      | cons c front => simp [byteLength] at h; exact absurd h.1 (Nat.ne_of_gt c.utf8Size_pos)
  | case2 n =>
    constructor
    · simp
    · rintro ⟨h, hn⟩
      rw [List.prefix_nil] at h
      simp [h, byteLength] at hn
  | case3 n c cs h ih =>
    simp only [Option.map_eq_some_iff]
    constructor
    · rintro ⟨rest, hr, rfl⟩
      obtain ⟨hp, hn⟩ := ih.1 hr
      refine ⟨by simpa using hp, ?_⟩
      rw [byteLength, hn]
      omega
    · rintro ⟨hp, hn⟩
      cases front with
      | nil => simp [byteLength] at hn
      | cons d front =>
        obtain ⟨rfl, hp'⟩ := List.cons_prefix_cons.1 hp
        rw [byteLength] at hn
        exact ⟨front, ih.2 ⟨hp', by omega⟩, rfl⟩
  | case4 n c cs h =>
    constructor
    · simp
    · rintro ⟨hp, hn⟩
      cases front with
      | nil => simp [byteLength] at hn
      | cons d front =>
        obtain ⟨rfl, hp⟩ := List.cons_prefix_cons.1 hp
        simp [byteLength] at hn
        omega

/-- A slice is what stands between a front part of `start` bytes and some rest. -/
theorem slice?_eq_some_iff {start stop : Nat} {cs mid : List Char} :
    slice? start stop cs = some mid ↔ start ≤ stop ∧ ∃ front back,
      cs = front ++ (mid ++ back) ∧ byteLength front = start ∧ byteLength mid = stop - start := by
  unfold slice?
  split
  · rename_i ordered
    simp only [Option.bind_eq_some_iff, dropBytes?_eq_some_iff, takeBytes?_eq_some_iff, ordered,
      true_and]
    constructor
    · rintro ⟨rest, ⟨front, rfl, hs⟩, ⟨back, rfl⟩, hm⟩
      exact ⟨front, back, rfl, hs, hm⟩
    · rintro ⟨front, back, rfl, hs, hm⟩
      exact ⟨mid ++ back, ⟨front, rfl, hs⟩, ⟨back, rfl⟩, hm⟩
  · rename_i inverted
    simp [inverted]

end TreeConversion.Text
