-- Texts as bytes and back. Every character is read from the bytes that it is written with, so a text
-- comes back whole.
import Mathlib
import Sourcebook.Text.Utf8

namespace Sourcebook.Text

/-! ## Bytes by their numbers -/

variable {a b c d : UInt8} {rest : List UInt8}

theorem not_lt_of_toNat_le {a b : UInt8} (h : b.toNat ≤ a.toNat) : ¬ a < b := fun hlt =>
  absurd (UInt8.lt_iff_toNat_lt.mp hlt) (Nat.not_lt.mpr h)

theorem byteCount_one (h : a.toNat < 0x80) : byteCount a = some 1 := by
  unfold byteCount
  rw [if_pos (UInt8.lt_iff_toNat_lt.mpr h)]

theorem byteCount_two (h : 0xC2 ≤ a.toNat) (h' : a.toNat < 0xE0) : byteCount a = some 2 := by
  have h1 : ¬ a < 0x80 := not_lt_of_toNat_le (le_trans (by decide) h)
  have h2 : ¬ a < 0xC2 := not_lt_of_toNat_le h
  unfold byteCount
  rw [if_neg h1, if_neg h2, if_pos (UInt8.lt_iff_toNat_lt.mpr h')]

theorem byteCount_three (h : 0xE0 ≤ a.toNat) (h' : a.toNat < 0xF0) : byteCount a = some 3 := by
  have h1 : ¬ a < 0x80 := not_lt_of_toNat_le (le_trans (by decide) h)
  have h2 : ¬ a < 0xC2 := not_lt_of_toNat_le (le_trans (by decide) h)
  have h3 : ¬ a < 0xE0 := not_lt_of_toNat_le h
  unfold byteCount
  rw [if_neg h1, if_neg h2, if_neg h3, if_pos (UInt8.lt_iff_toNat_lt.mpr h')]

theorem byteCount_four (h : 0xF0 ≤ a.toNat) (h' : a.toNat < 0xF5) : byteCount a = some 4 := by
  have h1 : ¬ a < 0x80 := not_lt_of_toNat_le (le_trans (by decide) h)
  have h2 : ¬ a < 0xC2 := not_lt_of_toNat_le (le_trans (by decide) h)
  have h3 : ¬ a < 0xE0 := not_lt_of_toNat_le (le_trans (by decide) h)
  have h4 : ¬ a < 0xF0 := not_lt_of_toNat_le h
  unfold byteCount
  rw [if_neg h1, if_neg h2, if_neg h3, if_neg h4, if_pos (UInt8.lt_iff_toNat_lt.mpr h')]

theorem isContinuation_iff : isContinuation b = true ↔ 0x80 ≤ b.toNat ∧ b.toNat ≤ 0xBF := by
  simp [isContinuation, UInt8.le_iff_toNat_le]

/-- A continuation byte may follow a first one, if the form is no longer than needed, no half of a pair
and below the last code point. -/
theorem isSecond_of (hb : isContinuation b = true) (h0 : a.toNat = 0xE0 → 0xA0 ≤ b.toNat)
    (h1 : a.toNat = 0xED → b.toNat ≤ 0x9F) (h2 : a.toNat = 0xF0 → 0x90 ≤ b.toNat)
    (h3 : a.toNat = 0xF4 → b.toNat ≤ 0x8F) : isSecond a b = true := by
  obtain ⟨hlow, hhigh⟩ := isContinuation_iff.mp hb
  have heq : ∀ n : UInt8, (a == n) = true → a.toNat = n.toNat := fun n h =>
    congrArg _ (beq_iff_eq.mp h)
  unfold isSecond
  split
  · next h => simpa [UInt8.le_iff_toNat_le] using ⟨h0 (heq _ h), hhigh⟩
  · split
    · next h => simpa [UInt8.le_iff_toNat_le] using ⟨hlow, h1 (heq _ h)⟩
    · split
      · next h => simpa [UInt8.le_iff_toNat_le] using ⟨h2 (heq _ h), hhigh⟩
      · split
        · next h => simpa [UInt8.le_iff_toNat_le] using ⟨hlow, h3 (heq _ h)⟩
        · exact hb

/-! ## The first character of bytes -/

theorem firstChar_one (h : byteCount a = some 1) : firstChar a rest = .ok (Char.ofNat a.toNat) := by
  unfold firstChar
  split <;> simp_all

theorem firstChar_two (h : byteCount a = some 2) (hb : isContinuation b = true) :
    firstChar a (b :: rest) = .ok (Char.ofNat (a.toNat % 32 * 64 + lowBits b)) := by
  unfold firstChar
  rw [h]
  simp only [hb, if_true]

theorem firstChar_three (h : byteCount a = some 3) (hb : isSecond a b = true)
    (hc : isContinuation c = true) : firstChar a (b :: c :: rest) =
      .ok (Char.ofNat ((a.toNat % 16 * 64 + lowBits b) * 64 + lowBits c)) := by
  unfold firstChar
  rw [h]
  simp only [hb, hc, if_true]
  rfl

theorem firstChar_four (h : byteCount a = some 4) (hb : isSecond a b = true)
    (hc : isContinuation c = true) (hd : isContinuation d = true) :
    firstChar a (b :: c :: d :: rest) =
      .ok (Char.ofNat (((a.toNat % 8 * 64 + lowBits b) * 64 + lowBits c) * 64 + lowBits d)) := by
  unfold firstChar
  rw [h]
  simp only [hb, hc, hd, if_true]
  rfl

/-! ## The bytes of a character -/

/-- A byte that is written for six bits of a number continues a character, and holds these bits. -/
theorem continuation_ofNat (n : Nat) :
    isContinuation (UInt8.ofNat (n % 64 + 128)) = true ∧
      (UInt8.ofNat (n % 64 + 128)).toNat = n % 64 + 128 ∧
      lowBits (UInt8.ofNat (n % 64 + 128)) = n % 64 := by
  have hnat : (UInt8.ofNat (n % 64 + 128)).toNat = n % 64 + 128 := by
    rw [UInt8.toNat_ofNat']
    omega
  refine ⟨isContinuation_iff.mpr (by omega), hnat, ?_⟩
  rw [lowBits, hnat]
  omega

variable {v : Nat}

theorem read_one (h : v < 0x80) (rest : List UInt8) :
    byteCount (UInt8.ofNat v) = some 1 ∧ firstChar (UInt8.ofNat v) rest = .ok (Char.ofNat v) := by
  have ha : (UInt8.ofNat v).toNat = v := by
    rw [UInt8.toNat_ofNat']
    omega
  have hcount : byteCount (UInt8.ofNat v) = some 1 := byteCount_one (by omega)
  refine ⟨hcount, ?_⟩
  rw [firstChar_one hcount, ha]

theorem read_two (h : 0x80 ≤ v) (h' : v < 0x800) (rest : List UInt8) :
    byteCount (UInt8.ofNat (v / 64 % 32 + 192)) = some 2 ∧
      firstChar (UInt8.ofNat (v / 64 % 32 + 192)) (UInt8.ofNat (v % 64 + 128) :: rest) =
        .ok (Char.ofNat v) := by
  have ha : (UInt8.ofNat (v / 64 % 32 + 192)).toNat = v / 64 % 32 + 192 := by
    rw [UInt8.toNat_ofNat']
    omega
  have hcount : byteCount (UInt8.ofNat (v / 64 % 32 + 192)) = some 2 :=
    byteCount_two (by omega) (by omega)
  obtain ⟨hnext, -, hbits⟩ := continuation_ofNat v
  refine ⟨hcount, ?_⟩
  rw [firstChar_two hcount hnext, hbits, ha]
  congr 2
  omega

/-- No character is half of a pair, so behind 0xED stands a low byte. -/
theorem read_three (h : 0x800 ≤ v) (h' : v < 0x10000) (hpair : v < 0xD800 ∨ 0xDFFF < v)
    (rest : List UInt8) :
    byteCount (UInt8.ofNat (v / 4096 % 16 + 224)) = some 3 ∧
      firstChar (UInt8.ofNat (v / 4096 % 16 + 224))
        (UInt8.ofNat (v / 64 % 64 + 128) :: UInt8.ofNat (v % 64 + 128) :: rest) =
          .ok (Char.ofNat v) := by
  have ha : (UInt8.ofNat (v / 4096 % 16 + 224)).toNat = v / 4096 % 16 + 224 := by
    rw [UInt8.toNat_ofNat']
    omega
  have hcount : byteCount (UInt8.ofNat (v / 4096 % 16 + 224)) = some 3 :=
    byteCount_three (by omega) (by omega)
  obtain ⟨hnext, hnat, hbits⟩ := continuation_ofNat (v / 64)
  obtain ⟨hlast, -, hlow⟩ := continuation_ofNat v
  have hsecond : isSecond (UInt8.ofNat (v / 4096 % 16 + 224)) (UInt8.ofNat (v / 64 % 64 + 128)) = true :=
    isSecond_of hnext (by omega) (by omega) (by omega) (by omega)
  refine ⟨hcount, ?_⟩
  rw [firstChar_three hcount hsecond hlast, hbits, hlow, ha]
  congr 2
  omega

theorem read_four (h : 0x10000 ≤ v) (h' : v < 0x110000) (rest : List UInt8) :
    byteCount (UInt8.ofNat (v / 262144 % 8 + 240)) = some 4 ∧
      firstChar (UInt8.ofNat (v / 262144 % 8 + 240))
        (UInt8.ofNat (v / 4096 % 64 + 128) :: UInt8.ofNat (v / 64 % 64 + 128) ::
          UInt8.ofNat (v % 64 + 128) :: rest) = .ok (Char.ofNat v) := by
  have ha : (UInt8.ofNat (v / 262144 % 8 + 240)).toNat = v / 262144 % 8 + 240 := by
    rw [UInt8.toNat_ofNat']
    omega
  have hcount : byteCount (UInt8.ofNat (v / 262144 % 8 + 240)) = some 4 :=
    byteCount_four (by omega) (by omega)
  obtain ⟨hnext, hnat, hbits⟩ := continuation_ofNat (v / 4096)
  obtain ⟨hthird, -, hmid⟩ := continuation_ofNat (v / 64)
  obtain ⟨hlast, -, hlow⟩ := continuation_ofNat v
  have hsecond :
      isSecond (UInt8.ofNat (v / 262144 % 8 + 240)) (UInt8.ofNat (v / 4096 % 64 + 128)) = true :=
    isSecond_of hnext (by omega) (by omega) (by omega) (by omega)
  refine ⟨hcount, ?_⟩
  rw [firstChar_four hcount hsecond hthird hlast, hbits, hmid, hlow, ha]
  congr 2
  omega

/-- A character is read from its own bytes, whatever follows them. -/
theorem firstChar_encode (x : Char) (rest : List UInt8) : ∃ a more,
    String.utf8EncodeChar x = a :: more ∧ byteCount a = some (more.length + 1) ∧
      firstChar a (more ++ rest) = .ok x := by
  have hvalid : x.val.toNat < 0xD800 ∨ 0xDFFF < x.val.toNat ∧ x.val.toNat < 0x110000 := x.valid
  have hx : Char.ofNat x.val.toNat = x := Char.ofNat_toNat x
  unfold String.utf8EncodeChar
  generalize x.val.toNat = v at hvalid hx
  subst hx
  dsimp only
  -- The four lengths are told apart by the same bounds that the bytes were written by.
  split
  · next h =>
    obtain ⟨hcount, hfirst⟩ := read_one (Nat.lt_succ_of_le h) rest
    exact ⟨_, [], rfl, hcount, hfirst⟩
  · split
    · next h h' =>
      obtain ⟨hcount, hfirst⟩ := read_two (not_le.mp h) (Nat.lt_succ_of_le h') rest
      exact ⟨_, [_], rfl, hcount, hfirst⟩
    · split
      · next h h' =>
        obtain ⟨hcount, hfirst⟩ := read_three (not_le.mp h) (Nat.lt_succ_of_le h')
          (hvalid.imp_right And.left) rest
        exact ⟨_, [_, _], rfl, hcount, hfirst⟩
      · next h =>
        obtain ⟨hcount, hfirst⟩ := read_four (v := v) (by omega) (by omega) rest
        exact ⟨_, [_, _, _], rfl, hcount, hfirst⟩

/-! ## Whole texts -/

/-- The bytes of the character that was read last are passed over. -/
theorem decodeFrom_skip (position : Nat) (skipped rest : List UInt8) :
    decodeFrom position skipped.length (skipped ++ rest) =
      decodeFrom (position + skipped.length) 0 rest := by
  induction skipped generalizing position with
  | nil => rfl
  | cons b skipped ih =>
    rw [List.length_cons, List.cons_append, decodeFrom, ih, Nat.add_assoc, Nat.add_comm 1]

theorem decodeFrom_encode (s : List Char) (position : Nat) :
    decodeFrom position 0 (s.flatMap String.utf8EncodeChar) = .ok s := by
  induction s generalizing position with
  | nil => rfl
  | cons x s ih =>
    obtain ⟨a, more, hbytes, hcount, hfirst⟩ :=
      firstChar_encode x (s.flatMap String.utf8EncodeChar)
    rw [List.flatMap_cons, hbytes, List.cons_append, decodeFrom, hfirst, hcount]
    simp only [Option.getD_some, Nat.add_sub_cancel]
    rw [decodeFrom_skip, ih]
    rfl

theorem toList_eq_data (bytes : ByteArray) : bytes.toList = bytes.data.toList := by
  have hloop : ∀ i r, ByteArray.toList.loop bytes i r = r.reverse ++ bytes.data.toList.drop i := by
    intro i r
    induction i, r using ByteArray.toList.loop.induct bytes with
    | case1 i r h ih =>
      have hget : bytes.get! i = bytes.data.toList.get ⟨i, by simpa using h⟩ := by
        rw [List.get_eq_getElem, Array.getElem_toList]
        exact getElem!_pos bytes.data i h
      rw [ByteArray.toList.loop, if_pos h, ih, hget, List.get_eq_getElem, List.reverse_cons,
        List.append_assoc, List.singleton_append, ← List.drop_eq_getElem_cons]
    | case2 i r h =>
      rw [ByteArray.toList.loop, if_neg h, List.drop_eq_nil_of_le (by simpa using h), List.append_nil]
  rw [ByteArray.toList, hloop]
  rfl

/-- A text is written character by character. -/
theorem encode_eq (s : List Char) : encode (String.ofList s) = s.flatMap String.utf8EncodeChar := by
  rw [encode, toList_eq_data]
  simp [List.utf8Encode]

/-- A text comes back from its bytes. -/
theorem decode_encode (s : List Char) : decode (encode (String.ofList s)) = .ok s := by
  rw [encode_eq]
  exact decodeFrom_encode s 0

end Sourcebook.Text
