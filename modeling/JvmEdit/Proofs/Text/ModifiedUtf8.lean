import JvmEdit.Text.ModifiedUtf8
set_option autoImplicit false

namespace JvmEdit

theorem Char.scalar (c : Char) : c.toNat < 0xd800 ∨ 0xdfff < c.toNat ∧ c.toNat < 0x110000 := c.valid

namespace Utf8

def encode (text : List Char) : List UInt8 := text.flatMap String.utf8EncodeChar

theorem to_nat_byte (n : Nat) (small : n < 256) : (UInt8.ofNat n).toNat = n :=
  UInt8.toNat_ofNat_of_lt' small

theorem byte_eq (n : Nat) (b : UInt8) (same : n = b.toNat) : UInt8.ofNat n = b := by
  rw [same, UInt8.ofNat_toNat]

section Forms

variable (a b c d : UInt8)

theorem ascii_iff : a < 0x80 ↔ a.toNat < 0x80 := UInt8.lt_iff_toNat_lt

theorem continues_iff : continues b = true ↔ 0x80 ≤ b.toNat ∧ b.toNat ≤ 0xbf := by
  simp [continues, UInt8.le_iff_toNat_le]

theorem two_bytes_iff : twoBytes a b = true ↔
    (0xc2 ≤ a.toNat ∧ a.toNat ≤ 0xdf) ∧ 0x80 ≤ b.toNat ∧ b.toNat ≤ 0xbf := by
  simp [twoBytes, continues_iff, UInt8.le_iff_toNat_le]

theorem three_bytes_iff : threeBytes a b c = true ↔
    ((0x80 ≤ b.toNat ∧ b.toNat ≤ 0xbf) ∧ 0x80 ≤ c.toNat ∧ c.toNat ≤ 0xbf) ∧
      (a.toNat = 0xe0 ∧ 0xa0 ≤ b.toNat ∨ 0xe1 ≤ a.toNat ∧ a.toNat ≤ 0xec ∨
        a.toNat = 0xed ∧ b.toNat ≤ 0x9f ∨ 0xee ≤ a.toNat ∧ a.toNat ≤ 0xef) := by
  simp [threeBytes, continues_iff, UInt8.le_iff_toNat_le, ← UInt8.toNat_inj, or_assoc]

theorem four_bytes_iff : fourBytes a b c d = true ↔
    ((0x80 ≤ b.toNat ∧ b.toNat ≤ 0xbf) ∧ (0x80 ≤ c.toNat ∧ c.toNat ≤ 0xbf) ∧
      0x80 ≤ d.toNat ∧ d.toNat ≤ 0xbf) ∧
      (a.toNat = 0xf0 ∧ 0x90 ≤ b.toNat ∨ 0xf1 ≤ a.toNat ∧ a.toNat ≤ 0xf3 ∨
        a.toNat = 0xf4 ∧ b.toNat ≤ 0x8f) := by
  simp [fourBytes, continues_iff, UInt8.le_iff_toNat_le, ← UInt8.toNat_inj, or_assoc, and_assoc]

end Forms

theorem utf8_encode_char_eq (c : Char) (n : Nat) (number : c.toNat = n) : String.utf8EncodeChar c =
    if n ≤ 0x7f then [UInt8.ofNat n]
    else if n ≤ 0x7ff then [UInt8.ofNat (n / 64 % 32 + 0xc0), UInt8.ofNat (n % 64 + 0x80)]
    else if n ≤ 0xffff then
      [UInt8.ofNat (n / 4096 % 16 + 0xe0), UInt8.ofNat (n / 64 % 64 + 0x80),
        UInt8.ofNat (n % 64 + 0x80)]
    else
      [UInt8.ofNat (n / 262144 % 8 + 0xf0), UInt8.ofNat (n / 4096 % 64 + 0x80),
        UInt8.ofNat (n / 64 % 64 + 0x80), UInt8.ofNat (n % 64 + 0x80)] := by
  subst number
  rfl

theorem to_nat_scalar (n : Nat) (scalar : n < 0xd800 ∨ 0xdfff < n ∧ n < 0x110000) :
    (Char.ofNat n).toNat = n := by
  rw [Char.ofNat, dif_pos scalar]
  rfl

section Written

variable (a b c d : UInt8)

theorem written_ascii (ascii : a < 0x80) : String.utf8EncodeChar (Char.ofNat a.toNat) = [a] := by
  rw [ascii_iff] at ascii
  rw [utf8_encode_char_eq _ _ (to_nat_scalar _ (.inl (by omega))), if_pos (by omega), UInt8.ofNat_toNat]

theorem written_two (form : twoBytes a b = true) :
    String.utf8EncodeChar (Char.ofNat (a.toNat % 32 * 64 + low b)) = [a, b] := by
  rw [two_bytes_iff] at form
  rw [low, utf8_encode_char_eq _ _ (to_nat_scalar _ (.inl (by omega))), if_neg (by omega),
    if_pos (by omega), byte_eq _ a (by omega), byte_eq _ b (by omega)]

theorem written_three (form : threeBytes a b c = true) :
    String.utf8EncodeChar (Char.ofNat ((a.toNat % 16 * 64 + low b) * 64 + low c)) = [a, b, c] := by
  rw [three_bytes_iff] at form
  rw [low, low, utf8_encode_char_eq _ _ (to_nat_scalar _ (by omega)), if_neg (by omega),
    if_neg (by omega), if_pos (by omega), byte_eq _ a (by omega), byte_eq _ b (by omega),
    byte_eq _ c (by omega)]

theorem written_four (form : fourBytes a b c d = true) :
    String.utf8EncodeChar (Char.ofNat (((a.toNat % 8 * 64 + low b) * 64 + low c) * 64 + low d)) =
      [a, b, c, d] := by
  rw [four_bytes_iff] at form
  rw [low, low, low, utf8_encode_char_eq _ _ (to_nat_scalar _ (.inr (by omega))), if_neg (by omega),
    if_neg (by omega), if_neg (by omega), byte_eq _ a (by omega), byte_eq _ b (by omega),
    byte_eq _ c (by omega), byte_eq _ d (by omega)]

end Written

theorem encode_extends (reversed text : List Char) (c : Char) (form rest : List UInt8)
    (written : String.utf8EncodeChar c = form)
    (later : ∃ more, text = (c :: reversed).reverse ++ more ∧ encode more = rest) :
    ∃ more, text = reversed.reverse ++ more ∧ encode more = form ++ rest := by
  obtain ⟨more, rfl, rfl⟩ := later
  refine ⟨c :: more, ?_, ?_⟩
  · rw [List.reverse_cons, List.append_assoc]
    rfl
  · rw [encode, List.flatMap_cons, written]
    rfl

theorem encode_of_decode_onto (reversed : List Char) (bytes : List UInt8) (text : List Char)
    (read : decodeOnto reversed bytes = some text) :
    ∃ more, text = reversed.reverse ++ more ∧ encode more = bytes := by
  fun_induction decodeOnto reversed bytes with
  | case1 reversed =>
      cases read
      exact ⟨[], (List.append_nil _).symm, rfl⟩
  | case2 reversed a rest ascii ih =>
      exact encode_extends reversed text _ [a] rest (written_ascii a ascii) (ih read)
  | case4 reversed a _ b rest two ih =>
      exact encode_extends reversed text _ [a, b] rest (written_two a b two) (ih read)
  | case6 reversed a _ b _ c rest three ih =>
      exact encode_extends reversed text _ [a, b, c] rest (written_three a b c three) (ih read)
  | case8 reversed a _ b _ c _ d rest four ih =>
      exact encode_extends reversed text _ [a, b, c, d] rest (written_four a b c d four) (ih read)
  | case3 | case5 | case7 | case9 => cases read

section Reads

variable (reversed : List Char) (a b c d : UInt8) (rest : List UInt8)

theorem decode_onto_ascii (ascii : a < 0x80) :
    decodeOnto reversed (a :: rest) = decodeOnto (Char.ofNat a.toNat :: reversed) rest := by
  rw [decodeOnto.eq_def]
  dsimp only
  rw [if_pos ascii]

theorem decode_onto_two (form : twoBytes a b = true) : decodeOnto reversed (a :: b :: rest) =
    decodeOnto (Char.ofNat (a.toNat % 32 * 64 + low b) :: reversed) rest := by
  have bounds := (two_bytes_iff a b).mp form
  have notAscii : ¬a < 0x80 := by
    rw [ascii_iff]
    omega
  rw [decodeOnto.eq_def]
  dsimp only
  rw [if_neg notAscii, if_pos form]

theorem decode_onto_three (form : threeBytes a b c = true) : decodeOnto reversed (a :: b :: c :: rest) =
    decodeOnto (Char.ofNat ((a.toNat % 16 * 64 + low b) * 64 + low c) :: reversed) rest := by
  have bounds := (three_bytes_iff a b c).mp form
  have notAscii : ¬a < 0x80 := by
    rw [ascii_iff]
    omega
  have notTwo : ¬twoBytes a b = true := by
    rw [two_bytes_iff]
    omega
  rw [decodeOnto.eq_def]
  dsimp only
  rw [if_neg notAscii, if_neg notTwo, if_pos form]

theorem decode_onto_four (form : fourBytes a b c d = true) :
    decodeOnto reversed (a :: b :: c :: d :: rest) =
      decodeOnto (Char.ofNat (((a.toNat % 8 * 64 + low b) * 64 + low c) * 64 + low d) :: reversed)
        rest := by
  have bounds := (four_bytes_iff a b c d).mp form
  have notAscii : ¬a < 0x80 := by
    rw [ascii_iff]
    omega
  have notTwo : ¬twoBytes a b = true := by
    rw [two_bytes_iff]
    omega
  have notThree : ¬threeBytes a b c = true := by
    rw [three_bytes_iff]
    omega
  rw [decodeOnto.eq_def]
  dsimp only
  rw [if_neg notAscii, if_neg notTwo, if_neg notThree, if_pos form]

end Reads

section Numbered

variable (reversed : List Char) (n : Nat) (rest : List UInt8)

theorem low_tail : low (UInt8.ofNat (n % 64 + 0x80)) = n % 64 := by
  rw [low, to_nat_byte _ (by omega)]
  omega

theorem read_ascii (small : n ≤ 0x7f) :
    decodeOnto reversed (UInt8.ofNat n :: rest) = decodeOnto (Char.ofNat n :: reversed) rest := by
  have first := to_nat_byte n (by omega)
  have form : UInt8.ofNat n < 0x80 := by
    rw [ascii_iff, first]
    omega
  rw [decode_onto_ascii _ _ _ form, first]

theorem read_two (above : 0x7f < n) (below : n ≤ 0x7ff) :
    decodeOnto reversed (UInt8.ofNat (n / 64 % 32 + 0xc0) :: UInt8.ofNat (n % 64 + 0x80) :: rest) =
      decodeOnto (Char.ofNat n :: reversed) rest := by
  have first := to_nat_byte (n / 64 % 32 + 0xc0) (by omega)
  have second := to_nat_byte (n % 64 + 0x80) (by omega)
  have form : twoBytes (UInt8.ofNat (n / 64 % 32 + 0xc0)) (UInt8.ofNat (n % 64 + 0x80)) = true := by
    rw [two_bytes_iff, first, second]
    omega
  rw [decode_onto_two _ _ _ _ form, first, low_tail]
  congr 3
  omega

theorem read_three (above : 0x7ff < n) (below : n ≤ 0xffff) (scalar : n < 0xd800 ∨ 0xdfff < n) :
    decodeOnto reversed (UInt8.ofNat (n / 4096 % 16 + 0xe0) :: UInt8.ofNat (n / 64 % 64 + 0x80) ::
      UInt8.ofNat (n % 64 + 0x80) :: rest) = decodeOnto (Char.ofNat n :: reversed) rest := by
  have first := to_nat_byte (n / 4096 % 16 + 0xe0) (by omega)
  have second := to_nat_byte (n / 64 % 64 + 0x80) (by omega)
  have third := to_nat_byte (n % 64 + 0x80) (by omega)
  have form : threeBytes (UInt8.ofNat (n / 4096 % 16 + 0xe0)) (UInt8.ofNat (n / 64 % 64 + 0x80))
      (UInt8.ofNat (n % 64 + 0x80)) = true := by
    rw [three_bytes_iff, first, second, third]
    omega
  rw [decode_onto_three _ _ _ _ _ form, first, low_tail, low_tail]
  congr 3
  omega

theorem read_four (above : 0xffff < n) (below : n < 0x110000) :
    decodeOnto reversed (UInt8.ofNat (n / 262144 % 8 + 0xf0) :: UInt8.ofNat (n / 4096 % 64 + 0x80) ::
      UInt8.ofNat (n / 64 % 64 + 0x80) :: UInt8.ofNat (n % 64 + 0x80) :: rest) =
        decodeOnto (Char.ofNat n :: reversed) rest := by
  have first := to_nat_byte (n / 262144 % 8 + 0xf0) (by omega)
  have second := to_nat_byte (n / 4096 % 64 + 0x80) (by omega)
  have third := to_nat_byte (n / 64 % 64 + 0x80) (by omega)
  have fourth := to_nat_byte (n % 64 + 0x80) (by omega)
  have form : fourBytes (UInt8.ofNat (n / 262144 % 8 + 0xf0)) (UInt8.ofNat (n / 4096 % 64 + 0x80))
      (UInt8.ofNat (n / 64 % 64 + 0x80)) (UInt8.ofNat (n % 64 + 0x80)) = true := by
    rw [four_bytes_iff, first, second, third, fourth]
    omega
  rw [decode_onto_four _ _ _ _ _ _ form, first, low_tail, low_tail, low_tail]
  congr 3
  omega

end Numbered

theorem decode_onto_utf8_encode_char (reversed : List Char) (c : Char) (rest : List UInt8) :
    decodeOnto reversed (String.utf8EncodeChar c ++ rest) = decodeOnto (c :: reversed) rest := by
  have scalar := Char.scalar c
  rw [utf8_encode_char_eq c c.toNat rfl]
  conv => rhs; rw [← Char.ofNat_toNat c]
  split
  · rename_i one
    exact read_ascii reversed c.toNat rest one
  · split
    · exact read_two reversed c.toNat rest (by omega) (by omega)
    · split
      · exact read_three reversed c.toNat rest (by omega) (by omega) (by omega)
      · exact read_four reversed c.toNat rest (by omega) (by omega)

theorem decode_onto_encode (reversed text : List Char) :
    decodeOnto reversed (encode text) = some (reversed.reverse ++ text) := by
  induction text generalizing reversed with
  | nil => rw [encode, List.flatMap_nil, decodeOnto, List.append_nil]
  | cons c text ih =>
      rw [encode, List.flatMap_cons, decode_onto_utf8_encode_char, ← encode, ih, List.reverse_cons,
        List.append_assoc, List.singleton_append]

theorem decode?_eq_some_iff (bytes : List UInt8) (text : List Char) :
    decode? bytes = some text ↔ encode text = bytes := by
  constructor
  · intro read
    obtain ⟨more, rfl, written⟩ := encode_of_decode_onto [] bytes text read
    exact written
  · rintro rfl
    exact decode_onto_encode [] text

end Utf8

namespace Utf16

section Halves

variable (n : Nat)

theorem to_nat_high (below : n < 0x110000) :
    (UInt16.ofNat (0xd800 + (n - 0x10000) / 1024)).toNat = 0xd800 + (n - 0x10000) / 1024 :=
  UInt16.toNat_ofNat_of_lt' (show _ < 0x10000 by omega)

theorem to_nat_low :
    (UInt16.ofNat (0xdc00 + (n - 0x10000) % 1024)).toNat = 0xdc00 + (n - 0x10000) % 1024 :=
  UInt16.toNat_ofNat_of_lt' (show _ < 0x10000 by omega)

end Halves

theorem decode_onto_of_char (reversed : List Char) (c : Char) (rest : List UInt16) :
    decodeOnto reversed (ofChar c ++ rest) = decodeOnto (c :: reversed) rest := by
  have scalar := Char.scalar c
  simp only [ofChar]
  split
  · rename_i basic
    have unit : (UInt16.ofNat c.toNat).toNat = c.toNat := by
      rw [UInt16.toNat_ofNat']
      omega
    have notHigh : isHigh (UInt16.ofNat c.toNat) = false := by
      simp [isHigh, UInt16.le_iff_toNat_le, unit]
      omega
    have notLow : isLow (UInt16.ofNat c.toNat) = false := by
      simp [isLow, UInt16.le_iff_toNat_le, unit]
      omega
    rw [List.cons_append, List.nil_append, decodeOnto.eq_def]
    simp [notHigh, notLow, unit, Char.ofNat_toNat]
  · rename_i astral
    have high := to_nat_high c.toNat (by omega)
    have low := to_nat_low c.toNat
    have isHigh : isHigh (UInt16.ofNat (0xd800 + (c.toNat - 0x10000) / 1024)) = true := by
      simp only [Utf16.isHigh, UInt16.le_iff_toNat_le, high, Bool.and_eq_true, decide_eq_true_eq]
      simp
      omega
    have isLow : isLow (UInt16.ofNat (0xdc00 + (c.toNat - 0x10000) % 1024)) = true := by
      simp only [Utf16.isLow, UInt16.le_iff_toNat_le, low, Bool.and_eq_true, decide_eq_true_eq]
      simp
      omega
    have joined : pair (UInt16.ofNat (0xd800 + (c.toNat - 0x10000) / 1024))
        (UInt16.ofNat (0xdc00 + (c.toNat - 0x10000) % 1024)) = c := by
      rw [pair, high, low, show 0x10000 + (0xd800 + (c.toNat - 0x10000) / 1024 - 0xd800) * 1024 +
        (0xdc00 + (c.toNat - 0x10000) % 1024 - 0xdc00) = c.toNat by omega, Char.ofNat_toNat]
    simp only [List.cons_append, List.nil_append, decodeOnto, isHigh, isLow, if_true, joined]

theorem decode_onto_of_chars (reversed text : List Char) :
    decodeOnto reversed (ofChars text) = reversed.reverse ++ text := by
  induction text generalizing reversed with
  | nil => simp [ofChars, decodeOnto]
  | cons c text ih =>
      rw [ofChars, List.flatMap_cons, decode_onto_of_char]
      rw [ofChars] at ih
      rw [ih, List.reverse_cons, List.append_assoc]
      rfl

theorem decode_of_chars (text : List Char) : decode (ofChars text) = text :=
  decode_onto_of_chars [] text

end Utf16

namespace ModifiedUtf8

theorem units_onto_of_unit (reversed : List UInt16) (u : UInt16) (rest : List UInt8) :
    unitsOnto reversed (ofUnit u ++ rest) = unitsOnto (u :: reversed) rest := by
  have bound := u.toNat_lt
  have whole : UInt16.ofNat u.toNat = u := UInt16.ofNat_toNat
  unfold ofUnit
  dsimp only
  split
  · rename_i ascii
    have byte : (UInt8.ofNat u.toNat).toNat = u.toNat := by
      rw [UInt8.toNat_ofNat']
      omega
    have isAscii : UInt8.ofNat u.toNat < 0x80 := by
      rw [UInt8.lt_iff_toNat_lt, byte]
      exact ascii.2
    have widened : (UInt8.ofNat u.toNat).toUInt16 = u := by
      rw [← UInt16.toNat_inj, UInt8.toNat_toUInt16, byte]
    rw [List.cons_append, List.nil_append, unitsOnto.eq_def]
    dsimp only
    rw [if_pos isAscii, widened]
  · split
    · rename_i two
      have first : (UInt8.ofNat (0xc0 + u.toNat / 64)).toNat = 0xc0 + u.toNat / 64 := by
        rw [UInt8.toNat_ofNat']
        omega
      have second : Utf8.low (UInt8.ofNat (0x80 + u.toNat % 64)) = u.toNat % 64 := by
        rw [Utf8.low, UInt8.toNat_ofNat']
        omega
      have notAscii : ¬UInt8.ofNat (0xc0 + u.toNat / 64) < 0x80 := by
        rw [UInt8.lt_iff_toNat_lt, first]
        simp
        omega
      have isTwo : (UInt8.ofNat (0xc0 + u.toNat / 64)).toNat / 32 = 6 := by
        rw [first]
        omega
      have value : (0xc0 + u.toNat / 64) % 32 * 64 + u.toNat % 64 = u.toNat := by omega
      simp only [List.cons_append, List.nil_append]
      rw [unitsOnto, if_neg notAscii, if_pos isTwo]
      simp only [first, second, value, whole]
    · rename_i three
      have first : (UInt8.ofNat (0xe0 + u.toNat / 4096)).toNat = 0xe0 + u.toNat / 4096 := by
        rw [UInt8.toNat_ofNat']
        omega
      have second : Utf8.low (UInt8.ofNat (0x80 + u.toNat / 64 % 64)) = u.toNat / 64 % 64 := by
        rw [Utf8.low, UInt8.toNat_ofNat']
        omega
      have third : Utf8.low (UInt8.ofNat (0x80 + u.toNat % 64)) = u.toNat % 64 := by
        rw [Utf8.low, UInt8.toNat_ofNat']
        omega
      have notAscii : ¬UInt8.ofNat (0xe0 + u.toNat / 4096) < 0x80 := by
        rw [UInt8.lt_iff_toNat_lt, first]
        simp
        omega
      have notTwo : (UInt8.ofNat (0xe0 + u.toNat / 4096)).toNat / 32 ≠ 6 := by
        rw [first]
        omega
      have isThree : (UInt8.ofNat (0xe0 + u.toNat / 4096)).toNat / 16 = 14 := by
        rw [first]
        omega
      have value : ((0xe0 + u.toNat / 4096) % 16 * 64 + u.toNat / 64 % 64) * 64 + u.toNat % 64 =
          u.toNat := by omega
      simp only [List.cons_append, List.nil_append]
      rw [unitsOnto, if_neg notAscii, if_neg notTwo, if_pos isThree]
      simp only [first, second, third, value, whole]

theorem units_onto_of_units (reversed written : List UInt16) :
    unitsOnto reversed (written.flatMap ofUnit) = reversed.reverse ++ written := by
  induction written generalizing reversed with
  | nil => simp [unitsOnto]
  | cons u written ih =>
      rw [List.flatMap_cons, units_onto_of_unit, ih, List.reverse_cons, List.append_assoc]
      rfl

theorem units_encode (text : String) : units (encode text) = Utf16.ofChars text.toList :=
  units_onto_of_units [] _

theorem zero_not_mem_of_unit (u : UInt16) : 0 ∉ ofUnit u := by
  have bound := u.toNat_lt
  have positive : ∀ n, 0 < n → n < 256 → (0 : UInt8) ≠ UInt8.ofNat n := by
    intro n above small same
    have value := congrArg UInt8.toNat same
    rw [Utf8.to_nat_byte n small] at value
    exact Nat.ne_of_lt above value
  unfold ofUnit
  dsimp only
  split
  · rename_i ascii
    rw [List.mem_singleton]
    exact positive _ (by omega) (by omega)
  · split
    · rw [List.mem_cons, List.mem_singleton, not_or]
      exact ⟨positive _ (by omega) (by omega), positive _ (by omega) (by omega)⟩
    · rw [List.mem_cons, List.mem_cons, List.mem_singleton, not_or, not_or]
      exact ⟨positive _ (by omega) (by omega), positive _ (by omega) (by omega),
        positive _ (by omega) (by omega)⟩

theorem zero_not_mem_encode (text : String) : 0 ∉ encode text := by
  intro member
  obtain ⟨u, _, inUnit⟩ := List.mem_flatMap.mp member
  exact zero_not_mem_of_unit u inUnit

-- The bytes of one character.
def ofChar (c : Char) : List UInt8 := (Utf16.ofChar c).flatMap ofUnit

theorem encode_eq (text : String) : encode text = text.toList.flatMap ofChar := by
  rw [encode, Utf16.ofChars, List.flatMap_assoc]
  rfl

-- The character is not zero, and one unit is enough for it.
def isPlain (c : Char) : Bool := c.toNat != 0 && c.toNat < 0x10000

theorem is_plain_iff (c : Char) : isPlain c = true ↔ c.toNat ≠ 0 ∧ c.toNat < 0x10000 := by
  simp [isPlain]

theorem of_char_plain (c : Char) (plain : isPlain c = true) : ofChar c = String.utf8EncodeChar c := by
  obtain ⟨notZero, basic⟩ := (is_plain_iff c).mp plain
  have unit : (UInt16.ofNat c.toNat).toNat = c.toNat := UInt16.toNat_ofNat_of_lt' basic
  rw [ofChar, Utf16.ofChar, if_pos basic, List.flatMap_singleton, ofUnit, unit,
    Utf8.utf8_encode_char_eq c c.toNat rfl]
  split
  · rw [if_pos (by omega)]
  · split
    · rw [if_neg (by omega), if_pos (by omega), Nat.add_comm 0xc0, Nat.add_comm 0x80,
        Nat.mod_eq_of_lt (show c.toNat / 64 < 32 by omega)]
    · rw [if_neg (by omega), if_neg (by omega), if_pos (by omega), Nat.add_comm 0xe0,
        Nat.add_comm 0x80, Nat.add_comm 0x80, Nat.mod_eq_of_lt (show c.toNat / 4096 < 16 by omega)]

theorem decode_onto_surrogate (reversed : List Char) (b c d : UInt8) (rest : List UInt8)
    (half : 0xa0 ≤ b) : Utf8.decodeOnto reversed (0xed :: b :: c :: d :: rest) = none := by
  have notLow : (decide (b ≤ 0x9f)) = false := by
    simp only [decide_eq_false_iff_not, UInt8.le_iff_toNat_le] at half ⊢
    simp at half ⊢
    omega
  rw [Utf8.decodeOnto.eq_def]
  simp [Utf8.twoBytes, Utf8.threeBytes, Utf8.fourBytes, notLow]

theorem decode_onto_zero (reversed : List Char) (rest : List UInt8) :
    Utf8.decodeOnto reversed (0xc0 :: 0x80 :: rest) = none := by
  rw [Utf8.decodeOnto.eq_def]
  cases rest with
  | nil => simp [Utf8.twoBytes]
  | cons c rest => cases rest <;> simp [Utf8.twoBytes, Utf8.threeBytes, Utf8.fourBytes]

theorem decode_onto_not_plain (reversed : List Char) (c : Char) (rest : List UInt8)
    (other : ¬isPlain c = true) : Utf8.decodeOnto reversed (ofChar c ++ rest) = none := by
  have scalar := Char.scalar c
  rw [ofChar, Utf16.ofChar]
  split
  · rename_i basic
    have zero : c.toNat = 0 :=
      Decidable.byContradiction fun notZero => other ((is_plain_iff c).mpr ⟨notZero, basic⟩)
    rw [List.flatMap_singleton, zero]
    exact decode_onto_zero reversed rest
  · rename_i astral
    have high := Utf16.to_nat_high c.toNat (by omega)
    have low := Utf16.to_nat_low c.toNat
    have first : 0xe0 + (0xd800 + (c.toNat - 0x10000) / 1024) / 4096 = 0xed := by omega
    have half : (0xa0 : UInt8) ≤
        UInt8.ofNat (0x80 + (0xd800 + (c.toNat - 0x10000) / 1024) / 64 % 64) := by
      rw [UInt8.le_iff_toNat_le, UInt8.toNat_ofNat']
      simp
      omega
    rw [List.flatMap_cons, List.flatMap_singleton]
    simp only [ofUnit, high, low]
    rw [if_neg (by omega), if_neg (by omega), if_neg (by omega), if_neg (by omega), first]
    simp only [List.cons_append, List.nil_append]
    exact decode_onto_surrogate reversed _ _ _ _ half

theorem decode_onto_encoded (reversed text : List Char) :
    Utf8.decodeOnto reversed (text.flatMap ofChar) =
      if text.all isPlain then some (reversed.reverse ++ text) else none := by
  induction text generalizing reversed with
  | nil => simp [Utf8.decodeOnto]
  | cons c text ih =>
      rw [List.flatMap_cons, List.all_cons]
      by_cases plain : isPlain c = true
      · rw [plain, Bool.true_and, of_char_plain c plain, Utf8.decode_onto_utf8_encode_char, ih,
          List.reverse_cons, List.append_assoc, List.singleton_append]
      · rw [Bool.eq_false_iff.mpr plain, Bool.false_and]
        exact decode_onto_not_plain reversed c _ plain

theorem decode?_encode (text : String) : Utf8.decode? (encode text) =
    if text.toList.all isPlain then some text.toList else none := by
  rw [encode_eq]
  exact decode_onto_encoded [] text.toList

theorem decode_encode (text : String) : decode (encode text) = text := by
  rw [decode, decode?_encode]
  by_cases plain : text.toList.all isPlain = true
  · rw [if_pos plain]
    exact String.ofList_toList
  · rw [if_neg plain]
    dsimp only
    rw [units_encode, Utf16.decode_of_chars, String.ofList_toList]

-- Text comes back whole, whatever characters it mixes, its bytes are never zero, and no other text has
-- them. The plain reader, which goes first and takes exactly what plain UTF-8 writes, accepts the bytes
-- if all characters are plain, and then reads the same; otherwise the units are read, each of them as
-- it was written.
theorem encode_lossless :
    (∀ text, decode (encode text) = text) ∧ (∀ text, 0 ∉ encode text) ∧ Function.Injective encode ∧
      (∀ bytes text, Utf8.decode? bytes = some text ↔ Utf8.encode text = bytes) ∧
      (∀ text, Utf8.decode? (encode text) =
        if text.toList.all isPlain then some text.toList else none) ∧
      (∀ text, units (encode text) = Utf16.ofChars text.toList) ∧
      ∀ text, Utf16.decode (Utf16.ofChars text) = text := by
  refine ⟨decode_encode, zero_not_mem_encode, ?_, Utf8.decode?_eq_some_iff, decode?_encode,
    units_encode, Utf16.decode_of_chars⟩
  exact Function.LeftInverse.injective decode_encode

example : encode "a\x00é😀" =
    [0x61, 0xc0, 0x80, 0xc3, 0xa9, 0xed, 0xa0, 0xbd, 0xed, 0xb8, 0x80] := by decide +kernel

end ModifiedUtf8

end JvmEdit
