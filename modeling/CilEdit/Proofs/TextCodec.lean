import CilEdit.Proofs.Varints

namespace CilEdit

open Reader

namespace Text.Utf8

theorem toNat_ofNat_of_lt {n : Nat} (h : n < 256) : (UInt8.ofNat n).toNat = n :=
  UInt8.toNat_ofNat_of_lt' h

theorem toNat_continuation (code : Nat) : (continuation code).toNat = 0x80 + code % 64 :=
  toNat_ofNat_of_lt (by omega)

theorem between_continuation {low high : UInt8} {code : Nat}
    (hlow : low.toNat ≤ 0x80 + code % 64) (hhigh : 0x80 + code % 64 ≤ high.toNat) :
    (decide (low ≤ continuation code) && decide (continuation code ≤ high)) = true := by
  rw [Bool.and_eq_true, decide_eq_true_eq, decide_eq_true_eq, UInt8.le_iff_toNat_le,
    UInt8.le_iff_toNat_le, toNat_continuation]
  exact ⟨hlow, hhigh⟩

theorem isContinuation_continuation (code : Nat) : isContinuation (continuation code) = true :=
  between_continuation (show 0x80 ≤ _ by omega) (show _ ≤ 0xBF by omega)

theorem extend_continuation (code next : Nat) :
    extend code (continuation next) = code * 64 + next % 64 := by
  rw [extend, toNat_continuation]
  omega

/-- The second byte of a sequence of three or four is in the narrowed range of the first one. -/
theorem isSecond_continuation {first : UInt8} {code : Nat}
    (hE0 : first.toNat = 0xE0 → 0x20 ≤ code % 64) (hED : first.toNat = 0xED → code % 64 < 0x20)
    (hF0 : first.toNat = 0xF0 → 0x10 ≤ code % 64) (hF4 : first.toNat = 0xF4 → code % 64 < 0x10) :
    isSecond first (continuation code) = true := by
  simp only [isSecond, beq_iff_eq, ← UInt8.toNat_inj, UInt8.reduceToNat]
  split
  · exact between_continuation (show 0xA0 ≤ _ by omega) (show _ ≤ 0xBF by omega)
  split
  · exact between_continuation (show 0x80 ≤ _ by omega) (show _ ≤ 0x9F by omega)
  split
  · exact between_continuation (show 0x90 ≤ _ by omega) (show _ ≤ 0xBF by omega)
  split
  · exact between_continuation (show 0x80 ≤ _ by omega) (show _ ≤ 0x8F by omega)
  · exact isContinuation_continuation code

theorem toNat_char_lt (c : Char) : c.toNat < 0xD800 ∨ 0xDFFF < c.toNat ∧ c.toNat < 0x110000 :=
  c.valid

section

variable {code : Nat} {c : Char} (index : Nat) (seen : List Char) (rest : Bytes)

theorem decodeFrom_one (hchar : Char.ofNat code = c) (hcode : code < 0x80) :
    decodeFrom index seen (UInt8.ofNat code :: rest) = decodeFrom (index + 1) (c :: seen) rest := by
  have hfirst : (UInt8.ofNat code).toNat = code := toNat_ofNat_of_lt (by omega)
  have hlow : UInt8.ofNat code < 0x80 := UInt8.lt_iff_toNat_lt.mpr (by rwa [hfirst])
  rw [decodeFrom.eq_def]
  simp only [if_pos hlow, hfirst, hchar]

theorem decodeFrom_two (hchar : Char.ofNat code = c) (hlow : 0x80 ≤ code) (hhigh : code < 0x800) :
    decodeFrom index seen (UInt8.ofNat (0xC0 + code / 64) :: continuation code :: rest)
      = decodeFrom (index + 2) (c :: seen) rest := by
  have hfirst : (UInt8.ofNat (0xC0 + code / 64)).toNat = 0xC0 + code / 64 :=
    toNat_ofNat_of_lt (by omega)
  have hextend : extend ((0xC0 + code / 64) % 32) (continuation code) = code := by
    rw [extend_continuation]
    omega
  rw [decodeFrom.eq_def]
  simp only [UInt8.lt_iff_toNat_lt, hfirst, UInt8.reduceToNat, isContinuation_continuation,
    if_true, hextend, hchar]
  rw [if_neg (by omega), if_neg (by omega), if_pos (by omega)]

theorem decodeFrom_three (hchar : Char.ofNat code = c) (hlow : 0x800 ≤ code)
    (hhigh : code < 0x10000) (hvalid : code < 0xD800 ∨ 0xDFFF < code) :
    decodeFrom index seen (UInt8.ofNat (0xE0 + code / 4096) :: continuation (code / 64)
      :: continuation code :: rest) = decodeFrom (index + 3) (c :: seen) rest := by
  have hfirst : (UInt8.ofNat (0xE0 + code / 4096)).toNat = 0xE0 + code / 4096 :=
    toNat_ofNat_of_lt (by omega)
  have hsecond : isSecond (UInt8.ofNat (0xE0 + code / 4096)) (continuation (code / 64)) = true :=
    isSecond_continuation (by omega) (by omega) (by omega) (by omega)
  have hextend : extend (extend ((0xE0 + code / 4096) % 16) (continuation (code / 64)))
      (continuation code) = code := by
    rw [extend_continuation, extend_continuation]
    omega
  rw [decodeFrom.eq_def]
  simp only [UInt8.lt_iff_toNat_lt, hfirst, UInt8.reduceToNat, hsecond,
    isContinuation_continuation, if_true, hextend, hchar]
  rw [if_neg (by omega), if_neg (by omega), if_neg (by omega), if_pos (by omega)]

theorem decodeFrom_four (hchar : Char.ofNat code = c) (hlow : 0x10000 ≤ code)
    (hhigh : code < 0x110000) :
    decodeFrom index seen (UInt8.ofNat (0xF0 + code / 262144) :: continuation (code / 4096)
      :: continuation (code / 64) :: continuation code :: rest)
      = decodeFrom (index + 4) (c :: seen) rest := by
  have hfirst : (UInt8.ofNat (0xF0 + code / 262144)).toNat = 0xF0 + code / 262144 :=
    toNat_ofNat_of_lt (by omega)
  have hsecond :
      isSecond (UInt8.ofNat (0xF0 + code / 262144)) (continuation (code / 4096)) = true :=
    isSecond_continuation (by omega) (by omega) (by omega) (by omega)
  have hextend : extend (extend (extend ((0xF0 + code / 262144) % 8)
      (continuation (code / 4096))) (continuation (code / 64))) (continuation code) = code := by
    rw [extend_continuation, extend_continuation, extend_continuation]
    omega
  rw [decodeFrom.eq_def]
  simp only [UInt8.lt_iff_toNat_lt, hfirst, UInt8.reduceToNat, hsecond,
    isContinuation_continuation, if_true, hextend, hchar]
  rw [if_neg (by omega), if_neg (by omega), if_neg (by omega), if_neg (by omega),
    if_pos (by omega)]

end

theorem decodeFrom_encodeChar (index : Nat) (seen : List Char) (c : Char) (rest : Bytes) :
    decodeFrom index seen (encodeChar c ++ rest)
      = decodeFrom (index + (encodeChar c).length) (c :: seen) rest := by
  have hvalid := toNat_char_lt c
  have hchar : Char.ofNat c.toNat = c := Char.ofNat_toNat c
  generalize hcode : c.toNat = code at hvalid hchar
  simp only [encodeChar, hcode]
  split
  · rename_i hone
    exact decodeFrom_one index seen rest hchar hone
  split
  · rename_i hone htwo
    exact decodeFrom_two index seen rest hchar (by omega) htwo
  split
  · rename_i hone htwo hthree
    exact decodeFrom_three index seen rest hchar (by omega) hthree (by omega)
  · rename_i hone htwo hthree
    exact decodeFrom_four index seen rest hchar (by omega) (by omega)

theorem decodeFrom_flatMap_encodeChar (index : Nat) (seen text : List Char) :
    decodeFrom index seen (text.flatMap encodeChar) = .ok (seen.reverse ++ text) := by
  induction text generalizing index seen with
  | nil => simp [decodeFrom]
  | cons c text ih =>
      rw [List.flatMap_cons, decodeFrom_encodeChar, ih, List.reverse_cons, List.append_assoc]
      rfl

theorem decode_eq (bytes : Bytes) : decode bytes = (decodeFrom 0 [] bytes).map String.ofList := by
  cases bytes with
  | nil => rfl
  | cons a rest => rfl

theorem decode_of_encode (text : String) : decode (encode text) = .ok text := by
  have h := decodeFrom_flatMap_encodeChar 0 [] text.toList
  simp only [List.reverse_nil, List.nil_append] at h
  rw [decode_eq, encode, h]
  exact congrArg Except.ok String.ofList_toList

end Text.Utf8

namespace Prefixed

theorem readsAt_read {text : String} {stored : Bytes} (h : bytes text = .ok stored) (pos : Nat) :
    ReadsAt read pos stored text := by
  simp only [bytes] at h
  split at h
  · rename_i hlength
    cases h
    refine (Varint.readsAt_read hlength pos).bind (readsAt_position_bind ?_)
    refine (readsAt_take _ _).bind_nil ?_
    rw [Text.Utf8.decode_of_encode]
    exact readsAt_pure _ _
  · cases h

end Prefixed

end CilEdit
