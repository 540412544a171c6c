import CilEdit.Proofs.Sequencing
import CilEdit.Proofs.TextCodec

namespace CilEdit

namespace Text.Utf8

variable {a b c d : UInt8} {code : Nat}

theorem toNat_ofNat_valid (h : code < 0xD800 ∨ 0xDFFF < code ∧ code < 0x110000) :
    (Char.ofNat code).toNat = code := by
  rw [Char.ofNat, dif_pos h]
  rfl

theorem continuation_eq (hb : isContinuation b = true) (hcode : code % 64 = b.toNat % 64) :
    continuation code = b := by
  simp only [isContinuation, Bool.and_eq_true, decide_eq_true_eq, UInt8.le_iff_toNat_le,
    UInt8.reduceToNat] at hb
  apply UInt8.toNat_inj.mp
  rw [toNat_continuation]
  omega

theorem ofNat_eq {n : Nat} (h : n = a.toNat) : UInt8.ofNat n = a := by
  rw [h, UInt8.ofNat_toNat]

theorem encodeChar_one (ha : a < 0x80) : encodeChar (Char.ofNat a.toNat) = [a] := by
  rw [UInt8.lt_iff_toNat_lt] at ha
  simp only [UInt8.reduceToNat] at ha
  simp only [encodeChar, toNat_ofNat_valid (.inl (Nat.lt_trans ha (by decide))), if_pos ha,
    UInt8.ofNat_toNat]

theorem encodeChar_two (hlow : ¬ a < 0xC2) (hhigh : a < 0xE0) (hb : isContinuation b = true) :
    encodeChar (Char.ofNat (extend (a.toNat % 32) b)) = [a, b] := by
  rw [UInt8.lt_iff_toNat_lt] at hlow hhigh
  simp only [UInt8.reduceToNat] at hlow hhigh
  have hcode : extend (a.toNat % 32) b = a.toNat % 32 * 64 + b.toNat % 64 := rfl
  generalize extend (a.toNat % 32) b = code at hcode
  simp only [encodeChar, @toNat_ofNat_valid code (by omega)]
  rw [if_neg (by omega), if_pos (by omega), continuation_eq hb (by omega), ofNat_eq (a := a)]
  omega

theorem between {low high : UInt8} (h : (decide (low ≤ b) && decide (b ≤ high)) = true) :
    low.toNat ≤ b.toNat ∧ b.toNat ≤ high.toNat := by
  simpa only [Bool.and_eq_true, decide_eq_true_eq, UInt8.le_iff_toNat_le] using h

/-- A second byte is a continuation byte, and in the narrowed range of the first one. -/
theorem isSecond_spec (h : isSecond a b = true) : isContinuation b = true ∧
    (a.toNat = 0xE0 → 0xA0 ≤ b.toNat) ∧ (a.toNat = 0xED → b.toNat ≤ 0x9F) ∧
    (a.toNat = 0xF0 → 0x90 ≤ b.toNat) ∧ (a.toNat = 0xF4 → b.toNat ≤ 0x8F) := by
  simp only [isContinuation, Bool.and_eq_true, decide_eq_true_eq, UInt8.le_iff_toNat_le]
  simp only [isSecond, isContinuation, beq_iff_eq, ← UInt8.toNat_inj] at h
  repeat' split at h
  all_goals
    obtain ⟨hlow, hhigh⟩ := between h
    simp only [UInt8.reduceToNat] at *
    omega

theorem encodeChar_three (hlow : ¬ a < 0xE0) (hhigh : a < 0xF0) (hb : isSecond a b = true)
    (hc : isContinuation c = true) :
    encodeChar (Char.ofNat (extend (extend (a.toNat % 16) b) c)) = [a, b, c] := by
  obtain ⟨hb, hE0, hED, -, -⟩ := isSecond_spec hb
  have hrange := hb
  rw [UInt8.lt_iff_toNat_lt] at hlow hhigh
  simp only [isContinuation, Bool.and_eq_true, decide_eq_true_eq, UInt8.le_iff_toNat_le,
    UInt8.reduceToNat] at hlow hhigh hrange
  have hcode : extend (extend (a.toNat % 16) b) c
      = (a.toNat % 16 * 64 + b.toNat % 64) * 64 + c.toNat % 64 := rfl
  generalize extend (extend (a.toNat % 16) b) c = code at hcode
  simp only [encodeChar, @toNat_ofNat_valid code (by omega)]
  rw [if_neg (by omega), if_neg (by omega), if_pos (by omega), continuation_eq hb (by omega),
    continuation_eq hc (by omega), ofNat_eq (a := a)]
  omega

theorem encodeChar_four (hlow : ¬ a < 0xF0) (hhigh : a < 0xF5) (hb : isSecond a b = true)
    (hc : isContinuation c = true) (hd : isContinuation d = true) :
    encodeChar (Char.ofNat (extend (extend (extend (a.toNat % 8) b) c) d)) = [a, b, c, d] := by
  obtain ⟨hb, -, -, hF0, hF4⟩ := isSecond_spec hb
  have hrange := hb
  rw [UInt8.lt_iff_toNat_lt] at hlow hhigh
  simp only [isContinuation, Bool.and_eq_true, decide_eq_true_eq, UInt8.le_iff_toNat_le,
    UInt8.reduceToNat] at hlow hhigh hrange
  have hcode : extend (extend (extend (a.toNat % 8) b) c) d
      = ((a.toNat % 8 * 64 + b.toNat % 64) * 64 + c.toNat % 64) * 64 + d.toNat % 64 := rfl
  generalize extend (extend (extend (a.toNat % 8) b) c) d = code at hcode
  simp only [encodeChar, @toNat_ofNat_valid code (by omega)]
  rw [if_neg (by omega), if_neg (by omega), if_neg (by omega), continuation_eq hb (by omega),
    continuation_eq hc (by omega), continuation_eq hd (by omega), ofNat_eq (a := a)]
  omega

theorem exists_text_cons {stored rest : Bytes} {seen chars : List Char} {x : Char}
    (hx : encodeChar x = stored)
    (h : ∃ text, chars = (x :: seen).reverse ++ text ∧ text.flatMap encodeChar = rest) :
    ∃ text, chars = seen.reverse ++ text ∧ text.flatMap encodeChar = stored ++ rest := by
  obtain ⟨text, rfl, rfl⟩ := h
  refine ⟨x :: text, ?_, ?_⟩
  · rw [List.reverse_cons, List.append_assoc]
    rfl
  · rw [List.flatMap_cons, hx]

theorem encode_of_decodeFrom {index : Nat} {seen chars : List Char} {bytes : Bytes}
    (h : decodeFrom index seen bytes = .ok chars) :
    ∃ text, chars = seen.reverse ++ text ∧ text.flatMap encodeChar = bytes := by
  fun_induction decodeFrom index seen bytes with
  | case1 index seen =>
      cases h
      exact ⟨[], (List.append_nil _).symm, rfl⟩
  | case2 index seen a rest ha ih => exact exists_text_cons (encodeChar_one ha) (ih h)
  | case5 index seen a hascii hlow hhigh b rest hb ih =>
      exact exists_text_cons (encodeChar_two hlow hhigh hb) (ih h)
  | case9 index seen a hascii htwo hlow hhigh b hb c rest hc ih =>
      exact exists_text_cons (encodeChar_three hlow hhigh hb hc) (ih h)
  | case15 index seen a hascii htwo hthree hlow hhigh b hb c hc d rest hd ih =>
      exact exists_text_cons (encodeChar_four hlow hhigh hb hc hd) (ih h)
  | case3 | case4 | case6 | case7 | case8 | case10 | case11 | case12 | case13 | case14 | case16
  | case17 | case18 | case19 => cases h

theorem encode_of_decode {bytes : Bytes} {text : String} (h : decode bytes = .ok text) :
    encode text = bytes := by
  rw [decode_eq] at h
  obtain ⟨chars, hchars, rfl⟩ := CilEdit.map_eq_ok.mp h
  obtain ⟨text, rfl, htext⟩ := encode_of_decodeFrom hchars
  rw [encode, String.toList_ofList]
  exact htext

end Text.Utf8

namespace Varint

variable {stored : Bytes}

/-- No group of zeros comes last, unless it is the only one. -/
def Minimal (stored : Bytes) : Prop :=
  stored.length = 1 ∨ stored.getLast? ≠ some 0

theorem Groups.getLast?_cons {b : UInt8} {rest : Bytes} (h : Groups rest) :
    (b :: rest).getLast? = rest.getLast? := by
  cases h <;> exact List.getLast?_cons_cons

theorem Groups.value_pos (h : Groups stored) (hlast : stored.getLast? ≠ some 0) :
    0 < value stored := by
  induction h with
  | @last b low =>
      have hne : b.toNat ≠ 0 := by
        intro hzero
        apply hlast
        rw [List.getLast?_singleton]
        exact congrArg some (UInt8.toNat_inj.mp hzero)
      rw [value, Nat.mod_eq_of_lt low]
      omega
  | more _ htail ih =>
      rw [htail.getLast?_cons] at hlast
      have hpos := ih hlast
      rw [value]
      omega

/-- Minimal groups are those that are written for their number. -/
theorem Groups.bytes_value (h : Groups stored) (hminimal : Minimal stored) :
    bytes (value stored) = stored := by
  induction h with
  | @last b low =>
      have hvalue : value [b] = b.toNat := by
        rw [value, value, Nat.mod_eq_of_lt low, Nat.mul_zero, Nat.add_zero]
      rw [hvalue, bytes, if_pos low, UInt8.ofNat_toNat]
  | @more b rest high htail ih =>
      have hlast : rest.getLast? ≠ some 0 := by
        rcases hminimal with hone | hlast
        · have hnil : rest = [] := List.length_eq_zero_iff.mp (Nat.succ.inj hone)
          exact absurd hnil htail.ne_nil
        · rwa [htail.getLast?_cons] at hlast
      have hpos := htail.value_pos hlast
      have hb := b.toNat_lt
      have hlow : 128 + (b.toNat % 128 + 128 * value rest) % 128 = b.toNat := by omega
      have hhigh : (b.toNat % 128 + 128 * value rest) / 128 = value rest := by omega
      rw [value, bytes, if_neg (by omega), hlow, hhigh, UInt8.ofNat_toNat, ih (.inr hlast)]

end Varint

end CilEdit
