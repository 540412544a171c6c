namespace CilEdit

abbrev Bytes := List UInt8

namespace Bytes

/-- The `width` low bytes of a number, the lowest first. -/
def ofNat : (width n : Nat) → Bytes
  | 0, _ => []
  | width + 1, n => UInt8.ofNat n :: ofNat width (n / 256)

def toNat : Bytes → Nat
  | [] => 0
  | b :: rest => b.toNat + 256 * toNat rest

/-- The number of byte strings of a width, one more than the greatest number that fits it. -/
def capacity : (width : Nat) → Nat
  | 0 => 1
  | width + 1 => 256 * capacity width

def ofInt (width : Nat) (n : Int) : Bytes :=
  ofNat width (n % capacity width).toNat

/-- A number below `capacity width` read as a two's complement integer. -/
def signed (width n : Nat) : Int :=
  if 2 * n < capacity width then n else (n : Int) - capacity width

def overwrite (data : Bytes) (offset : Nat) (patch : Bytes) : Bytes :=
  data.take offset ++ patch ++ data.drop (offset + patch.length)

def align4 (n : Nat) : Nat :=
  (n + 3) / 4 * 4

/-- Whether a byte string has at least `count` bytes; no more than these are looked at. -/
def holds : Bytes → (count : Nat) → Bool
  | _, 0 => true
  | [], _ + 1 => false
  | _ :: rest, count + 1 => holds rest count

@[simp]
theorem holds_iff (bytes : Bytes) (count : Nat) :
    bytes.holds count = true ↔ count ≤ bytes.length := by
  induction count generalizing bytes with
  | zero => simp [holds]
  | succ count ih =>
      cases bytes with
      | nil => simp [holds]
      | cons b rest => simp [holds, ih]

@[simp]
theorem length_ofNat (width n : Nat) : (ofNat width n).length = width := by
  induction width generalizing n with
  | zero => rfl
  | succ width ih => simp [ofNat, ih]

theorem toNat_lt (bytes : Bytes) : toNat bytes < capacity bytes.length := by
  induction bytes with
  | nil => simp [toNat, capacity]
  | cons b rest ih =>
      have hb : b.toNat < 256 := b.toNat_lt
      simp only [toNat, List.length_cons, capacity]
      omega

theorem toNat_ofNat (width n : Nat) : toNat (ofNat width n) = n % capacity width := by
  induction width generalizing n with
  | zero => simp [ofNat, toNat, capacity, Nat.mod_one]
  | succ width ih =>
      simp [ofNat, toNat, capacity, ih, Nat.mod_mul]

theorem ofNat_toNat (bytes : Bytes) : ofNat bytes.length (toNat bytes) = bytes := by
  induction bytes with
  | nil => rfl
  | cons b rest ih =>
      have hb : b.toNat < 256 := b.toNat_lt
      have hdiv : (b.toNat + 256 * toNat rest) / 256 = toNat rest := by omega
      have hlow : UInt8.ofNat (b.toNat + 256 * toNat rest) = b := by
        apply UInt8.toNat_inj.mp
        simp only [UInt8.toNat_ofNat']
        omega
      simp only [List.length_cons, ofNat, toNat, hdiv, hlow, ih]

end Bytes

end CilEdit
