import CilEdit.Bytes.Reader

namespace CilEdit

inductive Scalar
  | u8 | i8 | u16 | i16 | u32 | i32 | u64 | i64 | f32 | f64
  deriving DecidableEq, Repr

namespace Scalar

def ofName? : String → Option Scalar
  | "u8" => some .u8
  | "i8" => some .i8
  | "u16" => some .u16
  | "i16" => some .i16
  | "u32" => some .u32
  | "i32" => some .i32
  | "u64" => some .u64
  | "i64" => some .i64
  | "f32" => some .f32
  | "f64" => some .f64
  | _ => none

def width : Scalar → Nat
  | .u8 | .i8 => 1
  | .u16 | .i16 => 2
  | .u32 | .i32 | .f32 => 4
  | .u64 | .i64 | .f64 => 8

def isSigned : Scalar → Bool
  | .i8 | .i16 | .i32 | .i64 => true
  | _ => false

def isFloat : Scalar → Bool
  | .f32 | .f64 => true
  | _ => false

def value (s : Scalar) (n : Nat) : Int :=
  if s.isSigned then Bytes.signed s.width n else n

def bytes (s : Scalar) (value : Int) : Bytes :=
  Bytes.ofInt s.width value

/-- A value in decimal, or the bits of a float. -/
def text (s : Scalar) (value : Int) : String :=
  if s.isFloat then Text.Hex.padded (2 * s.width) value.toNat else toString value

def read (s : Scalar) : Reader Int := do
  return s.value (← Reader.nat s.width)

def readAt (s : Scalar) (data : Bytes) (offset : Nat) : Except Error (Int × Nat) := do
  let (value, after) := s.read (← Input.seek data offset)
  return (← value, after.pos)

def writeAt (s : Scalar) (data : Bytes) (offset : Nat) (value : Int) :
    Except Error (Bytes × Nat) :=
  let stop := offset + s.width
  if stop ≤ data.length then .ok (data.overwrite offset (s.bytes value), stop)
  else .error .outOfBounds

def slice (data : Bytes) (offset length : Nat) : Except Error Bytes :=
  if offset + length ≤ data.length then .ok ((data.drop offset).take length)
  else .error .outOfBounds

end Scalar

end CilEdit
