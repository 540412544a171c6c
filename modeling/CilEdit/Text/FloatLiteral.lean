import CilEdit.Text.Shortest

namespace CilEdit.Text

structure FloatFormat where
  fractionBits : Nat
  exponentBits : Nat

namespace FloatFormat

def single : FloatFormat := ⟨23, 8⟩

def double : FloatFormat := ⟨52, 11⟩

def fraction (f : FloatFormat) (bits : Nat) : Nat :=
  bits % (1 <<< f.fractionBits)

def exponent (f : FloatFormat) (bits : Nat) : Nat :=
  (bits >>> f.fractionBits) % (1 <<< f.exponentBits)

def negative (f : FloatFormat) (bits : Nat) : Bool :=
  (bits >>> (f.fractionBits + f.exponentBits)) % 2 == 1

def special (f : FloatFormat) : Nat :=
  (1 <<< f.exponentBits) - 1

def isNaN (f : FloatFormat) (bits : Nat) : Bool :=
  f.exponent bits == f.special && f.fraction bits != 0

def isZero (f : FloatFormat) (bits : Nat) : Bool :=
  f.exponent bits == 0 && f.fraction bits == 0

/-- The magnitude as `significand * 2 ^ scale / 2 ^ f.bias`, with `scale` at least one. -/
def significand (f : FloatFormat) (bits : Nat) : Nat :=
  if f.exponent bits == 0 then f.fraction bits else (1 <<< f.fractionBits) + f.fraction bits

/-- The negated power of two of a significand with exponent field zero. -/
def bias (f : FloatFormat) : Nat :=
  (1 <<< (f.exponentBits - 1)) - 1 + f.fractionBits

/-- The decimal places that hold a quarter of the last significand bit exactly. -/
def places (f : FloatFormat) (bits : Nat) : Nat :=
  f.bias + 2 - max 1 (f.exponent bits)

/-- The interval of a positive finite magnitude, in units of `10 ^ -(f.places bits)`. Below a power
of two the next number is half as far as above it. -/
def interval (f : FloatFormat) (bits : Nat) : Shortest.Interval :=
  let m := f.significand bits
  let scale := max 1 (f.exponent bits)
  let quarter := Nat.pow 5 (f.places bits) <<< (scale - (f.bias + 2))
  let below := if f.fraction bits == 0 && 1 < f.exponent bits then 1 else 2
  ⟨(4 * m - below) * quarter, 4 * m * quarter, (4 * m + 2) * quarter, m % 2 == 0⟩

def magnitude (f : FloatFormat) (bits : Nat) : String :=
  let i := f.interval bits
  let found := i.shortest (Nat.toDigits 10 i.high).length
  Shortest.positional found.1 found.2 (f.places bits)

def text (f : FloatFormat) (bits : Nat) : String :=
  if f.isNaN bits then "NaN"
  else
    let sign := if f.negative bits then "-" else ""
    if f.exponent bits == f.special then sign ++ "inf"
    else if f.isZero bits then sign ++ "0"
    else sign ++ f.magnitude bits

def equal (f : FloatFormat) (a b : Nat) : Bool :=
  !f.isNaN a && !f.isNaN b && (a == b || (f.isZero a && f.isZero b))

end FloatFormat

end CilEdit.Text
