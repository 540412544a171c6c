import CilEdit.Step

/-!
Reading data from front to back.

A `Reader` consumes bytes and either gives a value or fails; in both cases the input stays where
the reader left it. The primitive readers take a byte, a block, a little-endian number, a number
in groups of seven bits, or a length-prefixed text; the writers of the last two stand beside them.
-/

namespace CilEdit

/-- The bytes not yet read and the number of those already read. -/
structure Input where
  pos : Nat
  rest : Bytes
  deriving DecidableEq, Repr

namespace Input

def ofBytes (data : Bytes) : Input :=
  ⟨0, data⟩

def seek (data : Bytes) (pos : Nat) : Except Error Input :=
  if pos ≤ data.length then .ok ⟨pos, data.drop pos⟩ else .error .outOfBounds

def advance (i : Input) (count : Nat) : Input :=
  ⟨i.pos + count, i.rest.drop count⟩

end Input

abbrev Reader (α : Type) : Type :=
  Step Error Input α

namespace Reader

variable {α σ : Type}

@[inline]
def bad (cause : Malformed) : Reader α := Step.fail (.malformed cause)

@[inline]
def position : Reader Nat := fun i => (.ok i.pos, i)

@[inline]
def remaining : Reader Nat := fun i => (.ok i.rest.length, i)

/-- Fails unless `count` bytes are left; the number of those that are left is part of the cause. -/
@[inline]
def require (count : Nat) (cause : (left : Nat) → Malformed) : Reader Unit := fun i =>
  if i.rest.holds count then (.ok (), i) else (.error (.malformed (cause i.rest.length)), i)

@[inline]
def byte : Reader UInt8 := fun i =>
  match i.rest with
  | [] => (.error .outOfBounds, i)
  | b :: rest => (.ok b, ⟨i.pos + 1, rest⟩)

def peek : Reader UInt8 := fun i =>
  match i.rest with
  | [] => (.error .outOfBounds, i)
  | b :: _ => (.ok b, i)

/-- The next `count` bytes; nothing is read if there are fewer. -/
@[inline]
def take (count : Nat) : Reader Bytes := fun i =>
  let block := i.rest.take count
  if block.length = count then (.ok block, i.advance count) else (.error .outOfBounds, i)

@[inline]
def nat (width : Nat) : Reader Nat := do
  let block ← take width
  return Bytes.toNat block

@[specialize]
def iterate (step : σ → Reader σ) : (count : Nat) → σ → Reader σ
  | 0, s => pure s
  | count + 1, s => do
    let s ← step s
    iterate step count s

@[specialize]
def times (item : Reader α) (count : Nat) : Reader (List α) := do
  let items ← iterate (fun items => do return (← item) :: items) count []
  return items.reverse

def parse (r : Reader α) (data : Bytes) : Except Error α :=
  (r (.ofBytes data)).1

end Reader

namespace Varint

/-- Adds seven-bit groups to `value` from bit `shift` on until a byte has its top bit clear. Bits
beyond the 32nd are lost; when `groups` more groups all ask for a further one, the number is too
long. -/
def readGroups : (groups shift : Nat) → (value : UInt32) → Reader UInt32
  | 0, shift, _ => Reader.bad (.integerOverflow shift)
  | groups + 1, shift, value => do
    let b ← Reader.byte
    let value := value ||| (UInt32.ofNat (b.toNat % 128) <<< UInt32.ofNat shift)
    if b < 0x80 then return value
    readGroups groups (shift + 7) value

def read : Reader Nat := do
  let value ← readGroups 5 0 0
  return value.toNat

/-- The groups of a number: seven bits in a byte, the top bit set on all but the last. -/
def bytes (n : Nat) : Bytes :=
  if n < 128 then [UInt8.ofNat n]
  else UInt8.ofNat (128 + n % 128) :: bytes (n / 128)
termination_by n
decreasing_by omega

end Varint

namespace Prefixed

def read : Reader String := do
  let length ← Varint.read
  let start ← Reader.position
  let block ← Reader.take length
  match Text.Utf8.decode block with
  | .ok text => return text
  | .error fault => Reader.bad (.invalidText start (start + length) fault)

def bytes (text : String) : Except Error Bytes :=
  let block := Text.Utf8.encode text
  if block.length < UInt32.size then .ok (Varint.bytes block.length ++ block)
  else Error.bad (.textTooLong block.length)

end Prefixed

end CilEdit
