import CilEdit.Bytes.Basic

namespace CilEdit.Text.Utf8

/-- Why a byte string is not UTF-8; `index` is the length of its valid prefix. -/
inductive Fault
  /-- The data ends inside a sequence that is valid so far. -/
  | incomplete (index : Nat)
  /-- The `length` bytes at `index` start no valid sequence. -/
  | invalid (length index : Nat)
  deriving DecidableEq, Repr

def Fault.message : Fault → String
  | .incomplete index => s!"incomplete utf-8 byte sequence from index {index}"
  | .invalid length index => s!"invalid utf-8 sequence of {length} bytes from index {index}"

/-- Continuation bytes carry six bits below the mark `10`. -/
def isContinuation (b : UInt8) : Bool :=
  0x80 ≤ b && b ≤ 0xBF

/-- The second bytes that may follow the first byte of a longer sequence: the narrowed ranges
leave out overlong forms, surrogates and numbers above the last code point. -/
def isSecond (first second : UInt8) : Bool :=
  if first == 0xE0 then 0xA0 ≤ second && second ≤ 0xBF
  else if first == 0xED then 0x80 ≤ second && second ≤ 0x9F
  else if first == 0xF0 then 0x90 ≤ second && second ≤ 0xBF
  else if first == 0xF4 then 0x80 ≤ second && second ≤ 0x8F
  else isContinuation second

def extend (code : Nat) (b : UInt8) : Nat :=
  code * 64 + b.toNat % 64

/-- Decodes from `index` on; `seen` holds the characters so far, the last one first. -/
def decodeFrom (index : Nat) (seen : List Char) : Bytes → Except Fault (List Char)
  | [] => .ok seen.reverse
  | a :: rest =>
    if a < 0x80 then
      decodeFrom (index + 1) (Char.ofNat a.toNat :: seen) rest
    else if a < 0xC2 then
      .error (.invalid 1 index)
    else if a < 0xE0 then
      match rest with
      | [] => .error (.incomplete index)
      | b :: rest =>
        if isContinuation b then
          decodeFrom (index + 2) (Char.ofNat (extend (a.toNat % 32) b) :: seen) rest
        else .error (.invalid 1 index)
    else if a < 0xF0 then
      match rest with
      | [] => .error (.incomplete index)
      | b :: rest =>
        if isSecond a b then
          match rest with
          | [] => .error (.incomplete index)
          | c :: rest =>
            if isContinuation c then
              decodeFrom (index + 3) (Char.ofNat (extend (extend (a.toNat % 16) b) c) :: seen) rest
            else .error (.invalid 2 index)
        else .error (.invalid 1 index)
    else if a < 0xF5 then
      match rest with
      | [] => .error (.incomplete index)
      | b :: rest =>
        if isSecond a b then
          match rest with
          | [] => .error (.incomplete index)
          | c :: rest =>
            if isContinuation c then
              match rest with
              | [] => .error (.incomplete index)
              | d :: rest =>
                if isContinuation d then
                  decodeFrom (index + 4)
                    (Char.ofNat (extend (extend (extend (a.toNat % 8) b) c) d) :: seen) rest
                else .error (.invalid 3 index)
            else .error (.invalid 2 index)
        else .error (.invalid 1 index)
    else .error (.invalid 1 index)

def decode : Bytes → Except Fault String
  | [] => .ok ""
  | bytes => (decodeFrom 0 [] bytes).map String.ofList

def continuation (code : Nat) : UInt8 :=
  UInt8.ofNat (0x80 + code % 64)

def encodeChar (c : Char) : Bytes :=
  let code := c.toNat
  if code < 0x80 then [UInt8.ofNat code]
  else if code < 0x800 then [UInt8.ofNat (0xC0 + code / 64), continuation code]
  else if code < 0x10000 then
    [UInt8.ofNat (0xE0 + code / 4096), continuation (code / 64), continuation code]
  else
    [UInt8.ofNat (0xF0 + code / 262144), continuation (code / 4096), continuation (code / 64),
      continuation code]

def encode (text : String) : Bytes :=
  text.toList.flatMap encodeChar

end CilEdit.Text.Utf8
