namespace CilEdit.Text.Hex

def padded (width n : Nat) : String :=
  let digits := Nat.toDigits 16 n
  String.ofList (List.replicate (width - digits.length) '0' ++ digits)

def marked (width n : Nat) : String :=
  "0x" ++ padded width n

/-- The shortest marked numeral of a 64-bit number; a negative one shows its two's complement. -/
def marked64 (n : Int) : String :=
  marked 1 (n % UInt64.size).toNat

def ofBytes (bytes : List UInt8) : String :=
  String.join (bytes.map fun b => padded 2 b.toNat)

def digit? (c : Char) : Option Nat :=
  if '0' ≤ c ∧ c ≤ '9' then some (c.toNat - 48)
  else if 'a' ≤ c ∧ c ≤ 'f' then some (c.toNat - 87)
  else if 'A' ≤ c ∧ c ≤ 'F' then some (c.toNat - 55)
  else none

def nat? (digits : List Char) : Option Nat :=
  if digits.isEmpty then none
  else digits.foldlM (fun n c => (digit? c).map (16 * n + ·)) 0

def readPairs (bytes : Array UInt8) : List Char → Option (Array UInt8)
  | [] => some bytes
  | [_] => none
  | high :: low :: rest =>
    match digit? high, digit? low with
    | some h, some l => readPairs (bytes.push (UInt8.ofNat (16 * h + l))) rest
    | _, _ => none

def bytes? (digits : List Char) : Option (List UInt8) :=
  (readPairs #[] digits).map Array.toList

end CilEdit.Text.Hex
