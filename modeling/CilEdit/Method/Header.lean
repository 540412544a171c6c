import CilEdit.Method.Clause

/-!
The stored form of a method body.

A body is a tiny header of one byte or a fat header of twelve, the code, and after a fat header
optionally a chain of sections at multiples of four bytes, which hold exception clauses in a small
or a fat form. `Header.parse` reads every layout; `Header.write` chooses the most compact one.
-/

namespace CilEdit

structure Header where
  size : Nat
  codeSize : Nat
  maxStack : UInt16
  locals : Token
  isFat : Bool
  initLocals : Bool
  clauses : List Clause
  deriving DecidableEq, Repr

namespace Header

def fatSize : Nat := 12

def tinyMaxCode : Nat := 63

def tinyMaxStack : UInt16 := 8

def moreSections : Nat := 0x8

def initLocalsFlag : Nat := 0x10

def hasFlag (flags flag : Nat) : Bool :=
  flags / flag % 2 == 1

end Header

namespace Section

def clauseTable : Nat := 0x1

def fat : Nat := 0x40

def more : Nat := 0x80

def known (flags : UInt8) : Nat :=
  (flags &&& 0xC3).toNat

def readClauses (read : Bytes → Clause) (size : Nat) :
    (count : Nat) → Bytes → List Clause → List Clause
  | 0, _, clauses => clauses.reverse
  | count + 1, data, clauses =>
    readClauses read size count (data.drop size) (read data :: clauses)

/-- The size that a section declares, in one byte or in three. -/
def declaredSize (flags : Nat) (data : Bytes) : Nat :=
  if Header.hasFlag flags fat then Clause.field data 1 3 else Clause.field data 1 1

/-- The clauses of a section of a given size; bytes after the last complete clause are ignored. -/
def clausesOf (flags size : Nat) (data : Bytes) : List Clause :=
  let body := data.drop 4
  if Header.hasFlag flags fat then
    readClauses Clause.ofFat Clause.fatSize ((size - 4) / Clause.fatSize) body []
  else
    readClauses Clause.ofSmall Clause.smallSize ((size - 4) / Clause.smallSize) body []

def readOne (data : Bytes) : Except Error (List Clause × Nat × Bool) :=
  let flags := known (data.headD 0)
  let size := declaredSize flags data
  if (data.take 4).length < 4 then .error .outOfBounds
  else if !Header.hasFlag flags clauseTable then Error.bad (.unsupportedSection flags)
  else if size < 4 ∨ !data.holds size then
    Error.bad (if Header.hasFlag flags fat then .fatSectionSize size else .smallSectionSize size)
  else .ok (clausesOf flags size data, size, Header.hasFlag flags more)

theorem size_of_readOne {data : Bytes} {found : List Clause × Nat × Bool}
    (h : readOne data = .ok found) : 4 ≤ found.2.1 ∧ found.2.1 ≤ data.length := by
  simp only [readOne, Error.bad] at h
  split at h
  · cases h
  split at h
  · cases h
  split at h
  · cases h
  · rename_i hsize
    cases h
    simpa [Nat.not_lt] using hsize

/-- The clauses of the chain of sections at the front of `data`, after those already read, the last
one first; every further section starts at the next multiple of four bytes. -/
def readAll (data : Bytes) (seen : List Clause) : Except Error (List Clause) :=
  match _h : readOne data with
  | .error e => .error e
  | .ok (clauses, size, follows) =>
    let seen := clauses.reverse ++ seen
    if follows then readAll (data.drop (Bytes.align4 size)) seen
    else .ok seen.reverse
termination_by data.length
decreasing_by
  have bounds : 4 ≤ size ∧ size ≤ data.length := size_of_readOne _h
  simp only [List.length_drop, Bytes.align4]
  omega

theorem readAll_of_ok {data : Bytes} {clauses : List Clause} {size : Nat} {follows : Bool}
    (hone : readOne data = .ok (clauses, size, follows)) (seen : List Clause) :
    readAll data seen =
      if follows then readAll (data.drop (Bytes.align4 size)) (clauses.reverse ++ seen)
      else .ok (clauses.reverse ++ seen).reverse := by
  rw [readAll]
  split <;> rename_i heq <;> rw [hone] at heq <;> cases heq
  rfl

theorem readAll_of_error {data : Bytes} {e : Error} (hone : readOne data = .error e)
    (seen : List Clause) : readAll data seen = .error e := by
  rw [readAll]
  split <;> rename_i heq <;> rw [hone] at heq <;> cases heq
  rfl

/-- The one section of a written body: small if its size fits a byte and every clause is small. -/
def write (clauses : List Clause) : Except Error Bytes :=
  let small := 4 + clauses.length * Clause.smallSize
  let fatSize := 4 + clauses.length * Clause.fatSize
  if small ≤ 0xFF ∧ clauses.all Clause.isSmall then
    .ok ([UInt8.ofNat clauseTable, UInt8.ofNat small, 0, 0] ++ clauses.flatMap Clause.smallBytes)
  else if fatSize ≤ 0xFFFFFF then
    .ok (UInt8.ofNat (clauseTable + fat) :: Bytes.ofNat 3 fatSize ++
      clauses.flatMap Clause.fatBytes)
  else
    Error.bad (.tooManyClauses clauses.length)

end Section

namespace Header

def tiny (codeSize : Nat) : Header :=
  ⟨1, codeSize, tinyMaxStack, .null, false, false, []⟩

def parseFat (data : Bytes) : Except Error Header := do
  if data.length < fatSize then throw .outOfBounds
  let flags := Clause.field data 0 2
  let size := flags / 0x1000 * 4
  if size < fatSize then Error.bad (.shortFatHeader size)
  let codeSize := Clause.field data 4 4
  if data.length < size + codeSize then throw .outOfBounds
  let clauses ←
    if hasFlag flags moreSections then
      Section.readAll (data.drop (Bytes.align4 (size + codeSize))) []
    else pure []
  return {
    size, codeSize, clauses
    maxStack := UInt16.ofNat (Clause.field data 2 2)
    locals := ⟨UInt32.ofNat (Clause.field data 8 4)⟩
    isFat := true
    initLocals := hasFlag flags initLocalsFlag }

/-- Reads the header at the front of `data`, which may go on after the body. -/
def parse (data : Bytes) : Except Error Header :=
  match data with
  | [] => Error.bad .emptyBody
  | first :: rest =>
    if first.toNat % 4 = 2 then
      let codeSize := first.toNat / 4
      if codeSize ≤ rest.length then .ok (tiny codeSize) else .error .outOfBounds
    else if first.toNat % 4 = 3 then parseFat data
    else Error.bad (.unknownHeader first.toNat)

def code (h : Header) (data : Bytes) : Except Error Bytes :=
  if h.size + h.codeSize ≤ data.length then .ok ((data.drop h.size).take h.codeSize)
  else .error .outOfBounds

/-- Whether a tiny header can say all that the header says about `code`. -/
def fitsTiny (h : Header) (code : Bytes) : Bool :=
  code.length ≤ tinyMaxCode && h.maxStack ≤ tinyMaxStack && h.locals.isNull && !h.initLocals
    && h.clauses.isEmpty

def fatBytes (h : Header) (code : Bytes) : Bytes :=
  let flags := 0x3003 + (if h.initLocals then initLocalsFlag else 0)
    + (if h.clauses.isEmpty then 0 else moreSections)
  Bytes.ofNat 2 flags ++ Bytes.ofNat 2 h.maxStack.toNat ++ Bytes.ofNat 4 code.length
    ++ Bytes.ofNat 4 h.locals.value.toNat

/-- The stored body with this header and `code`; sizes and form are derived from `code`. -/
def write (h : Header) (code : Bytes) : Except Error Bytes := do
  if h.fitsTiny code then
    return UInt8.ofNat (4 * code.length + 2) :: code
  unless code.length < UInt32.size do Error.bad (.codeTooLarge code.length)
  let out := h.fatBytes code ++ code
  if h.clauses.isEmpty then
    return out
  let padding := List.replicate (Bytes.align4 out.length - out.length) 0
  return out ++ padding ++ (← Section.write h.clauses)

end Header

end CilEdit
