import CilEdit.Error

namespace CilEdit

/-- The kind of a clause as a set of the three bits that have a meaning; a typed clause has
none. -/
structure ClauseFlags where
  bits : UInt16
  known : bits &&& 7 = bits
  deriving DecidableEq, Repr

namespace ClauseFlags

def ofBits (bits : UInt16) : ClauseFlags where
  bits := bits &&& 7
  known := by rw [UInt16.and_assoc, UInt16.and_self]

instance : Inhabited ClauseFlags := ⟨ofBits 0⟩

def isFilter (f : ClauseFlags) : Bool :=
  f.bits &&& 1 != 0

def isCleanup (f : ClauseFlags) : Bool :=
  f.bits &&& 6 != 0

end ClauseFlags

/-- A stored exception clause. The last field is a class token, or the offset of the filter. -/
structure Clause where
  flags : ClauseFlags
  tryOffset : UInt32
  tryLength : UInt32
  handlerOffset : UInt32
  handlerLength : UInt32
  classOrFilter : UInt32
  deriving DecidableEq, Repr, Inhabited

namespace Clause

/-- Whether the fields fit the small form: offsets in two bytes, lengths in one. -/
def isSmall (c : Clause) : Bool :=
  c.tryOffset ≤ 0xFFFF && c.handlerOffset ≤ 0xFFFF && c.tryLength ≤ 0xFF && c.handlerLength ≤ 0xFF

def smallSize : Nat := 12

def fatSize : Nat := 24

def smallBytes (c : Clause) : Bytes :=
  Bytes.ofNat 2 c.flags.bits.toNat ++ Bytes.ofNat 2 c.tryOffset.toNat ++
    Bytes.ofNat 1 c.tryLength.toNat ++ Bytes.ofNat 2 c.handlerOffset.toNat ++
    Bytes.ofNat 1 c.handlerLength.toNat ++ Bytes.ofNat 4 c.classOrFilter.toNat

def fatBytes (c : Clause) : Bytes :=
  Bytes.ofNat 4 c.flags.bits.toNat ++ Bytes.ofNat 4 c.tryOffset.toNat ++
    Bytes.ofNat 4 c.tryLength.toNat ++ Bytes.ofNat 4 c.handlerOffset.toNat ++
    Bytes.ofNat 4 c.handlerLength.toNat ++ Bytes.ofNat 4 c.classOrFilter.toNat

def field (data : Bytes) (offset width : Nat) : Nat :=
  Bytes.toNat ((data.drop offset).take width)

def ofSmall (data : Bytes) : Clause where
  flags := .ofBits (UInt16.ofNat (field data 0 2))
  tryOffset := UInt32.ofNat (field data 2 2)
  tryLength := UInt32.ofNat (field data 4 1)
  handlerOffset := UInt32.ofNat (field data 5 2)
  handlerLength := UInt32.ofNat (field data 7 1)
  classOrFilter := UInt32.ofNat (field data 8 4)

def ofFat (data : Bytes) : Clause where
  flags := .ofBits (UInt16.ofNat (field data 0 4))
  tryOffset := UInt32.ofNat (field data 4 4)
  tryLength := UInt32.ofNat (field data 8 4)
  handlerOffset := UInt32.ofNat (field data 12 4)
  handlerLength := UInt32.ofNat (field data 16 4)
  classOrFilter := UInt32.ofNat (field data 20 4)

end Clause

/-- A clause whose boundaries are values of `τ`. An absent end means that the region runs to the end
of the code. -/
structure Handler (τ : Type) where
  flags : ClauseFlags
  tryStart : τ
  tryEnd : Option τ
  handlerStart : τ
  handlerEnd : Option τ
  filterStart : Option τ
  classToken : Token
  deriving DecidableEq, Repr

namespace Handler

variable {τ σ : Type}

def boundaries (h : Handler τ) : List τ :=
  [some h.tryStart, h.tryEnd, some h.handlerStart, h.handlerEnd, h.filterStart].filterMap id

def references [DecidableEq τ] (h : Handler τ) (target : τ) : Bool :=
  h.boundaries.contains target

/-- Whether the handler is entered with the exception on the stack. -/
def pushesException (h : Handler τ) : Bool :=
  !h.flags.isCleanup

def traverse (f : τ → Except Error σ) (h : Handler τ) : Except Error (Handler σ) := do
  return {
    flags := h.flags
    tryStart := ← f h.tryStart
    tryEnd := ← h.tryEnd.mapM f
    handlerStart := ← f h.handlerStart
    handlerEnd := ← h.handlerEnd.mapM f
    filterStart := ← h.filterStart.mapM f
    classToken := h.classToken }

end Handler

end CilEdit
