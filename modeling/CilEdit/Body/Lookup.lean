import CilEdit.Body.Basic
import CilEdit.Patch.Pattern

namespace CilEdit.Body

def checkFresh (b : Body) : Except Error Unit :=
  if b.shifted then .error .staleOffsets else .ok ()

def find? (b : Body) (test : Instruction Handle → Bool) : Option Handle :=
  (b.entries.find? fun (_, i) => test i).map Prod.fst

def findByOffset (b : Body) (offset : Nat) : Except Error Handle := do
  b.checkFresh
  match b.find? fun i => i.offset == some offset with
  | some h => return h
  | none => throw (.offsetNotFound offset)

/-- Looks up ascending offsets in one pass over the instructions, after those found so far, the
last one first. An offset that no instruction has gives nothing; offsets below that of the current
instruction have been passed. -/
def scanFrom (found : List (Option Handle)) :
    List (Handle × Instruction Handle) → List Nat → List (Option Handle)
  | _, [] => found.reverse
  | [], offsets => found.reverse ++ offsets.map fun _ => none
  | (h, i) :: entries, offsets =>
    match i.offset with
    | none => scanFrom found entries offsets
    | some offset =>
      let passed := offsets.takeWhile (· < offset)
      let left := offsets.dropWhile (· < offset)
      let hits := left.takeWhile (· == offset)
      scanFrom ((hits.map fun _ => some h) ++ ((passed.map fun _ => none) ++ found)) entries
        (left.dropWhile (· == offset))

def scan (b : Body) (offsets : List Nat) : List (Option Handle) :=
  scanFrom [] b.entries offsets

def locateOffsets (b : Body) (offsets : List Nat) : Except Error (List (Nat × Handle)) := do
  b.checkFresh
  let sorted := offsets.mergeSort
  (sorted.zip (b.scan sorted)).mapM fun (offset, found) =>
    match found with
    | some h => .ok (offset, h)
    | none => .error (.offsetNotFound offset)

def expectAt (b : Body) (index : Nat) (p : Pattern) : Except Error Handle := do
  let h ← b.handleAt index
  let i ← b.instruction h
  match p.drift? i with
  | some d => throw (.ofDrift (d.locate (.index index)))
  | none => return h

end CilEdit.Body
