import CilEdit.Metadata.Image
import CilEdit.Proofs.GuardedBodies

namespace CilEdit

open Guarded

namespace Image

variable {α σ : Type}

def guardedCount : Guarded Nat := do
  let count ← nat 4
  require count (.tableCount count)
  return count

def guardedNext (row : σ → Guarded (α × σ)) : List α × σ → Guarded (List α × σ) :=
  fun (rows, s) => do
    let (a, s) ← row s
    return (a :: rows, s)

def guardedTable (row : σ → Guarded (α × σ)) (s : σ) : Guarded (List α × σ) := do
  let count ← guardedCount
  let (rows, s) ← iterate (guardedNext row) count ([], s)
  return (rows.reverse, s)

def guardedRows (row : Guarded α) : Guarded (List α) := do
  times row (← guardedCount)

def guardedRow (table : Nat) (seen : List Nat) : Guarded Nat := do
  let row ← nat 4
  if row = 0 ∨ Token.maxRow < row ∨ row ∈ seen then bad (.invalidRow row table) else return row

/-- Room for the parameters is asked for before they are read. -/
def guardedSignature : Guarded Signature := do
  let flag ← byte
  if flag.toNat > 1 then bad (.signatureFlag flag.toNat)
  else do
    let count ← Varint.guarded
    room count (fun _ => .signatureCount count) count
    let params ← times Prefixed.guarded count
    let returnType ← Prefixed.guarded
    return ⟨flag == 1, params, returnType⟩

def guardedField (seen : List Nat) : Guarded (FieldDef × List Nat) := do
  let row ← guardedRow Token.fieldDef seen
  let flags ← nat 4
  let name ← Prefixed.guarded
  let type ← Prefixed.guarded
  return (⟨.ofParts Token.fieldDef row, UInt32.ofNat flags, name, type⟩, row :: seen)

def guardedBody (id : BodyId) : Guarded (Option (Bytes × Body)) := do
  let length ← nat 4
  if length = 0 then return none
  else do
    let raw ← take length
    let body ← on raw (Body.guarded id)
    return some (raw, body)

def guardedMethod (origin : Nat) (seen : List Nat) : Guarded (MethodDef × List Nat) := do
  let row ← guardedRow Token.methodDef seen
  let flags ← nat 2
  let name ← Prefixed.guarded
  let signature ← guardedSignature
  let stored ← guardedBody ⟨origin, row⟩
  return ({
    token := .ofParts Token.methodDef row
    flags := .ofBits (UInt16.ofNat flags)
    name, signature
    body := stored.map Prod.snd
    raw := stored.map Prod.fst }, row :: seen)

def guardedType (origin : Nat) (seen : Seen) : Guarded (TypeDef × Seen) := do
  let flags ← nat 4
  let name ← Prefixed.guarded
  let (fields, fieldRows) ← guardedTable guardedField seen.fieldRows
  let (methods, methodRows) ← guardedTable (guardedMethod origin) seen.methodRows
  let row := seen.types + 1
  return (⟨.ofParts Token.typeDef row, UInt32.ofNat flags, name, fields, methods⟩,
    ⟨row, fieldRows, methodRows⟩)

def guardedTypeRef (count : Nat) : Guarded (TypeRef × Nat) := do
  let scope ← Prefixed.guarded
  let name ← Prefixed.guarded
  return (⟨.ofParts Token.typeRef (count + 1), scope, name⟩, count + 1)

def guardedKind (kind : UInt8) : Guarded MemberKind :=
  if kind = 0 then do return .method (← guardedSignature)
  else if kind = 1 then do return .field (← Prefixed.guarded)
  else bad (.memberKind kind.toNat)

def guardedMemberRef (typeRefs : Nat) (count : Nat) : Guarded (MemberRef × Nat) := do
  let kind ← byte
  let parent : Token := ⟨UInt32.ofNat (← nat 4)⟩
  if !parent.isRowOf Token.typeRef typeRefs then bad (.memberParent parent)
  else do
    let name ← Prefixed.guarded
    let member ← guardedKind kind
    return (⟨.ofParts Token.memberRef (count + 1), parent, name, member⟩, count + 1)

def guardedPreamble : Guarded Unit := do
  if (← take mark.length) ≠ mark then fail .notSupported
  else if (← nat 2) ≠ version then fail .notSupported
  else do
    let _reserved ← nat 2
    return ()

def guarded (origin : Nat) : Guarded Module := do
  guardedPreamble
  let name ← Prefixed.guarded
  let (types, _) ← guardedTable (guardedType origin) ⟨0, [], []⟩
  let (typeRefs, typeRefCount) ← guardedTable guardedTypeRef 0
  let (memberRefs, _) ← guardedTable (guardedMemberRef typeRefCount) 0
  let userStrings ← guardedRows Prefixed.guarded
  let left ← remaining
  if left > 0 then bad (.trailingBytes left)
  else return { name, types, typeRefs, memberRefs, userStrings }

theorem tracks_readCount : Tracks 0 guardedCount readCount := by
  refine (tracks_nat 4).weaken.bind fun count => (tracks_require count _).bind fun _ => ?_
  exact tracks_pure count

theorem tracks_readTable {row : σ → Guarded (α × σ)} {row' : σ → Reader (α × σ)}
    (hrow : ∀ s, Tracks 1 (row s) (row' s)) (s : σ) :
    Tracks 0 (guardedTable row s) (readTable row' s) := by
  refine tracks_readCount.bind fun count => ?_
  refine Tracks.bind (tracks_iterate ?_ count ([], s)) fun (rows, s) => tracks_pure _
  exact fun (rows, s) => (hrow s).bind fun (a, s) => tracks_pure _

theorem tracks_readRows {row : Guarded α} {row' : Reader α} (hrow : Tracks 1 row row') :
    Tracks 0 (guardedRows row) (readRows row') :=
  tracks_readCount.bind fun count => tracks_times hrow count

theorem tracks_readRow (table : Nat) (seen : List Nat) :
    Tracks 1 (guardedRow table seen) (readRow table seen) := by
  refine ((tracks_nat 4).mono (by decide)).bind fun row => ?_
  split
  · exact tracks_bad _
  · exact tracks_pure row

theorem tracks_readSignature : Tracks 0 guardedSignature readSignature := by
  refine tracks_byte.weaken.bind fun flag => ?_
  split
  · exact tracks_bad _
  · refine Varint.tracks_read.weaken.bind fun count => ?_
    refine (tracks_room (Nat.le_refl count) _).bind fun _ => ?_
    refine (tracks_times Prefixed.tracks_read count).bind fun params => ?_
    exact Prefixed.tracks_read.weaken.bind fun returnType => tracks_pure _

theorem tracks_readField (seen : List Nat) : Tracks 1 (guardedField seen) (readField seen) := by
  refine (tracks_readRow _ seen).bind fun row => (tracks_nat 4).weaken.bind fun flags => ?_
  refine Prefixed.tracks_read.weaken.bind fun name => ?_
  exact Prefixed.tracks_read.weaken.bind fun type => tracks_pure _

theorem tracks_decode (id : BodyId) (raw : Bytes) :
    Tracks 0 (on raw (Body.guarded id)) (Step.ofExcept (Body.decode id raw)) := by
  intro data p hp
  obtain ⟨q, -, hq⟩ := Body.yields_body id raw 0 (Nat.zero_le _)
  have hon : on raw (Body.guarded id) data p = .ok (Body.decode id raw, p) := by
    simp only [on, hq]
  cases hdecode : Body.decode id raw with
  | ok body =>
      rw [hdecode] at hon
      exact .ok hon rfl (Nat.le_refl p) hp
  | error e =>
      rw [hdecode] at hon
      exact .error hon rfl hp

theorem tracks_readBody (id : BodyId) : Tracks 0 (guardedBody id) (readBody id) := by
  refine (tracks_nat 4).weaken.bind fun length => ?_
  split
  · exact tracks_pure none
  · refine (tracks_take length).weaken.bind fun raw => ?_
    exact (tracks_decode id raw).bind fun body => tracks_pure _

theorem tracks_readMethod (origin : Nat) (seen : List Nat) :
    Tracks 1 (guardedMethod origin seen) (readMethod origin seen) := by
  refine (tracks_readRow _ seen).bind fun row => (tracks_nat 2).weaken.bind fun flags => ?_
  refine Prefixed.tracks_read.weaken.bind fun name => tracks_readSignature.bind fun signature => ?_
  exact (tracks_readBody ⟨origin, row⟩).bind fun stored => tracks_pure _

theorem tracks_readType (origin : Nat) (seen : Seen) :
    Tracks 1 (guardedType origin seen) (readType origin seen) := by
  refine ((tracks_nat 4).mono (by decide)).bind fun flags => ?_
  refine Prefixed.tracks_read.weaken.bind fun name => ?_
  refine (tracks_readTable tracks_readField seen.fieldRows).bind fun (fields, fieldRows) => ?_
  refine (tracks_readTable (tracks_readMethod origin) seen.methodRows).bind fun _ => ?_
  exact tracks_pure _

theorem tracks_readTypeRef (count : Nat) : Tracks 1 (guardedTypeRef count) (readTypeRef count) := by
  refine Prefixed.tracks_read.bind fun scope => ?_
  exact Prefixed.tracks_read.weaken.bind fun name => tracks_pure _

theorem tracks_readMemberKind (kind : UInt8) :
    Tracks 0 (guardedKind kind) (readMemberKind kind) := by
  unfold guardedKind readMemberKind
  split
  · exact tracks_readSignature.bind fun signature => tracks_pure _
  · split
    · exact Prefixed.tracks_read.weaken.bind fun type => tracks_pure _
    · exact tracks_bad _

theorem tracks_readMemberRef (typeRefs count : Nat) :
    Tracks 1 (guardedMemberRef typeRefs count) (readMemberRef typeRefs count) := by
  refine tracks_byte.bind fun kind => (tracks_nat 4).weaken.bind fun parent => ?_
  dsimp only
  split
  · exact tracks_bad _
  · refine Prefixed.tracks_read.weaken.bind fun name => ?_
    exact (tracks_readMemberKind kind).bind fun member => tracks_pure _

theorem tracks_readPreamble : Tracks 0 guardedPreamble readPreamble := by
  refine (tracks_take mark.length).weaken.bind fun found => ?_
  split
  · exact tracks_fail _
  · refine (tracks_nat 2).weaken.bind fun number => ?_
    split
    · exact tracks_fail _
    · exact (tracks_nat 2).weaken.bind fun _ => tracks_pure ()

theorem tracks_readModule (origin : Nat) : Tracks 0 (guarded origin) (readModule origin) := by
  refine tracks_readPreamble.bind fun _ => Prefixed.tracks_read.weaken.bind fun name => ?_
  refine (tracks_readTable (tracks_readType origin) _).bind fun (types, _) => ?_
  refine (tracks_readTable tracks_readTypeRef 0).bind fun (typeRefs, typeRefCount) => ?_
  refine (tracks_readTable (tracks_readMemberRef typeRefCount) 0).bind fun (memberRefs, _) => ?_
  refine (tracks_readRows Prefixed.tracks_read).bind fun userStrings => ?_
  refine tracks_remaining.bind fun left => ?_
  split
  · exact tracks_bad _
  · exact tracks_pure _

end Image

/-- On any data, a header, a body and a module are read without a fault and to the end, inside the
data. -/
theorem reads_inside (data : Bytes) :
    (∃ q ≤ data.length, Header.guarded data 0 = .ok (Header.parse data, q)) ∧
    (∀ id, ∃ q ≤ data.length, Body.guarded id data 0 = .ok (Body.decode id data, q)) ∧
    ∀ origin, ∃ q ≤ data.length, Image.guarded origin data 0 = .ok (Image.read origin data, q) := by
  refine ⟨?_, ?_, ?_⟩
  · exact Header.yields_header data 0 (Nat.zero_le _)
  · exact fun id => Body.yields_body id data 0 (Nat.zero_le _)
  · intro origin
    rw [Image.read, Reader.parse]
    cases Image.tracks_readModule origin data 0 (Nat.zero_le _) with
    | @ok module q hguarded hread _ hq =>
        exact ⟨q, hq, hguarded.trans (congrArg (fun run => Except.ok (run.1, q)) hread.symm)⟩
    | @error e q hguarded hread hq =>
        exact ⟨q, hq, hguarded.trans (congrArg (fun run => Except.ok (run.1, q)) hread.symm)⟩

end CilEdit
