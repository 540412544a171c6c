import CilEdit.Proofs.CanonicalText
import CilEdit.Proofs.ImageRoundTrip

/-!
The pieces of an image.

`Image.pieces` cuts an image where its reader does and tells apart the pieces that need not be
written as they were read: the reserved word of the header, the groups of a length and the flags of
a method. `Saves` says that what a reader reads is cut into pieces, and that these, each in its
saved form, are what is written for the value.
-/

namespace CilEdit

open Reader

/-- A piece of an image. -/
inductive Image.Piece
  | plain (stored : Bytes)
  | reserved (word : UInt16)
  | length (groups : Bytes)
  | flags (word : UInt16)
  deriving DecidableEq, Repr

namespace Image.Piece

def bytes : Piece → Bytes
  | plain stored => stored
  | length groups => groups
  | reserved word | flags word => Bytes.ofNat 2 word.toNat

/-- The form in which the piece is written again: the reserved word is zero, a length has no more
groups than it needs, and of the flags of a method those without a meaning are dropped. -/
def saved : Piece → Bytes
  | plain stored => stored
  | reserved _ => Bytes.ofNat 2 0
  | length groups => Varint.bytes (Varint.value groups % UInt32.size)
  | flags word => Bytes.ofNat 2 (word &&& 0x1DF7).toNat

/-- The form that a reader makes sure of. -/
def Shaped : Piece → Prop
  | length groups => Varint.Groups groups
  | plain _ | reserved _ | flags _ => True

/-- The reserved word is zero, and a length has no more groups than it needs and no bits beyond the
32nd. -/
def Canonical : Piece → Prop
  | reserved word => word = 0
  | length groups => Varint.Minimal groups ∧ Varint.value groups < UInt32.size
  | plain _ | flags _ => True

/-- All flags of the piece have a meaning. -/
def Known : Piece → Prop
  | flags word => word &&& 0x1DF7 = word
  | plain _ | reserved _ | length _ => True

instance : DecidablePred Canonical
  | reserved word => inferInstanceAs (Decidable (word = 0))
  | length groups => inferInstanceAs (Decidable
      ((groups.length = 1 ∨ groups.getLast? ≠ some 0) ∧ Varint.value groups < UInt32.size))
  | plain _ | flags _ => inferInstanceAs (Decidable True)

instance : DecidablePred Known
  | flags word => inferInstanceAs (Decidable (word &&& 0x1DF7 = word))
  | plain _ | reserved _ | length _ => inferInstanceAs (Decidable True)

theorem saved_eq_bytes {p : Piece} (hshaped : p.Shaped) (hcanonical : p.Canonical)
    (hknown : p.Known) : p.saved = p.bytes := by
  cases p with
  | plain stored => rfl
  | reserved word =>
      cases hcanonical
      rfl
  | length groups =>
      rw [saved, Nat.mod_eq_of_lt hcanonical.2]
      exact Varint.Groups.bytes_value hshaped hcanonical.1
  | flags word => exact congrArg (fun w : UInt16 => Bytes.ofNat 2 w.toNat) hknown

end Image.Piece

namespace Image

/-- A reader whose value comes with the bytes that it took. -/
def taken {α : Type} (r : Reader α) : Reader (α × Bytes) := fun i =>
  match r i with
  | (.ok a, next) => (.ok (a, i.rest.take (i.rest.length - next.rest.length)), next)
  | (.error e, next) => (.error e, next)

abbrev Cutter := Reader (List Piece)

namespace Cut

def inTurn : List Cutter → Cutter
  | [] => pure []
  | p :: rest => do
    let pieces ← p
    return pieces ++ (← inTurn rest)

def byte : Cutter := do
  return [.plain [← Reader.byte]]

def block (width : Nat) : Cutter := do
  return [.plain (← take width)]

def reserved : Cutter := do
  return [.reserved (UInt16.ofNat (← nat 2))]

def flags : Cutter := do
  return [.flags (UInt16.ofNat (← nat 2))]

/-- A length, and what it is the length of. -/
def counted (rest : Nat → Cutter) : Cutter := do
  let (count, groups) ← taken Varint.read
  return .length groups :: (← rest count)

def text : Cutter :=
  counted block

/-- A number of four bytes, and what depends on it. -/
def numbered (rest : Nat → Cutter) : Cutter := do
  let (n, stored) ← taken (nat 4)
  return .plain stored :: (← rest n)

def rows (row : Cutter) (count : Nat) : Cutter :=
  inTurn (List.replicate count row)

def table (row : Cutter) : Cutter :=
  numbered (rows row)

def signature : Cutter :=
  inTurn [byte, counted (rows text), text]

def field : Cutter :=
  inTurn [block 4, block 4, text, text]

def body : Cutter :=
  numbered block

def method : Cutter :=
  inTurn [block 4, flags, text, signature, body]

def type : Cutter :=
  inTurn [block 4, text, table field, table method]

def typeRef : Cutter :=
  inTurn [text, text]

def memberRef : Cutter := do
  let kind ← Reader.byte
  return .plain [kind] :: (← inTurn [block 4, text, if kind = 0 then signature else text])

def preamble : Cutter :=
  inTurn [block mark.length, block 2, reserved]

def module : Cutter :=
  inTurn [preamble, text, table type, table typeRef, table memberRef, table text]

end Cut

/-- The pieces of an image, from the first to the last. -/
def pieces (data : Bytes) : Except Error (List Piece) :=
  Cut.module.parse data

/-- The cutter cuts what lies between two inputs into the pieces. -/
structure Cuts (p : Cutter) (i : Input) (ps : List Piece) (next : Input) : Prop where
  run : p i = (.ok ps, next)
  rest : i.rest = ps.flatMap Piece.bytes ++ next.rest
  shaped : ∀ q ∈ ps, q.Shaped

/-- What the reader reads, the cutter cuts into pieces, and the value that was read is written as
these are saved. -/
def Saves {α : Type} (r : Reader α) (p : Cutter) (write : α → Except Error Bytes) : Prop :=
  ∀ i a next, r i = (.ok a, next) →
    ∃ ps, Cuts p i ps next ∧ write a = .ok (ps.flatMap Piece.saved)

variable {α σ : Type} {i mid next : Input} {p : Cutter} {rest : List Cutter} {ps qs : List Piece}

theorem taken_eq_ok {r : Reader α} {a : α} {stored : Bytes} (h : r i = (.ok a, next))
    (hrest : i.rest = stored ++ next.rest) : taken r i = (.ok (a, stored), next) := by
  have hstored : i.rest.take (i.rest.length - next.rest.length) = stored := by
    rw [hrest]
    apply List.take_left'
    rw [List.length_append]
    omega
  simp only [taken, h, hstored]

namespace Cuts

theorem nil (i : Input) : Cuts (Cut.inTurn []) i [] i :=
  ⟨rfl, rfl, List.forall_mem_nil _⟩

theorem cons (hp : Cuts p i ps mid) (hrest : Cuts (Cut.inTurn rest) mid qs next) :
    Cuts (Cut.inTurn (p :: rest)) i (ps ++ qs) next where
  run := by
    rw [Cut.inTurn, Step.bind_ok hp.run, Step.bind_ok hrest.run]
    rfl
  rest := by
    rw [hp.rest, hrest.rest, List.flatMap_append, List.append_assoc]
  shaped := List.forall_mem_append.mpr ⟨hp.shaped, hrest.shaped⟩

theorem last (hp : Cuts p i ps next) : Cuts (Cut.inTurn [p]) i ps next := by
  have h := hp.cons (nil next)
  rwa [List.append_nil] at h

end Cuts

theorem cuts_block {width : Nat} {block : Bytes} (h : take width i = (.ok block, next)) :
    Cuts (Cut.block width) i [.plain block] next where
  run := by
    rw [Cut.block, Step.bind_ok h]
    rfl
  rest := by
    rw [(take_eq_ok h).2, List.flatMap_singleton]
    rfl
  shaped := List.forall_mem_singleton.mpr trivial

/-- A length is cut off in front of the pieces of what it is the length of. -/
theorem exists_cuts_counted (rest : Nat → Cutter) {n : Nat} (h : Varint.read i = (.ok n, mid))
    (hrest : Cuts (rest n) mid qs next) :
    n < UInt32.size ∧ ∃ groups, Cuts (Cut.counted rest) i (.length groups :: qs) next ∧
      Varint.bytes n = (Piece.length groups).saved := by
  obtain ⟨groups, hshape, hgroups, hvalue⟩ := Varint.read_eq_ok h
  refine ⟨hvalue ▸ Nat.mod_lt _ (by decide), groups, ⟨?_, ?_, ?_⟩, congrArg Varint.bytes hvalue⟩
  · rw [Cut.counted, Step.bind_ok (taken_eq_ok h hgroups)]
    dsimp only
    rw [Step.bind_ok hrest.run]
    rfl
  · rw [hgroups, hrest.rest, List.flatMap_cons, List.append_assoc]
    rfl
  · exact List.forall_mem_cons.mpr ⟨hshape, hrest.shaped⟩

/-- A number is cut off in front of the pieces of what depends on it. -/
theorem exists_cuts_numbered (rest : Nat → Cutter) {n : Nat} (h : nat 4 i = (.ok n, mid))
    (hrest : Cuts (rest n) mid qs next) :
    n < UInt32.size ∧ ∃ stored, Cuts (Cut.numbered rest) i (.plain stored :: qs) next ∧
      Bytes.ofNat 4 n = stored := by
  obtain ⟨hlt, stored, -, -, hstored, hbytes⟩ := nat_eq_ok h
  refine ⟨hlt, stored, ⟨?_, ?_, ?_⟩, hbytes⟩
  · rw [Cut.numbered, Step.bind_ok (taken_eq_ok h hstored)]
    dsimp only
    rw [Step.bind_ok hrest.run]
    rfl
  · rw [hstored, hrest.rest, List.flatMap_cons, List.append_assoc]
    rfl
  · exact List.forall_mem_cons.mpr ⟨trivial, hrest.shaped⟩

theorem read_prefixed_eq_ok {text : String} (h : Prefixed.read i = (.ok text, next)) :
    ∃ n mid block, Varint.read i = (.ok n, mid) ∧ take n mid = (.ok block, next) ∧
      Text.Utf8.decode block = .ok text := by
  obtain ⟨n, mid, hlength, h⟩ := Reader.bind_eq_ok h
  obtain ⟨start, mid', hposition, h⟩ := Reader.bind_eq_ok h
  cases hposition
  obtain ⟨block, last, htake, h⟩ := Reader.bind_eq_ok h
  cases hdecode : Text.Utf8.decode block with
  | ok found =>
      rw [hdecode] at h
      cases h
      exact ⟨n, _, block, hlength, htake, hdecode⟩
  | error fault =>
      rw [hdecode] at h
      cases h

theorem saves_text : Saves Prefixed.read Cut.text Prefixed.bytes := by
  intro i text next h
  obtain ⟨n, mid, block, hlength, htake, hdecode⟩ := read_prefixed_eq_ok h
  obtain ⟨hn, groups, hcuts, hgroups⟩ := exists_cuts_counted Cut.block hlength (cuts_block htake)
  refine ⟨_, hcuts, ?_⟩
  have hencode := Text.Utf8.encode_of_decode hdecode
  obtain ⟨rfl, -⟩ := take_eq_ok htake
  rw [Prefixed.bytes, hencode, if_pos hn, hgroups, List.flatMap_cons, List.flatMap_singleton]
  rfl

/-- The items are written, one after the other, as the pieces are saved. -/
def SavedAs (write : α → Except Error Bytes) (items : List α) (ps : List Piece) : Prop :=
  ∃ chunks, items.mapM write = .ok chunks ∧ chunks.flatten = ps.flatMap Piece.saved

theorem SavedAs.cons {write : α → Except Error Bytes} {a : α} {items : List α}
    (ha : write a = .ok (ps.flatMap Piece.saved)) (hitems : SavedAs write items qs) :
    SavedAs write (a :: items) (ps ++ qs) := by
  obtain ⟨chunks, hchunks, hflatten⟩ := hitems
  refine ⟨ps.flatMap Piece.saved :: chunks, ?_, ?_⟩
  · rw [List.mapM_cons, ha, hchunks]
    rfl
  · rw [List.flatten_cons, hflatten, List.flatMap_append]

/-- A loop that puts an item before those read so far is cut into the pieces of its items. -/
theorem exists_cuts_iterate {step : σ → Reader σ} (items : σ → List α)
    (write : α → Except Error Bytes)
    (hstep : ∀ s i t next, step s i = (.ok t, next) → ∃ a ps, items t = a :: items s ∧
      Cuts p i ps next ∧ write a = .ok (ps.flatMap Piece.saved))
    {count : Nat} {s t : σ} (h : iterate step count s i = (.ok t, next)) :
    ∃ read ps, items t = read.reverse ++ items s ∧ read.length = count ∧
      Cuts (Cut.rows p count) i ps next ∧ SavedAs write read ps := by
  induction count generalizing s i with
  | zero =>
      cases h
      exact ⟨[], [], rfl, rfl, .nil _, [], rfl, rfl⟩
  | succ count ih =>
      obtain ⟨s', mid, hfirst, h⟩ := Reader.bind_eq_ok h
      obtain ⟨a, ps, ha, hcuts, hwrite⟩ := hstep s i s' mid hfirst
      obtain ⟨read, qs, hread, hlength, hrest, hsaved⟩ := ih h
      refine ⟨a :: read, ps ++ qs, ?_, ?_, hcuts.cons hrest, .cons hwrite hsaved⟩
      · rw [hread, ha, List.reverse_cons, List.append_assoc]
        rfl
      · rw [List.length_cons, hlength]

theorem exists_cuts_times {item : Reader α} {write : α → Except Error Bytes}
    (hitem : Saves item p write) {count : Nat} {read : List α}
    (h : times item count i = (.ok read, next)) :
    read.length = count ∧ ∃ ps, Cuts (Cut.rows p count) i ps next ∧
      SavedAs write read ps := by
  obtain ⟨reversed, last, hloop, hpure⟩ := Reader.bind_eq_ok h
  cases hpure
  obtain ⟨read, ps, hread, hlength, hcuts, hsaved⟩ :=
    exists_cuts_iterate (p := p) id write (fun items i t next hstep => by
      obtain ⟨a, last, ha, hpure⟩ := Reader.bind_eq_ok hstep
      cases hpure
      obtain ⟨ps, hcuts, hwrite⟩ := hitem i a _ ha
      exact ⟨a, ps, rfl, hcuts, hwrite⟩) hloop
  rw [id, id, List.append_nil] at hread
  rw [hread, List.reverse_reverse]
  exact ⟨hlength, ps, hcuts, hsaved⟩

theorem readCount_eq_ok {count : Nat} (h : readCount i = (.ok count, next)) :
    nat 4 i = (.ok count, next) := by
  obtain ⟨n, mid, hn, h⟩ := Reader.bind_eq_ok h
  obtain ⟨_, mid', hrequire, h⟩ := Reader.bind_eq_ok h
  cases h
  cases require_eq_ok hrequire
  exact hn

/-- The count of a table is cut off in front of the pieces of its rows. -/
theorem exists_cuts_table {write : α → Except Error Bytes} {rows : List α} {count : Nat}
    (hcount : readCount i = (.ok count, mid)) (hlength : rows.length = count)
    (hrows : Cuts (Cut.rows p count) mid ps next) (hsaved : SavedAs write rows ps) :
    ∃ ps, Cuts (Cut.table p) i ps next ∧
      writeTable write rows = .ok (ps.flatMap Piece.saved) := by
  obtain ⟨hlt, stored, hcuts, hstored⟩ :=
    exists_cuts_numbered (Cut.rows p) (readCount_eq_ok hcount) hrows
  obtain ⟨chunks, hchunks, hflatten⟩ := hsaved
  refine ⟨_, hcuts, ?_⟩
  rw [writeTable, hlength, if_pos hlt, hchunks, List.flatMap_cons, ← hflatten, hstored]
  rfl

theorem saves_readTable {row : σ → Reader (α × σ)} {write : α → Except Error Bytes}
    (hrow : ∀ s, Saves (row s) p fun x => write x.1) (s : σ) :
    Saves (readTable row s) (Cut.table p) fun x => writeTable write x.1 := by
  rintro i ⟨rows, last⟩ next h
  obtain ⟨count, mid, hcount, h⟩ := Reader.bind_eq_ok h
  obtain ⟨⟨reversed, last'⟩, mid', hloop, hpure⟩ := Reader.bind_eq_ok h
  cases hpure
  obtain ⟨read, ps, hread, hlength, hcuts, hsaved⟩ :=
    exists_cuts_iterate (p := p) Prod.fst write (fun t i t' next hstep => by
      obtain ⟨⟨a, s⟩, last, ha, hpure⟩ := Reader.bind_eq_ok hstep
      cases hpure
      obtain ⟨ps, hcuts, hwrite⟩ := hrow t.2 i (a, s) _ ha
      exact ⟨a, ps, rfl, hcuts, hwrite⟩) hloop
  rw [List.append_nil] at hread
  have hrows : reversed.reverse = read := by
    rw [show reversed = read.reverse from hread, List.reverse_reverse]
  rw [hrows]
  exact exists_cuts_table hcount hlength hcuts hsaved

theorem saves_readRows {item : Reader α} {write : α → Except Error Bytes}
    (hitem : Saves item p write) : Saves (readRows item) (Cut.table p) (writeTable write) := by
  intro i rows next h
  obtain ⟨count, mid, hcount, h⟩ := Reader.bind_eq_ok h
  obtain ⟨hlength, ps, hcuts, hsaved⟩ := exists_cuts_times hitem h
  exact exists_cuts_table hcount hlength hcuts hsaved

end Image

end CilEdit
