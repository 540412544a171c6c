import CilEdit.Method.Header
import CilEdit.Proofs.Sequencing

namespace CilEdit

namespace Clause

@[simp]
theorem field_ofNat_zero (width n : Nat) (rest : Bytes) :
    field (Bytes.ofNat width n ++ rest) 0 width = n % Bytes.capacity width := by
  have htake : (Bytes.ofNat width n ++ rest).take width = Bytes.ofNat width n :=
    List.take_left' (Bytes.length_ofNat width n)
  rw [field, List.drop_zero, htake, Bytes.toNat_ofNat]

theorem field_ofNat_skip {width offset : Nat} (h : width ≤ offset) (n : Nat) (rest : Bytes)
    (size : Nat) :
    field (Bytes.ofNat width n ++ rest) offset size = field rest (offset - width) size := by
  rw [field, field, List.drop_append, List.drop_eq_nil_of_le (by rw [Bytes.length_ofNat]; exact h),
    List.nil_append, Bytes.length_ofNat]

end Clause

namespace Section

/-- A clause as it is stored. Of its flags only three bits have a meaning. -/
structure Row where
  flags : UInt32
  tryOffset : UInt32
  tryLength : UInt32
  handlerOffset : UInt32
  handlerLength : UInt32
  classOrFilter : UInt32
  deriving DecidableEq, Repr

namespace Row

def clause (r : Row) : Clause :=
  ⟨.ofBits (UInt16.ofNat r.flags.toNat), r.tryOffset, r.tryLength, r.handlerOffset, r.handlerLength,
    r.classOrFilter⟩

/-- Any row fits the fat form; the small one has two bytes for flags and offsets, and one for
lengths. -/
def fits (isFat : Bool) (r : Row) : Bool :=
  isFat || r.flags ≤ 0xFFFF && r.tryOffset ≤ 0xFFFF && r.tryLength ≤ 0xFF
    && r.handlerOffset ≤ 0xFFFF && r.handlerLength ≤ 0xFF

def bytes (isFat : Bool) (r : Row) : Bytes :=
  let (flags, offset, length) := if isFat then (4, 4, 4) else (2, 2, 1)
  Bytes.ofNat flags r.flags.toNat ++ (Bytes.ofNat offset r.tryOffset.toNat ++
    (Bytes.ofNat length r.tryLength.toNat ++ (Bytes.ofNat offset r.handlerOffset.toNat ++
      (Bytes.ofNat length r.handlerLength.toNat ++ Bytes.ofNat 4 r.classOrFilter.toNat))))

end Row

def rowSize (isFat : Bool) : Nat :=
  if isFat then Clause.fatSize else Clause.smallSize

def readRow (isFat : Bool) : Bytes → Clause :=
  if isFat then Clause.ofFat else Clause.ofSmall

theorem Row.length_bytes (isFat : Bool) (r : Row) : (r.bytes isFat).length = rowSize isFat := by
  cases isFat <;> simp [Row.bytes, rowSize, Clause.fatSize, Clause.smallSize]

theorem readRow_bytes {isFat : Bool} {r : Row} (h : r.fits isFat = true) (rest : Bytes) :
    readRow isFat (r.bytes isFat ++ rest) = r.clause := by
  have hword : ∀ n : UInt32, n.toNat < Bytes.capacity 4 := fun n => n.toNat_lt
  cases isFat with
  | true =>
      simp only [readRow, Row.bytes, Clause.ofFat, if_true, List.append_assoc]
      simp (disch := decide) only [Clause.field_ofNat_skip, Clause.field_ofNat_zero, Nat.reduceSub,
        Nat.mod_eq_of_lt (hword _), UInt32.ofNat_toNat]
      rfl
  | false =>
      simp only [Row.fits, Bool.false_or, Bool.and_eq_true, decide_eq_true_eq,
        UInt32.le_iff_toNat_le, UInt32.reduceToNat] at h
      obtain ⟨⟨⟨⟨hflags, htryOffset⟩, htryLength⟩, hhandlerOffset⟩, hhandlerLength⟩ := h
      have hshort : ∀ {n : UInt32}, n.toNat ≤ 0xFFFF → n.toNat < Bytes.capacity 2 :=
        fun h => Nat.lt_succ_of_le h
      have hbyte : ∀ {n : UInt32}, n.toNat ≤ 0xFF → n.toNat < Bytes.capacity 1 :=
        fun h => Nat.lt_succ_of_le h
      simp only [readRow, Row.bytes, Clause.ofSmall, Bool.false_eq_true, if_false,
        List.append_assoc]
      simp (disch := decide) only [Clause.field_ofNat_skip, Clause.field_ofNat_zero, Nat.reduceSub,
        Nat.mod_eq_of_lt (hshort hflags), Nat.mod_eq_of_lt (hshort htryOffset),
        Nat.mod_eq_of_lt (hbyte htryLength), Nat.mod_eq_of_lt (hshort hhandlerOffset),
        Nat.mod_eq_of_lt (hbyte hhandlerLength), Nat.mod_eq_of_lt (hword _), UInt32.ofNat_toNat]
      rfl

theorem length_flatMap_bytes (isFat : Bool) (rows : List Row) :
    (rows.flatMap (Row.bytes isFat)).length = rows.length * rowSize isFat := by
  induction rows with
  | nil => rw [List.flatMap_nil, List.length_nil, List.length_nil, Nat.zero_mul]
  | cons r rows ih =>
      rw [List.flatMap_cons, List.length_append, Row.length_bytes, ih, List.length_cons,
        Nat.succ_mul, Nat.add_comm]

theorem readClauses_flatMap {isFat : Bool} {rows : List Row}
    (hfits : ∀ r ∈ rows, r.fits isFat = true) (rest : Bytes) (seen : List Clause) :
    readClauses (readRow isFat) (rowSize isFat) rows.length
      (rows.flatMap (Row.bytes isFat) ++ rest) seen = seen.reverse ++ rows.map Row.clause := by
  induction rows generalizing seen with
  | nil => exact (List.append_nil _).symm
  | cons r rows ih =>
      obtain ⟨hr, hrows⟩ := List.forall_mem_cons.mp hfits
      have hdrop : (r.bytes isFat ++ (rows.flatMap (Row.bytes isFat) ++ rest)).drop (rowSize isFat)
          = rows.flatMap (Row.bytes isFat) ++ rest :=
        List.drop_left' (r.length_bytes isFat)
      rw [List.flatMap_cons, List.append_assoc, List.length_cons, readClauses, hdrop,
        readRow_bytes hr, ih hrows, List.reverse_cons, List.append_assoc, List.map_cons]
      rfl

/-- The bits of the first byte that have no meaning do not change those that have one. -/
theorem hasFlag_known (kind : UInt8) {flag : Nat} (hflag : flag ∈ [clauseTable, fat, more]) :
    Header.hasFlag (known kind) flag = Header.hasFlag kind.toNat flag := by
  have hall : ∀ n < 256, ∀ flag ∈ [clauseTable, fat, more],
      Header.hasFlag (known (UInt8.ofNat n)) flag = Header.hasFlag n flag := by
    decide +kernel
  have hkind := hall kind.toNat kind.toNat_lt flag hflag
  rwa [UInt8.ofNat_toNat] at hkind

def isFat (kind : UInt8) : Bool :=
  Header.hasFlag kind.toNat fat

/-- How many bytes of a section say how large it is. -/
def sizeWidth (isFat : Bool) : Nat :=
  if isFat then 3 else 1

/-- A section as it is stored: its first byte, two bytes without a meaning that only the small form
has, its rows, and less than one further row. -/
structure Block where
  kind : UInt8
  unused : UInt16
  rows : List Row
  surplus : Bytes
  table : Header.hasFlag kind.toNat clauseTable = true
  fits : ∀ r ∈ rows, r.fits (isFat kind) = true
  incomplete : surplus.length < rowSize (isFat kind)
  sized : 4 + rows.length * rowSize (isFat kind) + surplus.length
    < Bytes.capacity (sizeWidth (isFat kind))

namespace Block

def size (b : Block) : Nat :=
  4 + b.rows.length * rowSize (isFat b.kind) + b.surplus.length

def head (b : Block) : Bytes :=
  b.kind :: (Bytes.ofNat (sizeWidth (isFat b.kind)) b.size ++
    if isFat b.kind then [] else Bytes.ofNat 2 b.unused.toNat)

def bytes (b : Block) : Bytes :=
  b.head ++ (b.rows.flatMap (Row.bytes (isFat b.kind)) ++ b.surplus)

def clauses (b : Block) : List Clause :=
  b.rows.map Row.clause

/-- Whether a further section follows. -/
def continues (b : Block) : Bool :=
  Header.hasFlag b.kind.toNat more

theorem length_head (b : Block) : b.head.length = 4 := by
  cases hfat : isFat b.kind <;> simp [head, hfat, sizeWidth]

theorem length_bytes (b : Block) : b.bytes.length = b.size := by
  rw [bytes, List.length_append, List.length_append, length_head, length_flatMap_bytes, size,
    Nat.add_assoc]

theorem declaredSize_bytes (b : Block) (rest : Bytes) :
    declaredSize (known b.kind) (b.bytes ++ rest) = b.size := by
  have hfield : Clause.field (b.bytes ++ rest) 1 (sizeWidth (isFat b.kind)) = b.size := by
    rw [bytes, head, List.append_assoc, List.cons_append, List.append_assoc]
    change Clause.field (Bytes.ofNat (sizeWidth (isFat b.kind)) b.size ++ _) 0 _ = b.size
    rw [Clause.field_ofNat_zero, Nat.mod_eq_of_lt (show b.size < _ from b.sized)]
  rw [declaredSize, hasFlag_known _ (show fat ∈ [clauseTable, fat, more] by decide)]
  change (if isFat b.kind then _ else _) = _
  cases hfat : isFat b.kind <;> rw [hfat] at hfield <;> exact hfield

theorem clausesOf_bytes (b : Block) (rest : Bytes) :
    clausesOf (known b.kind) b.size (b.bytes ++ rest) = b.clauses := by
  have hdrop : (b.bytes ++ rest).drop 4
      = b.rows.flatMap (Row.bytes (isFat b.kind)) ++ (b.surplus ++ rest) := by
    rw [bytes, List.append_assoc, List.append_assoc]
    exact List.drop_left' b.length_head
  have hpos : 0 < rowSize (isFat b.kind) := Nat.zero_lt_of_lt b.incomplete
  have hcount : (b.size - 4) / rowSize (isFat b.kind) = b.rows.length := by
    rw [size, Nat.add_assoc, Nat.add_sub_cancel_left, Nat.mul_comm, Nat.mul_add_div hpos,
      Nat.div_eq_of_lt b.incomplete, Nat.add_zero]
  have hread := readClauses_flatMap b.fits (b.surplus ++ rest) []
  rw [← hcount, ← hdrop] at hread
  rw [clausesOf, hasFlag_known _ (show fat ∈ [clauseTable, fat, more] by decide)]
  change (if isFat b.kind then _ else _) = _
  cases hfat : isFat b.kind <;> rw [hfat] at hread <;> exact hread

theorem readOne_bytes (b : Block) (rest : Bytes) :
    readOne (b.bytes ++ rest) = .ok (b.clauses, b.size, b.continues) := by
  have hlow : 4 ≤ b.size := by
    rw [size, Nat.add_assoc]
    exact Nat.le_add_right _ _
  have hhigh : b.size ≤ (b.bytes ++ rest).length := by
    rw [List.length_append, length_bytes]
    exact Nat.le_add_right _ _
  have hfour : ¬ ((b.bytes ++ rest).take 4).length < 4 := by
    rw [List.length_take]
    omega
  have hbounds : ¬ (b.size < 4 ∨ (!(b.bytes ++ rest).holds b.size) = true) := by
    rw [Bool.not_eq_true', Bool.eq_false_iff, Ne, Bytes.holds_iff]
    omega
  have hkind : (b.bytes ++ rest).headD 0 = b.kind := rfl
  have htable : Header.hasFlag (known b.kind) clauseTable = true :=
    (hasFlag_known _ (by decide)).trans b.table
  have hmore : Header.hasFlag (known b.kind) more = b.continues := hasFlag_known _ (by decide)
  simp only [readOne, hkind, declaredSize_bytes, if_neg hfour, htable, Bool.not_true,
    Bool.false_eq_true, if_false, if_neg hbounds, clausesOf_bytes, hmore]

end Block

/-- The data starts with sections, each at the next multiple of four bytes after the one before it,
the last one saying that none follows. -/
inductive Chain : List Block → Bytes → Prop
  | last {b : Block} (stops : b.continues = false) (rest : Bytes) : Chain [b] (b.bytes ++ rest)
  | more {b : Block} {gap tail : Bytes} {blocks : List Block} (continues : b.continues = true)
      (aligned : b.size + gap.length = Bytes.align4 b.size) (next : Chain blocks tail) :
      Chain (b :: blocks) (b.bytes ++ (gap ++ tail))

theorem drop_aligned {xs gap : Bytes} (h : xs.length + gap.length = Bytes.align4 xs.length)
    (ys : Bytes) : (xs ++ (gap ++ ys)).drop (Bytes.align4 xs.length) = ys := by
  rw [← List.append_assoc]
  exact List.drop_left' (by rw [List.length_append, h])

theorem Chain.readAll {blocks : List Block} {data : Bytes} (h : Chain blocks data)
    (seen : List Clause) :
    readAll data seen = .ok (seen.reverse ++ blocks.flatMap Block.clauses) := by
  induction h generalizing seen with
  | @last b stops rest =>
      rw [readAll_of_ok (b.readOne_bytes rest), stops]
      simp
  | @more b gap tail blocks continues aligned _ ih =>
      rw [← b.length_bytes] at aligned
      have hdrop := drop_aligned aligned tail
      rw [b.length_bytes] at hdrop
      rw [readAll_of_ok (b.readOne_bytes (gap ++ tail)), continues, if_pos rfl, hdrop, ih]
      simp

end Section

namespace Header

/-- A fat header as it is stored, with further words that nothing reads, and its code. The four
highest bits of its flags say how many words it has. -/
structure Front where
  flags : UInt16
  maxStack : UInt16
  locals : UInt32
  extra : Bytes
  code : Bytes
  isFat : flags.toNat % 4 = 3
  sized : flags.toNat / 0x1000 * 4 = fatSize + extra.length
  fits : code.length < UInt32.size

namespace Front

def bytes (f : Front) : Bytes :=
  Bytes.ofNat 2 f.flags.toNat ++ (Bytes.ofNat 2 f.maxStack.toNat ++
    (Bytes.ofNat 4 f.code.length ++ (Bytes.ofNat 4 f.locals.toNat ++ f.extra)))

/-- Whether sections follow. -/
def continues (f : Front) : Bool :=
  hasFlag f.flags.toNat moreSections

/-- What the front says, together with the clauses after it. -/
def header (f : Front) (clauses : List Clause) : Header where
  size := f.bytes.length
  codeSize := f.code.length
  maxStack := f.maxStack
  locals := ⟨f.locals⟩
  isFat := true
  initLocals := hasFlag f.flags.toNat initLocalsFlag
  clauses := clauses

theorem length_bytes (f : Front) : f.bytes.length = fatSize + f.extra.length := by
  simp only [bytes, List.length_append, Bytes.length_ofNat, fatSize]
  omega

theorem field_bytes (f : Front) (rest : Bytes) :
    Clause.field (f.bytes ++ rest) 0 2 = f.flags.toNat ∧
      Clause.field (f.bytes ++ rest) 2 2 = f.maxStack.toNat ∧
      Clause.field (f.bytes ++ rest) 4 4 = f.code.length ∧
      Clause.field (f.bytes ++ rest) 8 4 = f.locals.toNat := by
  simp only [bytes, List.append_assoc]
  simp (disch := decide) only [Clause.field_ofNat_skip, Nat.reduceSub, Clause.field_ofNat_zero]
  exact ⟨Nat.mod_eq_of_lt f.flags.toNat_lt, Nat.mod_eq_of_lt f.maxStack.toNat_lt,
    Nat.mod_eq_of_lt f.fits, Nat.mod_eq_of_lt f.locals.toNat_lt⟩

theorem parse_eq (f : Front) (rest : Bytes) :
    parse (f.bytes ++ rest) = parseFat (f.bytes ++ rest) := by
  have hfirst : (UInt8.ofNat f.flags.toNat).toNat % 4 = 3 := by
    rw [UInt8.toNat_ofNat', ← f.isFat]
    omega
  have hnot : ¬ (UInt8.ofNat f.flags.toNat).toNat % 4 = 2 := by omega
  change (if _ then _ else if _ then _ else _) = _
  rw [if_neg hnot, if_pos hfirst]

theorem parse_bytes (f : Front) {tail : Bytes} {clauses : List Clause}
    (htail : (if f.continues then Section.readAll ((f.bytes ++ (f.code ++ tail)).drop
      (Bytes.align4 (f.bytes.length + f.code.length))) [] else pure []) = .ok clauses) :
    parse (f.bytes ++ (f.code ++ tail)) = .ok (f.header clauses) := by
  obtain ⟨hflags, hmaxStack, hcodeSize, hlocals⟩ := f.field_bytes (f.code ++ tail)
  have hlength : (f.bytes ++ (f.code ++ tail)).length
      = f.bytes.length + (f.code.length + tail.length) := by
    rw [List.length_append, List.length_append]
  rw [parse_eq]
  generalize f.bytes ++ (f.code ++ tail) = data at *
  have hsize := f.length_bytes
  have hshort : ¬ data.length < fatSize := by omega
  have hlong : ¬ data.length < f.bytes.length + f.code.length := by omega
  have hmin : ¬ f.bytes.length < fatSize := by omega
  simp only [parseFat, hflags, f.sized, ← hsize, hcodeSize, if_neg hshort, if_neg hmin,
    if_neg hlong, hmaxStack, hlocals, UInt16.ofNat_toNat, UInt32.ofNat_toNat]
  rw [continues] at htail
  cases hmore : hasFlag f.flags.toNat moreSections with
  | true =>
      rw [hmore, if_pos rfl] at htail
      exact bind_of_ok htail
  | false =>
      rw [hmore] at htail
      cases htail
      rfl

end Front

theorem code_of_append {h : Header} {front code : Bytes} (hsize : h.size = front.length)
    (hcodeSize : h.codeSize = code.length) (rest : Bytes) :
    h.code (front ++ (code ++ rest)) = .ok code := by
  have hle : front.length + code.length ≤ (front ++ (code ++ rest)).length := by
    rw [List.length_append, List.length_append]
    omega
  rw [Header.code, hsize, hcodeSize, if_pos hle, List.drop_left, List.take_left]

/-- All sections are read: after a fat header that says so and its code, the clauses are those of
the chain of sections at the next multiple of four bytes, whatever stands in the gaps between them,
in what is too short for a further clause, and after the last section. -/
theorem parse_chain (f : Front) (hcontinues : f.continues = true) (gap : Bytes)
    (haligned : f.bytes.length + f.code.length + gap.length
      = Bytes.align4 (f.bytes.length + f.code.length))
    {blocks : List Section.Block} {data : Bytes} (hchain : Section.Chain blocks data) :
    parse (f.bytes ++ (f.code ++ (gap ++ data)))
      = .ok (f.header (blocks.flatMap Section.Block.clauses)) ∧
    (f.header (blocks.flatMap Section.Block.clauses)).code
      (f.bytes ++ (f.code ++ (gap ++ data))) = .ok f.code := by
  refine ⟨f.parse_bytes ?_, code_of_append rfl rfl _⟩
  rw [← List.length_append] at haligned
  have hdrop := Section.drop_aligned haligned data
  rw [List.append_assoc, List.length_append] at hdrop
  rw [if_pos hcontinues, hdrop, hchain.readAll]
  rfl

/-- A header of four words, before one byte of code. -/
def longFront : Front where
  flags := 0x401B
  maxStack := 5
  locals := 0x11000001
  extra := [9, 9, 9, 9]
  code := [0x2A]
  isFat := by decide
  sized := by decide
  fits := by decide

/-- A small section with bits and bytes that have no meaning, which is not the last one. -/
def smallBlock : Section.Block where
  kind := 0xBD
  unused := 0xBEEF
  rows := [⟨0xFFF9, 0xFFFF, 0xFF, 2, 3, 4⟩]
  surplus := [1, 2, 3]
  table := by decide
  fits := by decide
  incomplete := by decide
  sized := by decide

def fatBlock : Section.Block where
  kind := 0x41
  unused := 0
  rows := [⟨0xABCD0002, 0x10000, 0x100, 7, 8, 9⟩, ⟨0, 0, 1, 1, 2, 0x02000001⟩]
  surplus := []
  table := by decide
  fits := by decide
  incomplete := by decide
  sized := by decide

theorem parse_chain_mixed :
    parse (longFront.bytes ++ ([0x2A] ++ ([0, 0, 1] ++
      (smallBlock.bytes ++ ([5] ++ (fatBlock.bytes ++ [0xC1])))))) = .ok {
        size := 16, codeSize := 1, maxStack := 5, locals := ⟨0x11000001⟩, isFat := true
        initLocals := true
        clauses := [⟨.ofBits 1, 0xFFFF, 0xFF, 2, 3, 4⟩, ⟨.ofBits 2, 0x10000, 0x100, 7, 8, 9⟩,
          ⟨.ofBits 0, 0, 1, 1, 2, 0x02000001⟩] } := by
  have hchain : Section.Chain [smallBlock, fatBlock]
      (smallBlock.bytes ++ ([5] ++ (fatBlock.bytes ++ [0xC1]))) :=
    .more (by decide) (by decide) (.last (by decide) [0xC1])
  have hheader : longFront.header ([smallBlock, fatBlock].flatMap Section.Block.clauses)
      = ⟨16, 1, 5, ⟨0x11000001⟩, true, true, [⟨.ofBits 1, 0xFFFF, 0xFF, 2, 3, 4⟩,
        ⟨.ofBits 2, 0x10000, 0x100, 7, 8, 9⟩, ⟨.ofBits 0, 0, 1, 1, 2, 0x02000001⟩]⟩ := by
    decide +kernel
  rw [← hheader]
  exact (parse_chain longFront (by decide) [0, 0, 1] (by decide) hchain).1

end Header

end CilEdit
