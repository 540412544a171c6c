import CilEdit.Proofs.Serialization

namespace CilEdit

open Reader

/-- The displacements of an operand that ends at `stop` fit their fields, and the number of cases of
a switch fits its own. -/
def OperandKind.Holds (kind : OperandKind) (stop : Nat) : Operand Int → Prop
  | .target t =>
    if kind = .shortTarget then Layout.fitsByte (t - stop) = true
    else Layout.fitsWord (t - stop) = true
  | .switch ts => ts.length < UInt32.size ∧ ∀ t ∈ ts, Layout.fitsWord (t - stop) = true
  | _ => True

instance (kind : OperandKind) (stop : Nat) :
    (operand : Operand Int) → Decidable (kind.Holds stop operand)
  | .none | .immediate _ | .token _ => inferInstanceAs (Decidable True)
  | .target t => inferInstanceAs (Decidable (if kind = .shortTarget then
      Layout.fitsByte (t - stop) = true else Layout.fitsWord (t - stop) = true))
  | .switch ts => inferInstanceAs (Decidable
      (ts.length < UInt32.size ∧ ∀ t ∈ ts, Layout.fitsWord (t - stop) = true))

/-- The instruction can be told from its bytes: its operand has the shape that its opcode encodes,
its displacements fit, and its size is that of the two. -/
structure RawInstruction.Encoded (raw : RawInstruction) : Prop where
  shape : raw.operand.hasShape raw.opcode.operand = true
  holds : raw.opcode.operand.Holds raw.stop raw.operand
  size : raw.offset + raw.size = raw.stop

/-- From the offset `first` on, the code is the encodings of the instructions. -/
inductive Stream.Spells : (first : Nat) → List RawInstruction → Bytes → Prop
  | nil (first : Nat) : Spells first [] []
  | cons {raw : RawInstruction} {raws : List RawInstruction} {code : Bytes}
      (encoded : raw.Encoded) (tail : Spells raw.stop raws code) :
      Spells raw.offset (raw :: raws) (raw.bytes ++ code)

section

variable {i next : Input}

theorem fitsWord_signed {n : Nat} (h : n < Bytes.capacity 4) :
    Layout.fitsWord (Bytes.signed 4 n) = true := by
  rw [Layout.capacity_four] at h
  rw [Layout.fitsWord, Bytes.signed, Layout.capacity_four]
  split <;> simp <;> omega

theorem OperandKind.holds_of_read {start : Nat} {kind : OperandKind} {operand : Operand Int}
    (h : kind.read start i = (.ok operand, next)) : kind.Holds next.pos operand := by
  cases kind with
  | none =>
      cases h
      trivial
  | int8 | uint8 | uint16 | int32 | int64 | float32 | float64 | token =>
      obtain ⟨x, last, -, hpure⟩ := Reader.bind_eq_ok h
      cases hpure
      trivial
  | shortTarget =>
      obtain ⟨d, rfl, hfits⟩ := fitsByte_of_read h
      rw [Holds, if_pos rfl, Int.add_comm, Int.add_sub_cancel]
      exact hfits
  | target =>
      obtain ⟨n, last, hn, h⟩ := Reader.bind_eq_ok h
      obtain ⟨pos, last', hpos, hpure⟩ := Reader.bind_eq_ok h
      cases hpos
      cases hpure
      rw [Holds, if_neg nofun, Int.add_comm, Int.add_sub_cancel]
      exact fitsWord_signed (nat_eq_ok hn).1
  | switch =>
      obtain ⟨count, at1, hcount, h⟩ := Reader.bind_eq_ok h
      obtain ⟨_, at2, -, h⟩ := Reader.bind_eq_ok h
      obtain ⟨displacements, at3, htimes, h⟩ := Reader.bind_eq_ok h
      obtain ⟨base, at4, hbase, hpure⟩ := Reader.bind_eq_ok h
      cases hbase
      cases hpure
      obtain ⟨hlength, hall, -⟩ := rest_of_times htimes
      refine ⟨?_, List.forall_mem_map.mpr fun d hd => ?_⟩
      · rw [List.length_map, hlength]
        exact (nat_eq_ok hcount).1
      · rw [Int.add_comm, Int.add_sub_cancel]
        exact fitsWord_signed (hall d hd)

theorem RawInstruction.encoded_of_read {raw : RawInstruction}
    (h : RawInstruction.read i = (.ok raw, next)) : raw.Encoded := by
  obtain ⟨-, -, mid, -, hoperand⟩ := parts_of_read h
  refine ⟨(read_eq_ok h).2.2, ?_, size_of_read h⟩
  rw [← (next_of_read h).2.1]
  exact OperandKind.holds_of_read hoperand

theorem Stream.Run.spells {raws : List RawInstruction} (h : Run i raws) :
    Spells i.pos raws i.rest := by
  induction h with
  | @done i hrest =>
      rw [hrest]
      exact .nil _
  | @step i next raw raws hread _ ih =>
      obtain ⟨hoffset, hstop, -⟩ := RawInstruction.next_of_read hread
      rw [hstop] at ih
      rw [RawInstruction.rest_of_read hread, ← hoffset]
      exact .cons (RawInstruction.encoded_of_read hread) ih

end

namespace OperandKind

variable {pos : Nat}

/-- An operand of the shape of its opcode is read from its bytes. -/
theorem readsAt_bytes {op : Opcode} {operand : Operand Int} {stop : Nat}
    (hshape : operand.hasShape op.operand = true) (hholds : op.operand.Holds stop operand)
    (hstop : pos + operand.size op = stop) (start : Nat) :
    ReadsAt (op.operand.read start) pos (op.operand.bytes stop operand) operand := by
  cases operand with
  | none =>
      rw [Operand.hasShape_none_iff] at hshape
      rw [hshape]
      exact readsAt_pure _ _
  | immediate v =>
      rw [Operand.hasShape_immediate_iff] at hshape
      rw [← hshape]
      exact v.readsAt_read start pos
  | token t =>
      rw [Operand.hasShape_token_iff] at hshape
      rw [hshape]
      refine (readsAt_nat pos t.value.toNat_lt).bind_nil ?_
      rw [UInt32.ofNat_toNat]
      exact readsAt_pure _ _
  | target t =>
      change pos + op.operand.size?.getD 0 = stop at hstop
      rw [Operand.hasShape_target_iff] at hshape
      rcases hshape with hkind | hkind
      · rw [hkind] at hholds hstop ⊢
        obtain ⟨hlow, hhigh⟩ := Layout.bounds_of_fitsByte hholds
        subst hstop
        exact Layout.readsAt_displacement hlow hhigh
      · rw [hkind] at hholds hstop ⊢
        obtain ⟨hlow, hhigh⟩ := Layout.bounds_of_fitsWord hholds
        subst hstop
        exact Layout.readsAt_displacement hlow hhigh
  | switch ts =>
      rw [Operand.hasShape_switch_iff] at hshape
      rw [hshape] at hholds ⊢
      obtain ⟨hcount, hfits⟩ := hholds
      refine (readsAt_nat pos hcount).bind (readsAt_require_bind ?_ ?_)
      · exact Nat.le_of_eq (Layout.length_table stop ts).symm
      · refine Layout.readsAt_table ?_ hfits
        rw [Bytes.length_ofNat, Nat.add_assoc]
        exact hstop

end OperandKind

theorem RawInstruction.Encoded.length_bytes {raw : RawInstruction} (h : raw.Encoded) :
    raw.bytes.length = raw.size :=
  Nat.add_left_cancel ((RawInstruction.length_bytes h.shape).trans h.size.symm)

theorem RawInstruction.Encoded.readsAt {raw : RawInstruction} (h : raw.Encoded) :
    ReadsAt RawInstruction.read raw.offset raw.bytes raw := by
  have hopcode : raw.offset + raw.opcode.bytes.length + raw.operand.size raw.opcode
      = raw.stop := by
    rw [raw.opcode.length_bytes, stop, Nat.add_assoc]
  refine readsAt_position_bind ((Opcode.readsAt_read _ _).bind ?_)
  refine (OperandKind.readsAt_bytes h.shape h.holds hopcode raw.offset).bind_nil
    (readsAt_position_bind ?_)
  have hsize : raw.stop - raw.offset = raw.size := by
    rw [← h.size, Nat.add_sub_cancel_left]
  rw [OperandKind.length_bytes h.shape, hopcode, hsize]
  exact readsAt_pure _ _

namespace Stream

theorem Spells.itemsAt {first : Nat} {raws : List RawInstruction} {code : Bytes}
    (h : Spells first raws code) :
    ItemsAt RawInstruction.read first (raws.map RawInstruction.bytes) raws ∧
      (raws.map RawInstruction.bytes).flatten = code := by
  induction h with
  | nil first => exact ⟨.nil first, rfl⟩
  | @cons raw raws code encoded _ ih =>
      obtain ⟨hitems, hcode⟩ := ih
      rw [List.map_cons, List.flatten_cons, hcode]
      refine ⟨.cons encoded.readsAt ?_, rfl⟩
      rwa [RawInstruction.length_bytes encoded.shape]

/-- A stream is decoded from the code that spells it, and from no other. -/
theorem decode_eq_ok_iff {code : Bytes} {raws : List RawInstruction} :
    decode code = .ok raws ↔ Spells 0 raws code := by
  constructor
  · exact fun h => (run_decode h).spells
  · intro h
    obtain ⟨hitems, hcode⟩ := h.itemsAt
    rw [decode, Input.ofBytes, ← hcode, readAll_of_itemsAt hitems]
    rfl

end Stream

namespace Stream

/-- The instructions of a stream with the given opcodes and operands: the first stands at the offset
`first`, every other one where the one before it ends. -/
def place (first : Nat) : List (Opcode × Operand Int) → List RawInstruction
  | [] => []
  | (opcode, operand) :: parts =>
    let size := opcode.size + operand.size opcode
    ⟨first, size, opcode, operand⟩ :: place (first + size) parts

/-- The sum of the sizes of the instructions. -/
def size : List RawInstruction → Nat
  | [] => 0
  | raw :: raws => raw.size + size raws

section

variable {first : Nat} {raws : List RawInstruction} {code : Bytes}

theorem Spells.encoded (h : Spells first raws code) : ∀ raw ∈ raws, raw.Encoded := by
  induction h with
  | nil first => exact fun _ hraw => (List.not_mem_nil hraw).elim
  | cons encoded _ ih => exact List.forall_mem_cons.mpr ⟨encoded, ih⟩

theorem Spells.offset_eq (h : Spells first raws code) {k : Nat} {raw : RawInstruction}
    (hraw : raws[k]? = some raw) : raw.offset = first + size (raws.take k) := by
  induction h generalizing k with
  | nil first => cases hraw
  | @cons head raws code encoded _ ih =>
      cases k with
      | zero =>
          cases hraw
          rfl
      | succ k =>
          rw [List.getElem?_cons_succ] at hraw
          rw [ih hraw, ← encoded.size, Nat.add_assoc, List.take_succ_cons, size]

/-- No instruction reaches past the end of the code. -/
theorem Spells.end_le (h : Spells first raws code) :
    ∀ raw ∈ raws, raw.offset + raw.size ≤ first + code.length := by
  induction h with
  | nil first => exact fun _ hraw => (List.not_mem_nil hraw).elim
  | @cons head raws code encoded _ ih =>
      rw [List.length_append, encoded.length_bytes]
      refine List.forall_mem_cons.mpr ⟨by omega, fun raw hraw => ?_⟩
      have htail := ih raw hraw
      rw [← encoded.size] at htail
      omega

theorem spells_place {parts : List (Opcode × Operand Int)}
    (hshape : ∀ part ∈ parts, part.2.hasShape part.1.operand = true)
    (hholds : ∀ raw ∈ place first parts, raw.opcode.operand.Holds raw.stop raw.operand) :
    Spells first (place first parts) ((place first parts).flatMap RawInstruction.bytes) := by
  induction parts generalizing first with
  | nil => exact .nil first
  | cons part parts ih =>
      obtain ⟨hpart, hparts⟩ := List.forall_mem_cons.mp hshape
      obtain ⟨hhead, htail⟩ := List.forall_mem_cons.mp hholds
      exact .cons ⟨hpart, hhead, rfl⟩ (ih hparts htail)

end

end Stream

/-- What a layout emits is the encodings of its instructions where they stand. -/
theorem Layout.bytes_of_emit {code : List (Instruction Nat)} {stored : Bytes}
    (hshape : ∀ i ∈ code, i.operand.hasShape i.opcode.operand = true)
    (h : (ofCode code).emit = .ok stored) :
    (code.zipIdx.map fun (i, position) => (ofCode code).raw position i).flatMap
      RawInstruction.bytes = stored :=
  Stream.bytes_of_decode (decode_emit hshape h)

namespace Stream

/-- Decoding is the inverse of serializing. The instructions of decoded code stand at the running
sums of their sizes, none ends after the code, so that 32 bits hold their offsets if they hold its
size, and they serialize to the code. Opcodes with operands of their shapes, with displacements and
a table size that fit their fields, are decoded from their serialization. The serialization is what
a layout emits. -/
theorem decode_inverse :
    (∀ code raws, decode code = .ok raws →
      (∀ k raw, raws[k]? = some raw → raw.offset = size (raws.take k) ∧
        raw.size = raw.bytes.length ∧ raw.offset + raw.size ≤ code.length ∧ raw.Encoded) ∧
      raws.flatMap RawInstruction.bytes = code) ∧
    (∀ parts, (∀ part ∈ parts, part.2.hasShape part.1.operand = true) →
      (∀ raw ∈ place 0 parts, raw.opcode.operand.Holds raw.stop raw.operand) →
      decode ((place 0 parts).flatMap RawInstruction.bytes) = .ok (place 0 parts)) ∧
    ∀ code stored, (∀ i ∈ code, i.operand.hasShape i.opcode.operand = true) →
      (Layout.ofCode code).emit = .ok stored →
      (code.zipIdx.map fun (i, position) => (Layout.ofCode code).raw position i).flatMap
        RawInstruction.bytes = stored := by
  refine ⟨fun code raws h => ?_, fun parts hshape hholds => ?_,
    fun code stored => Layout.bytes_of_emit⟩
  · have hspells := decode_eq_ok_iff.mp h
    refine ⟨fun k raw hraw => ?_, bytes_of_decode h⟩
    have hmem := List.mem_of_getElem? hraw
    have hoffset := hspells.offset_eq hraw
    have hend := hspells.end_le raw hmem
    rw [Nat.zero_add] at hoffset hend
    have hencoded := hspells.encoded raw hmem
    exact ⟨hoffset, hencoded.length_bytes.symm, hend, hencoded⟩
  · exact decode_eq_ok_iff.mpr (spells_place hshape hholds)

/-- A switch with a case in front of the code, one at its own start and one after the table; a
short branch as far back as its byte reaches, a literal that is no number, an opcode of two bytes
and a branch back to the start. -/
def jumps : List (Opcode × Operand Int) :=
  [(.switch, .switch [-5, 0, 17]), (.leaveS, .target (-109)),
    (.ldcR4, .immediate (.float32 0x7FA00001)), (.ceq, .none), (.br, .target 0)]

def jumpBytes : Bytes :=
  [0x45, 3, 0, 0, 0, 0xEA, 0xFF, 0xFF, 0xFF, 0xEF, 0xFF, 0xFF, 0xFF, 0, 0, 0, 0,
    0xDE, 0x80, 0x22, 1, 0, 0xA0, 0x7F, 0xFE, 1, 0x38, 0xE1, 0xFF, 0xFF, 0xFF]

theorem decode_inverse_jumps :
    (∀ part ∈ jumps, part.2.hasShape part.1.operand = true) ∧
      (∀ raw ∈ place 0 jumps, raw.opcode.operand.Holds raw.stop raw.operand) ∧
      decode jumpBytes = .ok (place 0 jumps) ∧
      (∀ raw, (place 0 jumps)[4]? = some raw → raw.offset = size ((place 0 jumps).take 4)) ∧
      (Layout.ofCode [⟨.nop, .none, none⟩, ⟨.brS, .target 0, none⟩]).emit = .ok [0, 0x2B, 0xFD] ∧
      [RawInstruction.mk 0 1 .nop .none, ⟨1, 2, .brS, .target 0⟩].flatMap RawInstruction.bytes
        = [0, 0x2B, 0xFD] := by
  obtain ⟨hserialize, hdecode, hemit⟩ := decode_inverse
  have hshape : ∀ part ∈ jumps, part.2.hasShape part.1.operand = true := by decide
  have hholds : ∀ raw ∈ place 0 jumps, raw.opcode.operand.Holds raw.stop raw.operand := by decide
  have hbytes : (place 0 jumps).flatMap RawInstruction.bytes = jumpBytes := by decide
  have hjumps := hdecode jumps hshape hholds
  rw [hbytes] at hjumps
  have hloop : (Layout.ofCode [⟨.nop, .none, none⟩, ⟨.brS, .target 0, none⟩]).emit
      = .ok [0, 0x2B, 0xFD] := by decide +kernel
  exact ⟨hshape, hholds, hjumps, fun raw hraw => ((hserialize _ _ hjumps).1 4 raw hraw).1, hloop,
    hemit _ _ (by decide) hloop⟩

end Stream

end CilEdit
