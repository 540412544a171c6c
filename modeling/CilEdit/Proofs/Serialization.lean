import CilEdit.Proofs.Decoding

namespace CilEdit

open Reader

theorem Bytes.ofInt_signed {width n : Nat} (h : n < capacity width) :
    ofInt width (signed width n) = ofNat width n := by
  have hmod : signed width n % capacity width = n := by
    unfold signed
    split
    · exact Int.emod_eq_of_lt (Int.natCast_nonneg n) (Int.ofNat_lt.mpr h)
    · rw [Int.sub_emod_right, Int.emod_eq_of_lt (Int.natCast_nonneg n) (Int.ofNat_lt.mpr h)]
  rw [ofInt, hmod, Int.toNat_natCast]

/-- The bytes of an operand that ends at `stop`. -/
def OperandKind.bytes (kind : OperandKind) (stop : Nat) : Operand Int → Bytes
  | .none => []
  | .immediate v => v.bytes
  | .token t => Bytes.ofNat 4 t.value.toNat
  | .target t => Bytes.ofInt (if kind = .shortTarget then 1 else 4) (t - stop)
  | .switch ts => Bytes.ofNat 4 ts.length ++ ts.flatMap fun t => Bytes.ofInt 4 (t - stop)

/-- The offset after an instruction. -/
def RawInstruction.stop (raw : RawInstruction) : Nat :=
  raw.offset + (raw.opcode.size + raw.operand.size raw.opcode)

/-- The bytes of an instruction that stands at its offset. -/
def RawInstruction.bytes (raw : RawInstruction) : Bytes :=
  raw.opcode.bytes ++ raw.opcode.operand.bytes raw.stop raw.operand

theorem OperandKind.length_bytes {op : Opcode} {operand : Operand Int}
    (hshape : operand.hasShape op.operand = true) (stop : Nat) :
    (op.operand.bytes stop operand).length = operand.size op := by
  cases operand with
  | none =>
      rw [Operand.hasShape_none_iff] at hshape
      simp only [Operand.size, hshape]
      rfl
  | immediate v =>
      rw [Operand.hasShape_immediate_iff] at hshape
      simp only [Operand.size, ← hshape, v.length_bytes]
      rfl
  | token t =>
      rw [Operand.hasShape_token_iff] at hshape
      simp only [Operand.size, hshape]
      exact Bytes.length_ofNat _ _
  | target t =>
      rw [Operand.hasShape_target_iff] at hshape
      rcases hshape with hkind | hkind
      all_goals
        simp only [Operand.size, hkind]
        exact Bytes.length_ofNat _ _
  | switch ts =>
      rw [Operand.size, bytes, List.length_append, Bytes.length_ofNat, Layout.length_table]

theorem RawInstruction.length_bytes {raw : RawInstruction}
    (hshape : raw.operand.hasShape raw.opcode.operand = true) :
    raw.offset + raw.bytes.length = raw.stop := by
  rw [bytes, List.length_append, Opcode.length_bytes, OperandKind.length_bytes hshape, stop]

section

variable {i next : Input}

theorem Opcode.bytes_of_readValue {first : UInt8} {value : Nat}
    (h : readValue first i = (.ok value, next)) {op : Opcode} (hop : op.value.toNat = value) :
    first :: i.rest = op.bytes ++ next.rest := by
  have hfirst := first.toNat_lt
  rw [readValue] at h
  by_cases hmark : first = wideMark
  · rw [if_pos hmark] at h
    obtain ⟨second, last, hsecond, hpure⟩ := Reader.bind_eq_ok h
    cases hpure
    have hlow := second.toNat_lt
    have hwide : op.isWide = true := by
      rw [isWide, decide_eq_true_eq, UInt16.lt_iff_toNat_lt, hop]
      change 255 < _
      omega
    have hhigh : UInt8.ofNat (op.value.toNat / 256) = first := by
      rw [value_of_isWide hwide, hmark]
      rfl
    have hsame : UInt8.ofNat op.value.toNat = second := by
      rw [hop, ← UInt8.toNat_inj, UInt8.toNat_ofNat']
      omega
    rw [byte_eq_ok hsecond, bytes, if_pos hwide, hhigh, hsame]
    rfl
  · rw [if_neg hmark] at h
    cases h
    have hplain : ¬ op.isWide = true := by
      rw [isWide, decide_eq_true_eq, UInt16.lt_iff_toNat_lt, hop]
      change ¬ 255 < _
      omega
    rw [bytes, if_neg hplain, hop, UInt8.ofNat_toNat]
    rfl

theorem Opcode.gives_readValue (first : UInt8) : (readValue first).Gives (· < UInt16.size) := by
  have hfirst : first.toNat < 256 := first.toNat_lt
  unfold readValue
  split
  · refine gives_bind fun second => gives_pure ?_
    have hsecond : second.toNat < 256 := second.toNat_lt
    change _ < 65536
    omega
  · refine gives_pure ?_
    change _ < 65536
    omega

theorem Opcode.rest_of_read {op : Opcode} (h : Opcode.read i = (.ok op, next)) :
    i.rest = op.bytes ++ next.rest := by
  obtain ⟨start, at0, hstart, h⟩ := Reader.bind_eq_ok h
  cases hstart
  obtain ⟨first, at1, hfirst, h⟩ := Reader.bind_eq_ok h
  obtain ⟨value, at2, hvalue, h⟩ := Reader.bind_eq_ok h
  cases hfound : ofValue? (UInt16.ofNat value) with
  | none =>
      simp only [hfound] at h
      cases h
  | some found =>
      simp only [hfound] at h
      cases h
      have hsmall : value < UInt16.size := gives_readValue first _ _ _ hvalue
      rw [byte_eq_ok hfirst]
      apply bytes_of_readValue hvalue
      rw [value_of_ofValue? hfound, UInt16.toNat_ofNat_of_lt' hsmall]

theorem Reader.rest_of_iterate {width count : Nat} {seen items : List Nat}
    (h : iterate (fun items => do return (← nat width) :: items) count seen i = (.ok items, next)) :
    ∃ read : List Nat, items = read.reverse ++ seen ∧ read.length = count ∧
      (∀ n ∈ read, n < Bytes.capacity width) ∧
      i.rest = read.flatMap (Bytes.ofNat width) ++ next.rest := by
  induction count generalizing seen i with
  | zero =>
      cases h
      exact ⟨[], rfl, rfl, fun _ hn => (List.not_mem_nil hn).elim, rfl⟩
  | succ count ih =>
      obtain ⟨mid, at1, hmid, h⟩ := Reader.bind_eq_ok h
      obtain ⟨n, at2, hn, hpure⟩ := Reader.bind_eq_ok hmid
      cases hpure
      obtain ⟨hlt, block, -, -, hrest, hblock⟩ := nat_eq_ok hn
      obtain ⟨read, rfl, hlength, hall, hlast⟩ := ih h
      refine ⟨n :: read, ?_, congrArg Nat.succ hlength, List.forall_mem_cons.mpr ⟨hlt, hall⟩, ?_⟩
      · rw [List.reverse_cons, List.append_assoc]
        rfl
      · rw [hrest, hlast, List.flatMap_cons, hblock, List.append_assoc]

theorem Reader.rest_of_times {width count : Nat} {items : List Nat}
    (h : times (nat width) count i = (.ok items, next)) :
    items.length = count ∧ (∀ n ∈ items, n < Bytes.capacity width) ∧
      i.rest = items.flatMap (Bytes.ofNat width) ++ next.rest := by
  obtain ⟨reversed, last, hloop, hpure⟩ := Reader.bind_eq_ok h
  cases hpure
  obtain ⟨read, rfl, hlength, hall, hrest⟩ := rest_of_iterate hloop
  rw [List.append_nil, List.reverse_reverse]
  exact ⟨hlength, hall, hrest⟩

theorem OperandKind.rest_of_read {start : Nat} {kind : OperandKind} {operand : Operand Int}
    (h : kind.read start i = (.ok operand, next)) :
    i.rest = kind.bytes next.pos operand ++ next.rest := by
  cases kind with
  | none =>
      cases h
      rfl
  | int8 | uint8 =>
      obtain ⟨x, last, hx, hpure⟩ := Reader.bind_eq_ok h
      cases hpure
      rw [byte_eq_ok hx]
      simp [bytes, Immediate.bytes]
  | uint16 | int32 | int64 | float32 | float64 | token =>
      obtain ⟨n, last, hn, hpure⟩ := Reader.bind_eq_ok h
      cases hpure
      obtain ⟨hlt, block, -, -, hrest, hblock⟩ := nat_eq_ok hn
      have hmod := fun width => congrArg (Bytes.ofNat width) (Nat.mod_eq_of_lt hlt)
      rw [hrest, ← hblock]
      simpa [bytes, Immediate.bytes, Bytes.capacity] using (hmod _).symm
  | shortTarget | target =>
      obtain ⟨n, last, hn, h⟩ := Reader.bind_eq_ok h
      obtain ⟨pos, last', hpos, hpure⟩ := Reader.bind_eq_ok h
      cases hpos
      cases hpure
      obtain ⟨hlt, block, -, -, hrest, hblock⟩ := nat_eq_ok hn
      rw [hrest, ← hblock, bytes, Int.add_comm, Int.add_sub_cancel]
      exact congrArg (· ++ next.rest) (Bytes.ofInt_signed hlt).symm
  | switch =>
      obtain ⟨count, at1, hcount, h⟩ := Reader.bind_eq_ok h
      obtain ⟨_, at2, hrequire, h⟩ := Reader.bind_eq_ok h
      obtain ⟨displacements, at3, htimes, h⟩ := Reader.bind_eq_ok h
      obtain ⟨base, at4, hbase, hpure⟩ := Reader.bind_eq_ok h
      cases hbase
      cases hpure
      cases require_eq_ok hrequire
      obtain ⟨hlt, block, -, -, hrest, hblock⟩ := nat_eq_ok hcount
      obtain ⟨hlength, hall, htable⟩ := rest_of_times htimes
      have hcases : (displacements.map fun d => (next.pos : Int) + Bytes.signed 4 d).flatMap
          (fun t => Bytes.ofInt 4 (t - next.pos)) = displacements.flatMap (Bytes.ofNat 4) := by
        rw [List.flatMap_map]
        refine List.flatMap_congr fun d hd => ?_
        rw [Int.add_comm, Int.add_sub_cancel, Bytes.ofInt_signed (hall d hd)]
      rw [hrest, htable, ← hblock, bytes, List.length_map, hlength, hcases,
        List.append_assoc]

theorem Opcode.pos_of_read {op : Opcode} (h : Opcode.read i = (.ok op, next)) :
    next.pos = i.pos + op.size := by
  have htotal := pos_add_length RawInstruction.forward_readOpcode h
  rw [rest_of_read h, List.length_append, length_bytes] at htotal
  omega

theorem OperandKind.pos_of_read {start : Nat} {op : Opcode} {operand : Operand Int}
    (h : op.operand.read start i = (.ok operand, next)) : next.pos = i.pos + operand.size op := by
  have htotal := pos_add_length (RawInstruction.forward_readOperand start op.operand) h
  rw [rest_of_read h, List.length_append, length_bytes (gives_read start _ _ _ _ h)] at htotal
  omega

theorem fitsByte_signed {n : Nat} (h : n < Bytes.capacity 1) :
    Layout.fitsByte (Bytes.signed 1 n) = true := by
  rw [Layout.capacity_one] at h
  rw [Layout.fitsByte, Bytes.signed, Layout.capacity_one]
  split <;> simp <;> omega

/-- The displacement of a short branch fits its byte. -/
def RawInstruction.Short (raw : RawInstruction) : Prop :=
  raw.opcode.operand = .shortTarget →
    ∃ d, raw.operand = .target (raw.stop + d) ∧ Layout.fitsByte d = true

theorem OperandKind.fitsByte_of_read {start : Nat} {operand : Operand Int}
    (h : shortTarget.read start i = (.ok operand, next)) :
    ∃ d, operand = .target (next.pos + d) ∧ Layout.fitsByte d = true := by
  obtain ⟨n, last, hn, h⟩ := Reader.bind_eq_ok h
  obtain ⟨pos, last', hpos, hpure⟩ := Reader.bind_eq_ok h
  cases hpos
  cases hpure
  exact ⟨_, rfl, fitsByte_signed (nat_eq_ok hn).1⟩

theorem RawInstruction.next_of_read {raw : RawInstruction}
    (h : RawInstruction.read i = (.ok raw, next)) :
    raw.offset = i.pos ∧ next.pos = raw.stop ∧ raw.Short := by
  obtain ⟨hoffset, -, mid, hopcode, hoperand⟩ := parts_of_read h
  have hstop : next.pos = raw.stop := by
    rw [OperandKind.pos_of_read hoperand, Opcode.pos_of_read hopcode, stop, hoffset, Nat.add_assoc]
  refine ⟨hoffset, hstop, fun hkind => ?_⟩
  rw [hkind] at hoperand
  rw [← hstop]
  exact OperandKind.fitsByte_of_read hoperand

theorem RawInstruction.rest_of_read {raw : RawInstruction}
    (h : RawInstruction.read i = (.ok raw, next)) : i.rest = raw.bytes ++ next.rest := by
  obtain ⟨-, -, mid, hopcode, hoperand⟩ := parts_of_read h
  rw [Opcode.rest_of_read hopcode, OperandKind.rest_of_read hoperand, bytes, ← (next_of_read h).2.1,
    List.append_assoc]

theorem RawInstruction.length_bytes_of_read {raw : RawInstruction}
    (h : RawInstruction.read i = (.ok raw, next)) : raw.offset + raw.bytes.length = raw.stop :=
  length_bytes (read_eq_ok h).2.2

theorem RawInstruction.size_of_read {raw : RawInstruction}
    (h : RawInstruction.read i = (.ok raw, next)) : raw.offset + raw.size = raw.stop := by
  obtain ⟨hoffset, hsize, -⟩ := parts_of_read h
  rw [hoffset, hsize, ← (next_of_read h).2.1]
  exact Nat.add_sub_of_le (Nat.le_of_lt (read_eq_ok h).2.1)

end

namespace Stream

theorem Run.bytes {i : Input} {raws : List RawInstruction} (h : Run i raws) :
    raws.flatMap RawInstruction.bytes = i.rest := by
  induction h with
  | done hrest => exact hrest.symm
  | step hread _ ih => rw [List.flatMap_cons, ih, ← RawInstruction.rest_of_read hread]

theorem Run.sizes {i : Input} {raws : List RawInstruction} (h : Run i raws) :
    ∀ raw ∈ raws, raw.offset + raw.size = raw.stop := by
  induction h with
  | done _ => exact fun _ hraw => (List.not_mem_nil hraw).elim
  | step hread _ ih => exact List.forall_mem_cons.mpr ⟨RawInstruction.size_of_read hread, ih⟩

theorem Run.length_eq {i : Input} {raws : List RawInstruction} {code : List (Instruction Nat)}
    (h : Run i raws)
    (hsizes : List.Forall₂ (fun raw i => raw.stop = raw.offset + i.size) raws code) :
    i.rest.length = Layout.codeSize code := by
  induction h generalizing code with
  | done hrest =>
      cases hsizes
      rw [hrest]
      rfl
  | @step i next raw raws hread _ ih =>
      obtain ⟨j, code, hsize, hrest, rfl⟩ := List.forall₂_cons_left_iff.mp hsizes
      obtain ⟨hoffset, hstop, -⟩ := RawInstruction.next_of_read hread
      have htotal := pos_add_length RawInstruction.forward_read hread
      have htail := ih hrest
      rw [Layout.codeSize]
      omega

/-- Code is the encodings of its instructions. -/
theorem bytes_of_decode {code : Bytes} {raws : List RawInstruction} (h : decode code = .ok raws) :
    raws.flatMap RawInstruction.bytes = code :=
  (run_decode h).bytes

theorem decode_inj {code code' : Bytes} {raws : List RawInstruction}
    (h : decode code = .ok raws) (h' : decode code' = .ok raws) : code = code' :=
  (bytes_of_decode h).symm.trans (bytes_of_decode h')

end Stream

end CilEdit
