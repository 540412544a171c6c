import CilEdit.Code.Stream
import CilEdit.Proofs.Reading
import CilEdit.Proofs.Settling

namespace CilEdit

open Reader

namespace Operand

variable {τ σ : Type}

/-- Whether the operand has the form that a kind of operands encodes. -/
def hasShape (operand : Operand τ) (kind : OperandKind) : Bool :=
  match kind, operand with
  | .none, .none => true
  | .shortTarget, .target _ | .target, .target _ => true
  | .switch, .switch _ => true
  | .token, .token _ => true
  | kind, .immediate v => v.kind == kind
  | _, _ => false

@[simp]
theorem hasShape_none_iff {kind : OperandKind} :
    (none : Operand τ).hasShape kind = true ↔ kind = .none := by
  cases kind <;> simp [hasShape]

@[simp]
theorem hasShape_immediate_iff {kind : OperandKind} {v : Immediate} :
    (immediate v : Operand τ).hasShape kind = true ↔ v.kind = kind := by
  cases kind <;> simp [hasShape]

@[simp]
theorem fits_immediate_iff {opcode : Opcode} {v : Immediate} :
    (immediate v : Operand τ).fits opcode = true ↔ v.kind = opcode.operand := by
  unfold fits
  generalize opcode.operand = kind
  cases kind <;> simp

@[simp]
theorem hasShape_token_iff {kind : OperandKind} {t : Token} :
    (token t : Operand τ).hasShape kind = true ↔ kind = .token := by
  cases kind <;> simp [hasShape]

@[simp]
theorem hasShape_target_iff {kind : OperandKind} {t : τ} :
    (target t).hasShape kind = true ↔ kind = .shortTarget ∨ kind = .target := by
  cases kind <;> simp [hasShape]

@[simp]
theorem hasShape_switch_iff {kind : OperandKind} {ts : List τ} :
    (switch ts).hasShape kind = true ↔ kind = .switch := by
  cases kind <;> simp [hasShape]

theorem exists_target {operand : Operand τ} (h : operand.hasShape .shortTarget = true) :
    ∃ t, operand = .target t := by
  cases operand with
  | target t => exact ⟨t, rfl⟩
  | none | token t | switch ts => cases h
  | immediate v => cases v <;> cases h

theorem hasShape_of_fits {operand : Operand τ} {opcode : Opcode}
    (h : operand.fits opcode = true) : operand.hasShape opcode.operand = true := by
  unfold fits at h
  unfold hasShape
  generalize opcode.operand = kind at h ⊢
  cases kind <;> cases operand <;> first | exact h | rfl

@[simp]
theorem hasShape_map (f : τ → σ) (operand : Operand τ) (kind : OperandKind) :
    (operand.map f).hasShape kind = operand.hasShape kind := by
  cases kind <;> cases operand <;> rfl

theorem hasShape_of_traverse {f : τ → Except Error σ} {operand : Operand τ} {found : Operand σ}
    (h : operand.traverse f = .ok found) (kind : OperandKind) :
    found.hasShape kind = operand.hasShape kind := by
  cases operand with
  | none | immediate v | token t =>
      cases h
      cases kind <;> rfl
  | target t =>
      obtain ⟨t', -, rfl⟩ := map_eq_ok.mp h
      cases kind <;> rfl
  | switch ts =>
      obtain ⟨ts', -, rfl⟩ := map_eq_ok.mp h
      cases kind <;> rfl

end Operand

theorem Layout.hasShape_of_stretched {i j : Instruction Nat} (h : Layout.Stretched i j)
    (hi : i.operand.hasShape i.opcode.operand = true) :
    j.operand.hasShape j.opcode.operand = true := by
  rcases h with rfl | ⟨hshort, rfl⟩
  · exact hi
  · rw [Layout.operand_lengthen hshort]
    rw [hshort] at hi
    obtain ⟨t, ht⟩ := Operand.exists_target hi
    change i.operand.hasShape .target = true
    rw [ht]
    rfl

namespace Opcode

theorem all_mark : (all.all fun op =>
    if op.isWide then op.value.toNat / 256 == 0xFE
    else op.value.toNat < 0xFE) = true := by
  decide +kernel

theorem value_of_isWide {op : Opcode} (h : op.isWide = true) : op.value.toNat / 256 = 0xFE := by
  have hall := List.all_eq_true.mp all_mark op (mem_all op)
  rw [if_pos h] at hall
  exact beq_iff_eq.mp hall

theorem value_lt_of_not_isWide {op : Opcode} (h : op.isWide = false) : op.value.toNat < 0xFE := by
  have hall := List.all_eq_true.mp all_mark op (mem_all op)
  rw [if_neg (Bool.eq_false_iff.mp h)] at hall
  exact of_decide_eq_true hall

theorem readsAt_read (op : Opcode) (pos : Nat) : ReadsAt read pos op.bytes op := by
  refine readsAt_position_bind ?_
  have hvalue : ∀ {value : Nat}, value = op.value.toNat →
      ofValue? (UInt16.ofNat value) = some op := by
    rintro _ rfl
    rw [UInt16.ofNat_toNat, ofValue?_value]
  unfold bytes
  by_cases hwide : op.isWide
  · have hmark : UInt8.ofNat (op.value.toNat / 256) = wideMark := by
      rw [value_of_isWide hwide]
      rfl
    have hlow : 0xFE00 + (UInt8.ofNat op.value.toNat).toNat = op.value.toNat := by
      have hhigh := value_of_isWide hwide
      rw [UInt8.toNat_ofNat']
      omega
    simp only [if_pos hwide, hmark]
    rw [← List.singleton_append]
    refine (readsAt_byte pos wideMark).bind ?_
    simp only [readValue, if_true]
    refine ReadsAt.bind_nil (a := op.value.toNat) ((readsAt_byte _ _).bind_nil ?_) ?_
    · rw [hlow]
      exact readsAt_pure _ _
    · rw [hvalue rfl]
      exact readsAt_pure _ _
  · have hsmall := value_lt_of_not_isWide (Bool.not_eq_true _ ▸ hwide)
    have hbyte : (UInt8.ofNat op.value.toNat).toNat = op.value.toNat :=
      UInt8.toNat_ofNat_of_lt' (Nat.lt_trans hsmall (by decide))
    have hplain : UInt8.ofNat op.value.toNat ≠ wideMark := by
      intro heq
      rw [heq] at hbyte
      rw [← hbyte] at hsmall
      exact absurd hsmall (by decide)
    simp only [if_neg hwide]
    refine (readsAt_byte pos _).bind_nil ?_
    simp only [readValue, if_neg hplain]
    refine (readsAt_pure _ _).bind_nil ?_
    rw [hvalue hbyte]
    exact readsAt_pure _ _

theorem length_bytes (op : Opcode) : op.bytes.length = op.size := by
  unfold bytes size
  split <;> rfl

end Opcode

theorem Immediate.readsAt_read (v : Immediate) (start pos : Nat) :
    ReadsAt (v.kind.read start) pos v.bytes (.immediate v) := by
  cases v with
  | int8 v =>
      refine (readsAt_byte pos _).bind_nil ?_
      rw [Int8.toInt8_toUInt8]
      exact readsAt_pure _ _
  | uint8 v => exact (readsAt_byte pos v).bind_nil (readsAt_pure _ _)
  | uint16 v =>
      refine (readsAt_nat pos v.toNat_lt).bind_nil ?_
      rw [UInt16.ofNat_toNat]
      exact readsAt_pure _ _
  | int32 v =>
      refine (readsAt_nat pos v.toUInt32.toNat_lt).bind_nil ?_
      rw [UInt32.ofNat_toNat, Int32.toInt32_toUInt32]
      exact readsAt_pure _ _
  | int64 v =>
      refine (readsAt_nat pos v.toUInt64.toNat_lt).bind_nil ?_
      rw [UInt64.ofNat_toNat, Int64.toInt64_toUInt64]
      exact readsAt_pure _ _
  | float32 b =>
      refine (readsAt_nat pos b.toNat_lt).bind_nil ?_
      rw [UInt32.ofNat_toNat]
      exact readsAt_pure _ _
  | float64 b =>
      refine (readsAt_nat pos b.toNat_lt).bind_nil ?_
      rw [UInt64.ofNat_toNat]
      exact readsAt_pure _ _

theorem Immediate.length_bytes (v : Immediate) : v.kind.size? = some v.bytes.length := by
  cases v <;> simp [Immediate.kind, OperandKind.size?, Immediate.bytes]

namespace Layout

variable {l : Layout} {position : Nat} {i : Instruction Nat} {stored : Bytes}

theorem wordBytes_eq_ok {d : Int} {failure : Malformed} (h : wordBytes d failure = .ok stored) :
    fitsWord d = true ∧ stored = Bytes.ofInt 4 d := by
  unfold wordBytes at h
  split at h
  · rename_i hfits
    cases h
    exact ⟨hfits, rfl⟩
  · cases h

theorem capacity_one : Bytes.capacity 1 = 256 := rfl

theorem capacity_four : Bytes.capacity 4 = 4294967296 := rfl

theorem bounds_of_fitsByte {d : Int} (h : fitsByte d = true) :
    -(Bytes.capacity 1 : Int) ≤ 2 * d ∧ 2 * d < Bytes.capacity 1 := by
  simp only [fitsByte, Bool.and_eq_true, decide_eq_true_eq] at h
  rw [capacity_one]
  omega

theorem bounds_of_fitsWord {d : Int} (h : fitsWord d = true) :
    -(Bytes.capacity 4 : Int) ≤ 2 * d ∧ 2 * d < Bytes.capacity 4 := by
  simp only [fitsWord, Bool.and_eq_true, decide_eq_true_eq] at h
  rw [capacity_four]
  omega

theorem length_ofInt (width : Nat) (n : Int) : (Bytes.ofInt width n).length = width :=
  Bytes.length_ofNat _ _

/-- A displacement that fits its field leads back to its target. -/
theorem readsAt_displacement {width pos : Nat} {t : Int}
    (hlow : -(Bytes.capacity width : Int) ≤ 2 * (t - (pos + width : Nat)))
    (hhigh : 2 * (t - (pos + width : Nat)) < Bytes.capacity width) :
    ReadsAt (do
        let d ← nat width
        return Operand.target ((← Reader.position) + Bytes.signed width d)) pos
      (Bytes.ofInt width (t - (pos + width : Nat))) (.target t) := by
  have hcapacity : 0 < Bytes.capacity width := by omega
  refine (readsAt_nat pos (Bytes.toNat_lt_capacity hcapacity)).bind_nil (readsAt_position_bind ?_)
  rw [Bytes.signed_emod hlow hhigh, Bytes.length_ofNat, Int.add_comm, Int.sub_add_cancel]
  exact readsAt_pure _ _

theorem itemsAt_nat {width : Nat} (hwidth : 0 < Bytes.capacity width) (ds : List Int)
    (pos : Nat) : ItemsAt (nat width) pos (ds.map (Bytes.ofInt width))
      (ds.map fun d => (d % (Bytes.capacity width : Int)).toNat) := by
  induction ds generalizing pos with
  | nil => exact .nil pos
  | cons d ds ih => exact .cons (readsAt_nat pos (Bytes.toNat_lt_capacity hwidth)) (ih _)

theorem length_table (stop : Nat) (ts : List Int) :
    (ts.flatMap fun t => Bytes.ofInt 4 (t - stop)).length = 4 * ts.length := by
  rw [List.length_flatMap]
  simp [Bytes.ofInt, Nat.mul_comm]

/-- The same for the displacements of a switch. -/
theorem readsAt_table {pos stop : Nat} {ts : List Int} (hstop : pos + 4 * ts.length = stop)
    (hfits : ∀ t ∈ ts, fitsWord (t - stop) = true) :
    ReadsAt (do
        let displacements ← times (nat 4) ts.length
        let base ← Reader.position
        return Operand.switch (displacements.map fun d => base + Bytes.signed 4 d)) pos
      (ts.flatMap fun t => Bytes.ofInt 4 (t - stop)) (.switch ts) := by
  have hwidth : 0 < Bytes.capacity 4 := by decide
  have htimes := (itemsAt_nat hwidth (ts.map fun t => t - (stop : Int)) pos).readsAt_times
  rw [List.length_map, List.length_map, ← List.flatMap_def, List.flatMap_map] at htimes
  refine htimes.bind_nil (readsAt_position_bind ?_)
  have hback : ((ts.map fun t => t - (stop : Int)).map
      fun d => (d % (Bytes.capacity 4 : Int)).toNat).map
        (fun d => (stop : Int) + Bytes.signed 4 d) = ts := by
    rw [List.map_map, List.map_map]
    refine (List.map_congr_left fun t ht => ?_).trans (List.map_id ts)
    obtain ⟨hlow, hhigh⟩ := bounds_of_fitsWord (hfits t ht)
    rw [Function.comp_apply, Function.comp_apply, Bytes.signed_emod hlow hhigh, Int.add_comm,
      Int.sub_add_cancel, id_eq]
  rw [length_table, hstop, hback]
  exact readsAt_pure _ _

theorem words_eq_ok {ts : List Nat} {cases : List Bytes} {failure : Malformed}
    (hcases : ts.mapM (fun t => wordBytes (l.displacement position t) failure) = .ok cases) :
    (∀ t ∈ ts, fitsWord (l.displacement position t) = true) ∧
      cases.flatten = (ts.map fun t => (l.offset t : Int)).flatMap
        fun t => Bytes.ofInt 4 (t - l.offset (position + 1)) := by
  rw [mapM_eq_ok_iff] at hcases
  induction hcases with
  | nil => exact ⟨List.forall_mem_nil _, rfl⟩
  | cons hword _ ih =>
      obtain ⟨hfits, rfl⟩ := wordBytes_eq_ok hword
      refine ⟨List.forall_mem_cons.mpr ⟨hfits, ih.1⟩, ?_⟩
      rw [List.flatten_cons, ih.2]
      rfl

/-- What is stored for an operand of the form that a kind of operands encodes. -/
inductive Stores (l : Layout) (position : Nat) : OperandKind → Operand Nat → Bytes → Prop
  | none : Stores l position .none .none []
  | immediate (v : Immediate) : Stores l position v.kind (.immediate v) v.bytes
  | token (t : Token) : Stores l position .token (.token t) (Bytes.ofNat 4 t.value.toNat)
  | shortTarget {t : Nat} (fits : fitsByte (l.displacement position t) = true) :
      Stores l position .shortTarget (.target t) (Bytes.ofInt 1 (l.displacement position t))
  | target {t : Nat} (fits : fitsWord (l.displacement position t) = true) :
      Stores l position .target (.target t) (Bytes.ofInt 4 (l.displacement position t))
  | switch {ts : List Nat} {cases : List Bytes} {failure : Malformed}
      (count : ts.length < UInt32.size)
      (words : ts.mapM (fun t => wordBytes (l.displacement position t) failure) = .ok cases) :
      Stores l position .switch (.switch ts) (Bytes.ofNat 4 ts.length ++ cases.flatten)

theorem stores_of_operandBytes (hshape : i.operand.hasShape i.opcode.operand = true)
    (h : l.operandBytes position i = .ok stored) :
    Stores l position i.opcode.operand i.operand stored := by
  unfold operandBytes at h
  cases hoperand : i.operand with
  | none =>
      rw [hoperand, Operand.hasShape_none_iff] at hshape
      simp only [hoperand] at h
      cases h
      rw [hshape]
      exact .none
  | immediate v =>
      rw [hoperand, Operand.hasShape_immediate_iff] at hshape
      simp only [hoperand] at h
      cases h
      rw [← hshape]
      exact .immediate v
  | token t =>
      rw [hoperand, Operand.hasShape_token_iff] at hshape
      simp only [hoperand] at h
      cases h
      rw [hshape]
      exact .token t
  | target t =>
      rw [hoperand, Operand.hasShape_target_iff] at hshape
      simp only [hoperand] at h
      by_cases hshort : i.opcode.operand = .shortTarget
      · rw [if_pos hshort] at h
        split at h
        · rename_i hfits
          cases h
          rw [hshort]
          exact .shortTarget hfits
        · cases h
      · rw [if_neg hshort] at h
        obtain ⟨hfits, rfl⟩ := wordBytes_eq_ok h
        rw [hshape.resolve_left hshort]
        exact .target hfits
  | switch ts =>
      rw [hoperand, Operand.hasShape_switch_iff] at hshape
      simp only [hoperand] at h
      split at h
      · rename_i hcount
        obtain ⟨cases, hcases, rfl⟩ := map_eq_ok.mp h
        rw [hshape]
        exact .switch hcount hcases
      · cases h

theorem Stores.length_eq (h : Stores l position i.opcode.operand i.operand stored) :
    stored.length = i.operand.size i.opcode := by
  generalize hkind : i.opcode.operand = kind at h
  generalize i.operand = operand at h
  unfold Operand.size
  rw [hkind]
  cases h with
  | none => rfl
  | immediate v => rw [v.length_bytes, Option.getD_some]
  | token t => exact Bytes.length_ofNat _ _
  | shortTarget fits => exact length_ofInt _ _
  | target fits => exact length_ofInt _ _
  | switch count words =>
      rw [List.length_append, Bytes.length_ofNat, (words_eq_ok words).2, length_table,
        List.length_map]

theorem Stores.readsAt {kind : OperandKind} {operand : Operand Nat}
    (h : Stores l position kind operand stored) (start : Nat) {pos : Nat}
    (hpos : pos + stored.length = l.offset (position + 1)) :
    ReadsAt (kind.read start) pos stored (operand.map fun t => (l.offset t : Int)) := by
  cases h with
  | none => exact readsAt_pure _ _
  | immediate v => exact v.readsAt_read start pos
  | token t =>
      refine (readsAt_nat pos t.value.toNat_lt).bind_nil ?_
      rw [UInt32.ofNat_toNat]
      exact readsAt_pure _ _
  | shortTarget fits =>
      rw [length_ofInt] at hpos
      obtain ⟨hlow, hhigh⟩ := bounds_of_fitsByte fits
      rw [displacement, ← hpos] at hlow hhigh ⊢
      exact readsAt_displacement hlow hhigh
  | target fits =>
      rw [length_ofInt] at hpos
      obtain ⟨hlow, hhigh⟩ := bounds_of_fitsWord fits
      rw [displacement, ← hpos] at hlow hhigh ⊢
      exact readsAt_displacement hlow hhigh
  | @switch ts cases failure count words =>
      obtain ⟨hfits, hcases⟩ := words_eq_ok words
      have hlength : cases.flatten.length = 4 * ts.length := by
        rw [hcases, length_table, List.length_map]
      rw [List.length_append, Bytes.length_ofNat, ← Nat.add_assoc, hlength] at hpos
      refine (readsAt_nat pos count).bind (readsAt_require_bind (Nat.le_of_eq hlength.symm) ?_)
      rw [hcases, Bytes.length_ofNat, ← List.length_map fun t => (l.offset t : Int)]
      refine readsAt_table ?_ (List.forall_mem_map.mpr hfits)
      rw [List.length_map, hpos]

def raw (l : Layout) (position : Nat) (i : Instruction Nat) : RawInstruction where
  offset := l.offset position
  size := i.size
  opcode := i.opcode
  operand := i.operand.map fun t => (l.offset t : Int)

theorem length_instructionBytes (hshape : i.operand.hasShape i.opcode.operand = true)
    (h : l.instructionBytes position i = .ok stored) : stored.length = i.size := by
  obtain ⟨operand, hoperand, rfl⟩ := map_eq_ok.mp h
  rw [List.length_append, Opcode.length_bytes, (stores_of_operandBytes hshape hoperand).length_eq]
  rfl

theorem readsAt_instruction (hshape : i.operand.hasShape i.opcode.operand = true)
    (h : l.instructionBytes position i = .ok stored)
    (hnext : l.offset (position + 1) = l.offset position + i.size) :
    ReadsAt RawInstruction.read (l.offset position) stored (l.raw position i) := by
  have hlength := length_instructionBytes hshape h
  obtain ⟨operand, hoperand, rfl⟩ := map_eq_ok.mp h
  rw [List.length_append] at hlength
  have hpos : l.offset position + i.opcode.bytes.length + operand.length
      = l.offset (position + 1) := by omega
  refine readsAt_position_bind ((Opcode.readsAt_read _ _).bind ?_)
  have hread := (stores_of_operandBytes hshape hoperand).readsAt (l.offset position) hpos
  refine hread.bind_nil (readsAt_position_bind ?_)
  have hsize : l.offset position + i.opcode.bytes.length + operand.length - l.offset position
      = i.size := by omega
  rw [hsize]
  exact readsAt_pure _ _

end Layout

theorem Stream.readAll_of_itemsAt {pos : Nat} {chunks : List Bytes} {raws : List RawInstruction}
    (h : ItemsAt RawInstruction.read pos chunks raws) (seen : List RawInstruction) :
    readAll ⟨pos, chunks.flatten⟩ seen = .ok (seen.reverse ++ raws) := by
  induction h generalizing seen with
  | nil pos =>
      rw [readAll]
      simp
  | @cons pos chunk chunks raw raws head _ ih =>
      rw [List.flatten_cons, readAll_of_ok (head chunks.flatten), ih, List.reverse_cons,
        List.append_assoc]
      rfl

namespace Layout

variable {code : List (Instruction Nat)} {stored : Bytes}

theorem itemsAt_of_mapM {rest : List (Instruction Nat)} {first : Nat} {chunks : List Bytes}
    (hrest : code.drop first = rest)
    (hshape : ∀ i ∈ rest, i.operand.hasShape i.opcode.operand = true)
    (h : (rest.zipIdx first).mapM (fun (i, position) =>
      (ofCode code).instructionBytes position i) = .ok chunks) :
    ItemsAt RawInstruction.read ((ofCode code).offset first) chunks
        ((rest.zipIdx first).map fun (i, position) => (ofCode code).raw position i) ∧
      chunks.flatten.length = codeSize rest := by
  -- The induction is on the code from `first` on; its offsets count from the start of all code.
  induction rest generalizing first chunks with
  | nil =>
      cases h
      exact ⟨.nil _, rfl⟩
  | cons i rest ih =>
      rw [List.zipIdx_cons, mapM_eq_ok_iff, List.forall₂_cons_left_iff] at h
      obtain ⟨chunk, chunks, hchunk, hchunks, rfl⟩ := h
      have hget : code[first]? = some i := by
        have hdrop : (code.drop first)[0]? = some i := by rw [hrest]; rfl
        rwa [List.getElem?_drop, Nat.add_zero] at hdrop
      have hdrop : code.drop (first + 1) = rest := by
        rw [← List.drop_drop, hrest]
        rfl
      have hi := hshape i List.mem_cons_self
      have hlength := length_instructionBytes hi hchunk
      obtain ⟨hitems, htotal⟩ := ih hdrop (fun j hj => hshape j (List.mem_cons_of_mem i hj))
        (mapM_eq_ok_iff.mpr hchunks)
      rw [List.zipIdx_cons, List.map_cons]
      refine ⟨.cons (readsAt_instruction hi hchunk (offset_succ hget)) ?_, ?_⟩
      · rwa [hlength, ← offset_succ hget]
      · rw [List.flatten_cons, List.length_append, hlength, htotal]
        rfl

theorem length_emit (hshape : ∀ i ∈ code, i.operand.hasShape i.opcode.operand = true)
    (h : (ofCode code).emit = .ok stored) : stored.length = codeSize code := by
  obtain ⟨chunks, hchunks, rfl⟩ := map_eq_ok.mp h
  exact (itemsAt_of_mapM List.drop_zero hshape hchunks).2

/-- The emitted code decodes to the instructions of the layout, one for each position. -/
theorem decode_emit (hshape : ∀ i ∈ code, i.operand.hasShape i.opcode.operand = true)
    (h : (ofCode code).emit = .ok stored) :
    Stream.decode stored
      = .ok (code.zipIdx.map fun (i, position) => (ofCode code).raw position i) := by
  obtain ⟨chunks, hchunks, rfl⟩ := map_eq_ok.mp h
  have hitems := (itemsAt_of_mapM List.drop_zero hshape hchunks).1
  rw [offset_zero] at hitems
  rw [Stream.decode, Input.ofBytes, Stream.readAll_of_itemsAt hitems]
  rfl

end Layout

end CilEdit
