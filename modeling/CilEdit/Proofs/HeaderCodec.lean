import CilEdit.Proofs.Reading
import CilEdit.Proofs.Sections

namespace CilEdit

namespace Section

/-- The row that is written for a clause. -/
def Row.ofClause (c : Clause) : Row :=
  ⟨UInt32.ofNat c.flags.bits.toNat, c.tryOffset, c.tryLength, c.handlerOffset, c.handlerLength,
    c.classOrFilter⟩

theorem toNat_flags_ofClause (c : Clause) :
    (Row.ofClause c).flags.toNat = c.flags.bits.toNat :=
  UInt32.toNat_ofNat_of_lt' (Nat.lt_trans c.flags.bits.toNat_lt (by decide))

theorem clause_ofClause (c : Clause) : (Row.ofClause c).clause = c := by
  have hflags : ClauseFlags.ofBits c.flags.bits = c.flags := by
    have hknown := c.flags.known
    cases hflags : c.flags with
    | mk bits known => simp only [ClauseFlags.ofBits, known]
  rw [Row.clause, toNat_flags_ofClause, UInt16.ofNat_toNat, hflags]
  rfl

theorem bytes_ofClause (isFat : Bool) (c : Clause) :
    (Row.ofClause c).bytes isFat = if isFat then c.fatBytes else c.smallBytes := by
  cases isFat <;>
    simp only [Row.bytes, toNat_flags_ofClause, Clause.fatBytes, Clause.smallBytes,
      List.append_assoc, if_true, Bool.false_eq_true, if_false] <;> rfl

theorem fits_ofClause {c : Clause} (h : c.isSmall = true) : (Row.ofClause c).fits false = true := by
  simp only [Clause.isSmall, Bool.and_eq_true] at h
  obtain ⟨⟨⟨htryOffset, hhandlerOffset⟩, htryLength⟩, hhandlerLength⟩ := h
  have hflags : (Row.ofClause c).flags ≤ 0xFFFF := by
    rw [UInt32.le_iff_toNat_le, toNat_flags_ofClause]
    exact Nat.le_of_lt_succ c.flags.bits.toNat_lt
  simp only [Row.fits, decide_eq_true hflags, Bool.false_or, Bool.true_and, Bool.and_eq_true]
  exact ⟨⟨⟨htryOffset, htryLength⟩, hhandlerOffset⟩, hhandlerLength⟩

/-- The section that is written for clauses. -/
def Block.ofClauses (kind : UInt8) (clauses : List Clause)
    (table : Header.hasFlag kind.toNat clauseTable = true)
    (fits : ∀ c ∈ clauses, (Row.ofClause c).fits (isFat kind) = true)
    (sized : 4 + clauses.length * rowSize (isFat kind) < Bytes.capacity (sizeWidth (isFat kind))) :
    Block where
  kind := kind
  unused := 0
  rows := clauses.map Row.ofClause
  surplus := []
  table := table
  fits := List.forall_mem_map.mpr fits
  incomplete := by cases isFat kind <;> decide
  sized := by rwa [List.length_map, List.length_nil, Nat.add_zero]

theorem bytes_ofClauses {kind : UInt8} {clauses : List Clause} {table fits sized} :
    (Block.ofClauses kind clauses table fits sized).bytes
      = (kind :: (Bytes.ofNat (sizeWidth (isFat kind)) (4 + clauses.length * rowSize (isFat kind))
        ++ if isFat kind then [] else Bytes.ofNat 2 0))
          ++ clauses.flatMap fun c => if isFat kind then c.fatBytes else c.smallBytes := by
  rw [Block.bytes, Block.head, Block.size]
  simp only [Block.ofClauses, List.flatMap_map, bytes_ofClause, List.length_map, List.length_nil,
    Nat.add_zero, List.append_nil]
  rfl

/-- The one section that is written is read whatever follows it. -/
theorem readAll_single {kind : UInt8} {clauses : List Clause}
    (htable : Header.hasFlag kind.toNat clauseTable = true)
    (hlast : Header.hasFlag kind.toNat more = false)
    (hfits : ∀ c ∈ clauses, (Row.ofClause c).fits (isFat kind) = true)
    (hsized : 4 + clauses.length * rowSize (isFat kind)
      < Bytes.capacity (sizeWidth (isFat kind))) (rest : Bytes) :
    readAll ((kind :: (Bytes.ofNat (sizeWidth (isFat kind))
        (4 + clauses.length * rowSize (isFat kind)) ++ if isFat kind then [] else Bytes.ofNat 2 0))
      ++ (clauses.flatMap fun c => if isFat kind then c.fatBytes else c.smallBytes) ++ rest) []
        = .ok clauses := by
  have hstops : (Block.ofClauses kind clauses htable hfits hsized).continues = false := hlast
  have hclauses : (Block.ofClauses kind clauses htable hfits hsized).clauses = clauses := by
    rw [Block.clauses, Block.ofClauses, List.map_map]
    exact List.map_id'' clause_ofClause clauses
  rw [← @bytes_ofClauses kind clauses htable hfits hsized, (Chain.last hstops rest).readAll,
    List.flatMap_singleton, hclauses]
  rfl

theorem write_eq_ok {clauses : List Clause} {stored : Bytes} (h : write clauses = .ok stored) :
    (4 + clauses.length * Clause.smallSize ≤ 0xFF ∧ clauses.all Clause.isSmall = true ∧
      stored = [UInt8.ofNat clauseTable, UInt8.ofNat (4 + clauses.length * Clause.smallSize), 0, 0]
        ++ clauses.flatMap Clause.smallBytes) ∨
    (4 + clauses.length * Clause.fatSize ≤ 0xFFFFFF ∧
      stored = UInt8.ofNat (clauseTable + fat)
        :: Bytes.ofNat 3 (4 + clauses.length * Clause.fatSize)
          ++ clauses.flatMap Clause.fatBytes) := by
  simp only [write] at h
  split at h
  · rename_i hsmall
    exact .inl ⟨hsmall.1, hsmall.2, (Except.ok.inj h).symm⟩
  · split at h
    · rename_i hfits
      exact .inr ⟨hfits, (Except.ok.inj h).symm⟩
    · cases h

theorem readAll_write {clauses : List Clause} {stored : Bytes} (h : write clauses = .ok stored)
    (rest : Bytes) : readAll (stored ++ rest) [] = .ok clauses := by
  rcases write_eq_ok h with ⟨hfits, hall, rfl⟩ | ⟨hfits, rfl⟩
  · exact readAll_single (show Header.hasFlag (UInt8.ofNat clauseTable).toNat _ = _ by decide)
      (by decide) (fun c hc => fits_ofClause (List.all_eq_true.mp hall c hc))
      (Nat.lt_succ_of_le hfits) rest
  · exact readAll_single
      (show Header.hasFlag (UInt8.ofNat (clauseTable + fat)).toNat _ = _ by decide) (by decide)
      (fun c hc => rfl) (Nat.lt_succ_of_le hfits) rest

end Section

namespace Header

/-- What is read back from the stored form of a header and `code`. -/
def stored (h : Header) (code : Bytes) : Header :=
  if h.fitsTiny code then tiny code.length
  else { h with size := fatSize, codeSize := code.length, isFat := true }

theorem isTiny_spec {h : Header} {code : Bytes} (htiny : h.fitsTiny code = true) :
    code.length ≤ tinyMaxCode ∧ h.maxStack ≤ tinyMaxStack ∧ h.locals = .null ∧
      h.initLocals = false ∧ h.clauses = [] := by
  simp only [fitsTiny, Bool.and_eq_true, decide_eq_true_eq, Bool.not_eq_true', Token.isNull,
    beq_iff_eq, List.isEmpty_iff] at htiny
  obtain ⟨⟨⟨⟨hcode, hmaxStack⟩, hlocals⟩, hinit⟩, hclauses⟩ := htiny
  refine ⟨hcode, hmaxStack, ?_, hinit, hclauses⟩
  cases hvalue : h.locals with
  | mk value =>
      rw [hvalue] at hlocals
      exact congrArg Token.mk hlocals

theorem stored_spec (h : Header) (code : Bytes) :
    (h.stored code).locals = h.locals ∧ (h.stored code).initLocals = h.initLocals ∧
      (h.stored code).clauses = h.clauses ∧
      (h.stored code).maxStack = if h.fitsTiny code then tinyMaxStack else h.maxStack := by
  unfold stored
  by_cases htiny : h.fitsTiny code = true
  · obtain ⟨-, -, hlocals, hinit, hclauses⟩ := isTiny_spec htiny
    rw [if_pos htiny, if_pos htiny]
    exact ⟨hlocals.symm, hinit.symm, hclauses.symm, rfl⟩
  · rw [if_neg htiny, if_neg htiny]
    exact ⟨rfl, rfl, rfl, rfl⟩

theorem maxStack_le_stored (h : Header) (code : Bytes) :
    h.maxStack.toNat ≤ (h.stored code).maxStack.toNat := by
  rw [(h.stored_spec code).2.2.2]
  by_cases htiny : h.fitsTiny code = true
  · rw [if_pos htiny]
    exact UInt16.le_iff_toNat_le.mp (isTiny_spec htiny).2.1
  · exact Nat.le_of_eq (by rw [if_neg htiny])

theorem length_fatBytes (h : Header) (code : Bytes) : (h.fatBytes code).length = fatSize := by
  simp [fatBytes, fatSize]

def fatFlags (h : Header) : Nat :=
  0x3003 + (if h.initLocals then initLocalsFlag else 0)
    + (if h.clauses.isEmpty then 0 else moreSections)

theorem fatFlags_spec (h : Header) : h.fatFlags < Bytes.capacity 2 ∧ h.fatFlags % 4 = 3 ∧
    h.fatFlags / 0x1000 * 4 = fatSize ∧ hasFlag h.fatFlags moreSections = !h.clauses.isEmpty ∧
    hasFlag h.fatFlags initLocalsFlag = h.initLocals := by
  unfold fatFlags
  cases h.initLocals <;> cases h.clauses.isEmpty <;> decide

theorem toNat_fatFlags (h : Header) : (UInt16.ofNat h.fatFlags).toNat = h.fatFlags :=
  UInt16.toNat_ofNat_of_lt' h.fatFlags_spec.1

/-- The front that is written for a header and `code`. -/
def front (h : Header) (code : Bytes) (fits : code.length < UInt32.size) : Front where
  flags := UInt16.ofNat h.fatFlags
  maxStack := h.maxStack
  locals := h.locals.value
  extra := []
  code := code
  isFat := by rw [toNat_fatFlags, h.fatFlags_spec.2.1]
  sized := by rw [toNat_fatFlags, h.fatFlags_spec.2.2.1, List.length_nil, Nat.add_zero]
  fits := fits

theorem bytes_front (h : Header) {code : Bytes} (fits : code.length < UInt32.size) :
    (h.front code fits).bytes = h.fatBytes code := by
  simp only [Front.bytes, front, toNat_fatFlags, List.append_nil]
  simp only [fatBytes, fatFlags, List.append_assoc]

theorem header_front (h : Header) {code : Bytes} (fits : code.length < UInt32.size) :
    (h.front code fits).header h.clauses
      = { h with size := fatSize, codeSize := code.length, isFat := true } := by
  have hsize : (h.front code fits).bytes.length = fatSize := (h.front code fits).length_bytes
  have hinit : hasFlag (h.front code fits).flags.toNat initLocalsFlag = h.initLocals :=
    (congrArg (hasFlag · initLocalsFlag) h.toNat_fatFlags).trans h.fatFlags_spec.2.2.2.2
  rw [Front.header, hsize, hinit]
  rfl

theorem parse_fatBytes {h : Header} {code : Bytes} (hcode : code.length < UInt32.size)
    {tail : Bytes} (htail : h.clauses.isEmpty = false → Section.readAll
      ((h.fatBytes code ++ (code ++ tail)).drop (Bytes.align4 (fatSize + code.length))) []
        = .ok h.clauses) :
    parse (h.fatBytes code ++ (code ++ tail))
      = .ok { h with size := fatSize, codeSize := code.length, isFat := true } := by
  have hmore : (h.front code hcode).continues = !h.clauses.isEmpty :=
    (congrArg (hasFlag · moreSections) h.toNat_fatFlags).trans h.fatFlags_spec.2.2.2.1
  rw [← h.bytes_front hcode, ← h.header_front hcode]
  apply (h.front code hcode).parse_bytes
  rw [hmore, bytes_front, length_fatBytes]
  cases hempty : h.clauses.isEmpty with
  | true => exact congrArg Except.ok (List.isEmpty_iff.mp hempty).symm
  | false => exact htail hempty

/-- The forms of a stored body: a tiny header, a fat header, a fat header with a section. -/
theorem write_cases {h : Header} {code out : Bytes} (hout : h.write code = .ok out) :
    (h.fitsTiny code = true ∧ out = UInt8.ofNat (4 * code.length + 2) :: code) ∨
    (h.fitsTiny code = false ∧ code.length < UInt32.size ∧
      ((h.clauses.isEmpty = true ∧ out = h.fatBytes code ++ code) ∨
        ∃ sections, Section.write h.clauses = .ok sections ∧
          out = h.fatBytes code ++ code ++ List.replicate
            (Bytes.align4 (h.fatBytes code ++ code).length - (h.fatBytes code ++ code).length) 0
              ++ sections)) := by
  unfold write at hout
  by_cases htiny : h.fitsTiny code = true
  · rw [if_pos htiny] at hout
    exact .inl ⟨htiny, (Except.ok.inj hout).symm⟩
  · rw [if_neg htiny] at hout
    by_cases hcode : code.length < UInt32.size
    · simp only [if_pos hcode] at hout
      refine .inr ⟨Bool.eq_false_iff.mpr htiny, hcode, ?_⟩
      by_cases hempty : h.clauses.isEmpty = true
      · simp only [if_pos hempty] at hout
        exact .inl ⟨hempty, (Except.ok.inj hout).symm⟩
      · simp only [if_neg hempty] at hout
        obtain ⟨sections, hsections, hout⟩ := bind_eq_ok.mp hout
        exact .inr ⟨sections, hsections, (Except.ok.inj hout).symm⟩
    · simp only [if_neg hcode] at hout
      cases hout

theorem parse_tiny {code : Bytes} (hcode : code.length ≤ tinyMaxCode) (rest : Bytes) :
    parse (UInt8.ofNat (4 * code.length + 2) :: (code ++ rest)) = .ok (tiny code.length) := by
  have hbyte : (UInt8.ofNat (4 * code.length + 2)).toNat = 4 * code.length + 2 := by
    apply UInt8.toNat_ofNat_of_lt'
    simp only [tinyMaxCode, UInt8.size] at hcode ⊢
    omega
  have hmod : (4 * code.length + 2) % 4 = 2 := by omega
  have hdiv : (4 * code.length + 2) / 4 = code.length := by omega
  have hle : code.length ≤ (code ++ rest).length := by
    rw [List.length_append]
    exact Nat.le_add_right _ _
  rw [parse]
  simp only [hbyte, hmod, if_true, hdiv, if_pos hle]

/-- A written header reads back, whatever follows it. -/
theorem parse_write {h : Header} {code out : Bytes} (hout : h.write code = .ok out)
    (rest : Bytes) : parse (out ++ rest) = .ok (h.stored code) := by
  unfold stored
  rcases write_cases hout with
    ⟨htiny, rfl⟩ | ⟨hfat, hcode, ⟨hempty, rfl⟩ | ⟨sections, hsections, rfl⟩⟩
  · rw [if_pos htiny]
    exact parse_tiny (isTiny_spec htiny).1 rest
  · rw [if_neg (Bool.eq_false_iff.mp hfat), List.append_assoc]
    apply parse_fatBytes hcode
    intro hsome
    rw [hempty] at hsome
    cases hsome
  · rw [if_neg (Bool.eq_false_iff.mp hfat)]
    -- The sections start behind the padding.
    have hlength : (h.fatBytes code ++ code).length = fatSize + code.length := by
      rw [List.length_append, length_fatBytes]
    have haligned : (h.fatBytes code ++ code).length + (List.replicate (Bytes.align4
        (h.fatBytes code ++ code).length - (h.fatBytes code ++ code).length) (0 : UInt8)).length
          = Bytes.align4 (h.fatBytes code ++ code).length := by
      rw [List.length_replicate, Bytes.align4]
      omega
    have hdrop := Section.drop_aligned haligned (sections ++ rest)
    rw [hlength] at hdrop ⊢
    simp only [List.append_assoc] at hdrop ⊢
    apply parse_fatBytes hcode
    intro _
    rw [hdrop]
    exact Section.readAll_write hsections rest

theorem code_write {h : Header} {code out : Bytes} (hout : h.write code = .ok out)
    (rest : Bytes) : (h.stored code).code (out ++ rest) = .ok code := by
  unfold stored
  rcases write_cases hout with ⟨htiny, rfl⟩ | ⟨hfat, -, ⟨-, rfl⟩ | ⟨sections, -, rfl⟩⟩
  · rw [if_pos htiny, List.cons_append, ← List.singleton_append]
    exact code_of_append rfl rfl rest
  · rw [if_neg (Bool.eq_false_iff.mp hfat), List.append_assoc]
    exact code_of_append (h.length_fatBytes code).symm rfl rest
  · rw [if_neg (Bool.eq_false_iff.mp hfat)]
    simp only [List.append_assoc]
    exact code_of_append (h.length_fatBytes code).symm rfl _

/-- What `back` still says of a header `h` and its `code` when it was read from their stored form:
all of it, but for the stack depth of a tiny header, which stores none. -/
structure ReadsBack (h : Header) (code : Bytes) (back : Header) : Prop where
  codeSize : back.codeSize = code.length
  clauses : back.clauses = h.clauses
  locals : back.locals = h.locals
  initLocals : back.initLocals = h.initLocals
  maxStack : back.maxStack = if back.isFat then h.maxStack else tinyMaxStack
  tiny_iff : back.isFat = false ↔
    code.length ≤ tinyMaxCode ∧ h.maxStack ≤ tinyMaxStack ∧ h.locals = .null ∧
      h.initLocals = false ∧ h.clauses = []

theorem isFat_stored (h : Header) (code : Bytes) :
    (h.stored code).isFat = !h.fitsTiny code := by
  unfold stored
  cases h.fitsTiny code <;> rfl

theorem codeSize_stored (h : Header) (code : Bytes) :
    (h.stored code).codeSize = code.length := by
  unfold stored
  cases h.fitsTiny code <;> rfl

theorem fitsTiny_iff {h : Header} {code : Bytes} :
    h.fitsTiny code = true ↔
      code.length ≤ tinyMaxCode ∧ h.maxStack ≤ tinyMaxStack ∧ h.locals = .null ∧
        h.initLocals = false ∧ h.clauses = [] := by
  refine ⟨isTiny_spec, ?_⟩
  rintro ⟨hcode, hmaxStack, hlocals, hinit, hclauses⟩
  have hnull : h.locals.isNull = true := by
    rw [hlocals]
    decide
  simp only [fitsTiny, hcode, hmaxStack, hnull, hinit, hclauses, List.isEmpty_nil, decide_true,
    Bool.not_false, Bool.and_self]

theorem readsBack_stored (h : Header) (code : Bytes) : h.ReadsBack code (h.stored code) := by
  obtain ⟨hlocals, hinit, hclauses, hmaxStack⟩ := h.stored_spec code
  refine ⟨h.codeSize_stored code, hclauses, hlocals, hinit, ?_, ?_⟩
  · rw [hmaxStack, isFat_stored]
    cases h.fitsTiny code <;> rfl
  · rw [isFat_stored, Bool.not_eq_false']
    exact fitsTiny_iff

/-- Reading undoes writing: whatever follows a written body, its header is read, the code it
delimits is the code that was written, and it says what was written. -/
theorem exists_readsBack_of_write {h : Header} {code out : Bytes} (hout : h.write code = .ok out)
    (rest : Bytes) :
    ∃ back, parse (out ++ rest) = .ok back ∧ back.code (out ++ rest) = .ok code ∧
      h.ReadsBack code back :=
  ⟨h.stored code, parse_write hout rest, code_write hout rest, h.readsBack_stored code⟩

/-- A header with one small clause more than a small section can hold. -/
def crowded : Header where
  size := 0
  codeSize := 0
  maxStack := 9
  locals := ⟨0x11000001⟩
  isFat := false
  initLocals := true
  clauses := List.replicate 21 ⟨.ofBits 1, 0xFFFF, 0xFF, 0, 1, 0xFFFFFFFF⟩

theorem exists_readsBack_crowded :
    ∃ out, crowded.write [0x2A] = .ok out ∧ out.length = 16 + 4 + 21 * Clause.fatSize ∧
      ∃ back, parse (out ++ [0xFF]) = .ok back ∧ back.code (out ++ [0xFF]) = .ok [0x2A] ∧
        crowded.ReadsBack [0x2A] back := by
  have hout : crowded.write [0x2A] = .ok (crowded.fatBytes [0x2A] ++ [0x2A] ++ [0, 0, 0] ++
      (UInt8.ofNat (Section.clauseTable + Section.fat)
        :: Bytes.ofNat 3 (4 + 21 * Clause.fatSize)
          ++ crowded.clauses.flatMap Clause.fatBytes)) := by
    decide +kernel
  exact ⟨_, hout, by decide +kernel, exists_readsBack_of_write hout [0xFF]⟩

end Header

end CilEdit
