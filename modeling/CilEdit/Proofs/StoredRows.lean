import CilEdit.Proofs.Reloading

namespace CilEdit

open Reader

/-- The failure is about the row of a definition. -/
def Error.blamesRow : Error → Bool
  | .malformed (.invalidRow _ _) => true
  | _ => false

/-- The failure is not about the row of a definition. -/
def Error.SparesRows (e : Error) : Prop :=
  e.blamesRow = false

/-- If the computation fails, the failure is not about the row of a definition. -/
def SparesRows {α : Type} (x : Except Error α) : Prop :=
  ∀ e, x = .error e → e.SparesRows

section

variable {α β : Type} {x : Except Error α}

theorem sparesRows_ok (a : α) : SparesRows (.ok a : Except Error α) := by
  rintro _ ⟨⟩

theorem sparesRows_error {e : Error} (h : e.SparesRows) :
    SparesRows (.error e : Except Error α) := by
  rintro _ ⟨⟩
  exact h

theorem SparesRows.bind {f : α → Except Error β} (hx : SparesRows x) (hf : ∀ a, SparesRows (f a)) :
    SparesRows (x >>= f) := by
  intro e he
  rcases bind_eq_error.mp he with he | ⟨a, -, he⟩
  · exact hx e he
  · exact hf a e he

theorem SparesRows.map {f : α → β} (hx : SparesRows x) : SparesRows (x.map f) :=
  fun e he => hx e (map_eq_error.mp he)

theorem sparesRows_mapM {f : α → Except Error β} (hf : ∀ a, SparesRows (f a)) (xs : List α) :
    SparesRows (xs.mapM f) := by
  intro e he
  obtain ⟨a, -, he⟩ := exists_of_mapM_eq_error he
  exact hf a e he

end

namespace Reader

variable {α β σ : Type} {r : Reader α} {f : α → Reader β} {i : Input}

/-- No input makes the reader fail because of a row. -/
def SparesRows (r : Reader α) : Prop :=
  ∀ i, CilEdit.SparesRows (r i).1

theorem sparesRows_run_bind (hr : CilEdit.SparesRows (r i).1)
    (hf : ∀ a next, r i = (.ok a, next) → CilEdit.SparesRows (f a next).1) :
    CilEdit.SparesRows ((r >>= f) i).1 := by
  rcases hrun : r i with ⟨e | a, next⟩
  · rw [Step.bind_error hrun]
    rw [hrun] at hr
    exact sparesRows_error (hr e rfl)
  · rw [Step.bind_ok hrun]
    exact hf a next hrun

theorem SparesRows.bind (hr : r.SparesRows) (hf : ∀ a, (f a).SparesRows) : (r >>= f).SparesRows :=
  fun i => sparesRows_run_bind (hr i) fun a next _ => hf a next

theorem sparesRows_pure (a : α) : SparesRows (pure a) :=
  fun _ => sparesRows_ok a

theorem sparesRows_fail {e : Error} (h : e.SparesRows) : SparesRows (Step.fail e : Reader α) :=
  fun _ => sparesRows_error h

theorem sparesRows_ofExcept {x : Except Error α} (h : CilEdit.SparesRows x) :
    SparesRows (Step.ofExcept x) :=
  fun _ => h

theorem sparesRows_position : SparesRows position :=
  fun _ => sparesRows_ok _

theorem sparesRows_remaining : SparesRows remaining :=
  fun _ => sparesRows_ok _

theorem sparesRows_require {cause : Nat → Malformed}
    (h : ∀ left, (Error.malformed (cause left)).SparesRows) (count : Nat) :
    SparesRows (require count cause) := by
  intro i
  rw [require]
  split
  · exact sparesRows_ok ()
  · exact sparesRows_error (h _)

theorem sparesRows_byte : SparesRows byte := by
  intro i
  rw [byte]
  split
  · exact sparesRows_error rfl
  · exact sparesRows_ok _

theorem sparesRows_take (count : Nat) : SparesRows (take count) := by
  intro i
  simp only [take]
  split
  · exact sparesRows_ok _
  · exact sparesRows_error rfl

theorem sparesRows_nat (width : Nat) : SparesRows (nat width) :=
  (sparesRows_take width).bind fun _ => sparesRows_pure _

theorem sparesRows_iterate {step : σ → Reader σ} (h : ∀ s, (step s).SparesRows) (count : Nat)
    (s : σ) : (iterate step count s).SparesRows := by
  induction count generalizing s with
  | zero => exact sparesRows_pure s
  | succ count ih => exact (h s).bind ih

theorem SparesRows.times (h : r.SparesRows) (count : Nat) : (times r count).SparesRows :=
  (sparesRows_iterate (fun _ => h.bind fun _ => sparesRows_pure _) count []).bind
    fun _ => sparesRows_pure _

end Reader

theorem Varint.sparesRows_read : Varint.read.SparesRows := by
  have hgroups : ∀ groups shift value, (readGroups groups shift value).SparesRows := by
    intro groups
    induction groups with
    | zero => exact fun _ _ => sparesRows_fail rfl
    | succ groups ih =>
        intro shift value
        refine sparesRows_byte.bind fun b => ?_
        dsimp only
        split
        · exact sparesRows_pure _
        · exact ih _ _
  exact (hgroups _ _ _).bind fun _ => sparesRows_pure _

theorem Prefixed.sparesRows_read : Prefixed.read.SparesRows := by
  refine Varint.sparesRows_read.bind fun length => sparesRows_position.bind fun start =>
    (sparesRows_take length).bind fun block => ?_
  split
  · exact sparesRows_pure _
  · exact sparesRows_fail rfl

theorem OperandKind.sparesRows_read (start : Nat) (kind : OperandKind) :
    (kind.read start).SparesRows := by
  cases kind
  case none => exact sparesRows_pure _
  case int8 | uint8 => exact sparesRows_byte.bind fun _ => sparesRows_pure _
  case uint16 | int32 | int64 | float32 | float64 | token =>
    exact (sparesRows_nat _).bind fun _ => sparesRows_pure _
  case shortTarget | target =>
    exact (sparesRows_nat _).bind fun _ => sparesRows_position.bind fun _ => sparesRows_pure _
  case switch =>
    exact (sparesRows_nat _).bind fun count => (sparesRows_require (fun _ => by rfl) _).bind
      fun _ => ((sparesRows_nat 4).times count).bind fun _ => sparesRows_position.bind fun _ =>
        sparesRows_pure _

theorem Opcode.sparesRows_read : Opcode.read.SparesRows := by
  have hvalue : ∀ first, (readValue first).SparesRows := by
    intro first
    rw [readValue]
    split
    · exact sparesRows_byte.bind fun _ => sparesRows_pure _
    · exact sparesRows_pure _
  refine sparesRows_position.bind fun start => sparesRows_byte.bind fun first =>
    (hvalue first).bind fun value => ?_
  split
  · exact sparesRows_pure _
  · exact sparesRows_fail rfl

theorem RawInstruction.sparesRows_read : RawInstruction.read.SparesRows :=
  sparesRows_position.bind fun start => Opcode.sparesRows_read.bind fun opcode =>
    (opcode.operand.sparesRows_read start).bind fun _ => sparesRows_position.bind fun _ =>
      sparesRows_pure _

theorem Stream.sparesRows_readAll (i : Input) (seen : List RawInstruction) :
    SparesRows (readAll i seen) := by
  fun_induction readAll i seen with
  | case1 => exact sparesRows_ok _
  | case2 i seen _ e next hread =>
      have hspares := RawInstruction.sparesRows_read i
      rw [hread] at hspares
      exact sparesRows_error (hspares e rfl)
  | case3 i seen _ raw next hread ih => exact ih

theorem Section.sparesRows_readAll (data : Bytes) (seen : List Clause) :
    SparesRows (readAll data seen) := by
  have hone : ∀ data, SparesRows (readOne data) := by
    intro data
    simp only [readOne]
    split
    · exact sparesRows_error rfl
    · split
      · exact sparesRows_error rfl
      · split
        · split <;> exact sparesRows_error rfl
        · exact sparesRows_ok _
  fun_induction readAll data seen with
  | case1 data seen e hread => exact sparesRows_error (hone data e hread)
  | case2 data seen clauses size hread seen' ih => exact ih
  | case3 => exact sparesRows_ok _

theorem Header.sparesRows_parseFat (data : Bytes) : SparesRows (parseFat data) := by
  simp only [parseFat]
  split
  · exact sparesRows_error rfl
  · split
    · exact sparesRows_error rfl
    · split
      · exact sparesRows_error rfl
      · split
        · exact (Section.sparesRows_readAll _ _).bind fun _ => sparesRows_ok _
        · exact sparesRows_ok _

theorem Header.sparesRows_parse (data : Bytes) : SparesRows (parse data) := by
  rw [parse.eq_def]
  split
  · exact sparesRows_error rfl
  · dsimp only
    split
    · split
      · exact sparesRows_ok _
      · exact sparesRows_error rfl
    · split
      · exact sparesRows_parseFat _
      · exact sparesRows_error rfl

namespace Body

variable (id : BodyId) (starts : Std.HashMap Nat Nat) (codeSize : Nat)

theorem sparesRows_linkInstruction (raw : RawInstruction) :
    SparesRows (linkInstruction id starts raw) := by
  have htarget : ∀ target, SparesRows (linkTarget id starts raw.offset target) := by
    intro target
    simp only [linkTarget]
    split
    · exact sparesRows_ok _
    · exact sparesRows_error rfl
  refine SparesRows.map ?_
  cases raw.operand with
  | none | immediate v | token t => exact sparesRows_ok _
  | target t => exact (htarget t).map
  | switch ts => exact (sparesRows_mapM htarget ts).map

theorem sparesRows_linkStart (offset : UInt32) : SparesRows (linkStart id starts offset) := by
  rw [linkStart]
  split
  · exact sparesRows_ok _
  · exact sparesRows_error rfl

theorem sparesRows_linkEnd (offset length : UInt32) :
    SparesRows (linkEnd id starts codeSize offset length) := by
  simp only [linkEnd]
  split
  · exact sparesRows_error rfl
  · split
    · exact sparesRows_ok _
    · exact (sparesRows_linkStart id starts _).map

theorem sparesRows_linkClause (c : Clause) : SparesRows (linkClause id starts codeSize c) := by
  refine (sparesRows_linkStart id starts _).bind fun tryStart =>
    (sparesRows_linkEnd id starts codeSize _ _).bind fun tryEnd =>
      (sparesRows_linkStart id starts _).bind fun handlerStart =>
        (sparesRows_linkEnd id starts codeSize _ _).bind fun handlerEnd => ?_
  split
  · exact (sparesRows_linkStart id starts _).bind fun _ => sparesRows_ok _
  · exact sparesRows_ok _

theorem sparesRows_decode (data : Bytes) : SparesRows (decode id data) := by
  refine (Header.sparesRows_parse data).bind fun header => SparesRows.bind ?_ fun code =>
    (Stream.sparesRows_readAll _ _).bind fun raws =>
      (sparesRows_mapM (sparesRows_linkInstruction id _) _).bind fun instructions =>
        (sparesRows_mapM (sparesRows_linkClause id _ _) _).bind fun handlers => sparesRows_ok _
  rw [Header.code]
  split
  · exact sparesRows_ok _
  · exact sparesRows_error rfl

end Body

namespace Reader

variable {α β : Type} {r : Reader α} {f : α → Reader β} {xs ys : Bytes} {a : α} {P : α → Prop}
  {Q : β → Prop}

/-- At the front of `bytes` the reader takes exactly `bytes` and gives a value that satisfies `P`,
or it fails, and not because of a row. -/
structure Admits (r : Reader α) (bytes : Bytes) (P : α → Prop) : Prop where
  spans : r.Spans bytes P
  spares : ∀ pos rest, CilEdit.SparesRows (r ⟨pos, bytes ++ rest⟩).1

theorem admits_of_readsAt (h : ∀ pos, ReadsAt r pos xs a) : r.Admits xs (· = a) := by
  refine ⟨spans_of_readsAt h, fun pos rest => ?_⟩
  rw [h pos rest]
  exact sparesRows_ok a

theorem admits_pure (h : P a) : Admits (pure a) [] P :=
  ⟨spans_pure h, fun _ _ => sparesRows_ok a⟩

theorem Admits.bind (hr : r.Admits xs P) (hf : ∀ a, P a → (f a).Admits ys Q) :
    (r >>= f).Admits (xs ++ ys) Q := by
  refine ⟨hr.spans.bind fun a ha => (hf a ha).spans, fun pos rest => ?_⟩
  rw [List.append_assoc]
  refine sparesRows_run_bind (hr.spares pos _) fun a next hrun => ?_
  obtain ⟨hP, rfl⟩ := hr.spans pos _ a next hrun
  exact (hf a hP).spares _ rest

theorem Admits.bind_nil (hr : r.Admits xs P) (hf : ∀ a, P a → (f a).Admits [] Q) :
    (r >>= f).Admits xs Q := by
  have h := hr.bind hf
  rwa [List.append_nil] at h

/-- What follows the bytes does not matter for a reader that never fails because of a row. -/
theorem Admits.spares_bind (hr : r.Admits xs P) (hf : ∀ a, (f a).SparesRows) (pos : Nat)
    (rest : Bytes) : CilEdit.SparesRows ((r >>= f) ⟨pos, xs ++ rest⟩).1 :=
  sparesRows_run_bind (hr.spares pos rest) fun a next _ => hf a next

end Reader

namespace Image

variable {α σ : Type} {row : σ → Reader (α × σ)} {m : Module} {bytes stored : Bytes}

theorem sparesRows_readCount : readCount.SparesRows :=
  (sparesRows_nat 4).bind fun _ => (sparesRows_require (fun _ => by rfl) _).bind
    fun _ => sparesRows_pure _

theorem sparesRows_readTable (h : ∀ s, (row s).SparesRows) (s : σ) :
    (readTable row s).SparesRows := by
  refine sparesRows_readCount.bind fun count => (sparesRows_iterate ?_ count _).bind
    fun _ => sparesRows_pure _
  exact fun seen => (h seen.2).bind fun _ => sparesRows_pure _

theorem sparesRows_readSignature : readSignature.SparesRows := by
  refine sparesRows_byte.bind fun flag => ?_
  split
  · exact sparesRows_fail rfl
  · exact Varint.sparesRows_read.bind fun count =>
      (sparesRows_require (fun _ => by rfl) _).bind fun _ =>
        (Prefixed.sparesRows_read.times count).bind fun _ =>
          Prefixed.sparesRows_read.bind fun _ => sparesRows_pure _

theorem sparesRows_readTypeRef (count : Nat) : (readTypeRef count).SparesRows :=
  Prefixed.sparesRows_read.bind fun _ => Prefixed.sparesRows_read.bind fun _ => sparesRows_pure _

theorem sparesRows_readMemberRef (typeRefs count : Nat) :
    (readMemberRef typeRefs count).SparesRows := by
  have hkind : ∀ kind, (readMemberKind kind).SparesRows := by
    intro kind
    rw [readMemberKind]
    split
    · exact sparesRows_readSignature.bind fun _ => sparesRows_pure _
    · split
      · exact Prefixed.sparesRows_read.bind fun _ => sparesRows_pure _
      · exact sparesRows_fail rfl
  refine sparesRows_byte.bind fun kind => (sparesRows_nat 4).bind fun parent => ?_
  dsimp only
  split
  · exact sparesRows_fail rfl
  · exact Prefixed.sparesRows_read.bind fun _ => (hkind kind).bind fun _ => sparesRows_pure _

theorem sparesRows_readRows {item : Reader α} (h : item.SparesRows) : (readRows item).SparesRows :=
  sparesRows_readCount.bind fun count => h.times count

theorem admits_readCount {count : Nat} (hcount : count < UInt32.size) :
    readCount.Admits (Bytes.ofNat 4 count) (· = count) :=
  ⟨spans_readCount hcount, fun _ _ => sparesRows_readCount _⟩

/-- The rows are read one after the other; `state` is what the rows read so far leave. -/
theorem admits_iterate {write : α → Except Error Bytes} {rows : List α} (state : List α → σ)
    (hrow : ∀ before a after, rows = before ++ a :: after → ∀ chunk, write a = .ok chunk →
      (row (state before)).Admits chunk fun p => p.2 = state (before ++ [a]))
    {before after : List α} {chunks : List Bytes} (hsplit : rows = before ++ after)
    (hchunks : after.mapM write = .ok chunks) (seen : List α) :
    (iterate (readNext row) after.length (seen, state before)).Admits chunks.flatten
      fun p => p.2 = state rows := by
  subst hsplit
  rw [mapM_eq_ok_iff] at hchunks
  -- The rows before stay in sight, since the state that a row is read on depends on them.
  generalize hall : before ++ after = rows at hrow ⊢
  induction hchunks generalizing before seen with
  | nil =>
      rw [List.append_nil] at hall
      subst hall
      exact admits_pure rfl
  | @cons a chunk after chunks hwrite _ ih =>
      have hstep : (readNext row (seen, state before)).Admits chunk
          fun p => p.2 = state (before ++ [a]) :=
        (hrow before a after hall.symm chunk hwrite).bind_nil fun _ hp => admits_pure hp
      have hnext : before ++ [a] ++ after = rows := by
        rw [List.append_assoc]
        exact hall
      refine hstep.bind ?_
      rintro ⟨seen', _⟩ rfl
      exact ih seen' hnext

theorem admits_readTable {write : α → Except Error Bytes} {rows : List α} (state : List α → σ)
    (hwrite : writeTable write rows = .ok bytes)
    (hrow : ∀ before a after, rows = before ++ a :: after → ∀ chunk, write a = .ok chunk →
      (row (state before)).Admits chunk fun p => p.2 = state (before ++ [a])) :
    (readTable row (state [])).Admits bytes fun p => p.2 = state rows := by
  obtain ⟨hcount, chunks, hchunks, rfl⟩ := writeTable_eq_ok hwrite
  refine (admits_readCount hcount).bind ?_
  rintro _ rfl
  exact (admits_iterate state hrow (List.nil_append rows).symm hchunks []).bind_nil
    fun _ hp => admits_pure hp

theorem admits_readBody (hlength : stored.length < UInt32.size) (id : BodyId) :
    (readBody id).Admits (Bytes.ofNat 4 stored.length ++ stored) fun _ => True := by
  refine ⟨spans_readBody hlength id, fun pos rest => ?_⟩
  have hspares : (readBody id).SparesRows := by
    refine (sparesRows_nat 4).bind fun length => ?_
    split
    · exact sparesRows_pure _
    · exact (sparesRows_take length).bind fun raw =>
        (sparesRows_ofExcept (Body.sparesRows_decode id raw)).bind fun _ => sparesRows_pure _
  exact hspares _

variable {seen : List Nat} {t : TypeDef} {x : MethodDef}

theorem admits_readMethod (hwrite : writeMethod m x = .ok bytes) (hrow : x.token.row ≠ 0)
    (hseen : x.token.row ∉ seen) (origin : Nat) :
    (readMethod origin seen).Admits bytes fun p => p.2 = x.token.row :: seen := by
  obtain ⟨name, signature, stored, hname, hsignature, -, hlength, rfl⟩ := writeMethod_eq_ok hwrite
  refine (admits_of_readsAt fun pos =>
    readsAt_readRow (Nat.pos_of_ne_zero hrow) (row_le_maxRow _) hseen pos).bind ?_
  rintro _ rfl
  exact (admits_of_readsAt fun pos => readsAt_nat pos x.flags.bits.toNat_lt).bind fun _ _ =>
    (admits_of_readsAt (Prefixed.readsAt_read hname)).bind fun _ _ =>
      (admits_of_readsAt (readsAt_readSignature hsignature)).bind fun _ _ =>
        (admits_readBody hlength _).bind_nil fun _ _ => admits_pure rfl

theorem admits_methods {methods : List MethodDef}
    (hwrite : writeTable (writeMethod m) methods = .ok bytes)
    (hrow : ∀ x ∈ methods, x.token.row ≠ 0)
    (hnodup : ((methods.map fun x => x.token.row).reverse ++ seen).Nodup) (origin : Nat) :
    (readTable (readMethod origin) seen).Admits bytes
      fun p => p.2 = (methods.map fun x => x.token.row).reverse ++ seen := by
  refine admits_readTable (fun before => (before.map fun x => x.token.row).reverse ++ seen) hwrite ?_
  intro before x after hsplit chunk hchunk
  have hmem : x ∈ methods := by simp [hsplit]
  rw [reverse_map_concat]
  exact admits_readMethod hchunk (hrow x hmem)
    (not_mem_rows (fun x => x.token.row) hsplit hnodup) origin

theorem admits_readType {seen : Seen} (hwrite : writeType m t = .ok bytes)
    (htables : ∀ f ∈ t.fields, f.token.table = Token.fieldDef)
    (hrows : (∀ f ∈ t.fields, f.token.row ≠ 0) ∧ ∀ x ∈ t.methods, x.token.row ≠ 0)
    (hfields : ((t.fields.map fun f => f.token.row).reverse ++ seen.fieldRows).Nodup)
    (hmethods : ((t.methods.map fun x => x.token.row).reverse ++ seen.methodRows).Nodup)
    (origin : Nat) :
    (readType origin seen).Admits bytes fun p => p.2 = ⟨seen.types + 1,
      (t.fields.map fun f => f.token.row).reverse ++ seen.fieldRows,
      (t.methods.map fun x => x.token.row).reverse ++ seen.methodRows⟩ := by
  obtain ⟨name, hname, h⟩ := bind_eq_ok.mp hwrite
  obtain ⟨fields, hfieldBytes, h⟩ := bind_eq_ok.mp h
  obtain ⟨methods, hmethodBytes, h⟩ := bind_eq_ok.mp h
  cases h
  refine (admits_of_readsAt (readsAt_flags t.flags)).bind fun _ _ =>
    (admits_of_readsAt (Prefixed.readsAt_read hname)).bind fun _ _ =>
      (admits_of_readsAt (readsAt_fields hfieldBytes htables hrows.1 hfields)).bind ?_
  rintro _ rfl
  refine (admits_methods hmethodBytes hrows.2 hmethods origin).bind_nil ?_
  rintro ⟨methods', _⟩ rfl
  exact admits_pure rfl

end Image

namespace Module

/-- The rows of the fields are unique and not zero, and so are those of the methods. -/
structure RowsStorable (m : Module) : Prop where
  fieldRows : (m.fields.map fun f => f.token.row).Nodup
  methodRows : (m.methods.map fun x => x.token.row).Nodup
  fields : ∀ f ∈ m.fields, f.token.row ≠ 0
  methods : ∀ x ∈ m.methods, x.token.row ≠ 0

variable {m : Module} {bytes : Bytes}

theorem RowsStorable.admits_types (hrows : m.RowsStorable) (hm : m.WellFormed)
    (hwrite : Image.writeTable (Image.writeType m) m.types = .ok bytes) (origin : Nat) :
    (Image.readTable (Image.readType origin) ⟨0, [], []⟩).Admits bytes
      fun p => p.2 = Image.seenAfter m.types := by
  refine Image.admits_readTable Image.seenAfter hwrite ?_
  intro before t after hsplit chunk hchunk
  have ht : t ∈ m.types := by simp [hsplit]
  rw [Image.seenAfter_concat]
  exact Image.admits_readType hchunk (hm.members t ht).fields
    ⟨fun f hf => hrows.fields f (List.mem_flatMap.mpr ⟨t, ht, hf⟩),
      fun x hx => hrows.methods x (List.mem_flatMap.mpr ⟨t, ht, hx⟩)⟩
    (Image.nodup_rows _ _ hsplit hrows.fieldRows) (Image.nodup_rows _ _ hsplit hrows.methodRows)
    origin

/-- An image is not rejected because of the rows of the definitions that were written. -/
theorem RowsStorable.sparesRows_load (hrows : m.RowsStorable) (hm : m.WellFormed)
    (hbytes : m.toBytes = .ok bytes) (origin : Nat) : SparesRows (load origin bytes) := by
  rw [load_of_write hbytes]
  obtain ⟨name, types, typeRefs, memberRefs, userStrings, hname, htypes, -, -, -, rfl⟩ :=
    Image.write_eq_ok hbytes
  rw [Image.read, parse, Input.ofBytes, Image.readModule,
    Step.bind_ok (Image.readsAt_readPreamble 0 _), Step.bind_ok (Prefixed.readsAt_read hname _ _)]
  -- What follows the types has no rows of its own.
  refine (hrows.admits_types hm htypes origin).spares_bind (fun types => ?_) _ _
  refine (Image.sparesRows_readTable Image.sparesRows_readTypeRef 0).bind fun typeRefs =>
    (Image.sparesRows_readTable (Image.sparesRows_readMemberRef _) 0).bind fun memberRefs =>
      (Image.sparesRows_readRows Prefixed.sparesRows_read).bind fun userStrings =>
        sparesRows_remaining.bind fun left => ?_
  split
  · exact sparesRows_fail rfl
  · exact sparesRows_pure _

end Module

end CilEdit
