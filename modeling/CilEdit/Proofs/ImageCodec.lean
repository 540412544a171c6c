import CilEdit.Proofs.BodyRoundTrip
import CilEdit.Proofs.Loading
import CilEdit.Proofs.TextCodec

namespace CilEdit.Image

open Reader

variable {α σ : Type} {pos : Nat} {bytes : Bytes}

/-- The chunks are what the rows of a table are read from, on states from `s` to `last`. -/
inductive Rows (row : σ → Reader (α × σ)) : σ → List Bytes → List α → σ → Prop
  | nil (s : σ) : Rows row s [] [] s
  | cons {s next last : σ} {chunk : Bytes} {chunks : List Bytes} {a : α} {rows : List α}
      (head : ∀ pos, ReadsAt (row s) pos chunk (a, next)) (tail : Rows row next chunks rows last) :
      Rows row s (chunk :: chunks) (a :: rows) last

variable {row : σ → Reader (α × σ)} {s last : σ} {chunks : List Bytes} {rows : List α}

theorem Rows.length_eq (h : Rows row s chunks rows last) : chunks.length = rows.length := by
  induction h with
  | nil s => rfl
  | cons _ _ ih => rw [List.length_cons, List.length_cons, ih]

theorem Rows.readsAt_iterate (h : Rows row s chunks rows last) (pos : Nat) (seen : List α) :
    ReadsAt (iterate (readNext row) rows.length (seen, s)) pos chunks.flatten
      (rows.reverse ++ seen, last) := by
  induction h generalizing pos seen with
  | nil s => exact readsAt_pure pos (seen, s)
  | @cons s next last chunk chunks a rows head _ ih =>
      have hstep : ReadsAt (readNext row (seen, s)) pos chunk (a :: seen, next) :=
        (head pos).bind_nil (readsAt_pure _ _)
      rw [List.reverse_cons, List.append_assoc]
      exact hstep.bind (ih _ (a :: seen))

theorem length_le_length_flatten {chunks : List Bytes} (h : ∀ chunk ∈ chunks, chunk ≠ []) :
    chunks.length ≤ chunks.flatten.length := by
  induction chunks with
  | nil => exact Nat.le_refl _
  | cons chunk chunks ih =>
      have hpos := List.length_pos_iff.mpr (h chunk List.mem_cons_self)
      have hle := ih fun c hc => h c (List.mem_cons_of_mem chunk hc)
      rw [List.flatten_cons, List.length_append, List.length_cons]
      omega

/-- The count of a table is read: rows that take a byte each are no more than the bytes left. -/
theorem readCount_flatten {count : Nat} {chunks : List Bytes} (hcount : count < UInt32.size)
    (hlength : chunks.length = count) (hchunks : ∀ chunk ∈ chunks, chunk ≠ []) (pos : Nat)
    (rest : Bytes) :
    readCount ⟨pos, Bytes.ofNat 4 count ++ chunks.flatten ++ rest⟩
      = (.ok count, ⟨pos + 4, chunks.flatten ++ rest⟩) := by
  have hnat := readsAt_nat pos (show count < Bytes.capacity 4 from hcount) (chunks.flatten ++ rest)
  have hholds : Bytes.holds (chunks.flatten ++ rest) count = true := by
    rw [Bytes.holds_iff, List.length_append, ← hlength]
    exact Nat.le_trans (length_le_length_flatten hchunks) (Nat.le_add_right _ _)
  rw [Bytes.length_ofNat] at hnat
  have hrequire : require count (Malformed.tableCount count) ⟨pos + 4, chunks.flatten ++ rest⟩
      = (.ok (), ⟨pos + 4, chunks.flatten ++ rest⟩) := by
    simp only [require, if_pos hholds]
  rw [List.append_assoc, readCount, Step.bind_ok hnat, Step.bind_ok hrequire]
  rfl

theorem Rows.readsAt_readTable (h : Rows row s chunks rows last)
    (hcount : rows.length < UInt32.size) (hchunks : ∀ chunk ∈ chunks, chunk ≠ []) (pos : Nat) :
    ReadsAt (readTable row s) pos (Bytes.ofNat 4 rows.length ++ chunks.flatten) (rows, last) := by
  intro rest
  have hloop := h.readsAt_iterate (pos + 4) [] rest
  rw [List.append_nil] at hloop
  rw [readTable, Step.bind_ok (readCount_flatten hcount h.length_eq hchunks pos rest),
    Step.bind_ok hloop]
  change (Except.ok (rows.reverse.reverse, last), _) = _
  rw [List.reverse_reverse, List.length_append, Bytes.length_ofNat, Nat.add_assoc]

theorem failsAt_readTable {count : Nat} {e : Error} (hcount : count < UInt32.size)
    (hlength : chunks.length = count) (hchunks : ∀ chunk ∈ chunks, chunk ≠ []) (pos : Nat)
    (h : FailsAt (iterate (readNext row) count ([], s)) (pos + 4) chunks.flatten e) :
    FailsAt (readTable row s) pos (Bytes.ofNat 4 count ++ chunks.flatten) e := by
  intro rest
  obtain ⟨next, hnext⟩ := h rest
  refine ⟨next, ?_⟩
  rw [readTable, Step.bind_ok (readCount_flatten hcount hlength hchunks pos rest),
    Step.bind_error hnext]

theorem writeTable_eq_ok {write : α → Except Error Bytes} (h : writeTable write rows = .ok bytes) :
    rows.length < UInt32.size ∧ ∃ chunks, rows.mapM write = .ok chunks ∧
      bytes = Bytes.ofNat 4 rows.length ++ chunks.flatten := by
  unfold writeTable at h
  split at h
  · rename_i hcount
    obtain ⟨chunks, hchunks, rfl⟩ := map_eq_ok.mp h
    exact ⟨hcount, chunks, hchunks, rfl⟩
  · cases h

theorem writeTable_congr {write write' : α → Except Error Bytes} {rows' : List α}
    (h : List.Forall₂ (fun a a' => write' a' = write a) rows rows') :
    writeTable write' rows' = writeTable write rows := by
  have hmap : rows'.mapM write' = rows.mapM write := by
    induction h with
    | nil => rfl
    | cons hhead _ ih => rw [List.mapM_cons, List.mapM_cons, hhead, ih]
  rw [writeTable, writeTable, hmap, h.length_eq]

/-- The rows are read one after the other; `state` is what the rows read so far leave. -/
theorem exists_rows {write : α → Except Error Bytes} {R : α → α → Prop} (state : List α → σ)
    (hrow : ∀ before a after, rows = before ++ a :: after → ∀ chunk, write a = .ok chunk →
      ∃ a', (∀ pos, ReadsAt (row (state before)) pos chunk (a', state (before ++ [a]))) ∧ R a a')
    {before after : List α} (hsplit : rows = before ++ after)
    (hchunks : after.mapM write = .ok chunks) :
    ∃ after', Rows row (state before) chunks after' (state rows) ∧ List.Forall₂ R after after' := by
  subst hsplit
  rw [mapM_eq_ok_iff] at hchunks
  -- The rows before stay in sight, since the state that a row is read on depends on them.
  generalize hall : before ++ after = rows at hrow ⊢
  induction hchunks generalizing before with
  | nil =>
      rw [List.append_nil] at hall
      subst hall
      exact ⟨[], .nil _, .nil⟩
  | @cons a chunk after chunks hwrite _ ih =>
      obtain ⟨a', hread, hrel⟩ := hrow before a after hall.symm chunk hwrite
      have hnext : before ++ [a] ++ after = rows := by
        rw [List.append_assoc]
        exact hall
      obtain ⟨after', hrows, hrels⟩ := ih hnext
      exact ⟨a' :: after', .cons hread hrows, .cons hrel hrels⟩

theorem exists_readsAt_readTable {write : α → Except Error Bytes} {R : α → α → Prop}
    (state : List α → σ) (hwrite : writeTable write rows = .ok bytes)
    (hne : ∀ a ∈ rows, ∀ chunk, write a = .ok chunk → chunk ≠ [])
    (hrow : ∀ before a after, rows = before ++ a :: after → ∀ chunk, write a = .ok chunk →
      ∃ a', (∀ pos, ReadsAt (row (state before)) pos chunk (a', state (before ++ [a]))) ∧ R a a') :
    ∃ rows', (∀ pos, ReadsAt (readTable row (state [])) pos bytes (rows', state rows)) ∧
      List.Forall₂ R rows rows' := by
  obtain ⟨hcount, chunks, hchunks, rfl⟩ := writeTable_eq_ok hwrite
  obtain ⟨rows', hrows, hrel⟩ := exists_rows state hrow (List.nil_append rows).symm hchunks
  refine ⟨rows', ?_, hrel⟩
  intro pos
  have hcount' : rows'.length < UInt32.size := by
    rwa [← hrel.length_eq]
  rw [hrel.length_eq]
  apply hrows.readsAt_readTable hcount'
  intro chunk hmem
  obtain ⟨a, ha, hchunk⟩ := exists_of_mem_mapM hchunks hmem
  exact hne a ha chunk hchunk

theorem readsAt_readTable {write : α → Except Error Bytes} (state : List α → σ)
    (hwrite : writeTable write rows = .ok bytes)
    (hne : ∀ a ∈ rows, ∀ chunk, write a = .ok chunk → chunk ≠ [])
    (hrow : ∀ before a after, rows = before ++ a :: after → ∀ chunk, write a = .ok chunk →
      ∀ pos, ReadsAt (row (state before)) pos chunk (a, state (before ++ [a]))) (pos : Nat) :
    ReadsAt (readTable row (state [])) pos bytes (rows, state rows) := by
  obtain ⟨rows', hread, heq⟩ := exists_readsAt_readTable (R := Eq) state hwrite hne
    fun before a after hsplit chunk hchunk => ⟨a, hrow before a after hsplit chunk hchunk, rfl⟩
  rw [List.forall₂_eq_eq_eq] at heq
  subst heq
  exact hread pos

theorem ne_nil_of_prefixed {text : String} {stored : Bytes} (h : Prefixed.bytes text = .ok stored) :
    stored ≠ [] := by
  simp only [Prefixed.bytes] at h
  split at h
  · cases h
    rw [Varint.bytes]
    split <;> exact List.cons_ne_nil _ _
  · cases h

theorem itemsAt_prefixed {texts : List String} {chunks : List Bytes}
    (h : texts.mapM Prefixed.bytes = .ok chunks) (pos : Nat) :
    ItemsAt Prefixed.read pos chunks texts := by
  rw [mapM_eq_ok_iff] at h
  induction h generalizing pos with
  | nil => exact .nil pos
  | cons hhead _ ih => exact .cons (Prefixed.readsAt_read hhead pos) (ih _)

theorem ne_nil_of_mem_prefixed {texts : List String} {chunks : List Bytes}
    (h : texts.mapM Prefixed.bytes = .ok chunks) : ∀ chunk ∈ chunks, chunk ≠ [] := by
  intro chunk hchunk
  obtain ⟨text, -, htext⟩ := exists_of_mem_mapM h hchunk
  exact ne_nil_of_prefixed htext

theorem readsAt_readRows {texts : List String} (h : writeTable Prefixed.bytes texts = .ok bytes)
    (pos : Nat) : ReadsAt (readRows Prefixed.read) pos bytes texts := by
  obtain ⟨hcount, chunks, hchunks, rfl⟩ := writeTable_eq_ok h
  intro rest
  have hlength := (mapM_eq_ok_iff.mp hchunks).length_eq.symm
  rw [readRows, Step.bind_ok (readCount_flatten hcount hlength (ne_nil_of_mem_prefixed hchunks) pos
    rest), (itemsAt_prefixed hchunks _).readsAt_times rest, List.length_append, Bytes.length_ofNat,
    Nat.add_assoc]

theorem writeSignature_eq_ok {sig : Signature} (h : writeSignature sig = .ok bytes) :
    sig.params.length < UInt32.size ∧ ∃ params returnType,
      sig.params.mapM Prefixed.bytes = .ok params ∧
      Prefixed.bytes sig.returnType = .ok returnType ∧
      bytes = UInt8.ofNat sig.hasThis.toNat :: (Varint.bytes sig.params.length
        ++ (params.flatten ++ returnType)) := by
  unfold writeSignature at h
  by_cases hcount : sig.params.length < UInt32.size
  · rw [if_pos hcount] at h
    obtain ⟨params, hparams, h⟩ := bind_eq_ok.mp h
    obtain ⟨returnType, hreturnType, h⟩ := bind_eq_ok.mp h
    exact ⟨hcount, params, returnType, hparams, hreturnType, (Except.ok.inj h).symm⟩
  · rw [if_neg hcount] at h
    cases h

theorem readsAt_readSignature {sig : Signature} (h : writeSignature sig = .ok bytes) (pos : Nat) :
    ReadsAt readSignature pos bytes sig := by
  obtain ⟨hcount, params, returnType, hparams, hreturnType, rfl⟩ := writeSignature_eq_ok h
  rw [← List.singleton_append]
  refine (readsAt_byte pos _).bind ?_
  have hflag : ¬ (UInt8.ofNat sig.hasThis.toNat).toNat > 1 := by
    cases sig.hasThis <;> decide
  have hthis : (UInt8.ofNat sig.hasThis.toNat == 1) = sig.hasThis := by
    cases sig.hasThis <;> rfl
  rw [if_neg hflag, hthis]
  refine (Varint.readsAt_read hcount _).bind (readsAt_require_bind ?_ ?_)
  · rw [List.length_append, (mapM_eq_ok_iff.mp hparams).length_eq]
    exact Nat.le_trans (length_le_length_flatten (ne_nil_of_mem_prefixed hparams))
      (Nat.le_add_right _ _)
  · refine (itemsAt_prefixed hparams _).readsAt_times.bind ?_
    exact (Prefixed.readsAt_read hreturnType _).bind_nil (readsAt_pure _ _)

theorem readsAt_readRow {table row : Nat} {seen : List Nat} (hpos : 0 < row)
    (hrow : row ≤ Token.maxRow) (hseen : row ∉ seen) (pos : Nat) :
    ReadsAt (readRow table seen) pos (Bytes.ofNat 4 row) row := by
  have hcapacity : row < Bytes.capacity 4 := Nat.lt_of_le_of_lt hrow (by decide)
  have hvalid : ¬ (row = 0 ∨ Token.maxRow < row ∨ row ∈ seen) := by
    rintro (hzero | hlarge | hmem)
    · omega
    · omega
    · exact hseen hmem
  refine (readsAt_nat pos hcapacity).bind_nil ?_
  rw [if_neg hvalid]
  exact readsAt_pure _ _

theorem row_le_maxRow (t : Token) : t.row ≤ Token.maxRow :=
  Nat.le_of_lt_succ (Nat.mod_lt _ (by decide))

theorem readsAt_flags (flags : UInt32) (pos : Nat) :
    ReadsAt (nat 4) pos (Bytes.ofNat 4 flags.toNat) flags.toNat :=
  readsAt_nat pos flags.toNat_lt

theorem readsAt_readField {f : FieldDef} {seen : List Nat} (hwrite : writeField f = .ok bytes)
    (htable : f.token.table = Token.fieldDef) (hrow : f.token.row ≠ 0)
    (hseen : f.token.row ∉ seen) (pos : Nat) :
    ReadsAt (readField seen) pos bytes (f, f.token.row :: seen) := by
  obtain ⟨name, hname, h⟩ := bind_eq_ok.mp hwrite
  obtain ⟨type, htype, h⟩ := bind_eq_ok.mp h
  cases h
  refine (readsAt_readRow (Nat.pos_of_ne_zero hrow) (row_le_maxRow _) hseen pos).bind ?_
  refine (readsAt_flags _ _).bind ((Prefixed.readsAt_read hname _).bind ?_)
  refine (Prefixed.readsAt_read htype _).bind_nil ?_
  rw [← htable, Token.ofParts_table_row, UInt32.ofNat_toNat]
  exact readsAt_pure _ _

end CilEdit.Image

namespace CilEdit

/-- What a method is read back as: a body that was never opened keeps its bytes, an edited one comes
back as it was laid out, and a method without a body still has none. -/
structure MethodDef.Restores (x x' : MethodDef) : Prop where
  token : x'.token = x.token
  flags : x'.flags = x.flags
  name : x'.name = x.name
  signature : x'.signature = x.signature
  untouched : ∀ raw, x.raw = some raw → x'.raw = some raw ∧
    ∃ id b', x'.body = some b' ∧ Body.decode id raw = .ok b'
  edited : x.raw = none → ∀ b, x.body = some b → ∃ l layout b', b.listing = .ok l ∧
    Layout.make l.code = .ok layout ∧ x'.body = some b' ∧ b.Restores b' layout
  absent : x.body = none → x'.body = none ∧ x'.raw = none

/-- The method that is read back is stored with the bytes that were written for it. -/
structure MethodDef.Rereads (m : Module) (x x' : MethodDef) : Prop extends x.Restores x' where
  stored : ∀ m', Image.storedBody m' x' = Image.storedBody m x

theorem MethodDef.Rereads.write_eq {m : Module} {x x' : MethodDef} (h : x.Rereads m x')
    (m' : Module) : Image.writeMethod m' x' = Image.writeMethod m x := by
  rw [Image.writeMethod, Image.writeMethod, h.name, h.signature, h.token, h.flags, h.stored]

structure MethodDef.Storable (x : MethodDef) : Prop where
  row : x.token.row ≠ 0
  edited : x.raw = none → ∀ b, x.body = some b → b.Encodable

theorem MethodFlags.ofBits_bits (f : MethodFlags) : ofBits f.bits = f := by
  cases f with
  | mk bits known => simp only [ofBits, known]

namespace Image

open Reader

variable {m : Module} {x : MethodDef} {bytes stored : Bytes} {seen : List Nat}

theorem readsAt_readBody_none (id : BodyId) (pos : Nat) :
    ReadsAt (readBody id) pos (Bytes.ofNat 4 0) none :=
  (readsAt_nat pos (by decide)).bind_nil (readsAt_pure _ _)

theorem readsAt_readBody_some {id : BodyId} {b : Body} (hlength : stored.length < UInt32.size)
    (hdecode : Body.decode id stored = .ok b) (pos : Nat) :
    ReadsAt (readBody id) pos (Bytes.ofNat 4 stored.length ++ stored) (some (stored, b)) := by
  have hne : stored.length ≠ 0 := by
    intro hzero
    rw [List.length_eq_zero_iff.mp hzero] at hdecode
    exact Body.decode_nil hdecode
  refine (readsAt_nat pos hlength).bind ?_
  rw [if_neg hne]
  refine (readsAt_take _ stored).bind_nil (readsAt_ofExcept_bind hdecode ?_)
  exact readsAt_pure _ _

theorem restores_untouched {raw : Bytes} {id : BodyId} {b : Body} (hx : x.WellFormed)
    (hraw : x.raw = some raw) (hdecode : Body.decode id raw = .ok b) :
    x.Restores { x with body := some b, raw := some raw } := by
  refine ⟨rfl, rfl, rfl, rfl, ?_, ?_, ?_⟩
  · intro raw' hraw'
    rw [hraw] at hraw'
    cases hraw'
    exact ⟨rfl, id, b, rfl, hdecode⟩
  · intro hnone
    rw [hraw] at hnone
    cases hnone
  · intro hnone
    obtain ⟨id', b', hbody, -⟩ := hx.stored raw hraw
    rw [hbody] at hnone
    cases hnone

theorem restores_edited {b b' : Body} {layout : Layout} (hraw : x.raw = none)
    (hbody : x.body = some b) (hlisting : b.listing = .ok b.ranked)
    (hmake : Layout.make b.ranked.code = .ok layout) (hb' : b.Restores b' layout)
    (stored : Bytes) : x.Restores { x with body := some b', raw := some stored } := by
  refine ⟨rfl, rfl, rfl, rfl, ?_, ?_, ?_⟩
  · intro raw hsome
    rw [hraw] at hsome
    cases hsome
  · intro _ k hk
    rw [hbody] at hk
    cases hk
    exact ⟨b.ranked, layout, b', hlisting, hmake, rfl, hb'⟩
  · intro hnone
    rw [hbody] at hnone
    cases hnone

theorem restores_absent (hraw : x.raw = none) (hbody : x.body = none) :
    x.Restores { x with body := none, raw := none } := by
  refine ⟨rfl, rfl, rfl, rfl, ?_, ?_, fun _ => ⟨rfl, rfl⟩⟩
  · intro raw hsome
    rw [hraw] at hsome
    cases hsome
  · intro _ b hsome
    rw [hbody] at hsome
    cases hsome

theorem exists_readsAt_readBody (hx : x.WellFormed) (hstorable : x.Storable)
    (hstored : storedBody m x = .ok stored) (hlength : stored.length < UInt32.size) (id : BodyId) :
    ∃ found, (∀ pos, ReadsAt (readBody id) pos (Bytes.ofNat 4 stored.length ++ stored) found) ∧
      x.Restores { x with body := found.map Prod.snd, raw := found.map Prod.fst } ∧
      (found.map Prod.fst).getD [] = stored := by
  cases hraw : x.raw with
  | some raw =>
      obtain ⟨id', b, -, hdecode⟩ := hx.stored raw hraw
      -- The bytes were decoded once; under a new identity they still can be.
      obtain ⟨b', hdecode'⟩ := Body.exists_decode hdecode id
      simp only [storedBody, hraw] at hstored
      obtain rfl := Except.ok.inj hstored
      exact ⟨some (raw, b'), readsAt_readBody_some hlength hdecode',
        restores_untouched hx hraw hdecode', rfl⟩
  | none =>
      cases hbody : x.body with
      | some b =>
          have hb := hstorable.edited hraw b hbody
          simp only [storedBody, hraw, hbody] at hstored
          obtain ⟨final, header, code, hmake, hfinal, -, -, hdecode, -⟩ :=
            hb.decode_eq hstored id
          exact ⟨some (stored, _), readsAt_readBody_some hlength hdecode,
            restores_edited hraw hbody hb.linked.listing_eq hmake
              (Body.restores_ofListing hb hfinal id _) stored, rfl⟩
      | none =>
          simp only [storedBody, hraw, hbody] at hstored
          cases hstored
          refine ⟨none, ?_, restores_absent hraw hbody, rfl⟩
          intro pos
          rw [List.length_nil, List.append_nil]
          exact readsAt_readBody_none id pos

theorem storedBody_found (m : Module) (x : MethodDef) (found : Option (Bytes × Body)) :
    storedBody m { x with body := found.map Prod.snd, raw := found.map Prod.fst }
      = .ok ((found.map Prod.fst).getD []) := by
  cases found <;> rfl

theorem writeMethod_eq_ok (h : writeMethod m x = .ok bytes) :
    ∃ name signature stored, Prefixed.bytes x.name = .ok name ∧
      writeSignature x.signature = .ok signature ∧ storedBody m x = .ok stored ∧
      stored.length < UInt32.size ∧
      bytes = Bytes.ofNat 4 x.token.row ++ (Bytes.ofNat 2 x.flags.bits.toNat ++ (name
        ++ (signature ++ (Bytes.ofNat 4 stored.length ++ stored)))) := by
  obtain ⟨name, hname, h⟩ := bind_eq_ok.mp h
  obtain ⟨signature, hsignature, h⟩ := bind_eq_ok.mp h
  obtain ⟨stored, hstored, h⟩ := bind_eq_ok.mp h
  by_cases hlength : stored.length < UInt32.size
  · rw [if_pos hlength] at h
    exact ⟨name, signature, stored, hname, hsignature, hstored, hlength, (Except.ok.inj h).symm⟩
  · rw [if_neg hlength] at h
    cases h

/-- A method is read back, and what it is read back as is stored in the same way. -/
theorem exists_readsAt_readMethod (hwrite : writeMethod m x = .ok bytes) (hx : x.WellFormed)
    (hstorable : x.Storable) (origin : Nat) :
    ∃ x', (∀ seen, x.token.row ∉ seen → ∀ pos,
        ReadsAt (readMethod origin seen) pos bytes (x', x.token.row :: seen)) ∧
      x.Rereads m x' := by
  obtain ⟨name, signature, stored, hname, hsignature, hstored, hlength, rfl⟩ :=
    writeMethod_eq_ok hwrite
  obtain ⟨found, hfound, hrestores, hsame⟩ :=
    exists_readsAt_readBody hx hstorable hstored hlength ⟨origin, x.token.row⟩
  refine ⟨_, ?_, hrestores, ?_⟩
  · intro seen hseen pos
    refine (readsAt_readRow (Nat.pos_of_ne_zero hstorable.row) (row_le_maxRow _) hseen pos).bind ?_
    refine (readsAt_nat _ x.flags.bits.toNat_lt).bind ?_
    refine (Prefixed.readsAt_read hname _).bind ((readsAt_readSignature hsignature _).bind ?_)
    refine (hfound _).bind_nil ?_
    rw [← hx.table, Token.ofParts_table_row, UInt16.ofNat_toNat, MethodFlags.ofBits_bits]
    exact readsAt_pure _ _
  · intro m'
    rw [storedBody_found, hsame, hstored]

theorem not_mem_rows {β : Type} (row : β → Nat) {rows before after : List β} {a : β}
    (hsplit : rows = before ++ a :: after) (hnodup : ((rows.map row).reverse ++ seen).Nodup) :
    row a ∉ (before.map row).reverse ++ seen := by
  subst hsplit
  rw [List.map_append, List.map_cons, List.reverse_append, List.reverse_cons, List.append_assoc,
    List.append_assoc, List.singleton_append] at hnodup
  exact (List.nodup_cons.mp (hnodup.sublist (List.sublist_append_right _ _))).1

theorem reverse_map_concat {β : Type} (row : β → Nat) (before : List β) (a : β) :
    ((before ++ [a]).map row).reverse ++ seen = row a :: ((before.map row).reverse ++ seen) := by
  rw [List.map_append, List.reverse_append]
  rfl

theorem ne_nil_of_ofNat {n : Nat} {rest : Bytes} : Bytes.ofNat 4 n ++ rest ≠ [] :=
  List.cons_ne_nil _ _

theorem readsAt_fields {fields : List FieldDef} (hwrite : writeTable writeField fields = .ok bytes)
    (htable : ∀ f ∈ fields, f.token.table = Token.fieldDef)
    (hrow : ∀ f ∈ fields, f.token.row ≠ 0)
    (hnodup : ((fields.map fun f => f.token.row).reverse ++ seen).Nodup) (pos : Nat) :
    ReadsAt (readTable readField seen) pos bytes
      (fields, (fields.map fun f => f.token.row).reverse ++ seen) := by
  refine readsAt_readTable (fun before => (before.map fun f => f.token.row).reverse ++ seen) hwrite
    ?_ ?_ pos
  · intro f _ chunk hchunk
    obtain ⟨name, -, h⟩ := bind_eq_ok.mp hchunk
    obtain ⟨type, -, h⟩ := bind_eq_ok.mp h
    cases h
    exact ne_nil_of_ofNat
  · intro before f after hsplit chunk hchunk pos
    have hmem : f ∈ fields := by simp [hsplit]
    rw [reverse_map_concat]
    exact readsAt_readField hchunk (htable f hmem) (hrow f hmem)
      (not_mem_rows (fun f => f.token.row) hsplit hnodup) pos

theorem exists_readsAt_methods {methods : List MethodDef}
    (hwrite : writeTable (writeMethod m) methods = .ok bytes)
    (hmethods : ∀ x ∈ methods, x.WellFormed)
    (hstorable : ∀ x ∈ methods, x.Storable)
    (hnodup : ((methods.map fun x => x.token.row).reverse ++ seen).Nodup) (origin : Nat) :
    ∃ methods', (∀ pos, ReadsAt (readTable (readMethod origin) seen) pos bytes
        (methods', (methods.map fun x => x.token.row).reverse ++ seen)) ∧
      List.Forall₂ (MethodDef.Rereads m) methods methods' := by
  refine exists_readsAt_readTable
    (fun before => (before.map fun x => x.token.row).reverse ++ seen) hwrite ?_ ?_
  · intro x _ chunk hchunk
    obtain ⟨name, signature, stored, -, -, -, -, rfl⟩ := writeMethod_eq_ok hchunk
    exact ne_nil_of_ofNat
  · intro before x after hsplit chunk hchunk
    have hmem : x ∈ methods := by simp [hsplit]
    obtain ⟨x', hread, hrereads⟩ :=
      exists_readsAt_readMethod hchunk (hmethods x hmem) (hstorable x hmem) origin
    refine ⟨x', fun pos => ?_, hrereads⟩
    rw [reverse_map_concat]
    exact hread _ (not_mem_rows (fun x => x.token.row) hsplit hnodup) pos

end Image

structure TypeDef.Restores (t t' : TypeDef) : Prop where
  token : t'.token = t.token
  flags : t'.flags = t.flags
  name : t'.name = t.name
  fields : t'.fields = t.fields
  methods : List.Forall₂ MethodDef.Restores t.methods t'.methods

/-- The type that is read back has the methods that were written, stored with the same bytes. -/
structure TypeDef.Rereads (m : Module) (t t' : TypeDef) : Prop where
  token : t'.token = t.token
  flags : t'.flags = t.flags
  name : t'.name = t.name
  fields : t'.fields = t.fields
  methods : List.Forall₂ (MethodDef.Rereads m) t.methods t'.methods

theorem TypeDef.Rereads.restores {m : Module} {t t' : TypeDef} (h : t.Rereads m t') :
    t.Restores t' :=
  ⟨h.token, h.flags, h.name, h.fields, h.methods.imp fun _ _ hx => hx.toRestores⟩

theorem TypeDef.Rereads.write_eq {m : Module} {t t' : TypeDef} (h : t.Rereads m t')
    (m' : Module) : Image.writeType m' t' = Image.writeType m t := by
  have hsame := Image.writeTable_congr (h.methods.imp fun _ _ hx => hx.write_eq m')
  rw [Image.writeType, Image.writeType, h.name, h.fields, h.flags, hsame]

structure TypeDef.Storable (t : TypeDef) : Prop where
  fields : ∀ f ∈ t.fields, f.token.row ≠ 0
  methods : ∀ x ∈ t.methods, x.Storable

namespace Image

open Reader

variable {m : Module} {bytes : Bytes} {types before after : List TypeDef} {t : TypeDef}

theorem exists_readsAt_readType {seen : Seen} (hwrite : writeType m t = .ok bytes)
    (ht : t.WellFormed) (hstorable : t.Storable)
    (htoken : t.token = .ofParts Token.typeDef (seen.types + 1))
    (hfields : ((t.fields.map fun f => f.token.row).reverse ++ seen.fieldRows).Nodup)
    (hmethods : ((t.methods.map fun x => x.token.row).reverse ++ seen.methodRows).Nodup)
    (origin : Nat) :
    ∃ t', (∀ pos, ReadsAt (readType origin seen) pos bytes (t', ⟨seen.types + 1,
        (t.fields.map fun f => f.token.row).reverse ++ seen.fieldRows,
        (t.methods.map fun x => x.token.row).reverse ++ seen.methodRows⟩)) ∧
      t.Rereads m t' := by
  obtain ⟨name, hname, h⟩ := bind_eq_ok.mp hwrite
  obtain ⟨fields, hfieldBytes, h⟩ := bind_eq_ok.mp h
  obtain ⟨methods, hmethodBytes, h⟩ := bind_eq_ok.mp h
  cases h
  obtain ⟨methods', hread, hrestored⟩ :=
    exists_readsAt_methods hmethodBytes ht.methods hstorable.methods hmethods origin
  refine ⟨{ t with methods := methods' }, ?_, rfl, rfl, rfl, rfl, hrestored⟩
  · intro pos
    refine (readsAt_flags t.flags pos).bind ((Prefixed.readsAt_read hname _).bind ?_)
    refine (readsAt_fields hfieldBytes ht.fields hstorable.fields hfields _).bind ?_
    refine (hread _).bind_nil ?_
    dsimp only
    rw [← htoken, UInt32.ofNat_toNat]
    exact readsAt_pure _ _

def seenAfter (types : List TypeDef) : Seen where
  types := types.length
  fieldRows := ((types.flatMap TypeDef.fields).map fun f => f.token.row).reverse
  methodRows := ((types.flatMap TypeDef.methods).map fun x => x.token.row).reverse

theorem seenAfter_concat (before : List TypeDef) (t : TypeDef) :
    seenAfter (before ++ [t]) = ⟨(seenAfter before).types + 1,
      (t.fields.map fun f => f.token.row).reverse ++ (seenAfter before).fieldRows,
      (t.methods.map fun x => x.token.row).reverse ++ (seenAfter before).methodRows⟩ := by
  simp only [seenAfter, List.flatMap_append, List.flatMap_singleton, List.map_append,
    List.reverse_append, List.length_append, List.length_singleton]

theorem nodup_rows {β : Type} (row : β → Nat) (members : TypeDef → List β)
    (hsplit : types = before ++ t :: after)
    (hnodup : ((types.flatMap members).map row).Nodup) :
    (((members t).map row).reverse ++ ((before.flatMap members).map row).reverse).Nodup := by
  subst hsplit
  rw [← List.reverse_append, (List.reverse_perm _).nodup_iff]
  refine hnodup.sublist ?_
  rw [List.flatMap_append, List.flatMap_cons, List.map_append, List.map_append, ← List.append_assoc]
  exact List.sublist_append_left _ _

theorem token_of_split {α : Type} {token : α → Token} {table : Nat} {rows before after : List α}
    {a : α} (htokens : rows.map token = Token.inOrder table rows.length)
    (hsplit : rows = before ++ a :: after) : token a = .ofParts table (before.length + 1) := by
  have ha : (rows.map token)[before.length]? = some (token a) := by simp [hsplit]
  rw [htokens] at ha
  exact (Token.getElem?_inOrder ha).2

theorem exists_readsAt_types (hwrite : writeTable (writeType m) types = .ok bytes)
    (htokens : types.map TypeDef.token = Token.inOrder Token.typeDef types.length)
    (htypes : ∀ t ∈ types, t.WellFormed) (hstorable : ∀ t ∈ types, t.Storable)
    (hfields : ((types.flatMap TypeDef.fields).map fun f => f.token.row).Nodup)
    (hmethods : ((types.flatMap TypeDef.methods).map fun x => x.token.row).Nodup) (origin : Nat) :
    ∃ types', (∀ pos, ReadsAt (readTable (readType origin) ⟨0, [], []⟩) pos bytes
        (types', seenAfter types)) ∧
      List.Forall₂ (TypeDef.Rereads m) types types' := by
  refine exists_readsAt_readTable seenAfter hwrite ?_ ?_
  · intro t _ chunk hchunk
    obtain ⟨name, -, h⟩ := bind_eq_ok.mp hchunk
    obtain ⟨fields, -, h⟩ := bind_eq_ok.mp h
    obtain ⟨methods, -, h⟩ := bind_eq_ok.mp h
    cases h
    exact ne_nil_of_ofNat
  · intro before t after hsplit chunk hchunk
    have hmem : t ∈ types := by simp [hsplit]
    rw [seenAfter_concat]
    exact exists_readsAt_readType hchunk (htypes t hmem) (hstorable t hmem)
      (token_of_split htokens hsplit) (nodup_rows _ _ hsplit hfields)
      (nodup_rows _ _ hsplit hmethods) origin

theorem readsAt_typeRefs {rows : List TypeRef} (hwrite : writeTable writeTypeRef rows = .ok bytes)
    (htokens : rows.map TypeRef.token = Token.inOrder Token.typeRef rows.length) (pos : Nat) :
    ReadsAt (readTable readTypeRef 0) pos bytes (rows, rows.length) := by
  refine readsAt_readTable List.length hwrite ?_ ?_ pos
  · intro r _ chunk hchunk
    obtain ⟨scope, hscope, h⟩ := bind_eq_ok.mp hchunk
    obtain ⟨name, -, h⟩ := bind_eq_ok.mp h
    cases h
    exact List.append_ne_nil_of_left_ne_nil (ne_nil_of_prefixed hscope) _
  · intro before r after hsplit chunk hchunk pos
    obtain ⟨scope, hscope, h⟩ := bind_eq_ok.mp hchunk
    obtain ⟨name, hname, h⟩ := bind_eq_ok.mp h
    cases h
    refine (Prefixed.readsAt_read hscope pos).bind ((Prefixed.readsAt_read hname _).bind_nil ?_)
    rw [← token_of_split htokens hsplit, List.length_append]
    exact readsAt_pure _ _

theorem readsAt_readMemberKind {kind : MemberKind} (h : writeMemberKind kind = .ok bytes)
    (pos : Nat) : ReadsAt (readMemberKind (kindByte kind)) pos bytes kind := by
  cases kind with
  | method signature => exact (readsAt_readSignature h pos).bind_nil (readsAt_pure _ _)
  | field type => exact (Prefixed.readsAt_read h pos).bind_nil (readsAt_pure _ _)

theorem writeMemberRef_eq_ok {r : MemberRef} (h : writeMemberRef r = .ok bytes) :
    ∃ name kind, Prefixed.bytes r.name = .ok name ∧ writeMemberKind r.kind = .ok kind ∧
      bytes = kindByte r.kind :: (Bytes.ofNat 4 r.parent.value.toNat ++ (name ++ kind)) := by
  obtain ⟨name, hname, h⟩ := bind_eq_ok.mp h
  obtain ⟨kind, hkind, h⟩ := bind_eq_ok.mp h
  exact ⟨name, kind, hname, hkind, (Except.ok.inj h).symm⟩

theorem ne_nil_of_memberRef {r : MemberRef} (h : writeMemberRef r = .ok bytes) : bytes ≠ [] := by
  obtain ⟨name, kind, -, -, rfl⟩ := writeMemberRef_eq_ok h
  exact List.cons_ne_nil _ _

theorem readsAt_readMemberRef {r : MemberRef} {typeRefs : Nat}
    (hwrite : writeMemberRef r = .ok bytes)
    (hparent : r.parent.isRowOf Token.typeRef typeRefs = true) (count pos : Nat) :
    ReadsAt (readMemberRef typeRefs count) pos bytes
      ({ r with token := .ofParts Token.memberRef (count + 1) }, count + 1) := by
  obtain ⟨name, kind, hname, hkind, rfl⟩ := writeMemberRef_eq_ok hwrite
  rw [← List.singleton_append]
  refine (readsAt_byte pos _).bind ((readsAt_flags r.parent.value _).bind ?_)
  rw [UInt32.ofNat_toNat]
  simp only [hparent, Bool.not_true, Bool.false_eq_true, if_false]
  refine (Prefixed.readsAt_read hname _).bind ((readsAt_readMemberKind hkind _).bind_nil ?_)
  exact readsAt_pure _ _

theorem readsAt_memberRefs {rows : List MemberRef} {typeRefs : Nat}
    (hwrite : writeTable writeMemberRef rows = .ok bytes)
    (htokens : rows.map MemberRef.token = Token.inOrder Token.memberRef rows.length)
    (hparents : ∀ r ∈ rows, r.parent.isRowOf Token.typeRef typeRefs = true) (pos : Nat) :
    ReadsAt (readTable (readMemberRef typeRefs) 0) pos bytes (rows, rows.length) := by
  refine readsAt_readTable List.length hwrite ?_ ?_ pos
  · intro r _ chunk hchunk
    exact ne_nil_of_memberRef hchunk
  · intro before r after hsplit chunk hchunk pos
    have hmem : r ∈ rows := by simp [hsplit]
    have hread := readsAt_readMemberRef hchunk (hparents r hmem) before.length pos
    rw [← token_of_split htokens hsplit] at hread
    rw [List.length_append]
    exact hread

theorem failsAt_readMemberRef {r : MemberRef} {typeRefs : Nat}
    (hwrite : writeMemberRef r = .ok bytes)
    (hparent : r.parent.isRowOf Token.typeRef typeRefs = false) (count pos : Nat) :
    FailsAt (readMemberRef typeRefs count) pos bytes (.malformed (.memberParent r.parent)) := by
  obtain ⟨name, kind, -, -, rfl⟩ := writeMemberRef_eq_ok hwrite
  rw [← List.singleton_append]
  refine (readsAt_byte pos _).bind_failsAt ((readsAt_flags r.parent.value _).bind_failsAt ?_)
  rw [UInt32.ofNat_toNat]
  simp only [hparent, Bool.not_false, if_true]
  exact (failsAt_bad _ _).append _

theorem exists_failsAt_iterate {rows : List MemberRef} {chunks : List Bytes} {typeRefs : Nat}
    (hwrite : List.Forall₂ (fun r chunk => writeMemberRef r = .ok chunk) rows chunks)
    (hparents : ∃ r ∈ rows, r.parent.isRowOf Token.typeRef typeRefs = false)
    (seen : List MemberRef) (count pos : Nat) :
    ∃ e, FailsAt (iterate (readNext (readMemberRef typeRefs)) rows.length (seen, count)) pos
      chunks.flatten e := by
  induction hwrite generalizing seen count pos with
  | nil =>
      obtain ⟨r, hr, -⟩ := hparents
      cases hr
  | @cons r chunk rows chunks hchunk _ ih =>
      cases hparent : r.parent.isRowOf Token.typeRef typeRefs with
      | false =>
          have hfails := (failsAt_readMemberRef hchunk hparent count pos).bind fun p =>
            (pure (p.1 :: seen, p.2) : Reader _)
          exact ⟨_, (hfails.bind _).append _⟩
      | true =>
          -- This row is read, so the one that is not comes later.
          have hrest : ∃ r ∈ rows, r.parent.isRowOf Token.typeRef typeRefs = false := by
            obtain ⟨bad, hmem, hbad⟩ := hparents
            rcases List.mem_cons.mp hmem with rfl | hmem
            · rw [hparent] at hbad
              cases hbad
            · exact ⟨bad, hmem, hbad⟩
          have hread : ReadsAt (readNext (readMemberRef typeRefs) (seen, count)) pos chunk _ :=
            (readsAt_readMemberRef hchunk hparent count pos).bind_nil (readsAt_pure _ _)
          obtain ⟨e, he⟩ := ih hrest _ _ _
          exact ⟨e, hread.bind_failsAt he⟩

/-- A row whose parent is no row of the imported types stops the reading of its table. -/
theorem exists_failsAt_memberRefs {rows : List MemberRef} {typeRefs : Nat}
    (hwrite : writeTable writeMemberRef rows = .ok bytes)
    (hparents : ∃ r ∈ rows, r.parent.isRowOf Token.typeRef typeRefs = false) (pos : Nat) :
    ∃ e, FailsAt (readTable (readMemberRef typeRefs) 0) pos bytes e := by
  obtain ⟨hcount, chunks, hchunks, rfl⟩ := writeTable_eq_ok hwrite
  have hall := mapM_eq_ok_iff.mp hchunks
  have hne : ∀ chunk ∈ chunks, chunk ≠ [] := by
    intro chunk hmem
    obtain ⟨r, -, hr⟩ := exists_of_mem_mapM hchunks hmem
    exact ne_nil_of_memberRef hr
  obtain ⟨e, he⟩ := exists_failsAt_iterate hall hparents [] 0 (pos + 4)
  exact ⟨e, failsAt_readTable hcount hall.length_eq.symm hne pos he⟩

end Image

end CilEdit
