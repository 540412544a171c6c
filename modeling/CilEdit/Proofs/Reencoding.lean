import CilEdit.Proofs.Locating
import CilEdit.Proofs.Serialization

namespace CilEdit

/-- The second header tells the same clauses and locals as the first one, and no less stack. -/
structure Header.Keeps (h h' : Header) : Prop where
  clauses : h'.clauses = h.clauses
  locals : h'.locals = h.locals
  initLocals : h'.initLocals = h.initLocals
  maxStack : h.maxStack ≤ h'.maxStack

namespace Body

variable {id : BodyId} {data out : Bytes} {b b' : Body} {header : Header} {codeSize p : Nat}
  {raws : List RawInstruction} {resolve : Resolver} {returnsValue : Bool}

theorem ReadFrom.raw_eq (hb : ReadFrom id header codeSize raws b)
    (hraws : Stream.Contiguous 0 raws) {e : Handle × Instruction Handle} {raw : RawInstruction}
    (he : b.entries[p]? = some e) (hraw : raws[p]? = some raw)
    (hsize : raw.offset + raw.size = raw.stop) :
    (Layout.ofCode b.ranked.code).raw p ⟨e.2.opcode, e.2.operand.map b.rank, none⟩ = raw := by
  have hget : b.ranked.code[p]? = some ⟨e.2.opcode, e.2.operand.map b.rank, none⟩ :=
    getElem?_ranked.trans (congrArg _ he)
  have hsame := forall₂_getElem? hb.sizes hraw hget
  rw [← hsize, Nat.add_left_cancel_iff] at hsame
  obtain ⟨hopcode, -, hoperand⟩ := linkInstruction_eq_ok (forall₂_getElem? hb.entries hraw he)
  have htargets := Operand.map_of_traverse (fun _ _ ht => hb.offset_target hraws ht) hoperand
  have hoffset := hb.offset_eq hraws hraw
  obtain ⟨offset, size, opcode, operand⟩ := raw
  rw [Layout.raw, hoffset, ← hsame, Operand.map_map]
  simp only [hopcode, Function.comp_def, htargets]

theorem length_raws (code : List (Instruction Nat)) : (Layout.raws code).length = code.length := by
  rw [Layout.raws, List.length_map, List.length_zipIdx]

theorem getElem?_raws (b : Body) (p : Nat) : (Layout.raws b.ranked.code)[p]?
    = b.entries[p]?.map fun e =>
      (Layout.ofCode b.ranked.code).raw p ⟨e.2.opcode, e.2.operand.map b.rank, none⟩ := by
  rw [Layout.raws, List.getElem?_map, List.getElem?_zipIdx, Nat.zero_add, getElem?_ranked,
    Option.map_map, Option.map_map]
  rfl

/-- The layout of a decoded body is the stream that it was read from. -/
theorem ReadFrom.raws_eq (hb : ReadFrom id header codeSize raws b)
    (hraws : Stream.Contiguous 0 raws) (hsizes : ∀ raw ∈ raws, raw.offset + raw.size = raw.stop) :
    Layout.raws b.ranked.code = raws := by
  refine List.ext_getElem? fun p => ?_
  rw [getElem?_raws]
  cases he : b.entries[p]? with
  | some e =>
      obtain ⟨raw, hraw, -⟩ := hb.exists_raw he
      rw [hraw]
      exact congrArg some (hb.raw_eq hraws he hraw (hsizes raw (List.mem_of_getElem? hraw)))
  | none =>
      rw [List.getElem?_eq_none_iff, ← hb.entries.length_eq] at he
      rw [List.getElem?_eq_none he]
      rfl

theorem clause_eq_ok {l : Layout} {k : Handler Nat} {tryRange handlerRange : UInt32 × UInt32}
    (htry : l.range k.tryStart k.tryEnd = .ok tryRange)
    (hhandler : l.range k.handlerStart k.handlerEnd = .ok handlerRange)
    {classOrFilter : UInt32} (hfilter : classOrFilter = match k.filterStart with
      | some filter =>
        if k.flags.isFilter then UInt32.ofNat (l.offset filter) else k.classToken.value
      | none => k.classToken.value) :
    l.clause k = .ok ⟨k.flags, tryRange.1, tryRange.2, handlerRange.1, handlerRange.2,
      classOrFilter⟩ := by
  subst hfilter
  rw [Layout.clause, bind_of_ok htry]
  exact bind_of_ok hhandler

theorem add_of_linkEnd_none {starts : Std.HashMap Nat Nat} {offset length : UInt32}
    (h : linkEnd id starts codeSize offset length = .ok none) :
    offset.toNat + length.toNat = codeSize := by
  simp only [linkEnd] at h
  split at h
  · cases h
  · split at h
    · assumption
    · obtain ⟨t, -, hsome⟩ := map_eq_ok.mp h
      cases hsome

section

variable (hb : ReadFrom id header codeSize raws b) (hraws : Stream.Contiguous 0 raws)
  (hsize : codeSize = Layout.codeSize b.ranked.code)

include hb hraws hsize

/-- A region that was linked is laid out where it was. -/
theorem ReadFrom.range_eq {offset length : UInt32} {start : Handle} {stop : Option Handle}
    (hstart : linkStart id (slotsByOffset raws) offset = .ok start)
    (hstop : linkEnd id (slotsByOffset raws) codeSize offset length = .ok stop) :
    (Layout.ofCode b.ranked.code).range (b.rank start) (stop.map b.rank) = .ok (offset, length) := by
  have hfirst := hb.offset_rank hraws (linkedTo_of_linkStart hstart)
  have hlast : (Layout.ofCode b.ranked.code).offset
      ((stop.map b.rank).getD b.ranked.code.length) = offset.toNat + length.toNat := by
    cases stop with
    | none =>
        rw [add_of_linkEnd_none hstop, hsize]
        exact Layout.size_ofCode _
    | some e => exact hb.offset_rank hraws (linkedTo_of_linkEnd hstop e rfl)
  rw [Layout.range, Layout.code_ofCode, hfirst, hlast, if_pos (Nat.le_add_right _ _),
    Nat.add_sub_cancel_left, UInt32.ofNat_toNat, UInt32.ofNat_toNat]

/-- A handler becomes the clause that it was linked from. -/
theorem ReadFrom.clause_eq {c : Clause} {h : Handler Handle}
    (hh : linkClause id (slotsByOffset raws) codeSize c = .ok h) :
    (Layout.ofCode b.ranked.code).clause (h.map b.rank) = .ok c := by
  obtain ⟨tryStart, htryStart, hh⟩ := bind_eq_ok.mp hh
  obtain ⟨tryEnd, htryEnd, hh⟩ := bind_eq_ok.mp hh
  obtain ⟨handlerStart, hhandlerStart, hh⟩ := bind_eq_ok.mp hh
  obtain ⟨handlerEnd, hhandlerEnd, hh⟩ := bind_eq_ok.mp hh
  have htry := hb.range_eq hraws hsize htryStart htryEnd
  have hhandler := hb.range_eq hraws hsize hhandlerStart hhandlerEnd
  by_cases hfilter : c.flags.isFilter = true
  · simp only [if_pos hfilter] at hh
    obtain ⟨filter, hfilterStart, hh⟩ := bind_eq_ok.mp hh
    cases hh
    refine clause_eq_ok (k := .map b.rank ⟨c.flags, tryStart, tryEnd, handlerStart, handlerEnd,
      some filter, .null⟩) htry hhandler ?_
    simp only [Handler.map, Option.map_some, if_pos hfilter, UInt32.ofNat_toNat,
      hb.offset_rank hraws (linkedTo_of_linkStart hfilterStart)]
  · simp only [if_neg hfilter] at hh
    cases hh
    exact clause_eq_ok (k := .map b.rank ⟨c.flags, tryStart, tryEnd, handlerStart, handlerEnd,
      none, ⟨c.classOrFilter⟩⟩) htry hhandler rfl

theorem ReadFrom.clauses_eq :
    b.ranked.handlers.mapM (Layout.ofCode b.ranked.code).clause = .ok header.clauses := by
  rw [ranked, mapM_map, mapM_eq_ok_iff]
  exact hb.handlers.flip.imp fun _ _ hh => hb.clause_eq hraws hsize hh

end

/-- The second entry is the first one, or its handle is one of `hs` and it has another operand of
the same size and without targets. -/
def Rewritten (hs : List Handle) (e e' : Handle × Instruction Handle) : Prop :=
  e' = e ∨ e.1 ∈ hs ∧ e'.1 = e.1 ∧ e'.2.opcode = e.2.opcode ∧ e'.2.size = e.2.size ∧
    e'.2.operand.targets = []

theorem Rewritten.handle_eq {hs : List Handle} {e e' : Handle × Instruction Handle}
    (h : Rewritten hs e e') : e'.1 = e.1 ∧ e'.2.opcode = e.2.opcode ∧ e'.2.size = e.2.size := by
  rcases h with rfl | ⟨-, hhandle, hopcode, hsize, -⟩
  · exact ⟨rfl, rfl, rfl⟩
  · exact ⟨hhandle, hopcode, hsize⟩

/-- The second body is the first one, with operands written over those at some handles. -/
structure Rewrites (hs : List Handle) (b b' : Body) : Prop where
  rank : b'.rank = b.rank
  handlers : b'.handlers = b.handlers
  maxStack : b'.maxStack = b.maxStack
  locals : b'.locals = b.locals
  initLocals : b'.initLocals = b.initLocals
  entries : List.Forall₂ (Rewritten hs) b.entries b'.entries

variable {hs : List Handle}

theorem Rewrites.refl (hs : List Handle) (b : Body) : b.Rewrites hs b :=
  ⟨rfl, rfl, rfl, rfl, rfl, List.forall₂_same.mpr fun _ _ => .inl rfl⟩

theorem size_map {τ σ : Type} (f : τ → σ) (i : Instruction τ) (offset : Option Nat) :
    (⟨i.opcode, i.operand.map f, offset⟩ : Instruction σ).size = i.size := by
  rw [Instruction.size, Instruction.size, operand_size_map]

theorem Rewrites.code (hb : b.Rewrites hs b') :
    List.Forall₂ Instruction.Rewritten b.ranked.code b'.ranked.code := by
  rw [ranked, ranked, hb.rank, List.forall₂_map_left_iff, List.forall₂_map_right_iff]
  refine hb.entries.imp fun e e' he => ?_
  rcases he with rfl | ⟨-, -, -, hsize, htargets⟩
  · exact ⟨rfl, .inl rfl⟩
  · refine ⟨?_, .inr ?_⟩
    · rw [size_map, size_map, hsize]
    · rw [Operand.targets_map, htargets]
      rfl

theorem Rewrites.offset_eq (hb : b.Rewrites hs b') :
    (Layout.ofCode b'.ranked.code).offset = (Layout.ofCode b.ranked.code).offset :=
  Layout.offset_congr (hb.code.imp fun _ _ hij => hij.1)

theorem Rewrites.clause_eq (hb : b.Rewrites hs b') :
    (Layout.ofCode b'.ranked.code).clause = (Layout.ofCode b.ranked.code).clause := by
  have hoffset := hb.offset_eq
  have hlength := hb.code.length_eq
  funext k
  simp only [Layout.clause, Layout.range, Layout.code_ofCode, hoffset, hlength]

/-- What a body that was rewritten in place is encoded to: the clauses and locals are those that
were read, and the code is the stream of its layout. -/
theorem ReadFrom.encode_rewrites {code : Bytes} (hb : ReadFrom id header code.length raws b)
    (hstream : Stream.decode code = .ok raws) (hplaced : b.InPlace) (hb' : b.Rewrites hs b')
    (hencodable : b'.Encodable) (hout : b'.encode resolve returnsValue = .ok out) :
    ∃ header' code', Header.parse out = .ok header' ∧ header'.code out = .ok code' ∧
      header.Keeps header' ∧
      Stream.decode code' = .ok (Layout.raws b'.ranked.code) := by
  have hraws := Stream.contiguous_decode hstream
  have hsize : code.length = Layout.codeSize b.ranked.code :=
    (Stream.run_decode hstream).length_eq hb.sizes
  obtain ⟨l, header', code', hl, hassemble, hwrite⟩ := encode_eq_ok hout
  rw [hencodable.linked.listing_eq] at hl
  cases hl
  obtain ⟨layout, depth, clauses, hmake, hemit, -, hclauses, rfl⟩ :=
    Listing.assemble_eq_ok hassemble
  have hlayout := Layout.eq_of_make (hplaced.settled.rewritten hb'.code) hmake
  subst hlayout
  have hsame : b'.ranked.handlers = b.ranked.handlers := by
    rw [ranked, ranked, hb'.rank, hb'.handlers]
  rw [hb'.clause_eq, hsame, hb.clauses_eq hraws hsize] at hclauses
  cases hclauses
  obtain ⟨hlocals, hinitLocals, hclauses, -⟩ := Header.stored_spec _ code'
  have hparse := Header.parse_write hwrite []
  have hcode := Header.code_write hwrite []
  rw [List.append_nil] at hparse hcode
  refine ⟨_, code', hparse, hcode, ⟨hclauses, ?_, ?_, ?_⟩, ?_⟩
  · exact hlocals.trans (hb'.locals.trans hb.locals)
  · exact hinitLocals.trans (hb'.initLocals.trans hb.initLocals)
  · rw [← hb.maxStack, ← hb'.maxStack, UInt16.le_iff_toNat_le]
    refine Nat.le_trans ?_ (Header.maxStack_le_stored _ code')
    exact (Listing.le_max depth _).2
  · exact Layout.decode_emit hencodable.wellFormed.shape hemit

/-- Encoding a body as it was decoded keeps its code, clauses and locals, and declares no less
stack. -/
theorem reencode_decoded (h : decode id data = .ok b)
    (hout : b.encode resolve returnsValue = .ok out) :
    ∃ header header' code, Header.parse data = .ok header ∧ header.code data = .ok code ∧
      Header.parse out = .ok header' ∧ header'.code out = .ok code ∧ header.Keeps header' := by
  have hfresh := fresh_of_decode h
  obtain ⟨header, code, raws, hheader, hcode, hstream, hb⟩ := readFrom_of_decode h
  obtain ⟨header', code', hheader', hcode', hkeeps, hstream'⟩ :=
    hb.encode_rewrites hstream hfresh.inPlace (.refl [] b) hfresh.toEncodable hout
  rw [hb.raws_eq (Stream.contiguous_decode hstream) (Stream.run_decode hstream).sizes] at hstream'
  rw [← Stream.decode_inj hstream hstream'] at hcode'
  exact ⟨header, header', code, hheader, hcode, hheader', hcode', hkeeps⟩

/-- The size of the header, the form of the sections and what follows them do not matter. -/
theorem decode_congr {data' : Bytes} {header header' : Header}
    (hheader : Header.parse data = .ok header) (hheader' : Header.parse data' = .ok header')
    (hcode : header.code data = header'.code data') (hclauses : header.clauses = header'.clauses)
    (hrest : header.maxStack = header'.maxStack ∧ header.locals = header'.locals ∧
      header.initLocals = header'.initLocals) : decode id data = decode id data' := by
  rw [decode, decode, bind_of_ok hheader, bind_of_ok hheader', hcode, hclauses, hrest.1,
    hrest.2.1, hrest.2.2]

/-- The body with a filter, its clause in the fat form and a byte more at the end. -/
def spaciousBytes : Bytes :=
  [11, 48, 1, 0, 3, 0, 0, 0, 0, 0, 0, 0, 43, 0, 42, 0, 65, 28, 0, 0, 1, 0, 0, 0, 0, 0, 0, 0, 2, 0,
    0, 0, 2, 0, 0, 0, 1, 0, 0, 0, 2, 0, 0, 0, 99]

theorem decode_spacious (id : BodyId) : decode id spaciousBytes = decode id filteredBytes := by
  have hheader : Header.parse spaciousBytes = .ok ⟨12, 3, 1, .null, true, false,
      [⟨.ofBits 1, 0, 2, 2, 1, 2⟩]⟩ := by
    decide +kernel
  have hheader' : Header.parse filteredBytes = .ok ⟨12, 3, 1, .null, true, false,
      [⟨.ofBits 1, 0, 2, 2, 1, 2⟩]⟩ := by
    decide +kernel
  exact decode_congr hheader hheader' rfl rfl ⟨rfl, rfl, rfl⟩

theorem reencode_spacious :
    ∃ b, decode ⟨1, 7⟩ spaciousBytes = .ok b ∧
      b.encode (fun _ => none) false = .ok filteredBytes ∧
      ∃ header header' code, Header.parse spaciousBytes = .ok header ∧
        header.code spaciousBytes = .ok code ∧ Header.parse filteredBytes = .ok header' ∧
        header'.code filteredBytes = .ok code ∧ header.Keeps header' := by
  obtain ⟨final, header, code, -, -, -, -, hdecode, hagain⟩ :=
    (encodable_ofListing ⟨0, 0⟩ Listing.wellFormed_filtered).decode_eq (encode_filtered ⟨0, 0⟩) ⟨1, 7⟩
  rw [← decode_spacious] at hdecode
  exact ⟨_, hdecode, hagain, reencode_decoded hdecode hagain⟩

end Body

end CilEdit
