import CilEdit.Proofs.Scanning
import CilEdit.Proofs.StreamCodec

namespace CilEdit

/-- An instruction of the stream starts at the offset. -/
def StartsAt (raws : List RawInstruction) (offset : Int) : Prop :=
  ∃ raw ∈ raws, (raw.offset : Int) = offset

instance (raws : List RawInstruction) (offset : Int) : Decidable (StartsAt raws offset) :=
  inferInstanceAs (Decidable (∃ raw ∈ raws, (raw.offset : Int) = offset))

/-- A region starts on an instruction and ends on one or with the code; its end is a number of
32 bits. -/
structure Delimits (raws : List RawInstruction) (codeSize : Nat) (offset length : UInt32) :
    Prop where
  start : StartsAt raws offset.toNat
  small : offset.toNat + length.toNat < UInt32.size
  stop : offset.toNat + length.toNat = codeSize ∨
    StartsAt raws ((offset.toNat + length.toNat : Nat) : Int)

structure Clause.Placed (raws : List RawInstruction) (codeSize : Nat) (c : Clause) : Prop where
  tryRegion : Delimits raws codeSize c.tryOffset c.tryLength
  handlerRegion : Delimits raws codeSize c.handlerOffset c.handlerLength
  filter : c.flags.isFilter = true → StartsAt raws c.classOrFilter.toNat

/-- The code is the stream of the instructions, and all that it links to is one of them. -/
structure WellFormed (clauses : List Clause) (code : Bytes) (raws : List RawInstruction) :
    Prop where
  spelled : Stream.Spells 0 raws code
  targets : ∀ raw ∈ raws, ∀ t ∈ raw.operand.targets, StartsAt raws t
  clauses : ∀ c ∈ clauses, c.Placed raws code.length

namespace Body

variable {id : BodyId} {raws : List RawInstruction} {raw : RawInstruction} {codeSize : Nat}

theorem exists_slotsByOffset_iff {offset : Nat} :
    (∃ slot, (slotsByOffset raws)[offset]? = some slot) ↔ StartsAt raws offset := by
  constructor
  · rintro ⟨slot, hslot⟩
    obtain ⟨raw, hraw, rfl⟩ := getElem?_of_slotsByOffset hslot
    exact ⟨raw, List.mem_of_getElem? hraw, rfl⟩
  · rintro ⟨raw, hraw, hoffset⟩
    obtain ⟨p, hp⟩ := List.mem_iff_getElem?.mp hraw
    have hkey : offset ∈ (raws.zipIdx.map fun e => (e.1.offset, e.2)).map Prod.fst := by
      rw [List.map_map]
      exact List.mem_map.mpr
        ⟨(raw, p), List.mem_zipIdx_iff_getElem?.mpr hp, Int.ofNat_inj.mp hoffset⟩
    rw [← Option.isSome_iff_exists, Std.HashMap.isSome_getElem?_eq_contains, slotsByOffset,
      Std.HashMap.contains_ofList, List.contains_iff_mem]
    exact hkey

theorem exists_linkTarget_iff {source : Nat} {target : Int} :
    (∃ h, linkTarget id (slotsByOffset raws) source target = .ok h) ↔ StartsAt raws target := by
  rw [linkTarget]
  by_cases hneg : target < 0
  · rw [if_pos hneg]
    constructor
    · rintro ⟨h, hh⟩
      cases hh
    · rintro ⟨raw, -, hoffset⟩
      omega
  · rw [if_neg hneg, ← Int.toNat_of_nonneg (Int.not_lt.mp hneg), ← exists_slotsByOffset_iff,
      Int.toNat_natCast]
    cases (slotsByOffset raws)[target.toNat]? with
    | none => constructor <;> (rintro ⟨h, hh⟩; cases hh)
    | some slot => exact ⟨fun _ => ⟨slot, rfl⟩, fun _ => ⟨⟨id, slot⟩, rfl⟩⟩

theorem exists_linkInstruction_iff :
    (∃ i, linkInstruction id (slotsByOffset raws) raw = .ok i) ↔
      ∀ t ∈ raw.operand.targets, StartsAt raws t := by
  have hlink : (∃ i, linkInstruction id (slotsByOffset raws) raw = .ok i) ↔
      ∃ operand, raw.operand.traverse (linkTarget id (slotsByOffset raws) raw.offset)
        = .ok operand := by
    constructor
    · rintro ⟨i, hi⟩
      exact ⟨i.operand, (linkInstruction_eq_ok hi).2.2⟩
    · rintro ⟨operand, hoperand⟩
      exact ⟨_, map_eq_ok.mpr ⟨operand, hoperand, rfl⟩⟩
  rw [hlink, Operand.exists_traverse_iff]
  exact forall₂_congr fun t _ => exists_linkTarget_iff

theorem exists_linkStart_iff {offset : UInt32} :
    (∃ h, linkStart id (slotsByOffset raws) offset = .ok h) ↔ StartsAt raws offset.toNat := by
  rw [linkStart, ← exists_slotsByOffset_iff]
  cases (slotsByOffset raws)[offset.toNat]? with
  | none => constructor <;> (rintro ⟨h, hh⟩; cases hh)
  | some slot => exact ⟨fun _ => ⟨slot, rfl⟩, fun _ => ⟨⟨id, slot⟩, rfl⟩⟩

theorem exists_linkEnd_iff {offset length : UInt32} :
    (∃ stop, linkEnd id (slotsByOffset raws) codeSize offset length = .ok stop) ↔
      offset.toNat + length.toNat < UInt32.size ∧ (offset.toNat + length.toNat = codeSize ∨
        StartsAt raws ((offset.toNat + length.toNat : Nat) : Int)) := by
  simp only [linkEnd]
  by_cases hlarge : UInt32.size ≤ offset.toNat + length.toNat
  · rw [if_pos hlarge]
    constructor
    · rintro ⟨stop, hstop⟩
      cases hstop
    · rintro ⟨hsmall, -⟩
      exact absurd hsmall (Nat.not_lt.mpr hlarge)
  · rw [if_neg hlarge, and_iff_right (Nat.not_le.mp hlarge)]
    by_cases hend : offset.toNat + length.toNat = codeSize
    · rw [if_pos hend]
      exact ⟨fun _ => .inl hend, fun _ => ⟨none, rfl⟩⟩
    · have hstart : (∃ h, linkStart id (slotsByOffset raws)
          (UInt32.ofNat (offset.toNat + length.toNat)) = .ok h) ↔
          StartsAt raws ((offset.toNat + length.toNat : Nat) : Int) := by
        rw [exists_linkStart_iff, UInt32.toNat_ofNat_of_lt' (Nat.not_le.mp hlarge)]
      rw [if_neg hend, or_iff_right hend, ← hstart]
      constructor
      · rintro ⟨stop, hstop⟩
        obtain ⟨h, hh, -⟩ := map_eq_ok.mp hstop
        exact ⟨h, hh⟩
      · rintro ⟨h, hh⟩
        exact ⟨some h, map_eq_ok.mpr ⟨h, hh, rfl⟩⟩

theorem exists_linkClause_iff {c : Clause} :
    (∃ k, linkClause id (slotsByOffset raws) codeSize c = .ok k) ↔ c.Placed raws codeSize := by
  constructor
  · rintro ⟨k, hk⟩
    obtain ⟨tryStart, htryStart, hk⟩ := bind_eq_ok.mp hk
    obtain ⟨tryEnd, htryEnd, hk⟩ := bind_eq_ok.mp hk
    obtain ⟨handlerStart, hhandlerStart, hk⟩ := bind_eq_ok.mp hk
    obtain ⟨handlerEnd, hhandlerEnd, hk⟩ := bind_eq_ok.mp hk
    obtain ⟨htrySmall, htryStop⟩ := exists_linkEnd_iff.mp ⟨tryEnd, htryEnd⟩
    obtain ⟨hhandlerSmall, hhandlerStop⟩ := exists_linkEnd_iff.mp ⟨handlerEnd, hhandlerEnd⟩
    refine ⟨⟨exists_linkStart_iff.mp ⟨_, htryStart⟩, htrySmall, htryStop⟩,
      ⟨exists_linkStart_iff.mp ⟨_, hhandlerStart⟩, hhandlerSmall, hhandlerStop⟩, ?_⟩
    intro hfilter
    rw [if_pos hfilter] at hk
    obtain ⟨filter, hfilterStart, -⟩ := bind_eq_ok.mp hk
    exact exists_linkStart_iff.mp ⟨filter, hfilterStart⟩
  · rintro ⟨htry, hhandler, hfilter⟩
    have hstart : ∀ {offset : UInt32}, StartsAt raws offset.toNat →
        ∃ h, linkStart id (slotsByOffset raws) offset = .ok h := exists_linkStart_iff.mpr
    have hend : ∀ {offset length : UInt32}, Delimits raws codeSize offset length →
        ∃ stop, linkEnd id (slotsByOffset raws) codeSize offset length = .ok stop :=
      fun hregion => exists_linkEnd_iff.mpr ⟨hregion.small, hregion.stop⟩
    obtain ⟨tryStart, htryStart⟩ := hstart htry.start
    obtain ⟨tryEnd, htryEnd⟩ := hend htry
    obtain ⟨handlerStart, hhandlerStart⟩ := hstart hhandler.start
    obtain ⟨handlerEnd, hhandlerEnd⟩ := hend hhandler
    rw [linkClause, bind_of_ok htryStart, bind_of_ok htryEnd, bind_of_ok hhandlerStart,
      bind_of_ok hhandlerEnd]
    by_cases hkind : c.flags.isFilter = true
    · obtain ⟨filter, hfilterStart⟩ := hstart (hfilter hkind)
      rw [if_pos hkind, bind_of_ok hfilterStart]
      exact ⟨_, rfl⟩
    · rw [if_neg hkind]
      exact ⟨_, rfl⟩

/-- The instruction of the handle is recorded at the offset. -/
def RecordedAt (b : Body) (offset : Int) (h : Handle) : Prop :=
  ∃ i n, b.get? h = some i ∧ i.offset = some n ∧ (n : Int) = offset

/-- The end of a region that ends at the offset `stop`: none if the code ends there. -/
structure EndsAt (b : Body) (codeSize stop : Nat) (last : Option Handle) : Prop where
  none_iff : last = none ↔ stop = codeSize
  recorded : ∀ e, last = some e → b.RecordedAt stop e

/-- The handler of a clause. -/
structure HandlerOf (b : Body) (codeSize : Nat) (c : Clause) (k : Handler Handle) : Prop where
  flags : k.flags = c.flags
  tryStart : b.RecordedAt c.tryOffset.toNat k.tryStart
  tryEnd : b.EndsAt codeSize (c.tryOffset.toNat + c.tryLength.toNat) k.tryEnd
  handlerStart : b.RecordedAt c.handlerOffset.toNat k.handlerStart
  handlerEnd : b.EndsAt codeSize (c.handlerOffset.toNat + c.handlerLength.toNat) k.handlerEnd
  filterStart : k.filterStart.isSome = c.flags.isFilter ∧
    ∀ f, k.filterStart = some f → b.RecordedAt c.classOrFilter.toNat f
  classToken : k.classToken = if c.flags.isFilter then .null else ⟨c.classOrFilter⟩

/-- The instruction of an entry is the one that was encoded, with its offset recorded and every
target replaced by the handle of the instruction at that offset. -/
structure EntryOf (b : Body) (raw : RawInstruction) (e : Handle × Instruction Handle) : Prop where
  opcode : e.2.opcode = raw.opcode
  offset : e.2.offset = some raw.offset
  operand : Operand.Corresponds b.RecordedAt raw.operand e.2.operand

/-- The body is what the header and the instructions of its code say. -/
structure LinkedFrom (header : Header) (codeSize : Nat) (raws : List RawInstruction) (b : Body) :
    Prop where
  entries : List.Forall₂ b.EntryOf raws b.entries
  ascending : b.recorded.Pairwise (· < ·)
  handlers : List.Forall₂ (b.HandlerOf codeSize) header.clauses b.handlers
  maxStack : b.maxStack = header.maxStack
  locals : b.locals = header.locals
  initLocals : b.initLocals = header.initLocals
  unshifted : b.shifted = false

variable {b : Body} {header : Header} {h : Handle}

theorem ReadFrom.recordedAt (hb : ReadFrom id header codeSize raws b) {offset : Nat}
    (hh : LinkedTo id raws h offset) : b.RecordedAt offset h := by
  obtain ⟨hbody, raw, hraw, rfl⟩ := hh
  obtain ⟨e, he, hlink⟩ := exists_getElem?_of_forall₂ hb.entries hraw
  obtain ⟨hhandle, -⟩ := hb.of_getElem?_entries he
  have hsame : e.1 = h := by
    rw [hhandle, ← hbody]
  refine ⟨e.2, raw.offset, ?_, (linkInstruction_eq_ok hlink).2.1, rfl⟩
  rw [← hsame]
  exact mem_entries_iff_get?.mp (List.mem_of_getElem? he)

theorem ReadFrom.recordedAt_target (hb : ReadFrom id header codeSize raws b) {source : Nat}
    {target : Int} (hh : linkTarget id (slotsByOffset raws) source target = .ok h) :
    b.RecordedAt target h := by
  rw [← Int.toNat_of_nonneg (nonneg_of_linkTarget hh)]
  exact hb.recordedAt (linkedTo_of_linkTarget hh)

theorem ReadFrom.endsAt (hb : ReadFrom id header codeSize raws b) {offset length : UInt32}
    {last : Option Handle}
    (hlast : linkEnd id (slotsByOffset raws) codeSize offset length = .ok last) :
    b.EndsAt codeSize (offset.toNat + length.toNat) last := by
  refine ⟨?_, fun e he => hb.recordedAt (linkedTo_of_linkEnd hlast e he)⟩
  simp only [linkEnd] at hlast
  split at hlast
  · cases hlast
  · split at hlast
    · rename_i hend
      cases hlast
      exact ⟨fun _ => hend, fun _ => rfl⟩
    · rename_i hend
      obtain ⟨e, -, rfl⟩ := map_eq_ok.mp hlast
      exact ⟨fun hnone => absurd hnone (Option.some_ne_none e), fun heq => absurd heq hend⟩

theorem ReadFrom.handlerOf (hb : ReadFrom id header codeSize raws b) {c : Clause}
    {k : Handler Handle} (hk : linkClause id (slotsByOffset raws) codeSize c = .ok k) :
    b.HandlerOf codeSize c k := by
  obtain ⟨tryStart, htryStart, hk⟩ := bind_eq_ok.mp hk
  obtain ⟨tryEnd, htryEnd, hk⟩ := bind_eq_ok.mp hk
  obtain ⟨handlerStart, hhandlerStart, hk⟩ := bind_eq_ok.mp hk
  obtain ⟨handlerEnd, hhandlerEnd, hk⟩ := bind_eq_ok.mp hk
  have htryAt := hb.recordedAt (linkedTo_of_linkStart htryStart)
  have hhandlerAt := hb.recordedAt (linkedTo_of_linkStart hhandlerStart)
  by_cases hfilter : c.flags.isFilter = true
  · rw [if_pos hfilter] at hk
    obtain ⟨filter, hfilterStart, hk⟩ := bind_eq_ok.mp hk
    cases hk
    refine ⟨rfl, htryAt, hb.endsAt htryEnd, hhandlerAt, hb.endsAt hhandlerEnd,
      ⟨hfilter.symm, ?_⟩, (if_pos hfilter).symm⟩
    rintro f hf
    cases hf
    exact hb.recordedAt (linkedTo_of_linkStart hfilterStart)
  · rw [if_neg hfilter] at hk
    cases hk
    exact ⟨rfl, htryAt, hb.endsAt htryEnd, hhandlerAt, hb.endsAt hhandlerEnd,
      ⟨(Bool.eq_false_iff.mpr hfilter).symm, nofun⟩, (if_neg hfilter).symm⟩

theorem ReadFrom.linkedFrom (hb : ReadFrom id header codeSize raws b)
    (hascending : b.recorded.Pairwise (· < ·)) : LinkedFrom header codeSize raws b where
  entries := hb.entries.imp fun _ _ he => by
    obtain ⟨hopcode, hoffset, hoperand⟩ := linkInstruction_eq_ok he
    exact ⟨hopcode, hoffset, (Operand.corresponds_of_traverse hoperand).imp
      fun _ _ ht => hb.recordedAt_target ht⟩
  ascending := hascending
  handlers := hb.handlers.imp fun _ _ hk => hb.handlerOf hk
  maxStack := hb.maxStack
  locals := hb.locals
  initLocals := hb.initLocals
  unshifted := hb.unshifted

end Body

namespace Header

variable {data : Bytes} {header : Header}

theorem size_of_parseFat (h : parseFat data = .ok header) :
    header.size + header.codeSize ≤ data.length := by
  simp only [parseFat] at h
  split at h
  · cases h
  split at h
  · obtain ⟨_, hbad, -⟩ := bind_eq_ok.mp h
    cases hbad
  split at h
  · cases h
  rename_i hsize
  split at h
  all_goals
    obtain ⟨clauses, -, h⟩ := bind_eq_ok.mp h
    cases h
    exact Nat.not_lt.mp hsize

/-- A header that was read delimits code that is there. -/
theorem size_of_parse (h : parse data = .ok header) :
    header.size + header.codeSize ≤ data.length := by
  cases data with
  | nil => cases h
  | cons first rest =>
      simp only [parse] at h
      split at h
      · split at h
        · rename_i hsize
          cases h
          simp only [List.length_cons, tiny, Nat.add_comm 1]
          exact Nat.succ_le_succ hsize
        · cases h
      · split at h
        · exact size_of_parseFat h
        · cases h

theorem code_of_parse (h : parse data = .ok header) :
    header.code data = .ok ((data.drop header.size).take header.codeSize) := by
  rw [code, if_pos (size_of_parse h)]

end Header

namespace Body

variable {id : BodyId} {data code : Bytes} {header : Header}

theorem exists_decode_iff (hheader : Header.parse data = .ok header)
    (hcode : header.code data = .ok code) :
    (∃ b, decode id data = .ok b) ↔ ∃ raws, WellFormed header.clauses code raws := by
  rw [decode, bind_of_ok hheader, bind_of_ok hcode]
  constructor
  · rintro ⟨b, hb⟩
    obtain ⟨raws, hraws, hb⟩ := bind_eq_ok.mp hb
    obtain ⟨instructions, hinstructions, hb⟩ := bind_eq_ok.mp hb
    obtain ⟨handlers, hhandlers, -⟩ := bind_eq_ok.mp hb
    refine ⟨raws, Stream.decode_eq_ok_iff.mp hraws, ?_, ?_⟩
    · intro raw hraw
      exact exists_linkInstruction_iff.mp (exists_mapM_iff.mp ⟨_, hinstructions⟩ raw hraw)
    · intro c hc
      exact exists_linkClause_iff.mp (exists_mapM_iff.mp ⟨_, hhandlers⟩ c hc)
  · rintro ⟨raws, hraws⟩
    obtain ⟨instructions, hinstructions⟩ :
        ∃ is, raws.mapM (linkInstruction id (slotsByOffset raws)) = .ok is :=
      exists_mapM_iff.mpr fun raw hraw => exists_linkInstruction_iff.mpr (hraws.targets raw hraw)
    obtain ⟨handlers, hhandlers⟩ :
        ∃ ks, header.clauses.mapM (linkClause id (slotsByOffset raws) code.length) = .ok ks :=
      exists_mapM_iff.mpr fun c hc => exists_linkClause_iff.mpr (hraws.clauses c hc)
    rw [bind_of_ok (Stream.decode_eq_ok_iff.mpr hraws.spelled), bind_of_ok hinstructions,
      bind_of_ok hhandlers]
    exact ⟨_, rfl⟩

theorem linkedFrom_of_decode (hheader : Header.parse data = .ok header)
    (hcode : header.code data = .ok code) {b : Body} (hb : decode id data = .ok b)
    {raws : List RawInstruction} (hraws : WellFormed header.clauses code raws) :
    LinkedFrom header code.length raws b := by
  obtain ⟨header', code', raws', hheader', hcode', hraws', hread⟩ := readFrom_of_decode hb
  cases hheader.symm.trans hheader'
  cases hcode.symm.trans hcode'
  cases (Stream.decode_eq_ok_iff.mpr hraws.spelled).symm.trans hraws'
  exact hread.linkedFrom (fresh_of_decode hb).pairwise_recorded

/-- Data with a header is decoded exactly if its code and its clauses are well-formed, and the body
is linked as they say. -/
theorem decode_iff_wellFormed (hheader : Header.parse data = .ok header) (id : BodyId) :
    ∃ code, header.code data = .ok code ∧ code.length = header.codeSize ∧
      ((∃ b, decode id data = .ok b) ↔ ∃ raws, WellFormed header.clauses code raws) ∧
      ∀ b raws, decode id data = .ok b → WellFormed header.clauses code raws →
        LinkedFrom header code.length raws b := by
  have hcode := Header.code_of_parse hheader
  refine ⟨_, hcode, ?_, exists_decode_iff hheader hcode,
    fun b raws hb hraws => linkedFrom_of_decode hheader hcode hb hraws⟩
  rw [List.length_take, List.length_drop, Nat.min_eq_left]
  have hsize := Header.size_of_parse hheader
  omega

/-- A switch back to its own start, a branch over the handler of a region that ends with the code,
and the return. -/
def protectedLoop : Bytes :=
  [0x0B, 0x30, 8, 0, 13, 0, 0, 0, 0, 0, 0, 0,
    0x45, 1, 0, 0, 0, 0xF7, 0xFF, 0xFF, 0xFF, 0xDE, 1, 0xDC, 0x2A, 0, 0, 0,
    1, 16, 0, 0, 2, 0, 0, 0, 11, 11, 0, 2, 0, 0, 0, 0]

theorem linkedFrom_protectedLoop : ∃ header code raws b,
    Header.parse protectedLoop = .ok header ∧ header.code protectedLoop = .ok code ∧
      header.clauses.length = 1 ∧ raws.length = 4 ∧ WellFormed header.clauses code raws ∧
      decode ⟨0, 0⟩ protectedLoop = .ok b ∧ LinkedFrom header code.length raws b := by
  have hheader : Header.parse protectedLoop = .ok ⟨12, 13, 8, .null, true, false,
      [⟨.ofBits 2, 0, 11, 11, 2, 0⟩]⟩ := by decide +kernel
  obtain ⟨code, hcode, -, hiff, hlinked⟩ := decode_iff_wellFormed hheader ⟨0, 0⟩
  have hbytes : code = (protectedLoop.drop 12).take 13 :=
    Except.ok.inj (hcode.symm.trans (Header.code_of_parse hheader))
  have hraws : WellFormed [⟨.ofBits 2, 0, 11, 11, 2, 0⟩] code
      [⟨0, 9, .switch, .switch [0]⟩, ⟨9, 2, .leaveS, .target 12⟩, ⟨11, 1, .endfinally, .none⟩,
        ⟨12, 1, .ret, .none⟩] := by
    subst hbytes
    refine ⟨Stream.decode_eq_ok_iff.mp (by decide +kernel), by decide, ?_⟩
    exact List.forall_mem_singleton.mpr ⟨⟨by decide, by decide, by decide⟩,
      ⟨by decide, by decide, by decide⟩, by decide⟩
  obtain ⟨b, hb⟩ := hiff.mpr ⟨_, hraws⟩
  exact ⟨_, code, _, b, hheader, hcode, rfl, rfl, hraws, hb, hlinked b _ hb hraws⟩

end Body

end CilEdit
