import CilEdit.Body.Decode
import CilEdit.Proofs.InstructionCodec
import CilEdit.Proofs.Positions

namespace CilEdit

open Reader

namespace Reader

variable {α β : Type} {P : α → Prop} {Q : β → Prop}

/-- Every value that the reader gives satisfies the predicate. -/
def Gives (r : Reader α) (P : α → Prop) : Prop :=
  ∀ i a next, r i = (.ok a, next) → P a

theorem bind_eq_ok {r : Reader α} {f : α → Reader β} {i last : Input} {b : β}
    (h : (r >>= f) i = (.ok b, last)) :
    ∃ a next, r i = (.ok a, next) ∧ f a next = (.ok b, last) :=
  Step.bind_eq_ok.mp h

theorem gives_pure {a : α} (h : P a) : Gives (pure a) P := by
  rintro i _ next heq
  cases heq
  exact h

theorem gives_bad (cause : Malformed) : Gives (bad cause) P := by
  rintro i a next heq
  cases heq

theorem gives_bind {r : Reader α} {f : α → Reader β} (h : ∀ a, Gives (f a) Q) :
    Gives (r >>= f) Q := by
  intro i b last heq
  obtain ⟨a, next, -, hf⟩ := bind_eq_ok heq
  exact h a next b last hf

theorem Gives.bind {r : Reader α} {f : α → Reader β} (hr : r.Gives P)
    (hf : ∀ a, P a → (f a).Gives Q) : (r >>= f).Gives Q := by
  intro i b last heq
  obtain ⟨a, next, ha, hb⟩ := bind_eq_ok heq
  exact hf a (hr i a next ha) next b last hb

theorem Gives.mono {r : Reader α} {P' : α → Prop} (hr : r.Gives P) (h : ∀ a, P a → P' a) :
    r.Gives P' :=
  fun i a next heq => h a (hr i a next heq)

theorem Gives.of_parse {r : Reader α} {data : Bytes} {a : α} (hr : r.Gives P)
    (h : r.parse data = .ok a) : P a :=
  hr _ a _ (Prod.ext h rfl)

theorem gives_ofExcept (x : Except Error α) :
    Gives (Step.ofExcept x) fun a => x = .ok a := by
  rintro i a next heq
  cases heq
  rfl

theorem pos_add_length {r : Reader α} (hforward : r.Forward) {i next : Input} {a : α}
    (h : r i = (.ok a, next)) : next.pos + next.rest.length = i.pos + i.rest.length := by
  obtain ⟨n, hn, hadvance⟩ := hforward i
  rw [h] at hadvance
  dsimp only at hadvance
  subst hadvance
  rw [Input.length_advance]
  simp only [Input.advance]
  omega

theorem pos_lt_of_consumes {r : Reader α} (hforward : r.Forward) (hconsumes : r.Consumes)
    {i next : Input} {a : α} (h : r i = (.ok a, next)) : i.pos < next.pos := by
  have htotal := pos_add_length hforward h
  have hlength := hconsumes i a next h
  omega

section

variable {i next : Input}

theorem byte_eq_ok {b : UInt8} (h : byte i = (.ok b, next)) :
    i.rest = b :: next.rest := by
  match i with
  | ⟨pos, []⟩ => cases h
  | ⟨pos, x :: rest⟩ =>
      cases h
      rfl

theorem take_eq_ok {width : Nat} {block : Bytes} (h : take width i = (.ok block, next)) :
    block.length = width ∧ i.rest = block ++ next.rest := by
  simp only [take] at h
  split at h
  · rename_i hlength
    cases h
    exact ⟨hlength, (List.take_append_drop width i.rest).symm⟩
  · cases h

theorem nat_eq_ok {width n : Nat} (h : nat width i = (.ok n, next)) :
    n < Bytes.capacity width ∧ ∃ block, take width i = (.ok block, next) ∧ Bytes.toNat block = n ∧
      i.rest = block ++ next.rest ∧ Bytes.ofNat width n = block := by
  obtain ⟨block, last, htake, hpure⟩ := Reader.bind_eq_ok h
  cases hpure
  obtain ⟨rfl, hrest⟩ := take_eq_ok htake
  exact ⟨Bytes.toNat_lt block, block, htake, rfl, hrest, Bytes.ofNat_toNat block⟩

theorem require_eq_ok {count : Nat} {cause : Nat → Malformed} {u : Unit}
    (h : require count cause i = (.ok u, next)) : next = i := by
  simp only [require] at h
  split at h
  · cases h
    rfl
  · cases h

end

end Reader

theorem OperandKind.gives_read (start : Nat) (kind : OperandKind) :
    (kind.read start).Gives fun operand => operand.hasShape kind = true := by
  cases kind
  case none => exact gives_pure rfl
  case int8 | uint8 | uint16 | int32 | int64 | float32 | float64 | token =>
    exact gives_bind fun _ => gives_pure rfl
  case shortTarget | target =>
    exact gives_bind fun _ => gives_bind fun _ => gives_pure rfl
  case switch =>
    exact gives_bind fun _ => gives_bind fun _ => gives_bind fun _ => gives_bind fun _ =>
      gives_pure rfl

/-- What was read is where the reader stood, the opcode that stands there, its operand and how far
the reader moved. -/
theorem RawInstruction.parts_of_read {i next : Input} {raw : RawInstruction}
    (h : RawInstruction.read i = (.ok raw, next)) :
    raw.offset = i.pos ∧ raw.size = next.pos - i.pos ∧ ∃ mid,
      Opcode.read i = (.ok raw.opcode, mid) ∧
      raw.opcode.operand.read i.pos mid = (.ok raw.operand, next) := by
  obtain ⟨start, at0, hstart, h⟩ := Reader.bind_eq_ok h
  cases hstart
  obtain ⟨opcode, mid, hopcode, h⟩ := Reader.bind_eq_ok h
  obtain ⟨operand, at2, hoperand, h⟩ := Reader.bind_eq_ok h
  obtain ⟨stop, at3, hstop, h⟩ := Reader.bind_eq_ok h
  cases hstop
  cases h
  exact ⟨rfl, rfl, mid, hopcode, hoperand⟩

theorem RawInstruction.read_eq_ok {i next : Input} {raw : RawInstruction}
    (h : RawInstruction.read i = (.ok raw, next)) :
    raw.offset = i.pos ∧ i.pos < next.pos ∧ raw.operand.hasShape raw.opcode.operand = true := by
  obtain ⟨hoffset, -, mid, -, hoperand⟩ := parts_of_read h
  exact ⟨hoffset, pos_lt_of_consumes forward_read consumes_read h,
    OperandKind.gives_read _ _ _ _ _ hoperand⟩

namespace Stream

/-- The input is read up to its end, one instruction after the other. -/
inductive Run : Input → List RawInstruction → Prop
  | done {i : Input} (rest : i.rest = []) : Run i []
  | step {i next : Input} {raw : RawInstruction} {raws : List RawInstruction}
      (read : RawInstruction.read i = (.ok raw, next)) (tail : Run next raws) : Run i (raw :: raws)

theorem run_readAll {i : Input} {seen raws : List RawInstruction} (h : readAll i seen = .ok raws) :
    ∃ tail, raws = seen.reverse ++ tail ∧ Run i tail := by
  induction i, seen using readAll.induct with
  | case1 i seen hempty =>
      rw [readAll, if_pos hempty] at h
      cases h
      exact ⟨[], (List.append_nil _).symm, .done (List.isEmpty_iff.mp hempty)⟩
  | case2 i seen hsome e next hread =>
      rw [readAll_of_error hsome hread] at h
      cases h
  | case3 i seen hsome raw next hread ih =>
      rw [readAll_of_ok hread] at h
      obtain ⟨tail, rfl, htail⟩ := ih h
      refine ⟨raw :: tail, ?_, .step hread htail⟩
      rw [List.reverse_cons, List.append_assoc]
      rfl

theorem run_decode {code : Bytes} {raws : List RawInstruction} (h : decode code = .ok raws) :
    Run (.ofBytes code) raws := by
  obtain ⟨tail, rfl, htail⟩ := run_readAll h
  exact htail

/-- Ascending offsets, none before `first`, and operands of the shapes of their opcodes. -/
structure Regular (first : Nat) (raws : List RawInstruction) : Prop where
  ascending : raws.Pairwise fun a b => a.offset < b.offset
  bounded : ∀ raw ∈ raws, first ≤ raw.offset
  shape : ∀ raw ∈ raws, raw.operand.hasShape raw.opcode.operand = true

/-- No two instructions have one offset. -/
theorem Regular.eq_of_offset_eq {first p q : Nat} {raws : List RawInstruction}
    (h : Regular first raws) {raw raw' : RawInstruction} (hp : raws[p]? = some raw)
    (hq : raws[q]? = some raw') (hoffset : raw.offset = raw'.offset) : p = q := by
  obtain ⟨hplt, rfl⟩ := List.getElem?_eq_some_iff.mp hp
  obtain ⟨hqlt, rfl⟩ := List.getElem?_eq_some_iff.mp hq
  have hascending := List.pairwise_iff_getElem.mp h.ascending
  rcases Nat.lt_trichotomy p q with hlt | rfl | hlt
  · exact absurd hoffset (Nat.ne_of_lt (hascending p q hplt hqlt hlt))
  · rfl
  · exact absurd hoffset.symm (Nat.ne_of_lt (hascending q p hqlt hplt hlt))

theorem Regular.cons {i next : Input} {raw : RawInstruction} {tail : List RawInstruction}
    (hread : RawInstruction.read i = (.ok raw, next)) (htail : Regular next.pos tail) :
    Regular i.pos (raw :: tail) := by
  obtain ⟨hoffset, hnext, hshape⟩ := RawInstruction.read_eq_ok hread
  refine ⟨List.pairwise_cons.mpr ⟨?_, htail.ascending⟩, ?_, ?_⟩
  · intro later hlater
    rw [hoffset]
    exact Nat.lt_of_lt_of_le hnext (htail.bounded later hlater)
  · intro later hlater
    rcases List.mem_cons.mp hlater with rfl | hlater
    · exact Nat.le_of_eq hoffset.symm
    · exact Nat.le_trans (Nat.le_of_lt hnext) (htail.bounded later hlater)
  · intro later hlater
    rcases List.mem_cons.mp hlater with rfl | hlater
    · exact hshape
    · exact htail.shape later hlater

theorem Run.regular {i : Input} {raws : List RawInstruction} (h : Run i raws) :
    Regular i.pos raws := by
  induction h with
  | done _ => exact ⟨.nil, fun _ hraw => (List.not_mem_nil hraw).elim,
      fun _ hraw => (List.not_mem_nil hraw).elim⟩
  | step hread _ ih => exact ih.cons hread

theorem regular_decode {code : Bytes} {raws : List RawInstruction} (h : decode code = .ok raws) :
    Regular 0 raws :=
  (run_decode h).regular

end Stream

theorem mem_of_getElem?_insertMany {l : List (Nat × Nat)} {m : Std.HashMap Nat Nat} {k v : Nat}
    (h : (m.insertMany l)[k]? = some v) : (k, v) ∈ l ∨ m[k]? = some v := by
  induction l generalizing m with
  | nil => exact .inr h
  | cons e l ih =>
      rw [Std.HashMap.insertMany_cons] at h
      rcases ih h with hmem | hget
      · exact .inl (List.mem_cons_of_mem e hmem)
      · rw [Std.HashMap.getElem?_insert] at hget
        split at hget
        · rename_i heq
          cases hget
          rw [← beq_iff_eq.mp heq]
          exact .inl List.mem_cons_self
        · exact .inr hget

theorem mem_of_getElem?_ofList {l : List (Nat × Nat)} {k v : Nat}
    (h : (Std.HashMap.ofList l)[k]? = some v) : (k, v) ∈ l := by
  rw [Std.HashMap.ofList_eq_insertMany_empty] at h
  rcases mem_of_getElem?_insertMany h with hmem | hget
  · exact hmem
  · rw [Std.HashMap.getElem?_empty] at hget
    cases hget

namespace Body

variable {id : BodyId} {raws : List RawInstruction} {target : Handle}

theorem getElem?_of_slotsByOffset {offset slot : Nat}
    (h : (slotsByOffset raws)[offset]? = some slot) :
    ∃ raw, raws[slot]? = some raw ∧ raw.offset = offset := by
  obtain ⟨⟨raw, n⟩, hraw, heq⟩ := List.mem_map.mp (mem_of_getElem?_ofList h)
  cases heq
  exact ⟨raw, List.mem_zipIdx_iff_getElem?.mp hraw, rfl⟩

def LinkedTo (id : BodyId) (raws : List RawInstruction) (target : Handle) (offset : Nat) : Prop :=
  target.body = id ∧ ∃ raw, raws[target.slot]? = some raw ∧ raw.offset = offset

theorem linkedTo_of_linkTarget {source : Nat} {offset : Int}
    (h : linkTarget id (slotsByOffset raws) source offset = .ok target) :
    LinkedTo id raws target offset.toNat := by
  simp only [linkTarget] at h
  split at h
  · rename_i slot hfound
    cases h
    split at hfound
    · cases hfound
    · exact ⟨rfl, getElem?_of_slotsByOffset hfound⟩
  · cases h

theorem linkedTo_of_linkStart {offset : UInt32}
    (h : linkStart id (slotsByOffset raws) offset = .ok target) :
    LinkedTo id raws target offset.toNat := by
  unfold linkStart at h
  split at h
  · rename_i slot hfound
    cases h
    exact ⟨rfl, getElem?_of_slotsByOffset hfound⟩
  · cases h

theorem linkedTo_of_linkEnd {codeSize : Nat} {offset length : UInt32} {stop : Option Handle}
    (h : linkEnd id (slotsByOffset raws) codeSize offset length = .ok stop) :
    ∀ e, stop = some e → LinkedTo id raws e (offset.toNat + length.toNat) := by
  rintro e rfl
  simp only [linkEnd] at h
  split at h
  · cases h
  · rename_i hlt
    split at h
    · cases h
    · obtain ⟨target, htarget, heq⟩ := map_eq_ok.mp h
      cases heq
      have hlinked := linkedTo_of_linkStart htarget
      rwa [UInt32.toNat_ofNat_of_lt' (Nat.not_le.mp hlt)] at hlinked

theorem slot_le_slot {x y : Handle} {first second : Nat} (hraws : Stream.Regular 0 raws)
    (hx : LinkedTo id raws x first) (hy : LinkedTo id raws y second) (hle : first ≤ second) :
    x.slot ≤ y.slot := by
  -- Slots in the other order would have offsets in the other order.
  by_contra hnot
  obtain ⟨-, rawX, hrawX, rfl⟩ := hx
  obtain ⟨-, rawY, hrawY, rfl⟩ := hy
  obtain ⟨hxlt, rfl⟩ := List.getElem?_eq_some_iff.mp hrawX
  obtain ⟨hylt, rfl⟩ := List.getElem?_eq_some_iff.mp hrawY
  have hlt := List.pairwise_iff_getElem.mp hraws.ascending y.slot x.slot hylt hxlt
    (Nat.not_le.mp hnot)
  omega

/-- No region of a handler ends before it starts. -/
structure Ranged (b : Body) (h : Handler Handle) : Prop where
  tryRange : ∀ e, h.tryEnd = some e → b.NotAfter h.tryStart e
  handlerRange : ∀ e, h.handlerEnd = some e → b.NotAfter h.handlerStart e

/-- The handler that a clause was linked to. -/
structure LinkedClause (id : BodyId) (raws : List RawInstruction) (c : Clause)
    (h : Handler Handle) : Prop where
  tryStart : LinkedTo id raws h.tryStart c.tryOffset.toNat
  tryEnd : ∀ e, h.tryEnd = some e → LinkedTo id raws e (c.tryOffset.toNat + c.tryLength.toNat)
  handlerStart : LinkedTo id raws h.handlerStart c.handlerOffset.toNat
  handlerEnd : ∀ e, h.handlerEnd = some e →
    LinkedTo id raws e (c.handlerOffset.toNat + c.handlerLength.toNat)
  filterStart : ∀ f, h.filterStart = some f → LinkedTo id raws f c.classOrFilter.toNat
  isFilter : h.filterStart.isSome = h.flags.isFilter

theorem linkedClause_of_linkClause {codeSize : Nat} {c : Clause} {h : Handler Handle}
    (hh : linkClause id (slotsByOffset raws) codeSize c = .ok h) : LinkedClause id raws c h := by
  obtain ⟨tryStart, htryStart, hh⟩ := bind_eq_ok.mp hh
  obtain ⟨tryEnd, htryEnd, hh⟩ := bind_eq_ok.mp hh
  obtain ⟨handlerStart, hhandlerStart, hh⟩ := bind_eq_ok.mp hh
  obtain ⟨handlerEnd, hhandlerEnd, hh⟩ := bind_eq_ok.mp hh
  by_cases hfilter : c.flags.isFilter = true
  · simp only [if_pos hfilter] at hh
    obtain ⟨filter, hfilterStart, hh⟩ := bind_eq_ok.mp hh
    cases hh
    refine ⟨linkedTo_of_linkStart htryStart, linkedTo_of_linkEnd htryEnd,
      linkedTo_of_linkStart hhandlerStart, linkedTo_of_linkEnd hhandlerEnd, ?_, hfilter.symm⟩
    rintro f hf
    cases hf
    exact linkedTo_of_linkStart hfilterStart
  · simp only [if_neg hfilter] at hh
    cases hh
    exact ⟨linkedTo_of_linkStart htryStart, linkedTo_of_linkEnd htryEnd,
      linkedTo_of_linkStart hhandlerStart, linkedTo_of_linkEnd hhandlerEnd, nofun,
      (Bool.eq_false_iff.mpr hfilter).symm⟩

variable {data : Bytes} {b : Body}

theorem decode_eq_ok (h : decode id data = .ok b) :
    ∃ header code raws instructions handlers, Header.parse data = .ok header ∧
      header.code data = .ok code ∧ Stream.decode code = .ok raws ∧
      raws.mapM (linkInstruction id (slotsByOffset raws)) = .ok instructions ∧
      header.clauses.mapM (linkClause id (slotsByOffset raws) code.length) = .ok handlers ∧
      b = ⟨.ofInstructions instructions, id, header.maxStack, header.locals, header.initLocals,
        handlers, false⟩ := by
  obtain ⟨header, hheader, h⟩ := bind_eq_ok.mp h
  obtain ⟨code, hcode, h⟩ := bind_eq_ok.mp h
  obtain ⟨raws, hraws, h⟩ := bind_eq_ok.mp h
  obtain ⟨instructions, hinstructions, h⟩ := bind_eq_ok.mp h
  obtain ⟨handlers, hhandlers, h⟩ := bind_eq_ok.mp h
  exact ⟨header, code, raws, instructions, handlers, hheader, hcode, hraws, hinstructions,
    hhandlers, (Except.ok.inj h).symm⟩

theorem getElem?_slots_ofInstructions {instructions : List (Instruction Handle)} {n : Nat}
    {i : Instruction Handle} :
    (Arena.ofInstructions instructions).slots[n]? = some ⟨i, true⟩ ↔ instructions[n]? = some i := by
  simp [Arena.ofInstructions]

theorem linkInstruction_eq_ok {raw : RawInstruction} {i : Instruction Handle}
    (h : linkInstruction id (slotsByOffset raws) raw = .ok i) :
    i.opcode = raw.opcode ∧ i.offset = some raw.offset ∧
      raw.operand.traverse (linkTarget id (slotsByOffset raws) raw.offset) = .ok i.operand := by
  obtain ⟨operand, hoperand, rfl⟩ := map_eq_ok.mp h
  exact ⟨rfl, rfl, hoperand⟩

/-- The body holds the linked instructions of a stream, in the order of the stream. -/
structure Decoded (id : BodyId) (raws : List RawInstruction) (codeSize : Nat) (b : Body) :
    Prop where
  regular : Stream.Regular 0 raws
  identity : b.id = id
  order : b.order = Array.range raws.length
  entries : ∀ e ∈ b.entries, ∃ raw ∈ raws, linkInstruction id (slotsByOffset raws) raw = .ok e.2
  handlers : ∀ k ∈ b.handlers, ∃ c, linkClause id (slotsByOffset raws) codeSize c = .ok k

theorem decoded_of_decode (h : decode id data = .ok b) :
    ∃ raws codeSize, Decoded id raws codeSize b := by
  obtain ⟨header, code, raws, instructions, handlers, -, -, hraws, hinstructions, hhandlers, rfl⟩ :=
    decode_eq_ok h
  refine ⟨raws, code.length, Stream.regular_decode hraws, rfl, ?_, ?_, ?_⟩
  · rw [(mapM_eq_ok_iff.mp hinstructions).length_eq]
    rfl
  · intro e he
    have hslot := (mem_entries_iff.mp he).2
    exact exists_of_mem_mapM hinstructions
      (List.mem_of_getElem? (getElem?_slots_ofInstructions.mp hslot))
  · intro k hk
    obtain ⟨c, -, hc⟩ := exists_of_mem_mapM hhandlers hk
    exact ⟨c, hc⟩

variable {codeSize : Nat}

theorem Decoded.contains (hb : Decoded id raws codeSize b) {offset : Nat}
    (ht : LinkedTo id raws target offset) : b.contains target = true := by
  obtain ⟨hbody, raw, hraw, -⟩ := ht
  refine contains_iff.mpr ⟨hbody.trans hb.identity.symm, ?_⟩
  rw [hb.order, Array.mem_range]
  exact (List.getElem?_eq_some_iff.mp hraw).1

theorem Decoded.notAfter (hb : Decoded id raws codeSize b) {x y : Handle} {first second : Nat}
    (hx : LinkedTo id raws x first) (hy : LinkedTo id raws y second) (hle : first ≤ second) :
    b.NotAfter x y := by
  have hself : ∀ n < raws.length, b.order.toList[n]? = some n := by
    intro n hn
    rw [hb.order, Array.toList_range, List.getElem?_range hn]
  have hylt : y.slot < raws.length := by
    obtain ⟨-, raw, hraw, -⟩ := hy
    exact (List.getElem?_eq_some_iff.mp hraw).1
  rcases Nat.lt_or_eq_of_le (slot_le_slot hb.regular hx hy hle) with hlt | heq
  · exact .inr (pair_sublist hlt (hself _ (Nat.lt_trans hlt hylt)) (hself _ hylt))
  · have hbody := hx.1.trans hy.1.symm
    cases x
    cases y
    cases hbody
    cases heq
    exact .inl rfl

theorem Decoded.linked (hb : Decoded id raws codeSize b) : b.Linked := by
  constructor
  · intro e he t ht
    obtain ⟨raw, -, hraw⟩ := hb.entries e he
    obtain ⟨-, -, hoperand⟩ := linkInstruction_eq_ok hraw
    obtain ⟨offset, -, hlink⟩ := Operand.exists_of_mem_targets hoperand ht
    exact hb.contains (linkedTo_of_linkTarget hlink)
  · intro k hk
    obtain ⟨c, hc⟩ := hb.handlers k hk
    have hlinked := linkedClause_of_linkClause hc
    exact Handler.forall_mem_boundaries.mpr ⟨hb.contains hlinked.tryStart,
      fun e he => hb.contains (hlinked.tryEnd e he), hb.contains hlinked.handlerStart,
      fun e he => hb.contains (hlinked.handlerEnd e he),
      fun f hf => hb.contains (hlinked.filterStart f hf)⟩

theorem Decoded.shape (hb : Decoded id raws codeSize b) :
    ∀ e ∈ b.entries, e.2.operand.hasShape e.2.opcode.operand = true := by
  intro e he
  obtain ⟨raw, hmem, hraw⟩ := hb.entries e he
  obtain ⟨hopcode, -, hoperand⟩ := linkInstruction_eq_ok hraw
  rw [hopcode, Operand.hasShape_of_traverse hoperand]
  exact hb.regular.shape raw hmem

theorem Decoded.ranged (hb : Decoded id raws codeSize b) : ∀ k ∈ b.handlers, b.Ranged k := by
  intro k hk
  obtain ⟨c, hc⟩ := hb.handlers k hk
  have hlinked := linkedClause_of_linkClause hc
  constructor
  · intro e he
    exact hb.notAfter hlinked.tryStart (hlinked.tryEnd e he) (Nat.le_add_right _ _)
  · intro e he
    exact hb.notAfter hlinked.handlerStart (hlinked.handlerEnd e he) (Nat.le_add_right _ _)

/-- A decoded body is linked, its operands have the shapes of their opcodes, and its handlers have
proper ranges. -/
theorem decode_spec (h : decode id data = .ok b) :
    b.Linked ∧ (∀ e ∈ b.entries, e.2.operand.hasShape e.2.opcode.operand = true) ∧
      (∀ k ∈ b.handlers, b.Ranged k) ∧
      ∀ k ∈ b.handlers, k.filterStart.isSome = k.flags.isFilter := by
  obtain ⟨raws, codeSize, hb⟩ := decoded_of_decode h
  refine ⟨hb.linked, hb.shape, hb.ranged, ?_⟩
  intro k hk
  obtain ⟨c, hc⟩ := hb.handlers k hk
  exact (linkedClause_of_linkClause hc).isFilter

section

variable {starts : Std.HashMap Nat Nat}

theorem linkTarget_of_linkTarget {offset : Nat} {target : Int} {h : Handle}
    (hh : linkTarget id starts offset target = .ok h) (id' : BodyId) :
    linkTarget id' starts offset target = .ok ⟨id', h.slot⟩ := by
  simp only [linkTarget] at hh ⊢
  split at hh
  · cases hh
    rfl
  · cases hh

theorem linkInstruction_of_linkInstruction {raw : RawInstruction} {i : Instruction Handle}
    (hi : linkInstruction id starts raw = .ok i) (id' : BodyId) :
    linkInstruction id' starts raw
      = .ok ⟨i.opcode, i.operand.map fun t => ⟨id', t.slot⟩, i.offset⟩ := by
  obtain ⟨operand, hoperand, rfl⟩ := map_eq_ok.mp hi
  have hlinked := Operand.traverse_eq_ok_comp
    (fun t target ht => linkTarget_of_linkTarget ht id') hoperand
  exact map_eq_ok.mpr ⟨_, hlinked, rfl⟩

theorem linkStart_of_linkStart {offset : UInt32} {h : Handle}
    (hh : linkStart id starts offset = .ok h) (id' : BodyId) :
    linkStart id' starts offset = .ok ⟨id', h.slot⟩ := by
  simp only [linkStart] at hh ⊢
  split at hh
  · cases hh
    rfl
  · cases hh

theorem linkEnd_of_linkEnd {codeSize : Nat} {offset length : UInt32} {stop : Option Handle}
    (hh : linkEnd id starts codeSize offset length = .ok stop) (id' : BodyId) :
    linkEnd id' starts codeSize offset length = .ok (stop.map fun e => ⟨id', e.slot⟩) := by
  simp only [linkEnd] at hh ⊢
  by_cases hlarge : UInt32.size ≤ offset.toNat + length.toNat
  · rw [if_pos hlarge] at hh
    cases hh
  · rw [if_neg hlarge] at hh ⊢
    by_cases hend : offset.toNat + length.toNat = codeSize
    · rw [if_pos hend] at hh ⊢
      cases hh
      rfl
    · rw [if_neg hend] at hh ⊢
      obtain ⟨e, he, rfl⟩ := map_eq_ok.mp hh
      rw [linkStart_of_linkStart he id']
      rfl

theorem linkClause_of_linkClause {codeSize : Nat} {c : Clause} {h : Handler Handle}
    (hh : linkClause id starts codeSize c = .ok h) (id' : BodyId) :
    linkClause id' starts codeSize c = .ok (h.map fun t => ⟨id', t.slot⟩) := by
  obtain ⟨tryStart, htryStart, hh⟩ := bind_eq_ok.mp hh
  obtain ⟨tryEnd, htryEnd, hh⟩ := bind_eq_ok.mp hh
  obtain ⟨handlerStart, hhandlerStart, hh⟩ := bind_eq_ok.mp hh
  obtain ⟨handlerEnd, hhandlerEnd, hh⟩ := bind_eq_ok.mp hh
  rw [linkClause, bind_of_ok (linkStart_of_linkStart htryStart id'),
    bind_of_ok (linkEnd_of_linkEnd htryEnd id'),
    bind_of_ok (linkStart_of_linkStart hhandlerStart id'),
    bind_of_ok (linkEnd_of_linkEnd hhandlerEnd id')]
  by_cases hfilter : c.flags.isFilter = true
  · simp only [if_pos hfilter] at hh ⊢
    obtain ⟨filter, hfilterStart, hh⟩ := bind_eq_ok.mp hh
    cases hh
    rw [linkStart_of_linkStart hfilterStart id']
    rfl
  · simp only [if_neg hfilter] at hh ⊢
    cases hh
    rfl

end

/-- Whether data can be decoded does not depend on the identity of the body. -/
theorem exists_decode (h : decode id data = .ok b) (id' : BodyId) :
    ∃ b', decode id' data = .ok b' := by
  obtain ⟨header, code, raws, instructions, handlers, hheader, hcode, hraws, hinstructions,
    hhandlers, -⟩ := decode_eq_ok h
  have hinstructions' := mapM_eq_ok_comp (fun raw i hi => linkInstruction_of_linkInstruction hi id')
    hinstructions
  have hhandlers' := mapM_eq_ok_comp (fun c k hk => linkClause_of_linkClause hk id') hhandlers
  rw [decode, bind_of_ok hheader, bind_of_ok hcode, bind_of_ok hraws, bind_of_ok hinstructions',
    bind_of_ok hhandlers']
  exact ⟨_, rfl⟩

theorem decode_nil : decode id [] ≠ .ok b := by
  rintro ⟨⟩

theorem decode_return : ∃ b, decode ⟨0, 0⟩ [6, 42] = .ok b :=
  exists_of_isOk (by decide +kernel)

end Body

end CilEdit
