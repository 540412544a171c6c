import CilEdit.Proofs.BodyRoundTrip
import CilEdit.Proofs.Linking
import CilEdit.Proofs.Exploring

/-!
Edits keep a body saveable.

Besides the links, edits with instructions that fit their opcodes keep the shapes of operands, and
they keep the order of the instructions that stay, so that no region of a handler comes to end
before it starts. What can still stop the encoding of such a body is a call of an unknown method, a
stack that is too deep, or something that exceeds a size of the format.
-/

namespace CilEdit

def Edit.Made : Edit → Prop
  | .push i | .replace _ i => ∃ opcode operand, Instruction.make opcode operand = .ok i
  | .remove _ | .splice _ _ => True

namespace Body

variable {b : Body} {x y t : Handle}

/-- What a body has to satisfy so that only calls, depths and sizes can stop its encoding. -/
structure Saveable (b : Body) : Prop where
  linked : b.Linked
  shape : ∀ e ∈ b.entries, e.2.operand.hasShape e.2.opcode.operand = true
  ranged : ∀ h ∈ b.handlers, b.Ranged h

theorem shape_iff :
    (∀ e ∈ b.entries, e.2.operand.hasShape e.2.opcode.operand = true) ↔
      ∀ (n : Nat) (i : Instruction Handle), b.slots[n]? = some ⟨i, true⟩ →
        i.operand.hasShape i.opcode.operand = true := by
  constructor
  · intro hshape n i hi
    have hmem : b.contains (b.handle n) = true := contains_iff_slot.mpr ⟨rfl, i, hi⟩
    exact hshape (b.handle n, i) (mem_entries_iff.mpr ⟨hmem, hi⟩)
  · rintro hshape ⟨h, i⟩ he
    exact hshape h.slot i (mem_entries_iff.mp he).2

theorem hasShape_of_made {opcode : Opcode} {operand : Operand Handle} {i : Instruction Handle}
    (h : Instruction.make opcode operand = .ok i) :
    i.operand.hasShape i.opcode.operand = true := by
  obtain ⟨rfl, hfits⟩ := Instruction.make_eq_ok h
  exact Operand.hasShape_of_fits hfits

theorem shape_of_change {e : Edit} {b b' : Body} (h : Change e b b') (hmade : e.Made)
    (hshape : ∀ (n : Nat) (i : Instruction Handle), b.slots[n]? = some ⟨i, true⟩ →
      i.operand.hasShape i.opcode.operand = true) :
    ∀ (n : Nat) (i : Instruction Handle), b'.slots[n]? = some ⟨i, true⟩ →
      i.operand.hasShape i.opcode.operand = true := by
  intro n j hj
  cases h with
  | failed => exact hshape n j hj
  | pushed shifted htargets =>
      obtain ⟨opcode, operand, hmake⟩ := hmade
      rcases slot_append.mp hj with ⟨-, rfl⟩ | hold
      · exact hasShape_of_made hmake
      · exact hshape n j hold
  | replaced shifted hattached htargets =>
      obtain ⟨opcode, operand, hmake⟩ := hmade
      have hmadeShape := hasShape_of_made hmake
      obtain ⟨old, hold, rfl⟩ := slot_overwrite.mp hj
      split
      · exact hmadeShape
      · exact hshape n old hold
  | removed hattached hunused => exact hshape n j (slot_detach.mp hj).2
  | spliced hfound hresolved =>
      rcases slot_insertAfter.mp hj with hold | ⟨-, hnew⟩
      · exact hshape n j hold
      · exact Operand.hasShape_of_fits
          (Sequence.resolve_eq_ok hresolved j (List.mem_of_getElem? hnew)).2

theorem NotAfter.of_sublist {b b' : Body} (h : b.NotAfter x y)
    (hsub : b.order.toList.Sublist b'.order.toList) : b'.NotAfter x y := by
  rcases h with rfl | hpair
  · exact .inl rfl
  · exact .inr (hpair.trans hsub)

theorem NotAfter.detach (h : b.NotAfter x y) {slot : Nat} (hx : x.slot ≠ slot)
    (hy : y.slot ≠ slot) : (b.detach slot).NotAfter x y := by
  rcases h with rfl | hpair
  · exact .inl rfl
  · refine .inr ?_
    change [x.slot, y.slot].Sublist (b.order.erase slot).toList
    rw [Arena.toList_erase]
    have herase := hpair.erase slot
    rwa [List.erase_of_not_mem (by simp [Ne.symm hx, Ne.symm hy])] at herase

theorem order_sublist_append (b : Body) (i : Instruction Handle) :
    b.order.toList.Sublist (b.append i).order.toList := by
  change b.order.toList.Sublist (b.order.push b.slots.size).toList
  rw [Array.toList_push]
  exact List.sublist_append_left _ _

theorem order_sublist_insertAfter (b : Body) (position : Nat)
    (instructions : List (Instruction Handle)) :
    b.order.toList.Sublist (b.insertAfter position instructions).order.toList := by
  change b.order.toList.Sublist (b.toArena.orderAfter position instructions.length)
  have hinsert : (b.order.toList.take (position + 1) ++ b.order.toList.drop (position + 1)).Sublist
      (b.toArena.orderAfter position instructions.length) := by
    rw [Arena.orderAfter, List.append_assoc]
    exact List.Sublist.append_left (List.sublist_append_right _ _) _
  rwa [List.take_append_drop] at hinsert

theorem Ranged.of_notAfter {b b' : Body} {h : Handler Handle} (hh : b.Ranged h)
    (hkeep : ∀ x ∈ h.boundaries, ∀ y ∈ h.boundaries, b.NotAfter x y → b'.NotAfter x y) :
    b'.Ranged h where
  tryRange e he := hkeep _ (Handler.mem_boundaries.mpr (.inl rfl)) e
    (Handler.mem_boundaries.mpr (.inr (.inl he))) (hh.tryRange e he)
  handlerRange e he := hkeep _ (Handler.mem_boundaries.mpr (.inr (.inr (.inl rfl)))) e
    (Handler.mem_boundaries.mpr (.inr (.inr (.inr (.inl he))))) (hh.handlerRange e he)

end Body

theorem Change.saveable {e : Edit} {b b' : Body} (h : Change e b b') (hmade : e.Made)
    (hb : b.Saveable) : b'.Saveable := by
  have hshape := Body.shape_of_change h hmade (Body.shape_iff.mp hb.shape)
  refine ⟨h.linked hb.linked, Body.shape_iff.mpr hshape, ?_⟩
  -- Instructions that stay keep their order, and none that a region names is removed.
  cases h with
  | failed => exact hb.ranged
  | @pushed b i shifted htargets =>
      intro k hk
      apply (hb.ranged k hk).of_notAfter
      intro x _ y _ hxy
      exact hxy.of_sublist (b.order_sublist_append i)
  | replaced shifted hattached htargets =>
      intro k hk
      apply (hb.ranged k hk).of_notAfter
      intro x _ y _ hxy
      exact hxy.of_sublist (List.Sublist.refl _)
  | @removed b t hattached hunused =>
      have hhandlers := (Body.referrers_eq_zero_iff.mp hunused).2
      have hne : ∀ k ∈ b.handlers, ∀ x ∈ k.boundaries, x.slot ≠ t.slot := by
        intro k hk x hx
        apply Body.slot_ne_of_ne (hb.linked.boundaries k hk x hx) hattached
        rintro rfl
        exact hhandlers k hk hx
      intro k hk
      apply (hb.ranged k hk).of_notAfter
      intro x hx y hy hxy
      exact hxy.detach (hne k hk x hx) (hne k hk y hy)
  | @spliced b anchor s position instructions hfound hresolved =>
      intro k hk
      apply (hb.ranged k hk).of_notAfter
      intro x _ y _ hxy
      exact hxy.of_sublist (b.order_sublist_insertAfter position instructions)

/-- A failure that an unknown callee, the depth of the stack or a size of the format explains. -/
inductive SaveFailure (resolve : Resolver) (returnsValue : Bool) (l : Listing) : Error → Prop
  | unresolvedCall {p : Nat} {i : Instruction Nat} {t : Token}
      (reachable : StackDepth.Reachable l.code l.handlers p) (found : l.code[p]? = some i)
      (calls : StackDepth.CallsToken i t) (unknown : resolve t = none) :
      SaveFailure resolve returnsValue l (.unresolvedToken t)
  | stackTooDeep {visits : List StackDepth.Visit}
      (walked : StackDepth.explore resolve returnsValue (Layout.settle l.code).code l.handlers
        = (visits, none)) (deep : 65535 < StackDepth.deepest visits) :
      SaveFailure resolve returnsValue l (.malformed (.stackTooDeep (StackDepth.deepest visits)))
  | instructionTooLarge {p : Nat} {i : Instruction Nat} (found : l.code[p]? = some i)
      (large : UInt32.size ≤ i.size) :
      SaveFailure resolve returnsValue l (.malformed (.instructionTooLarge p))
  | layoutTooLarge (large : UInt32.size ≤ (Layout.settle l.code).size) :
      SaveFailure resolve returnsValue l (.malformed .layoutTooLarge)
  | branchRange {p t : Nat} {i : Instruction Nat}
      (found : (Layout.settle l.code).code[p]? = some i) (branch : i.operand = .target t)
      (far : Layout.fitsWord ((Layout.settle l.code).displacement p t) = false) :
      SaveFailure resolve returnsValue l (.malformed (.branchRange p))
  | switchRange {p t : Nat} {i : Instruction Nat} {ts : List Nat}
      (found : (Layout.settle l.code).code[p]? = some i) (switch : i.operand = .switch ts)
      (case : t ∈ ts) (far : Layout.fitsWord ((Layout.settle l.code).displacement p t) = false) :
      SaveFailure resolve returnsValue l (.malformed (.switchRange p))
  | tooManyClauses (many : 0xFFFFFF < 4 + 24 * l.handlers.length) :
      SaveFailure resolve returnsValue l (.malformed (.tooManyClauses l.handlers.length))

structure Listing.Saveable (l : Listing) : Prop extends l.Linked where
  shape : ∀ i ∈ l.code, i.operand.hasShape i.opcode.operand = true
  tryRange : ∀ h ∈ l.handlers, ∀ e, h.tryEnd = some e → h.tryStart ≤ e
  handlerRange : ∀ h ∈ l.handlers, ∀ e, h.handlerEnd = some e → h.handlerStart ≤ e

namespace Layout

variable {final : List (Instruction Nat)} {p : Nat} {i : Instruction Nat} {e : Error}

theorem wordBytes_eq_error {d : Int} {failure : Malformed} (h : wordBytes d failure = .error e) :
    fitsWord d = false ∧ e = .malformed failure := by
  unfold wordBytes at h
  split at h
  · cases h
  · rename_i hfar
    exact ⟨Bool.eq_false_iff.mpr hfar, (Except.error.inj h).symm⟩

/-- In a settled layout below 4 GiB, only a displacement beyond four bytes cannot be emitted. -/
theorem operandBytes_eq_error (hsettled : Settled final) (hsize : codeSize final < UInt32.size)
    (hi : final[p]? = some i) (h : (ofCode final).operandBytes p i = .error e) :
    (∃ t, i.operand = .target t ∧ fitsWord ((ofCode final).displacement p t) = false ∧
      e = .malformed (.branchRange p)) ∨
    ∃ ts, i.operand = .switch ts ∧ ∃ t ∈ ts,
      fitsWord ((ofCode final).displacement p t) = false ∧ e = .malformed (.switchRange p) := by
  unfold operandBytes at h
  cases hoperand : i.operand with
  | none | immediate v | token t =>
      simp only [hoperand] at h
      cases h
  | target t =>
      simp only [hoperand] at h
      split at h
      · rename_i hshort
        have hfits := hsettled.overflows_eq_false hi
        simp only [overflows, hshort, hoperand, Bool.not_eq_false'] at hfits
        rw [if_pos hfits] at h
        cases h
      · obtain ⟨hfar, he⟩ := wordBytes_eq_error h
        exact .inl ⟨t, rfl, hfar, he⟩
  | switch ts =>
      simp only [hoperand] at h
      have hfits : ts.length < UInt32.size := by
        have hle := size_le_codeSize (List.mem_of_getElem? hi)
        rw [Instruction.size, hoperand, Operand.size] at hle
        omega
      rw [if_pos hfits, map_eq_error] at h
      obtain ⟨t, ht, hword⟩ := exists_of_mapM_eq_error h
      obtain ⟨hfar, he⟩ := wordBytes_eq_error hword
      exact .inr ⟨ts, rfl, t, ht, hfar, he⟩

theorem emit_eq_error {l : Listing} (hsettle : settle l.code = ofCode final)
    (hsettled : Settled final) (hsize : codeSize final < UInt32.size)
    (h : (ofCode final).emit = .error e) (resolve : Resolver) (returnsValue : Bool) :
    SaveFailure resolve returnsValue l e := by
  obtain ⟨⟨i, p⟩, hip, hbytes⟩ := exists_of_mapM_eq_error (map_eq_error.mp h)
  have hi : final[p]? = some i := List.mem_zipIdx_iff_getElem?.mp hip
  have hfound : (settle l.code).code[p]? = some i := by
    rw [hsettle]
    exact hi
  rcases operandBytes_eq_error hsettled hsize hi (map_eq_error.mp hbytes) with
    ⟨t, hoperand, hfar, rfl⟩ | ⟨ts, hoperand, t, ht, hfar, rfl⟩
  · rw [← hsettle] at hfar
    exact .branchRange hfound hoperand hfar
  · rw [← hsettle] at hfar
    exact .switchRange hfound hoperand ht hfar

theorem range_ne_error {start : Nat} {stop : Option Nat} (hstart : start < final.length)
    (hstop : ∀ e, stop = some e → e < final.length) (hle : ∀ e, stop = some e → start ≤ e) :
    (ofCode final).range start stop ≠ .error e := by
  intro herror
  have hoffsets : (ofCode final).offset start ≤
      (ofCode final).offset (stop.getD (ofCode final).code.length) := by
    cases stop with
    | none => exact offset_le_offset (Nat.le_of_lt hstart) (Nat.le_refl _)
    | some e => exact offset_le_offset (hle e rfl) (Nat.le_of_lt (hstop e rfl))
  simp only [range, if_pos hoffsets] at herror
  cases herror

theorem clause_ne_error {h : Handler Nat} (hbound : ∀ t ∈ h.boundaries, t < final.length)
    (htry : ∀ e, h.tryEnd = some e → h.tryStart ≤ e)
    (hhandler : ∀ e, h.handlerEnd = some e → h.handlerStart ≤ e) :
    (ofCode final).clause h ≠ .error e := by
  obtain ⟨htryStart, htryEnd, hhandlerStart, hhandlerEnd, -⟩ :=
    Handler.forall_mem_boundaries.mp hbound
  intro herror
  rcases bind_eq_error.mp herror with herror | ⟨_, -, herror⟩
  · exact range_ne_error htryStart htryEnd htry herror
  · rcases bind_eq_error.mp herror with herror | ⟨_, -, herror⟩
    · exact range_ne_error hhandlerStart hhandlerEnd hhandler herror
    · cases herror

end Layout

theorem Section.write_eq_error {clauses : List Clause} {e : Error}
    (h : write clauses = .error e) :
    0xFFFFFF < 4 + 24 * clauses.length ∧ e = .malformed (.tooManyClauses clauses.length) := by
  simp only [write] at h
  split at h
  · cases h
  · split at h
    · cases h
    · rename_i hmany
      refine ⟨?_, (Except.error.inj h).symm⟩
      simp only [Clause.fatSize] at hmany
      omega

theorem Header.write_eq_error {h : Header} {code : Bytes} {e : Error}
    (hcode : code.length < UInt32.size) (herror : h.write code = .error e) :
    0xFFFFFF < 4 + 24 * h.clauses.length ∧
      e = .malformed (.tooManyClauses h.clauses.length) := by
  unfold write at herror
  by_cases htiny : h.fitsTiny code = true
  · rw [if_pos htiny] at herror
    cases herror
  · rw [if_neg htiny] at herror
    simp only [if_pos hcode] at herror
    by_cases hempty : h.clauses.isEmpty = true
    · simp only [if_pos hempty] at herror
      cases herror
    · simp only [if_neg hempty] at herror
      rcases bind_eq_error.mp herror with herror | ⟨_, -, herror⟩
      · exact Section.write_eq_error herror
      · cases herror

namespace Listing

variable {l : Listing} {resolve : Resolver} {returnsValue : Bool} {e : Error}

theorem Saveable.hasShape_settled (hl : l.Saveable) {final : List (Instruction Nat)}
    (hfinal : List.Forall₂ Layout.Stretched l.code final) :
    ∀ j ∈ final, j.operand.hasShape j.opcode.operand = true := by
  intro j hj
  obtain ⟨i, hi, hij⟩ := exists_of_mem_stretched hfinal hj
  exact Layout.hasShape_of_stretched hij (hl.shape i hi)

theorem Saveable.maxStack_eq_error (hl : l.Saveable) {final : List (Instruction Nat)}
    (hsettle : Layout.settle l.code = .ofCode final)
    (hfinal : List.Forall₂ Layout.Stretched l.code final)
    (h : StackDepth.maxStack resolve returnsValue final l.handlers = .error e) :
    SaveFailure resolve returnsValue l e := by
  rcases StackDepth.maxStack_eq_error (hl.hasShape_settled hfinal) h with
    ⟨p, j, t, hreachable, hj, hcalls, hnone, rfl⟩ | ⟨visits, hexplore, hdeep, rfl⟩
  · obtain ⟨i, hi, hij⟩ := StackDepth.exists_stretched hfinal hj
    exact .unresolvedCall (hreachable.of_stretched hfinal) hi (hcalls.of_stretched hij) hnone
  · refine .stackTooDeep ?_ hdeep
    rw [hsettle]
    exact hexplore

theorem Saveable.clauses_ne_error (hl : l.Saveable) {final : List (Instruction Nat)}
    (hfinal : List.Forall₂ Layout.Stretched l.code final) :
    l.handlers.mapM (Layout.ofCode final).clause ≠ .error e := by
  intro h
  obtain ⟨k, hk, hclause⟩ := exists_of_mapM_eq_error h
  have hbound : ∀ t ∈ k.boundaries, t < final.length := by
    intro t ht
    exact Nat.lt_of_lt_of_eq (hl.boundaries k hk t ht) hfinal.length_eq
  exact Layout.clause_ne_error hbound (hl.tryRange k hk) (hl.handlerRange k hk) hclause

theorem Saveable.write_eq_error (hl : l.Saveable) {final : List (Instruction Nat)}
    (hfinal : List.Forall₂ Layout.Stretched l.code final)
    (hsize : Layout.codeSize final < UInt32.size)
    (hmake : Layout.make l.code = .ok (.ofCode final)) {header : Header} {code : Bytes}
    (hassemble : l.assemble resolve returnsValue = .ok (header, code))
    (h : header.write code = .error e) : SaveFailure resolve returnsValue l e := by
  obtain ⟨layout, depth, clauses, hlayout, hemit, -, hclauses, rfl⟩ := assemble_eq_ok hassemble
  rw [hmake] at hlayout
  cases hlayout
  have hlength := (mapM_eq_ok_iff.mp hclauses).length_eq
  have hcode : code.length < UInt32.size := by
    rwa [Layout.length_emit (hl.hasShape_settled hfinal) hemit]
  obtain ⟨hmany, rfl⟩ := Header.write_eq_error hcode h
  rw [← hlength] at hmany ⊢
  exact .tooManyClauses hmany

theorem Saveable.assemble_eq_error (hl : l.Saveable)
    (h : (do let (header, code) ← l.assemble resolve returnsValue; header.write code) = .error e) :
    SaveFailure resolve returnsValue l e := by
  obtain ⟨final, hsettle, hsettled, hfinal, hmake⟩ := Layout.make_spec l.code
  by_cases hsize : Layout.codeSize final < UInt32.size
  · rw [if_pos hsize] at hmake
    rcases bind_eq_error.mp h with h | ⟨⟨header, code⟩, hassemble, hwrite⟩
    · -- The parts of an assembly, in the order in which they can fail.
      rw [assemble, bind_of_ok hmake] at h
      rcases bind_eq_error.mp h with hemit | ⟨code, -, h⟩
      · exact Layout.emit_eq_error hsettle hsettled hsize hemit resolve returnsValue
      · rcases bind_eq_error.mp h with hdepth | ⟨depth, -, h⟩
        · exact hl.maxStack_eq_error hsettle hfinal hdepth
        · rcases bind_eq_error.mp h with hclauses | ⟨clauses, -, h⟩
          · exact absurd hclauses (hl.clauses_ne_error hfinal)
          · cases h
    · exact hl.write_eq_error hfinal hsize hmake hassemble hwrite
  · rw [if_neg hsize] at hmake
    rw [assemble, hmake] at h
    cases h
    have hlarge : UInt32.size ≤ (Layout.settle l.code).size := by
      rw [hsettle, Layout.size_ofCode]
      exact Nat.not_lt.mp hsize
    rcases Layout.excess_cases l.code with ⟨p, i, hi, hsize, heq⟩ | heq
    · rw [heq]
      exact .instructionTooLarge hi hsize
    · rw [heq]
      exact .layoutTooLarge hlarge

end Listing

namespace Body

theorem Saveable.ranked {b : Body} (hb : b.Saveable) : b.ranked.Saveable where
  toLinked := hb.linked.ranked
  shape := shape_ranked hb.shape
  tryRange h hh e he := by
    obtain ⟨k, hk, rfl⟩ := List.mem_map.mp hh
    obtain ⟨stop, hstop, rfl⟩ := Option.map_eq_some_iff.mp he
    obtain ⟨hstart, hend, -⟩ := Handler.forall_mem_boundaries.mp (hb.linked.boundaries k hk)
    exact rank_le_rank hstart (hend stop hstop) ((hb.ranged k hk).tryRange stop hstop)
  handlerRange h hh e he := by
    obtain ⟨k, hk, rfl⟩ := List.mem_map.mp hh
    obtain ⟨stop, hstop, rfl⟩ := Option.map_eq_some_iff.mp he
    obtain ⟨-, -, hstart, hend, -⟩ := Handler.forall_mem_boundaries.mp (hb.linked.boundaries k hk)
    exact rank_le_rank hstart (hend stop hstop) ((hb.ranged k hk).handlerRange stop hstop)

theorem saveable_edited {b : Body} (hb : b.Saveable) {edits : List Edit}
    (hmade : ∀ e ∈ edits, e.Made) : (b.edited edits).Saveable := by
  have hstep : ∀ (e : Edit) (b b' : Body), e.Made → Change e b b' → b.Saveable → b'.Saveable := by
    intro e b b' he hchange hb
    exact hchange.saveable he hb
  exact edited_induction hstep hb edits hmade

/-- After edits of a decoded body, every target and boundary has a position, and only unknown
callees, the depth of the stack and sizes of the format can stop the encoding. -/
theorem saveFailure_edited {id : BodyId} {data : Bytes} {b : Body} (h : decode id data = .ok b)
    {edits : List Edit} (hmade : ∀ e ∈ edits, e.Made) (resolve : Resolver) (returnsValue : Bool) :
    ∃ l, (b.edited edits).listing = .ok l ∧ l.Linked ∧
      ∀ e, (b.edited edits).encode resolve returnsValue = .error e →
        SaveFailure resolve returnsValue l e := by
  obtain ⟨hlinked, hshape, hranged, -⟩ := decode_spec h
  have hsaveable := saveable_edited ⟨hlinked, hshape, hranged⟩ hmade
  have hlisting := hsaveable.linked.listing_eq
  refine ⟨_, hlisting, hsaveable.linked.ranked, ?_⟩
  intro e he
  rw [encode, bind_of_ok hlisting] at he
  exact hsaveable.ranked.assemble_eq_error he

theorem saveFailure_edited_return : ∃ b, decode ⟨0, 0⟩ [6, 42] = .ok b ∧
    ∃ l, (b.edited [.push ⟨.brS, .target ⟨⟨0, 0⟩, 0⟩, none⟩]).listing = .ok l ∧ l.Linked ∧
      ∀ e, (b.edited [.push ⟨.brS, .target ⟨⟨0, 0⟩, 0⟩, none⟩]).encode (fun _ => none) false
        = .error e → SaveFailure (fun _ => none) false l e := by
  obtain ⟨b, hb⟩ := decode_return
  refine ⟨b, hb, saveFailure_edited hb (fun e he => ?_) _ _⟩
  rw [List.mem_singleton.mp he]
  exact ⟨.brS, .target ⟨⟨0, 0⟩, 0⟩, rfl⟩

end Body

end CilEdit
