import CilEdit.Body.Decode
import CilEdit.Proofs.HeaderCodec
import CilEdit.Proofs.InstructionCodec
import CilEdit.Proofs.Positions

/-!
Decoding undoes encoding.

A listing with targets inside its code is assembled into bytes that decode to the body with the same
instructions, laid out, in the same order. A body that is encoded and decoded is therefore restored
up to the identity of its handles, and encodes to the same bytes again.
-/

namespace CilEdit

/-- The handler as it comes back from its stored form: a filter leaves no room for a class. -/
def Handler.stored {τ : Type} (h : Handler τ) : Handler τ :=
  { h with classToken := if h.flags.isFilter then .null else h.classToken }

theorem Handler.map_stored {τ σ : Type} (f : τ → σ) (h : Handler τ) :
    h.stored.map f = (h.map f).stored := rfl

/-- What a listing has to satisfy to be read back. -/
structure Listing.WellFormed (l : Listing) : Prop extends l.Linked where
  shape : ∀ i ∈ l.code, i.operand.hasShape i.opcode.operand = true
  filters : ∀ h ∈ l.handlers, h.filterStart.isSome = h.flags.isFilter

namespace Layout

variable {code : List (Instruction Nat)} {p : Nat}

def raws (code : List (Instruction Nat)) : List RawInstruction :=
  code.zipIdx.map fun (i, p) => (ofCode code).raw p i

theorem getElem?_slotsByOffset (hp : p < code.length) :
    (Body.slotsByOffset (raws code))[(ofCode code).offset p]? = some p := by
  have hlength : (raws code).length = code.length := by
    rw [raws, List.length_map, List.length_zipIdx]
  refine Std.HashMap.getElem?_ofList_of_mem (k := (ofCode code).offset p) (beq_self_eq_true _)
    ?_ ?_
  · rw [List.pairwise_iff_getElem]
    intro i j hi hj hij
    simp only [List.length_map, List.length_zipIdx, hlength] at hi hj
    simp only [raws, List.getElem_map, List.getElem_zipIdx, raw, Nat.zero_add, beq_eq_false_iff_ne]
    intro heq
    have := offset_inj (Nat.le_of_lt hi) (Nat.le_of_lt hj) heq
    omega
  · refine List.mem_map.mpr ⟨((ofCode code).raw p code[p], p), ?_, rfl⟩
    rw [List.mem_zipIdx_iff_getElem?]
    change (raws code)[p]? = _
    rw [raws, List.getElem?_map, List.getElem?_zipIdx, List.getElem?_eq_getElem hp]
    simp

theorem linkTarget_offset (id : BodyId) (source : Nat) (hp : p < code.length) :
    Body.linkTarget id (Body.slotsByOffset (raws code)) source ((ofCode code).offset p : Int)
      = .ok ⟨id, p⟩ := by
  have hnonneg : ¬ ((ofCode code).offset p : Int) < 0 := by omega
  simp only [Body.linkTarget, if_neg hnonneg, Int.toNat_natCast, getElem?_slotsByOffset hp]

theorem linkInstruction_raw (id : BodyId) {i : Instruction Nat}
    (htargets : ∀ t ∈ i.operand.targets, t < code.length) :
    Body.linkInstruction id (Body.slotsByOffset (raws code)) ((ofCode code).raw p i)
      = .ok ⟨i.opcode, i.operand.map (Handle.mk id), some ((ofCode code).offset p)⟩ := by
  have hoperand : (i.operand.map fun t => ((ofCode code).offset t : Int)).traverse
      (Body.linkTarget id (Body.slotsByOffset (raws code)) ((ofCode code).offset p))
      = .ok (i.operand.map (Handle.mk id)) := by
    rw [Operand.traverse_map]
    exact Operand.traverse_eq_ok fun t ht => linkTarget_offset id _ (htargets t ht)
  rw [Body.linkInstruction, raw]
  simp only [hoperand]
  rfl

theorem mapM_linkInstruction (id : BodyId)
    (htargets : ∀ i ∈ code, ∀ t ∈ i.operand.targets, t < code.length) :
    (raws code).mapM (Body.linkInstruction id (Body.slotsByOffset (raws code)))
      = .ok (code.zipIdx.map fun (i, p) =>
        ⟨i.opcode, i.operand.map (Handle.mk id), some ((ofCode code).offset p)⟩) := by
  rw [show raws code = code.zipIdx.map fun (i, p) => (ofCode code).raw p i from rfl, mapM_map]
  apply mapM_eq_ok_map
  rintro ⟨i, p⟩ hip
  exact linkInstruction_raw id (htargets i (List.fst_mem_of_mem_zipIdx hip))

theorem range_eq_ok {l : Layout} {start : Nat} {stop : Option Nat} {found : UInt32 × UInt32}
    (h : l.range start stop = .ok found) :
    l.offset start ≤ l.offset (stop.getD l.code.length) ∧
      found = (UInt32.ofNat (l.offset start),
        UInt32.ofNat (l.offset (stop.getD l.code.length) - l.offset start)) := by
  simp only [range] at h
  split at h
  · rename_i hle
    exact ⟨hle, (Except.ok.inj h).symm⟩
  · cases h

theorem offset_lt_size {q : Nat} (hsize : codeSize code < UInt32.size) (hq : q ≤ code.length) :
    (ofCode code).offset q < UInt32.size := by
  have hle := offset_le_offset hq (Nat.le_refl _)
  rw [show (ofCode code).offset code.length = (ofCode code).size from rfl, size_ofCode] at hle
  exact Nat.lt_of_le_of_lt hle hsize

theorem linkStart_offset (id : BodyId) (hsize : codeSize code < UInt32.size)
    (hp : p < code.length) :
    Body.linkStart id (Body.slotsByOffset (raws code)) (UInt32.ofNat ((ofCode code).offset p))
      = .ok ⟨id, p⟩ := by
  have hlt := offset_lt_size hsize (Nat.le_of_lt hp)
  rw [Body.linkStart, UInt32.toNat_ofNat_of_lt' hlt, getElem?_slotsByOffset hp]

/-- A region that was stored is linked to its end, and one that runs to the end of the code has
none. -/
theorem linkEnd_offset (id : BodyId) (hsize : codeSize code < UInt32.size) {start : Nat}
    (hstart : start < code.length) {stop : Option Nat}
    (hstop : ∀ e, stop = some e → e < code.length)
    (hle : (ofCode code).offset start ≤ (ofCode code).offset (stop.getD code.length)) :
    Body.linkEnd id (Body.slotsByOffset (raws code)) (codeSize code)
      (UInt32.ofNat ((ofCode code).offset start))
      (UInt32.ofNat ((ofCode code).offset (stop.getD code.length) - (ofCode code).offset start))
      = .ok (stop.map (Handle.mk id)) := by
  have hend : stop.getD code.length ≤ code.length := by
    cases stop with
    | none => exact Nat.le_refl _
    | some e => exact Nat.le_of_lt (hstop e rfl)
  have hfirst := offset_lt_size hsize (Nat.le_of_lt hstart)
  have hlast := offset_lt_size hsize hend
  have htotal : (ofCode code).offset code.length = codeSize code := size_ofCode code
  have hsum : (UInt32.ofNat ((ofCode code).offset start)).toNat
      + (UInt32.ofNat ((ofCode code).offset (stop.getD code.length)
        - (ofCode code).offset start)).toNat = (ofCode code).offset (stop.getD code.length) := by
    rw [UInt32.toNat_ofNat_of_lt' hfirst,
      UInt32.toNat_ofNat_of_lt' (Nat.lt_of_le_of_lt (Nat.sub_le _ _) hlast)]
    omega
  simp only [Body.linkEnd, hsum, if_neg (Nat.not_le.mpr hlast)]
  cases stop with
  | none =>
      rw [Option.getD_none, htotal]
      exact if_pos rfl
  | some e =>
      have he := hstop e rfl
      have hne : (ofCode code).offset e ≠ codeSize code := by
        rw [← htotal]
        exact Nat.ne_of_lt (offset_lt_offset he (Nat.le_refl _))
      rw [Option.getD_some, if_neg hne, linkStart_offset id hsize he]
      rfl

theorem linkClause_clause (id : BodyId) (hsize : codeSize code < UInt32.size) {h : Handler Nat}
    (hbound : ∀ t ∈ h.boundaries, t < code.length)
    (hfilter : h.filterStart.isSome = h.flags.isFilter)
    {c : Clause} (hc : (ofCode code).clause h = .ok c) :
    Body.linkClause id (Body.slotsByOffset (raws code)) (codeSize code) c
      = .ok (h.stored.map (Handle.mk id)) := by
  obtain ⟨htryStart, htryEnd, hhandlerStart, hhandlerEnd, hfilterStart⟩ :=
    Handler.forall_mem_boundaries.mp hbound
  obtain ⟨⟨tryOffset, tryLength⟩, htry, hc⟩ := bind_eq_ok.mp hc
  obtain ⟨⟨handlerOffset, handlerLength⟩, hhandler, hc⟩ := bind_eq_ok.mp hc
  obtain ⟨htryLe, htryEq⟩ := range_eq_ok htry
  obtain ⟨hhandlerLe, hhandlerEq⟩ := range_eq_ok hhandler
  cases htryEq
  cases hhandlerEq
  have hc' := (Except.ok.inj hc).symm
  subst hc'
  have htryEndLink := linkEnd_offset id hsize htryStart htryEnd htryLe
  have hhandlerEndLink := linkEnd_offset id hsize hhandlerStart hhandlerEnd hhandlerLe
  simp only [code_ofCode] at htryEndLink hhandlerEndLink ⊢
  simp only [Body.linkClause, linkStart_offset id hsize htryStart,
    linkStart_offset id hsize hhandlerStart, htryEndLink, hhandlerEndLink]
  cases hsome : h.filterStart with
  | none =>
      rw [hsome, Option.isSome_none] at hfilter
      simp only [← hfilter, Handler.stored, Handler.map, hsome]
      rfl
  | some f =>
      rw [hsome, Option.isSome_some] at hfilter
      have hlink := linkStart_offset id hsize (hfilterStart f hsome)
      simp only [← hfilter, if_true, Handler.stored, Handler.map, hsome]
      change (do let filter ← Body.linkStart id _ _; _) = _
      rw [hlink]
      rfl

end Layout

namespace Body

def ofListing (id : BodyId) (l : Listing) : Body where
  toArena := .ofInstructions (l.code.zipIdx.map fun (i, p) =>
    ⟨i.opcode, i.operand.map (Handle.mk id), some ((Layout.ofCode l.code).offset p)⟩)
  id := id
  maxStack := l.maxStack
  locals := l.locals
  initLocals := l.initLocals
  handlers := l.handlers.map (Handler.map (Handle.mk id))
  shifted := false

variable {id : BodyId} {l : Listing} {p : Nat}

theorem length_ofListing (id : BodyId) (l : Listing) : (ofListing id l).length = l.code.length := by
  simp [ofListing, length, Arena.ofInstructions]

theorem at?_ofListing (hp : p < l.code.length) : (ofListing id l).at? p = some ⟨id, p⟩ := by
  rw [at?_eq_some_iff]
  refine ⟨rfl, ?_⟩
  simp [ofListing, Arena.ofInstructions, hp]

theorem contains_ofListing (hp : p < l.code.length) :
    (ofListing id l).contains ⟨id, p⟩ = true :=
  contains_of_at? (at?_ofListing hp)

theorem rank_ofListing (hp : p < l.code.length) : (ofListing id l).rank ⟨id, p⟩ = p :=
  rank_of_at? (at?_ofListing hp)

theorem entries_ofListing (id : BodyId) (l : Listing) :
    (ofListing id l).entries = l.code.zipIdx.map fun (i, p) =>
      (⟨id, p⟩, ⟨i.opcode, i.operand.map (Handle.mk id),
        some ((Layout.ofCode l.code).offset p)⟩) := by
  rw [entries_ofInstructions rfl, List.zipIdx_map, List.map_map]
  refine List.ext_getElem? fun p => ?_
  simp only [List.getElem?_map, List.getElem?_zipIdx]
  cases l.code[p]? with
  | none => rfl
  | some i => simp [handle, ofListing]

theorem linked_ofListing (hl : l.Linked) : (ofListing id l).Linked := by
  constructor
  · intro e he t ht
    rw [entries_ofListing, List.mem_map] at he
    obtain ⟨⟨i, p⟩, hi, rfl⟩ := he
    rw [Operand.targets_map, List.mem_map] at ht
    obtain ⟨n, hn, rfl⟩ := ht
    exact contains_ofListing (hl.targets i (List.fst_mem_of_mem_zipIdx hi) n hn)
  · intro h hh t ht
    obtain ⟨k, hk, rfl⟩ := List.mem_map.mp hh
    rw [Handler.boundaries_map, List.mem_map] at ht
    obtain ⟨n, hn, rfl⟩ := ht
    exact contains_ofListing (hl.boundaries k hk n hn)

/-- A stored body without handlers whose instructions are those of a laid out listing. -/
theorem decode_eq_ofListing (hl : l.Linked) {header : Header} {data code : Bytes}
    (hparse : Header.parse data = .ok header) (hcode : header.code data = .ok code)
    (hraws : Stream.decode code = .ok (Layout.raws l.code)) (hclauses : header.clauses = [])
    (hlast : l.handlers = [] ∧ l.maxStack = header.maxStack ∧ l.locals = header.locals ∧
      l.initLocals = header.initLocals) (id : BodyId) :
    decode id data = .ok (ofListing id l) := by
  obtain ⟨hhandlers, hmaxStack, hlocals, hinitLocals⟩ := hlast
  rw [decode, bind_of_ok hparse, bind_of_ok hcode, bind_of_ok hraws,
    bind_of_ok (Layout.mapM_linkInstruction id hl.targets), hclauses]
  simp only [ofListing, hhandlers, hmaxStack, hlocals, hinitLocals]
  rfl

theorem ranked_ofListing (hl : l.Linked) (hplain : ∀ i ∈ l.code, i.offset = none) :
    (ofListing id l).ranked = l := by
  have hcode : (ofListing id l).ranked.code = l.code := by
    rw [ranked, entries_ofListing, List.map_map]
    calc (l.code.zipIdx.map _) = l.code.zipIdx.map Prod.fst := by
          refine List.map_congr_left fun ip hip => ?_
          obtain ⟨i, p⟩ := ip
          have hi := List.fst_mem_of_mem_zipIdx hip
          have hoperand : (i.operand.map (Handle.mk id)).map (ofListing id l).rank = i.operand := by
            rw [Operand.map_map]
            refine (Operand.map_congr fun t ht => ?_).trans (Operand.map_id i.operand)
            exact rank_ofListing (hl.targets i hi t ht)
          have hnone := hplain i hi
          cases i with
          | mk opcode operand offset =>
              simp only [Function.comp_apply] at hoperand hnone ⊢
              rw [hoperand, hnone]
      _ = l.code := List.zipIdx_map_fst 0 l.code
  have hhandlers : (ofListing id l).ranked.handlers = l.handlers := by
    change (l.handlers.map (Handler.map (Handle.mk id))).map (Handler.map (ofListing id l).rank) = _
    rw [List.map_map]
    refine (List.map_congr_left fun h hh => ?_).trans (List.map_id l.handlers)
    rw [Function.comp_apply, Handler.map_map]
    refine (Handler.map_congr fun t ht => ?_).trans (Handler.map_id h)
    exact rank_ofListing (hl.boundaries h hh t ht)
  cases l with
  | mk code handlers maxStack locals initLocals =>
      rw [ranked, Listing.mk.injEq]
      exact ⟨hcode, hhandlers, rfl, rfl, rfl⟩

end Body

namespace Listing

variable {l : Listing} {resolve : Resolver} {returnsValue : Bool} {header : Header}
  {code bytes : Bytes}

theorem assemble_eq_ok (h : l.assemble resolve returnsValue = .ok (header, code)) :
    ∃ layout depth clauses, Layout.make l.code = .ok layout ∧ layout.emit = .ok code ∧
      StackDepth.maxStack resolve returnsValue layout.code l.handlers = .ok depth ∧
      l.handlers.mapM layout.clause = .ok clauses ∧
      header = ⟨0, code.length, max depth l.maxStack, l.locals, false, l.initLocals, clauses⟩ := by
  obtain ⟨layout, hlayout, h⟩ := bind_eq_ok.mp h
  obtain ⟨code', hemit, h⟩ := bind_eq_ok.mp h
  obtain ⟨depth, hdepth, h⟩ := bind_eq_ok.mp h
  obtain ⟨clauses, hclauses, h⟩ := bind_eq_ok.mp h
  cases h
  exact ⟨layout, depth, clauses, hlayout, hemit, hdepth, hclauses, rfl⟩

/-- The listing as it is read back: laid out, with stored handlers and the written stack depth. -/
def restored (l : Listing) (layout : Layout) (maxStack : UInt16) : Listing :=
  { l with code := layout.code, handlers := l.handlers.map Handler.stored, maxStack := maxStack }

theorem exists_of_mem_stretched {xs ys : List (Instruction Nat)}
    (h : List.Forall₂ Layout.Stretched xs ys) {j : Instruction Nat} (hj : j ∈ ys) :
    ∃ i ∈ xs, Layout.Stretched i j := by
  induction h with
  | nil => cases hj
  | @cons x y xs ys hxy _ ih =>
      rcases List.mem_cons.mp hj with rfl | hj
      · exact ⟨x, List.mem_cons_self, hxy⟩
      · obtain ⟨i, hi, hij⟩ := ih hj
        exact ⟨i, List.mem_cons_of_mem x hi, hij⟩

theorem offset_of_mem_stretched {xs ys : List (Instruction Nat)}
    (h : List.Forall₂ Layout.Stretched xs ys) {j : Instruction Nat} (hj : j ∈ ys)
    (hplain : ∀ i ∈ xs, i.offset = none) : j.offset = none := by
  obtain ⟨i, hi, hij⟩ := exists_of_mem_stretched h hj
  rcases hij with rfl | ⟨-, rfl⟩
  · exact hplain j hi
  · exact hplain i hi

theorem WellFormed.restored (hl : l.WellFormed) {final : List (Instruction Nat)}
    (hfinal : List.Forall₂ Layout.Stretched l.code final) (maxStack : UInt16) :
    (l.restored (.ofCode final) maxStack).WellFormed where
  targets j hj t ht := by
    obtain ⟨i, hi, hij⟩ := exists_of_mem_stretched hfinal hj
    rw [Layout.operand_of_stretched hij] at ht
    exact Nat.lt_of_lt_of_eq (hl.targets i hi t ht) hfinal.length_eq
  boundaries h hh t ht := by
    obtain ⟨k, hk, rfl⟩ := List.mem_map.mp hh
    exact Nat.lt_of_lt_of_eq (hl.boundaries k hk t ht) hfinal.length_eq
  shape j hj := by
    obtain ⟨i, hi, hij⟩ := exists_of_mem_stretched hfinal hj
    exact Layout.hasShape_of_stretched hij (hl.shape i hi)
  filters h hh := by
    obtain ⟨k, hk, rfl⟩ := List.mem_map.mp hh
    exact hl.filters k hk

theorem decode_assemble (hl : l.WellFormed)
    (hassemble : l.assemble resolve returnsValue = .ok (header, code))
    (hwrite : header.write code = .ok bytes) (id : BodyId) :
    ∃ final, Layout.Settled final ∧ List.Forall₂ Layout.Stretched l.code final ∧
      Layout.make l.code = .ok (.ofCode final) ∧
      Body.decode id bytes
        = .ok (Body.ofListing id (l.restored (.ofCode final) (header.stored code).maxStack)) := by
  obtain ⟨layout, depth, clauses, hlayout, hemit, -, hclauses, rfl⟩ := assemble_eq_ok hassemble
  obtain ⟨final, rfl, hsettled, hfinal, hsize⟩ := Layout.make_eq_ok hlayout
  refine ⟨final, hsettled, hfinal, hlayout, ?_⟩
  have hrestored := hl.restored hfinal 0
  have hparse := Header.parse_write hwrite []
  have hcode := Header.code_write hwrite []
  rw [List.append_nil] at hparse hcode
  have hstream : Stream.decode code = .ok (Layout.raws final) :=
    Layout.decode_emit hrestored.shape hemit
  have hinstructions := Layout.mapM_linkInstruction id hrestored.targets
  simp only [restored, Layout.code_ofCode] at hinstructions
  have hhandlers : clauses.mapM
      (Body.linkClause id (Body.slotsByOffset (Layout.raws final)) code.length)
      = .ok (l.handlers.map fun h => h.stored.map (Handle.mk id)) := by
    rw [Layout.length_emit hrestored.shape hemit]
    apply mapM_eq_ok_of_mapM hclauses
    intro h hh c hc
    have hbound : ∀ t ∈ h.boundaries, t < final.length := by
      intro t ht
      exact Nat.lt_of_lt_of_eq (hl.boundaries h hh t ht) hfinal.length_eq
    exact Layout.linkClause_clause id hsize hbound (hl.filters h hh) hc
  obtain ⟨hlocals, hinit, hstored, -⟩ := Header.stored_spec
    ⟨0, code.length, max depth l.maxStack, l.locals, false, l.initLocals, clauses⟩ code
  rw [Body.decode, bind_of_ok hparse, bind_of_ok hcode, bind_of_ok hstream,
    bind_of_ok hinstructions, hstored, bind_of_ok hhandlers]
  simp only [Body.ofListing, restored, List.map_map, hlocals, hinit]
  rfl

theorem max_eq (a b : UInt16) : max a b = if a ≤ b then b else a := rfl

theorem le_max (a b : UInt16) :
    a.toNat ≤ (max a b).toNat ∧ b.toNat ≤ (max a b).toNat := by
  rw [max_eq]
  split
  · rename_i hab
    exact ⟨UInt16.le_iff_toNat_le.mp hab, Nat.le_refl _⟩
  · rename_i hab
    rw [UInt16.le_iff_toNat_le] at hab
    exact ⟨Nat.le_refl _, Nat.le_of_not_le hab⟩

theorem max_max_left (a b : UInt16) : max a (max a b) = max a b := by
  simp only [max_eq, UInt16.le_iff_toNat_le]
  split <;> simp_all

theorem max_tiny {a b : UInt16} (h : max a b ≤ Header.tinyMaxStack) :
    max a Header.tinyMaxStack = Header.tinyMaxStack := by
  rw [max_eq] at h ⊢
  refine if_pos ?_
  split at h
  · rename_i hab
    exact UInt16.le_trans hab h
  · exact h

theorem write_again {depth maxStack : UInt16} {locals : Token} {initLocals : Bool}
    {clauses : List Clause} {size : Nat}
    (hwrite : Header.write ⟨0, size, max depth maxStack, locals, false, initLocals, clauses⟩ code
      = .ok bytes) :
    Header.write ⟨0, size, max depth (Header.stored ⟨0, size, max depth maxStack, locals, false,
      initLocals, clauses⟩ code).maxStack, locals, false, initLocals, clauses⟩ code
      = .ok bytes := by
  rw [(Header.stored_spec _ code).2.2.2]
  by_cases htiny :
      Header.fitsTiny ⟨0, size, max depth maxStack, locals, false, initLocals, clauses⟩ code = true
  · -- A tiny header stands for a depth of 8, with which the header is tiny again.
    rw [if_pos htiny]
    obtain ⟨hcode, hmaxStack, hlocals, hinit, hclauses⟩ := Header.isTiny_spec htiny
    have hagain : Header.fitsTiny ⟨0, size, max depth Header.tinyMaxStack, locals, false,
        initLocals, clauses⟩ code = true := by
      simp only [Header.fitsTiny] at htiny ⊢
      rw [max_tiny hmaxStack]
      simp only [Bool.and_eq_true, decide_eq_true_eq] at htiny ⊢
      exact ⟨⟨⟨⟨hcode, UInt16.le_refl _⟩, htiny.1.1.2⟩, htiny.1.2⟩, htiny.2⟩
    simp only [Header.write, if_pos htiny] at hwrite
    simp only [Header.write, if_pos hagain]
    exact hwrite
  · rw [if_neg htiny, max_max_left]
    exact hwrite

theorem maxStack_stored (resolve : Resolver) (returnsValue : Bool) (code : List (Instruction Nat))
    (handlers : List (Handler Nat)) :
    StackDepth.maxStack resolve returnsValue code (handlers.map Handler.stored)
      = StackDepth.maxStack resolve returnsValue code handlers := by
  have hentries : StackDepth.entries code.length (handlers.map Handler.stored)
      = StackDepth.entries code.length handlers := by
    rw [StackDepth.entries, List.foldl_map]
    rfl
  rw [StackDepth.maxStack, StackDepth.explore, hentries]
  rfl

theorem clause_stored (layout : Layout) {h : Handler Nat}
    (hfilter : h.filterStart.isSome = h.flags.isFilter) :
    layout.clause h.stored = layout.clause h := by
  simp only [Layout.clause, Handler.stored]
  cases hsome : h.filterStart with
  | none =>
      rw [hsome, Option.isSome_none] at hfilter
      simp only [← hfilter, Bool.false_eq_true, if_false]
  | some f =>
      rw [hsome, Option.isSome_some] at hfilter
      simp only [← hfilter, if_true]

theorem assemble_restored (hl : l.WellFormed) {final : List (Instruction Nat)}
    (hsettled : Layout.Settled final) (hmake : Layout.make l.code = .ok (.ofCode final))
    (hassemble : l.assemble resolve returnsValue = .ok (header, code))
    (hwrite : header.write code = .ok bytes) :
    ∃ again, (l.restored (.ofCode final) (header.stored code).maxStack).assemble resolve
      returnsValue = .ok (again, code) ∧ again.write code = .ok bytes := by
  obtain ⟨layout, depth, clauses, hlayout, hemit, hdepth, hclauses, rfl⟩ := assemble_eq_ok hassemble
  rw [hmake] at hlayout
  cases hlayout
  have hsize : Layout.codeSize final < UInt32.size := by
    obtain ⟨final', hsame, -, -, hsize⟩ := Layout.make_eq_ok hmake
    rwa [show final = final' from congrArg Layout.code hsame]
  refine ⟨_, ?_, write_again hwrite⟩
  have hagain :
      (l.handlers.map Handler.stored).mapM (Layout.ofCode final).clause = .ok clauses := by
    rw [mapM_map, ← hclauses]
    exact mapM_congr fun h hh => clause_stored _ (hl.filters h hh)
  have hmakeAgain := Layout.make_of_settled hsettled hsize
  rw [assemble]
  simp only [restored, Layout.code_ofCode]
  rw [bind_of_ok hmakeAgain, bind_of_ok hemit, maxStack_stored, bind_of_ok hdepth,
    bind_of_ok hagain]
  rfl

end Listing

namespace Body

variable {b : Body} {resolve : Resolver} {returnsValue : Bool} {bytes : Bytes}

structure Encodable (b : Body) : Prop where
  linked : b.Linked
  shape : ∀ e ∈ b.entries, e.2.operand.hasShape e.2.opcode.operand = true
  filters : ∀ h ∈ b.handlers, h.filterStart.isSome = h.flags.isFilter

/-- The second body is the first one as it was laid out: the same instructions in the same order, up
to the length of branches, with the same positions as targets and boundaries. -/
structure Restores (b b' : Body) (layout : Layout) : Prop where
  length : b'.length = b.length
  instructions : ∀ (p : Nat) (e e' : Handle × Instruction Handle), b.entries[p]? = some e →
    b'.entries[p]? = some e' →
      (e'.2.opcode = e.2.opcode ∨ e.2.opcode.long? = some e'.2.opcode) ∧
      e'.2.operand.map b'.position = e.2.operand.map b.position ∧
      e'.2.offset = some (layout.offset p)
  handlers : b'.handlers.map (Handler.map b'.position)
    = b.handlers.map fun h => (h.map b.position).stored
  locals : b'.locals = b.locals
  initLocals : b'.initLocals = b.initLocals

theorem shape_ranked (hshape : ∀ e ∈ b.entries, e.2.operand.hasShape e.2.opcode.operand = true) :
    ∀ i ∈ b.ranked.code, i.operand.hasShape i.opcode.operand = true := by
  intro i hi
  obtain ⟨e, he, rfl⟩ := List.mem_map.mp hi
  rw [Operand.hasShape_map]
  exact hshape e he

theorem Encodable.wellFormed (hb : b.Encodable) : b.ranked.WellFormed where
  toLinked := hb.linked.ranked
  shape := shape_ranked hb.shape
  filters h hh := by
    obtain ⟨k, hk, rfl⟩ := List.mem_map.mp hh
    rw [Handler.map, Option.isSome_map]
    exact hb.filters k hk

theorem encode_eq_ok (h : b.encode resolve returnsValue = .ok bytes) :
    ∃ l header code, b.listing = .ok l ∧ l.assemble resolve returnsValue = .ok (header, code) ∧
      header.write code = .ok bytes := by
  obtain ⟨l, hl, h⟩ := bind_eq_ok.mp h
  obtain ⟨⟨header, code⟩, hassemble, h⟩ := bind_eq_ok.mp h
  exact ⟨l, header, code, hl, hassemble, h⟩

theorem encode_of_listing {l : Listing} {header : Header} {code : Bytes} (hl : b.listing = .ok l)
    (hassemble : l.assemble resolve returnsValue = .ok (header, code))
    (hwrite : header.write code = .ok bytes) : b.encode resolve returnsValue = .ok bytes := by
  rw [encode, bind_of_ok hl, bind_of_ok hassemble]
  exact hwrite

theorem position_ofListing {id : BodyId} {l : Listing} {p : Nat} (hp : p < l.code.length) :
    (ofListing id l).position ⟨id, p⟩ = some p :=
  position_eq_some_iff.mpr (at?_ofListing hp)

section

variable {final : List (Instruction Nat)} {id : BodyId} {maxStack : UInt16}

theorem position_restored (hfinal : List.Forall₂ Layout.Stretched b.ranked.code final)
    {t : Handle} (ht : b.contains t = true) :
    (ofListing id (b.ranked.restored (.ofCode final) maxStack)).position ⟨id, b.rank t⟩
      = b.position t := by
  have hlength : final.length = b.length := by
    rw [← hfinal.length_eq, ranked, List.length_map, length_entries]
  rw [position_of_contains ht]
  exact position_ofListing (Nat.lt_of_lt_of_eq (rank_lt_length ht) hlength.symm)

theorem instruction_restored (hb : b.Linked)
    (hfinal : List.Forall₂ Layout.Stretched b.ranked.code final) {p : Nat}
    {e e' : Handle × Instruction Handle} (he : b.entries[p]? = some e)
    (he' : (ofListing id (b.ranked.restored (.ofCode final) maxStack)).entries[p]? = some e') :
    (e'.2.opcode = e.2.opcode ∨ e.2.opcode.long? = some e'.2.opcode) ∧
      e'.2.operand.map (ofListing id (b.ranked.restored (.ofCode final) maxStack)).position
        = e.2.operand.map b.position ∧
      e'.2.offset = some ((Layout.ofCode final).offset p) := by
  have hranked : b.ranked.code[p]? = some ⟨e.2.opcode, e.2.operand.map b.rank, none⟩ := by
    rw [ranked, List.getElem?_map, he]
    rfl
  rw [entries_ofListing, List.getElem?_map, List.getElem?_zipIdx] at he'
  simp only [Listing.restored, Layout.code_ofCode, Option.map_map, Option.map_eq_some_iff] at he'
  obtain ⟨j, hj, rfl⟩ := he'
  have hstretched := forall₂_getElem? hfinal hranked hj
  refine ⟨?_, ?_, ?_⟩
  · rcases hstretched with rfl | ⟨hshort, rfl⟩
    · exact .inl rfl
    · obtain ⟨long, hlong, -⟩ := Opcode.exists_long hshort
      apply Or.inr
      simp only [Function.comp_apply, Layout.lengthen, hlong, Option.getD_some]
  · simp only [Function.comp_apply]
    rw [Layout.operand_of_stretched hstretched, Operand.map_map, Operand.map_map]
    apply Operand.map_congr
    intro t ht
    exact position_restored hfinal (hb.targets e (List.mem_of_getElem? he) t ht)
  · simp only [Function.comp_apply, Nat.zero_add]

theorem handlers_restored (hb : b.Linked)
    (hfinal : List.Forall₂ Layout.Stretched b.ranked.code final) :
    (ofListing id (b.ranked.restored (.ofCode final) maxStack)).handlers.map
        (Handler.map (ofListing id (b.ranked.restored (.ofCode final) maxStack)).position)
      = b.handlers.map fun h => (h.map b.position).stored := by
  change ((b.handlers.map (Handler.map b.rank)).map Handler.stored |>.map
    (Handler.map (Handle.mk id))).map (Handler.map _) = _
  rw [List.map_map, List.map_map, List.map_map]
  apply List.map_congr_left
  intro h hh
  simp only [Function.comp_apply]
  rw [Handler.map_map, Handler.map_stored, Handler.map_map]
  apply congrArg Handler.stored
  apply Handler.map_congr
  intro t ht
  exact position_restored hfinal (hb.boundaries h hh t ht)

end

theorem restores_ofListing (hb : b.Encodable) {final : List (Instruction Nat)}
    (hfinal : List.Forall₂ Layout.Stretched b.ranked.code final) (id : BodyId) (maxStack : UInt16) :
    b.Restores (ofListing id (b.ranked.restored (.ofCode final) maxStack)) (.ofCode final) where
  length := by
    rw [length_ofListing, Listing.restored, Layout.code_ofCode, ← hfinal.length_eq, ranked,
      List.length_map, length_entries]
  instructions p e e' he he' := instruction_restored hb.linked hfinal he he'
  handlers := handlers_restored hb.linked hfinal
  locals := rfl
  initLocals := rfl

theorem encode_ofListing {id : BodyId} {l : Listing} {header : Header} {code : Bytes}
    (hl : l.Linked) (hplain : ∀ i ∈ l.code, i.offset = none)
    (hassemble : l.assemble resolve returnsValue = .ok (header, code))
    (hwrite : header.write code = .ok bytes) :
    (ofListing id l).encode resolve returnsValue = .ok bytes := by
  refine encode_of_listing ?_ hassemble hwrite
  rw [(linked_ofListing hl).listing_eq, ranked_ofListing hl hplain]

/-- The stored form of an encodable body decodes to the restored body under any identity, and that
body has the same stored form. -/
theorem Encodable.decode_eq (hb : b.Encodable)
    (hbytes : b.encode resolve returnsValue = .ok bytes) (id : BodyId) :
    ∃ final header code, Layout.make b.ranked.code = .ok (.ofCode final) ∧
      List.Forall₂ Layout.Stretched b.ranked.code final ∧
      b.ranked.assemble resolve returnsValue = .ok (header, code) ∧
      header.write code = .ok bytes ∧
      decode id bytes
        = .ok (ofListing id (b.ranked.restored (.ofCode final) (header.stored code).maxStack)) ∧
      (ofListing id (b.ranked.restored (.ofCode final) (header.stored code).maxStack)).encode
        resolve returnsValue = .ok bytes := by
  obtain ⟨l, header, code, hl, hassemble, hwrite⟩ := encode_eq_ok hbytes
  rw [hb.linked.listing_eq] at hl
  cases hl
  obtain ⟨final, hsettled, hfinal, hmake, hdecode⟩ :=
    Listing.decode_assemble hb.wellFormed hassemble hwrite id
  obtain ⟨again, hagain, hwriteAgain⟩ :=
    Listing.assemble_restored hb.wellFormed hsettled hmake hassemble hwrite
  refine ⟨final, header, code, hmake, hfinal, hassemble, hwrite, hdecode, ?_⟩
  have hrestored := hb.wellFormed.restored hfinal (header.stored code).maxStack
  refine encode_ofListing hrestored.toLinked (fun j hj => ?_) hagain hwriteAgain
  exact Listing.offset_of_mem_stretched hfinal hj fun i hi => by
    obtain ⟨e, -, rfl⟩ := List.mem_map.mp hi
    rfl

end Body

/-- A short branch to the return after it, which a filter guards up to the end of the code. -/
def Listing.filtered : Listing where
  code := [⟨.brS, .target 1, none⟩, ⟨.ret, .none, none⟩]
  handlers := [⟨.ofBits 1, 0, some 1, 1, none, some 1, .null⟩]
  maxStack := 0
  locals := .null
  initLocals := false

theorem Listing.wellFormed_filtered : filtered.WellFormed where
  targets := by decide
  boundaries := by decide
  shape := by decide
  filters := by decide

namespace Body

theorem shape_ofListing (id : BodyId) {l : Listing}
    (hshape : ∀ i ∈ l.code, i.operand.hasShape i.opcode.operand = true) :
    ∀ e ∈ (ofListing id l).entries, e.2.operand.hasShape e.2.opcode.operand = true := by
  intro e he
  rw [entries_ofListing, List.mem_map] at he
  obtain ⟨⟨i, p⟩, hi, rfl⟩ := he
  rw [Operand.hasShape_map]
  exact hshape i (List.fst_mem_of_mem_zipIdx hi)

theorem encodable_ofListing (id : BodyId) {l : Listing} (hl : l.WellFormed) :
    (ofListing id l).Encodable where
  linked := linked_ofListing hl.toLinked
  shape := shape_ofListing id hl.shape
  filters h hh := by
    obtain ⟨k, hk, rfl⟩ := List.mem_map.mp hh
    rw [Handler.map, Option.isSome_map]
    exact hl.filters k hk

def filteredBytes : Bytes :=
  [11, 48, 1, 0, 3, 0, 0, 0, 0, 0, 0, 0, 43, 0, 42, 0, 1, 16, 0, 0, 1, 0, 0, 0, 2, 2, 0, 1, 2, 0, 0,
    0]

theorem encode_filtered (id : BodyId) :
    (ofListing id .filtered).encode (fun _ => none) false = .ok filteredBytes := by
  have hassemble : Listing.filtered.assemble (fun _ => none) false
      = .ok (⟨0, 3, 1, .null, false, false, [⟨.ofBits 1, 0, 2, 2, 1, 2⟩]⟩, [43, 0, 42]) := by
    decide +kernel
  exact encode_ofListing Listing.wellFormed_filtered.toLinked (by decide) hassemble
    (by decide +kernel)

end Body

end CilEdit
