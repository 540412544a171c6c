import CilEdit.Proofs.BodyRoundTrip
import CilEdit.Proofs.Exploring
import Mathlib.Order.Bounds.Basic
import Mathlib.Order.MinMax
import Mathlib.Tactic.IntervalCases

namespace CilEdit

namespace StackDepth

variable {code : List (Instruction Nat)} {handlers handlers' : List (Handler Nat)}
  {resolve : Resolver} {returnsValue : Bool} {d : Nat → Nat} {p n : Nat} {visits : List Visit}

/-- The depths of the stack before and after the instructions that control reaches, and that of the
empty stack. -/
def held (resolve : Resolver) (returnsValue : Bool) (code : List (Instruction Nat))
    (handlers : List (Handler Nat)) (d : Nat → Nat) : Set Nat :=
  {n | n = 0 ∨ ∃ p i pops pushes, Reachable code handlers p ∧ code[p]? = some i ∧
    effect resolve returnsValue i = .ok (pops, pushes) ∧ (n = d p ∨ n = d p - pops + pushes)}

theorem isGreatest_foldl (visits : List Visit) (depth : Nat) :
    IsGreatest {n | n = depth ∨ ∃ v ∈ visits, n = v.depth ∨ n = v.after}
      (visits.foldl (fun depth v => max (max depth v.depth) v.after) depth) := by
  induction visits generalizing depth with
  | nil => exact ⟨.inl rfl, fun n hn => by simpa using Nat.le_of_eq (hn.resolve_right (by simp))⟩
  | cons v visits ih =>
      obtain ⟨hmem, hbound⟩ := ih (max (max depth v.depth) v.after)
      rw [List.foldl_cons]
      constructor
      · rcases hmem with hmem | ⟨w, hw, hmem⟩
        · rw [hmem]
          rcases max_choice (max depth v.depth) v.after with h | h
          · rcases max_choice depth v.depth with h' | h'
            · exact .inl (h.trans h')
            · exact .inr ⟨v, List.mem_cons_self, .inl (h.trans h')⟩
          · exact .inr ⟨v, List.mem_cons_self, .inr h⟩
        · exact .inr ⟨w, List.mem_cons_of_mem v hw, hmem⟩
      · have hfirst := hbound (.inl rfl)
        rintro n (rfl | ⟨w, hw, hn⟩)
        · omega
        · rcases List.mem_cons.mp hw with rfl | hw
          · omega
          · exact hbound (.inr ⟨w, hw, hn⟩)

theorem isGreatest_deepest (visits : List Visit) :
    IsGreatest {n | n = 0 ∨ ∃ v ∈ visits, n = v.depth ∨ n = v.after} (deepest visits) :=
  isGreatest_foldl visits 0

theorem Search.held_eq (hd : Consistent resolve returnsValue code handlers d)
    (h : Search resolve returnsValue code (entries code.length handlers) visits) :
    {n | n = 0 ∨ ∃ v ∈ visits, n = v.depth ∨ n = v.after}
      = held resolve returnsValue code handlers d := by
  have hexploring := exploring_entries code handlers
  have hfaithful := h.faithful hd hexploring (hd.agreed_entries code.length)
  ext n
  refine or_congr Iff.rfl ?_
  constructor
  · rintro ⟨v, hv, hn⟩
    obtain ⟨i, hv⟩ := hfaithful v hv
    refine ⟨v.position, i, v.pops, v.pushes, hv.reachable, hv.found, hv.effect, ?_⟩
    rw [← hv.depth]
    exact hn
  · rintro ⟨p, i, pops, pushes, hp, hi, heffect, hn⟩
    obtain ⟨hlt, -⟩ := List.getElem?_eq_some_iff.mp hi
    obtain ⟨v, hv, rfl⟩ := (h.complete hexploring hp hlt).resolve_left List.not_mem_nil
    obtain ⟨j, hfaithful⟩ := hfaithful v hv
    have hij : j = i := Option.some.inj (hfaithful.found.symm.trans hi)
    subst hij
    have hsame := Except.ok.inj (hfaithful.effect.symm.trans heffect)
    cases hsame
    rw [← hfaithful.depth] at hn
    exact ⟨v, hv, hn⟩

theorem Search.isGreatest (hd : Consistent resolve returnsValue code handlers d)
    (h : Search resolve returnsValue code (entries code.length handlers) visits) :
    IsGreatest (held resolve returnsValue code handlers d) (deepest visits) := by
  rw [← h.held_eq hd]
  exact isGreatest_deepest visits

theorem maxStack_of_isGreatest (hd : Consistent resolve returnsValue code handlers d)
    (h : IsGreatest (held resolve returnsValue code handlers d) n) :
    maxStack resolve returnsValue code handlers
      = if n < UInt16.size then .ok (UInt16.ofNat n) else Error.bad (.stackTooDeep n) := by
  obtain ⟨visits, hsearch, hexplore⟩ := hd.exists_explore
  rw [maxStack, hexplore, h.unique (hsearch.isGreatest hd)]

theorem Reachable.of_subset (hsubset : handlers ⊆ handlers') (h : Reachable code handlers p) :
    Reachable code handlers' p := by
  induction h with
  | start => exact .start
  | handler hmem => exact .handler (hsubset hmem)
  | filter hmem hfilter => exact .filter (hsubset hmem) hfilter
  | branch _ hi htarget ih => exact .branch ih hi htarget
  | next _ hi hfalls ih => exact .next ih hi hfalls

theorem Consistent.of_perm (hd : Consistent resolve returnsValue code handlers d)
    (hperm : handlers'.Perm handlers) : Consistent resolve returnsValue code handlers' d where
  start := hd.start
  handler h hh := hd.handler h (hperm.mem_iff.mp hh)
  filter h hh := hd.filter h (hperm.mem_iff.mp hh)
  step p i hp := hd.step p i (hp.of_subset hperm.subset)

theorem held_of_perm (hperm : handlers'.Perm handlers) :
    held resolve returnsValue code handlers' d = held resolve returnsValue code handlers d := by
  have hreachable : ∀ p, Reachable code handlers' p ↔ Reachable code handlers p :=
    fun p => ⟨.of_subset hperm.subset, .of_subset hperm.symm.subset⟩
  simp only [held, hreachable]

theorem Consistent.stretched (hd : Consistent resolve returnsValue code handlers d)
    {final : List (Instruction Nat)} (hfinal : List.Forall₂ Layout.Stretched code final) :
    Consistent resolve returnsValue final handlers d where
  start := hd.start
  handler := hd.handler
  filter := hd.filter
  step p j hp hj := by
    obtain ⟨i, hi, hij⟩ := exists_stretched hfinal hj
    rw [effect_of_stretched hij, Layout.operand_of_stretched hij, flow_of_stretched hij,
      ← hfinal.length_eq]
    exact hd.step p i (hp.of_stretched hfinal) hi

theorem held_stretched {final : List (Instruction Nat)}
    (hfinal : List.Forall₂ Layout.Stretched code final) :
    held resolve returnsValue final handlers d = held resolve returnsValue code handlers d := by
  ext n
  refine or_congr Iff.rfl ?_
  constructor
  · rintro ⟨p, j, pops, pushes, hp, hj, heffect, hn⟩
    obtain ⟨i, hi, hij⟩ := exists_stretched hfinal hj
    rw [effect_of_stretched hij] at heffect
    exact ⟨p, i, pops, pushes, hp.of_stretched hfinal, hi, heffect, hn⟩
  · rintro ⟨p, i, pops, pushes, hp, hi, heffect, hn⟩
    obtain ⟨j, hj, hij⟩ := exists_lengthened hfinal hi
    rw [← effect_of_stretched hij] at heffect
    exact ⟨p, j, pops, pushes, hp.stretched hfinal, hj, heffect, hn⟩

end StackDepth

namespace Body

variable {b : Body} {l : Listing} {layout : Layout} {resolve : Resolver} {returnsValue : Bool}
  {bytes : Bytes} {d : Nat → Nat} {depth : UInt16}

theorem maxStack_listing (h : b.listing = .ok l) : l.maxStack = b.maxStack := by
  obtain ⟨code, -, h⟩ := bind_eq_ok.mp h
  obtain ⟨handlers, -, h⟩ := bind_eq_ok.mp h
  cases h
  rfl

/-- The header of a saved body declares at least the computed depth and the one the body came
with. -/
theorem parse_encode (hl : b.listing = .ok l) (hlayout : Layout.make l.code = .ok layout)
    (hbytes : b.encode resolve returnsValue = .ok bytes) :
    ∃ depth header, StackDepth.maxStack resolve returnsValue layout.code l.handlers = .ok depth ∧
      Header.parse bytes = .ok header ∧ depth.toNat ≤ header.maxStack.toNat ∧
      b.maxStack.toNat ≤ header.maxStack.toNat := by
  obtain ⟨l', header, code, hl', hassemble, hwrite⟩ := encode_eq_ok hbytes
  rw [hl] at hl'
  cases hl'
  obtain ⟨layout', depth, clauses, hlayout', -, hdepth, -, rfl⟩ := Listing.assemble_eq_ok hassemble
  rw [hlayout] at hlayout'
  cases hlayout'
  have hparse := Header.parse_write hwrite []
  rw [List.append_nil] at hparse
  have hstored := Header.maxStack_le_stored
    ⟨0, code.length, max depth l.maxStack, l.locals, false, l.initLocals, clauses⟩ code
  obtain ⟨hleft, hright⟩ := Listing.le_max depth l.maxStack
  refine ⟨depth, _, hdepth, hparse, hleft.trans hstored, ?_⟩
  rw [← maxStack_listing hl]
  exact hright.trans hstored

/-- The computed depth is the greatest before or after a reachable instruction, in whatever order
the handlers stand and the positions are searched, and a saved header declares it. -/
theorem maxStack_exact (hl : b.listing = .ok l) (hlayout : Layout.make l.code = .ok layout)
    (hd : StackDepth.Consistent resolve returnsValue l.code l.handlers d) :
    ∃ deepest, IsGreatest (StackDepth.held resolve returnsValue l.code l.handlers d) deepest ∧
      (∀ handlers, handlers.Perm l.handlers →
        StackDepth.maxStack resolve returnsValue layout.code handlers
          = (if deepest < UInt16.size then .ok (UInt16.ofNat deepest)
              else Error.bad (.stackTooDeep deepest)) ∧
        ∀ visits, StackDepth.Search resolve returnsValue layout.code
          (StackDepth.entries layout.code.length handlers) visits →
            StackDepth.deepest visits = deepest) ∧
      ∀ bytes, b.encode resolve returnsValue = .ok bytes → ∃ header,
        Header.parse bytes = .ok header ∧ deepest ≤ header.maxStack.toNat ∧
          b.maxStack.toNat ≤ header.maxStack.toNat := by
  obtain ⟨final, rfl, -, hfinal, -⟩ := Layout.make_eq_ok hlayout
  obtain ⟨visits, hsearch, -⟩ := hd.exists_explore
  have hgreatest := hsearch.isGreatest hd
  refine ⟨StackDepth.deepest visits, hgreatest, ?_, ?_⟩
  · intro handlers hperm
    have hfound := (hd.stretched hfinal).of_perm hperm
    rw [← StackDepth.held_stretched hfinal, ← StackDepth.held_of_perm hperm] at hgreatest
    refine ⟨StackDepth.maxStack_of_isGreatest hfound hgreatest, ?_⟩
    exact fun visits' hsearch' => (hsearch'.isGreatest hfound).unique hgreatest
  · intro bytes hbytes
    obtain ⟨depth, header, hdepth, hparse, hcomputed, hdeclared⟩ :=
      parse_encode hl hlayout hbytes
    refine ⟨header, hparse, ?_, hdeclared⟩
    rw [← StackDepth.held_stretched hfinal] at hgreatest
    rw [Layout.code_ofCode, StackDepth.maxStack_of_isGreatest (hd.stretched hfinal) hgreatest]
      at hdepth
    split at hdepth
    · rename_i hlt
      cases hdepth
      rwa [UInt16.toNat_ofNat_of_lt' hlt] at hcomputed
    · cases hdepth

end Body

/-- A loop that counts, guarded by a filter whose handler drops the exception. -/
def Listing.guardedLoop : Listing where
  code := [⟨.ldcI41, .none, none⟩, ⟨.brtrueS, .target 0, none⟩, ⟨.leaveS, .target 8, none⟩,
    ⟨.pop, .none, none⟩, ⟨.ldcI40, .none, none⟩, ⟨.endfilter, .none, none⟩, ⟨.pop, .none, none⟩,
    ⟨.leaveS, .target 8, none⟩, ⟨.ret, .none, none⟩]
  handlers := [⟨.ofBits 1, 0, some 3, 6, some 8, some 3, .null⟩]
  maxStack := 0
  locals := .null
  initLocals := false

def Listing.guardedLoopDepth (p : Nat) : Nat :=
  if p = 1 ∨ p = 3 ∨ p = 5 ∨ p = 6 then 1 else 0

theorem Listing.consistent_guardedLoop :
    StackDepth.Consistent (fun _ => none) false guardedLoop.code guardedLoop.handlers
      guardedLoopDepth where
  start := rfl
  handler := by decide
  filter := by
    intro h hh q hq
    obtain rfl := List.mem_singleton.mp hh
    cases hq
    rfl
  step p i _ hi := by
    obtain ⟨hlt, rfl⟩ := List.getElem?_eq_some_iff.mp hi
    have hp : p < 9 := hlt
    interval_cases p <;> exact ⟨_, _, rfl, by decide +revert, by decide +revert⟩

theorem Listing.linked_guardedLoop : guardedLoop.Linked where
  targets := by decide
  boundaries := by decide

theorem Listing.make_guardedLoop :
    Layout.make guardedLoop.code = .ok (.ofCode guardedLoop.code) :=
  Layout.make_of_settled (by unfold Layout.Settled; decide +kernel) (by decide)

namespace Body

theorem listing_guardedLoop (id : BodyId) :
    (ofListing id .guardedLoop).listing = .ok .guardedLoop := by
  rw [(linked_ofListing Listing.linked_guardedLoop).listing_eq,
    ranked_ofListing Listing.linked_guardedLoop (by decide)]

theorem exists_encode_guardedLoop (id : BodyId) :
    ∃ bytes, (ofListing id .guardedLoop).encode (fun _ => none) false = .ok bytes := by
  have hassemble : Listing.guardedLoop.assemble (fun _ => none) false
      = .ok (⟨0, 13, 1, .null, false, false, [⟨.ofBits 1, 0, 5, 9, 3, 5⟩]⟩,
        [23, 45, 253, 222, 7, 38, 22, 254, 17, 38, 222, 0, 42]) := by
    decide +kernel
  exact ⟨_, encode_of_listing (listing_guardedLoop id) hassemble rfl⟩

/-- The loop never holds more than one value, and its header declares as much. -/
theorem maxStack_exact_guardedLoop :
    IsGreatest (StackDepth.held (fun _ => none) false Listing.guardedLoop.code
      Listing.guardedLoop.handlers Listing.guardedLoopDepth) 1 ∧
    ∃ bytes header, (ofListing ⟨0, 0⟩ .guardedLoop).encode (fun _ => none) false = .ok bytes ∧
      Header.parse bytes = .ok header ∧ 1 ≤ header.maxStack.toNat := by
  obtain ⟨deepest, hgreatest, horder, hheader⟩ := maxStack_exact (listing_guardedLoop ⟨0, 0⟩)
    Listing.make_guardedLoop Listing.consistent_guardedLoop
  have hcomputed : StackDepth.maxStack (fun _ => none) false Listing.guardedLoop.code
      Listing.guardedLoop.handlers = .ok 1 := by
    decide +kernel
  have hmaxStack := (horder _ (.refl _)).1
  rw [Layout.code_ofCode, hcomputed] at hmaxStack
  have hdeepest : deepest = 1 := by
    split at hmaxStack
    · rename_i hlt
      have hone := congrArg UInt16.toNat (Except.ok.inj hmaxStack)
      rw [UInt16.toNat_ofNat_of_lt' hlt] at hone
      exact hone.symm
    · cases hmaxStack
  subst hdeepest
  obtain ⟨bytes, hbytes⟩ := exists_encode_guardedLoop ⟨0, 0⟩
  obtain ⟨header, hparse, hdepth, -⟩ := hheader bytes hbytes
  exact ⟨hgreatest, bytes, header, hbytes, hparse, hdepth⟩

end Body

end CilEdit
