import CilEdit.Proofs.Patching
import Mathlib.Data.List.Dedup

/-!
What a descriptor replaces.

A descriptor checks itself and all of its sites before it changes anything, and whatever it has
resolved can be replaced. So it fails and leaves the module as it was, or it makes every
replacement. Sites are told apart by their locators, though, and an offset and a position can denote
one instruction: then the later replacement stays.
-/

namespace CilEdit

namespace Descriptor

/-- What a run of replacements makes of the instruction at `h`. -/
def rewritten (h : Handle) (edits : List (Site × Handle × Instruction Handle))
    (i : Instruction Handle) : Instruction Handle :=
  edits.foldl (fun i e =>
    if e.2.1 = h then { i with opcode := e.2.2.opcode, operand := e.2.2.operand } else i) i

variable {h : Handle} {i : Instruction Handle}
  {edits before after : List (Site × Handle × Instruction Handle)}

theorem rewritten_cons (e : Site × Handle × Instruction Handle) :
    rewritten h (e :: edits) i = rewritten h edits
      (if e.2.1 = h then { i with opcode := e.2.2.opcode, operand := e.2.2.operand } else i) := rfl

theorem rewritten_append (edits later : List (Site × Handle × Instruction Handle)) :
    rewritten h (edits ++ later) i = rewritten h later (rewritten h edits i) :=
  List.foldl_append

theorem offset_rewritten : (rewritten h edits i).offset = i.offset := by
  induction edits generalizing i with
  | nil => rfl
  | cons e edits ih =>
      rw [rewritten_cons, ih]
      split <;> rfl

theorem rewritten_of_forall_ne (hne : ∀ e ∈ edits, e.2.1 ≠ h) : rewritten h edits i = i := by
  induction edits with
  | nil => rfl
  | cons e edits ih =>
      obtain ⟨hfirst, hrest⟩ := List.forall_mem_cons.mp hne
      rw [rewritten_cons, if_neg hfirst, ih hrest]

/-- The last replacement of an instruction stays. -/
theorem rewritten_of_last (e : Site × Handle × Instruction Handle) (hat : e.2.1 = h)
    (hlater : ∀ f ∈ after, f.2.1 ≠ h) : rewritten h (before ++ e :: after) i
      = { i with opcode := e.2.2.opcode, operand := e.2.2.operand } := by
  rw [rewritten_append, rewritten_cons, if_pos hat, rewritten_of_forall_ne hlater,
    offset_rewritten]

/-- An instruction is as it was if it is not replaced, and else as one of the replacements says. -/
theorem rewritten_cases (h : Handle) (edits : List (Site × Handle × Instruction Handle))
    (i : Instruction Handle) :
    ((∀ e ∈ edits, e.2.1 ≠ h) ∧ rewritten h edits i = i) ∨ ∃ e ∈ edits, e.2.1 = h ∧
      rewritten h edits i = { i with opcode := e.2.2.opcode, operand := e.2.2.operand } := by
  induction edits generalizing i with
  | nil => exact .inl ⟨fun _ he => (List.not_mem_nil he).elim, rfl⟩
  | cons e edits ih =>
      rw [rewritten_cons]
      by_cases heq : e.2.1 = h
      · rw [if_pos heq]
        rcases ih { i with opcode := e.2.2.opcode, operand := e.2.2.operand } with
          ⟨-, hsame⟩ | ⟨f, hf, hat, hsame⟩
        · exact .inr ⟨e, List.mem_cons_self, heq, hsame⟩
        · exact .inr ⟨f, List.mem_cons_of_mem _ hf, hat, hsame⟩
      · rw [if_neg heq]
        rcases ih i with ⟨hne, hsame⟩ | ⟨f, hf, hat, hsame⟩
        · exact .inl ⟨List.forall_mem_cons.mpr ⟨heq, hne⟩, hsame⟩
        · exact .inr ⟨f, List.mem_cons_of_mem _ hf, hat, hsame⟩

end Descriptor

namespace Body

open Descriptor (rewritten replaceAll replaceAll_induction)

/-- The second body has the instructions of the first one as a run of replacements has made them,
and the same of everything else. -/
structure Overwritten (edits : List (Site × Handle × Instruction Handle)) (b b' : Body) :
    Prop where
  id : b'.id = b.id
  order : b'.order = b.order
  instructions : ∀ h, b'.get? h = (b.get? h).map (rewritten h edits)
  handlers : b'.handlers = b.handlers
  maxStack : b'.maxStack = b.maxStack
  locals : b'.locals = b.locals
  initLocals : b'.initLocals = b.initLocals

variable {b b' b'' : Body} {h k : Handle} {i : Instruction Handle}
  {edits later : List (Site × Handle × Instruction Handle)}

theorem overwritten_nil (b : Body) : Overwritten [] b b :=
  ⟨rfl, rfl, fun _ => Option.map_id'.symm, rfl, rfl, rfl, rfl⟩

theorem Overwritten.append (hb : Overwritten edits b b') (hb' : Overwritten later b' b'') :
    Overwritten (edits ++ later) b b'' where
  id := hb'.id.trans hb.id
  order := hb'.order.trans hb.order
  instructions h := by
    rw [hb'.instructions, hb.instructions, Option.map_map]
    exact Option.map_congr fun i _ => (Descriptor.rewritten_append edits later).symm
  handlers := hb'.handlers.trans hb.handlers
  maxStack := hb'.maxStack.trans hb.maxStack
  locals := hb'.locals.trans hb.locals
  initLocals := hb'.initLocals.trans hb.initLocals

theorem Overwritten.contains_iff (hb : Overwritten edits b b') :
    b'.contains h = true ↔ b.contains h = true := by
  rw [Body.contains_iff, Body.contains_iff, hb.id, hb.order]

theorem map_get?_overwrite {opcode : Opcode} {operand : Operand Handle}
    (hmem : b.contains k = true) (h : Handle) : (b.overwrite k.slot opcode operand).get? h
      = (b.get? h).map fun i => if k = h then { i with opcode, operand } else i := by
  cases hi : b.get? h with
  | some i => exact get?_overwrite hmem hi
  | none =>
      rw [get?_eq_none_iff, Bool.eq_false_iff] at hi
      rw [Option.map_none, get?_eq_none_iff, Bool.eq_false_iff, ne_eq, contains_overwrite]
      exact hi

theorem overwritten_overwrite (s : Site) (i : Instruction Handle) (hmem : b.contains h = true)
    (shifted : Bool) :
    Overwritten [(s, h, i)] b { b.overwrite h.slot i.opcode i.operand with shifted } where
  id := rfl
  order := rfl
  instructions k := by
    have hget : ({ b.overwrite h.slot i.opcode i.operand with shifted } : Body).get? k
        = (b.overwrite h.slot i.opcode i.operand).get? k := rfl
    rw [hget, map_get?_overwrite hmem]
    rfl
  handlers := rfl
  maxStack := rfl
  locals := rfl
  initLocals := rfl

/-- An operand without targets replaces that of any instruction of the list. -/
theorem exists_replace (s : Site) (hmem : b.contains h = true) (htargets : i.operand.targets = []) :
    ∃ b', replace h i b = (.ok (), b') ∧ Overwritten [(s, h, i)] b b' := by
  rcases replace_cases h i b with ⟨old, -, -, heq⟩ | ⟨e, -, herror | ⟨-, herror⟩⟩
  · exact ⟨_, heq, overwritten_overwrite s i hmem _⟩
  · obtain ⟨old, hold⟩ := exists_get? hmem
    rw [instruction_eq_ok_iff_get?.mpr hold] at herror
    cases herror
  · rw [checkTargets, htargets] at herror
    cases herror

/-- A run of replacements without targets, at instructions of the list, succeeds. -/
theorem exists_overwritten
    (hall : ∀ e ∈ edits, b.contains e.2.1 = true ∧ e.2.2.operand.targets = []) :
    ∃ b', replaceAll edits b = (.ok (), b') ∧ Overwritten edits b b' := by
  refine replaceAll_induction (P := fun made b' => Overwritten made b b') ?_ [] (overwritten_nil b)
  intro made e b' he hb'
  obtain ⟨hmem, htargets⟩ := hall e he
  obtain ⟨b'', hreplace, hb''⟩ := exists_replace e.1 (hb'.contains_iff.mpr hmem) htargets
  exact ⟨b'', hreplace, hb'.append hb''⟩

end Body

/-- The instruction at `h` is what a site that replaces something leaves behind. -/
def Site.Holds (s : Site) (b : Body) (h : Handle) : Prop :=
  ∀ operand, s.replacement? = some operand →
    ∃ i, b.get? h = some i ∧ i.opcode = s.expect.opcode ∧ i.operand = operand

def Locator.isOffset : Locator → Bool
  | .offset _ => true
  | .index _ => false

/-- Two locators of one kind do not denote one instruction. -/
theorem Locator.eq_of_find {b : Body} {h : Handle} {l k : Locator} (hl : l.find b = .ok h)
    (hk : k.find b = .ok h) (hkind : l.isOffset = k.isOffset) : l = k := by
  cases l with
  | offset n =>
      cases k with
      | offset m =>
          obtain ⟨i, hi, hn⟩ := Body.exists_of_find? (find_offset_eq_ok_iff.mp hl).2
          obtain ⟨j, hj, hm⟩ := Body.exists_of_find? (find_offset_eq_ok_iff.mp hk).2
          have hsame := (Body.mem_entries_iff.mp hi).2.symm.trans (Body.mem_entries_iff.mp hj).2
          cases hsame
          rw [beq_iff_eq] at hn hm
          exact congrArg Locator.offset (Option.some.inj (hn.symm.trans hm))
      | index m => cases hkind
  | index n =>
      cases k with
      | offset m => cases hkind
      | index m =>
          rw [find_index_eq_ok_iff] at hl hk
          exact congrArg Locator.index ((Body.rank_of_at? hl).symm.trans (Body.rank_of_at? hk))

namespace Descriptor

variable {d : Descriptor} {b b' : Body} {handles : List Handle} {h : Handle} {s : Site}
  {i : Instruction Handle}

/-- The instructions that are replaced, one for every site that replaces something. -/
def replacedAt (d : Descriptor) (handles : List Handle) : List Handle :=
  (d.replacements handles).map fun e => e.2.1

/-- A site is found at an instruction with the expected opcode. -/
theorem exists_get?_of_resolve (hresolve : d.resolve b = .ok handles)
    (hzip : (s, h) ∈ d.sites.zip handles) :
    ∃ i, b.get? h = some i ∧ s.expect.accepts i = true ∧ i.opcode = s.expect.opcode := by
  obtain ⟨i, hi, haccepts⟩ := (List.forall₂_iff_zip.mp (resolve_eq_ok hresolve).2).2 hzip
  have hopcode := haccepts
  rw [Pattern.accepts, Bool.and_eq_true, beq_iff_eq] at hopcode
  exact ⟨i, Body.instruction_eq_ok_iff_get?.mp hi, haccepts, hopcode.1⟩

/-- All sites at an instruction expect its opcode, so it keeps the opcode. -/
theorem opcode_rewritten (hresolve : d.resolve b = .ok handles) (hi : b.get? h = some i) :
    (rewritten h (d.replacements handles) i).opcode = i.opcode := by
  rcases rewritten_cases h (d.replacements handles) i with ⟨-, heq⟩ | ⟨e, he, rfl, heq⟩
  · rw [heq]
  · obtain ⟨hzip, operand, -, hmake⟩ := mem_replacements.mp he
    obtain ⟨j, hj, -, hopcode⟩ := exists_get?_of_resolve hresolve hzip
    rw [hi] at hj
    cases hj
    rw [heq, hmake]
    exact hopcode.symm

/-- Sites at one instruction replace it by the same operand. -/
def Agrees (d : Descriptor) (handles : List Handle) : Prop :=
  ∀ p ∈ d.sites.zip handles, ∀ q ∈ d.sites.zip handles, p.2 = q.2 →
    ∀ x y, p.1.replacement? = some x → q.1.replacement? = some y → x = y

theorem agrees_of_nodup (hnodup : (d.replacedAt handles).Nodup) : d.Agrees handles := by
  rintro ⟨s, h⟩ hp ⟨t, k⟩ hq hsame x y hx hy
  have hmemp : (s, h, ⟨s.expect.opcode, x, none⟩) ∈ d.replacements handles :=
    mem_replacements.mpr ⟨hp, x, hx, rfl⟩
  have hmemq : (t, k, ⟨t.expect.opcode, y, none⟩) ∈ d.replacements handles :=
    mem_replacements.mpr ⟨hq, y, hy, rfl⟩
  have heq := List.inj_on_of_nodup_map hnodup hmemp hmemq hsame
  cases heq
  rfl

/-- The second body is the first one after the descriptor was applied to the instructions at
`handles`. -/
structure Replaces (d : Descriptor) (b : Body) (handles : List Handle) (b' : Body) : Prop where
  located : List.Forall₂ (fun s h => s.locator.find b = .ok h) d.sites handles
  /-- Only sites that are found in different ways are at one instruction. -/
  aliased : (d.sites.zip handles).Pairwise fun p q =>
    p.2 = q.2 → p.1.locator.isOffset ≠ q.1.locator.isOffset
  opcodes : ∀ p ∈ d.sites.zip handles, ∃ i j, b.get? p.2 = some i ∧ p.1.expect.accepts i = true ∧
    b'.get? p.2 = some j ∧ j.opcode = p.1.expect.opcode ∧ j.offset = i.offset
  /-- Of the sites that replace an instruction, the last one decides. -/
  last : ∀ before s h after, d.sites.zip handles = before ++ (s, h) :: after →
    (∀ p ∈ after, p.2 = h → p.1.replacement? = none) → s.Holds b' h
  agreed : (∀ p ∈ d.sites.zip handles, p.1.Holds b' p.2) ↔ d.Agrees handles
  others : ∀ h, h ∉ d.replacedAt handles → b'.get? h = b.get? h
  id : b'.id = b.id
  order : b'.order = b.order
  handlers : b'.handlers = b.handlers
  maxStack : b'.maxStack = b.maxStack
  locals : b'.locals = b.locals
  initLocals : b'.initLocals = b.initLocals

/-- Two sites at one instruction are not found in the same way, as no two have one locator. -/
theorem pairwise_isOffset (hvalid : d.validate = .ok ())
    (hfind : List.Forall₂ (fun s h => s.locator.find b = .ok h) d.sites handles) :
    (d.sites.zip handles).Pairwise fun p q =>
      p.2 = q.2 → p.1.locator.isOffset ≠ q.1.locator.isOffset := by
  have hnodup := (nodup_of_siteFault (siteFault_of_validate hvalid).2).1
  have hsites : ((d.sites.zip handles).map Prod.fst) = d.sites :=
    List.map_fst_zip (Nat.le_of_eq hfind.length_eq)
  rw [← hsites, List.map_map, List.Nodup, List.pairwise_map] at hnodup
  refine hnodup.imp_of_mem fun {p q} hp hq hne hsame hkind => hne ?_
  have hp' := (List.forall₂_iff_zip.mp hfind).2 hp
  have hq' := (List.forall₂_iff_zip.mp hfind).2 hq
  rw [← hsame] at hq'
  exact Locator.eq_of_find hp' hq' hkind

theorem holds_iff (hb : Body.Overwritten (d.replacements handles) b b')
    (hresolve : d.resolve b = .ok handles) (hzip : (s, h) ∈ d.sites.zip handles)
    (hi : b.get? h = some i) : s.Holds b' h ↔ ∀ operand, s.replacement? = some operand →
      (rewritten h (d.replacements handles) i).operand = operand := by
  have hget := hb.instructions h
  rw [hi, Option.map_some] at hget
  obtain ⟨j, hj, -, hopcode⟩ := exists_get?_of_resolve hresolve hzip
  rw [hi] at hj
  cases hj
  rw [Site.Holds, hget]
  refine forall₂_congr fun operand _ => ⟨?_, fun hoperand => ?_⟩
  · rintro ⟨j, ⟨⟩, -, hoperand⟩
    exact hoperand
  · exact ⟨_, rfl, (opcode_rewritten hresolve hi).trans hopcode, hoperand⟩

/-- Of the sites at one instruction, the last one that replaces it decides. -/
theorem holds_of_last (hb : Body.Overwritten (d.replacements handles) b b')
    (hresolve : d.resolve b = .ok handles) {before after : List (Site × Handle)}
    (hsplit : d.sites.zip handles = before ++ (s, h) :: after)
    (hlater : ∀ p ∈ after, p.2 = h → p.1.replacement? = none) : s.Holds b' h := by
  have hzip : (s, h) ∈ d.sites.zip handles := by
    rw [hsplit]
    exact List.mem_append_right _ List.mem_cons_self
  obtain ⟨i, hi, -⟩ := exists_get?_of_resolve hresolve hzip
  refine (holds_iff hb hresolve hzip hi).mpr fun operand hoperand => ?_
  have hmake : replacementAt (s, h) = some (s, h, ⟨s.expect.opcode, operand, none⟩) :=
    replacementAt_eq_some_iff.mpr ⟨rfl, operand, hoperand, rfl⟩
  have hlast : ∀ e ∈ after.filterMap replacementAt, e.2.1 ≠ h := by
    intro e he heq
    obtain ⟨p, hmem, hsome⟩ := List.mem_filterMap.mp he
    obtain ⟨rfl, operand', hreplaces, -⟩ := replacementAt_eq_some_iff.mp hsome
    rw [hlater _ hmem heq] at hreplaces
    cases hreplaces
  rw [replacements, hsplit, List.filterMap_append, List.filterMap_cons_some hmake]
  exact congrArg Instruction.operand (rewritten_of_last (s, h, _) rfl hlast)

/-- Every site holds exactly if no two sites write different operands at one instruction. -/
theorem forall_holds_iff (hb : Body.Overwritten (d.replacements handles) b b')
    (hresolve : d.resolve b = .ok handles) :
    (∀ p ∈ d.sites.zip handles, p.1.Holds b' p.2) ↔ d.Agrees handles := by
  constructor
  · rintro hall ⟨s, h⟩ hp ⟨t, k⟩ hq hsame x y hx hy
    obtain rfl : h = k := hsame
    obtain ⟨i, hi, -, hxi⟩ := hall _ hp x hx
    obtain ⟨j, hj, -, hyj⟩ := hall _ hq y hy
    rw [hi] at hj
    cases hj
    exact hxi.symm.trans hyj
  · rintro hagrees ⟨s, h⟩ hzip
    obtain ⟨i, hi, -⟩ := exists_get?_of_resolve hresolve hzip
    refine (holds_iff hb hresolve hzip hi).mpr fun operand hoperand => ?_
    rcases rewritten_cases h (d.replacements handles) i with ⟨hne, -⟩ | ⟨e, he, hat, heq⟩
    · exact (hne (s, h, ⟨s.expect.opcode, operand, none⟩)
        (mem_replacements.mpr ⟨hzip, operand, hoperand, rfl⟩) rfl).elim
    · -- The replacement that stays may be that of another site at the instruction.
      obtain ⟨hzip', operand', hoperand', hmake⟩ := mem_replacements.mp he
      rw [heq, hmake]
      exact hagrees _ hzip' _ hzip hat _ _ hoperand' hoperand

/-- What a run of the replacements of a descriptor makes of a body. -/
theorem replaces_of_overwritten (hvalid : d.validate = .ok ())
    (hresolve : d.resolve b = .ok handles)
    (hb : Body.Overwritten (d.replacements handles) b b') : d.Replaces b handles b' where
  located := find_of_locate (resolve_eq_ok hresolve).1
  aliased := pairwise_isOffset hvalid (find_of_locate (resolve_eq_ok hresolve).1)
  opcodes := by
    rintro ⟨s, h⟩ hzip
    obtain ⟨i, hi, haccepts, hopcode⟩ := exists_get?_of_resolve hresolve hzip
    refine ⟨i, _, hi, haccepts, ?_, (opcode_rewritten hresolve hi).trans hopcode, offset_rewritten⟩
    rw [hb.instructions, hi, Option.map_some]
  last _ _ _ _ hsplit hlater := holds_of_last hb hresolve hsplit hlater
  agreed := forall_holds_iff hb hresolve
  others := by
    intro h hnot
    rw [hb.instructions]
    have hne : ∀ e ∈ d.replacements handles, e.2.1 ≠ h := by
      rintro e he rfl
      exact hnot (List.mem_map_of_mem he)
    cases b.get? h with
    | none => rfl
    | some i => exact congrArg some (rewritten_of_forall_ne hne)
  id := hb.id
  order := hb.order
  handlers := hb.handlers
  maxStack := hb.maxStack
  locals := hb.locals
  initLocals := hb.initLocals

variable {m m' : Module} {place : Module.MethodPlace} {o : Outcome} {e : Error}

/-- Where the sites of a valid descriptor are resolved, all of its replacements are made. -/
theorem exists_apply_of_resolve (hvalid : d.validate = .ok ())
    (hbody : m.patchedBody d.typeName d.methodName = .ok (place, b))
    (hresolve : d.resolve b = .ok handles) :
    ∃ b', replaceAll (d.replacements handles) b = (.ok (), b') ∧ d.Replaces b handles b' ∧
      d.apply m = (.ok ⟨d.name, d.method, (d.replacedAt handles).length, 0⟩,
        m.modifyMethod place fun x => x.withBody b') := by
  have hall : ∀ e ∈ d.replacements handles,
      b.contains e.2.1 = true ∧ e.2.2.operand.targets = [] := by
    intro e he
    obtain ⟨hzip, operand, hoperand, hmake⟩ := mem_replacements.mp he
    obtain ⟨i, hi, -⟩ := exists_get?_of_resolve hresolve hzip
    refine ⟨Body.contains_of_get? hi, ?_⟩
    rw [hmake]
    exact (replacement_spec hvalid (List.of_mem_zip hzip).1 hoperand).1
  obtain ⟨b', hrun, hb'⟩ := Body.exists_overwritten hall
  refine ⟨b', hrun, replaces_of_overwritten hvalid hresolve hb', ?_⟩
  have hplan : d.plan m = .ok (place, b, d.replacements handles) := by
    rw [plan, bind_of_ok hvalid, bind_of_ok hbody]
    exact (bind_of_ok hresolve).trans (bind_of_ok (edits_of_validate hvalid handles))
  have hread : Step.read d.plan m = (.ok (place, b, d.replacements handles), m) := by
    rw [Step.read_apply, hplan]
  rw [apply, Step.bind_ok hread, replacedAt, List.length_map]
  exact Step.bind_ok (ModuleStep.editBody_eq_ok_iff.mpr ⟨b', hrun, rfl⟩)

/-- The checks that a descriptor and a module can fail. -/
inductive Refuses (d : Descriptor) (m : Module) (e : Error) : Prop
  | descriptor (h : d.validate = .error e)
  | method (hvalid : d.validate = .ok ()) (h : m.patchedBody d.typeName d.methodName = .error e)
  | sites {place : Module.MethodPlace} {b : Body} (hvalid : d.validate = .ok ())
      (hbody : m.patchedBody d.typeName d.methodName = .ok (place, b)) (h : d.resolve b = .error e)

theorem Refuses.plan_eq (h : d.Refuses m e) : d.plan m = .error e := by
  rw [plan]
  cases h with
  | descriptor h => exact bind_eq_error.mpr (.inl h)
  | method hvalid h =>
      rw [bind_of_ok hvalid]
      exact bind_eq_error.mpr (.inl h)
  | sites hvalid hbody h =>
      rw [bind_of_ok hvalid, bind_of_ok hbody]
      exact bind_eq_error.mpr (.inl h)

/-- The checks fail, or all replacements are made. -/
theorem refuses_or_resolves (d : Descriptor) (m : Module) : (∃ e, d.Refuses m e) ∨
    ∃ place b handles, d.validate = .ok () ∧
      m.patchedBody d.typeName d.methodName = .ok (place, b) ∧ d.resolve b = .ok handles := by
  cases hvalid : d.validate with
  | error e => exact .inl ⟨e, .descriptor hvalid⟩
  | ok u =>
      cases hbody : m.patchedBody d.typeName d.methodName with
      | error e => exact .inl ⟨e, .method hvalid hbody⟩
      | ok found =>
          cases hresolve : d.resolve found.2 with
          | error e => exact .inl ⟨e, .sites hvalid hbody hresolve⟩
          | ok handles => exact .inr ⟨found.1, found.2, handles, rfl, rfl, hresolve⟩

theorem apply_eq_error (h : d.apply m = (.error e, m')) : m' = m ∧ d.Refuses m e := by
  rcases d.refuses_or_resolves m with ⟨e', hrefuses⟩ | ⟨place, b, handles, hvalid, hbody, hresolve⟩
  · rw [apply_of_plan_eq_error hrefuses.plan_eq] at h
    cases h
    exact ⟨rfl, hrefuses⟩
  · obtain ⟨b', -, -, happly⟩ := exists_apply_of_resolve hvalid hbody hresolve
    rw [happly] at h
    cases h

/-- The descriptor is applied as a whole or not at all. -/
structure Atomic (d : Descriptor) (m : Module) : Prop where
  unchanged : ∀ e m', d.apply m = (.error e, m') → m' = m
  /-- Nothing fails once the sites are resolved. -/
  refused : ∀ e, (∃ m', d.apply m = (.error e, m')) ↔ d.Refuses m e
  applied : ∀ place b handles, d.validate = .ok () →
    m.patchedBody d.typeName d.methodName = .ok (place, b) → d.resolve b = .ok handles →
    ∃ b', replaceAll (d.replacements handles) b = (.ok (), b') ∧ d.Replaces b handles b' ∧
      d.apply m = (.ok ⟨d.name, d.method, (d.replacedAt handles).length, 0⟩,
        m.modifyMethod place fun x => x.withBody b')

theorem atomic (d : Descriptor) (m : Module) : d.Atomic m where
  unchanged _ _ h := (apply_eq_error h).1
  refused _ := ⟨fun ⟨_, h⟩ => (apply_eq_error h).2,
    fun h => ⟨m, apply_of_plan_eq_error h.plan_eq⟩⟩
  applied _ _ _ hvalid hbody hresolve := exists_apply_of_resolve hvalid hbody hresolve

/-- A descriptor that is applied leaves its method with the replacements made, in the order of the
sites, and tells their number. It is the number of instructions that were replaced exactly if no two
of the replacements are at one instruction; then every site is left with what it wrote. -/
theorem replaces_of_apply (h : d.apply m = (.ok o, m')) :
    ∃ place x b b' handles, m.Finds d.typeName d.methodName place x ∧ x.body = some b ∧
      m' = (m.modifyMethod place fun x => x.withBody b') ∧ d.Replaces b handles b' ∧
      o = ⟨d.name, d.method, (d.replacedAt handles).length, 0⟩ ∧
      (o.replaced = (d.replacedAt handles).dedup.length ↔ (d.replacedAt handles).Nodup) ∧
      ((d.replacedAt handles).Nodup → ∀ p ∈ d.sites.zip handles, p.1.Holds b' p.2) := by
  rcases d.refuses_or_resolves m with ⟨e, hrefuses⟩ | ⟨place, b, handles, hvalid, hbody, hresolve⟩
  · rw [apply_of_plan_eq_error hrefuses.plan_eq] at h
    cases h
  · obtain ⟨b', -, hreplaces, happly⟩ := exists_apply_of_resolve hvalid hbody hresolve
    rw [happly] at h
    cases h
    obtain ⟨x, hfinds, hx⟩ := Module.patchedBody_eq_ok_iff.mp hbody
    refine ⟨place, x, b, b', handles, hfinds, hx, rfl, hreplaces, rfl, ?_,
      fun hnodup => hreplaces.agreed.mpr (agrees_of_nodup hnodup)⟩
    constructor
    · intro hlength
      rw [← List.dedup_eq_self]
      exact (List.dedup_sublist _).eq_of_length hlength.symm
    · intro hnodup
      rw [hnodup.dedup]

theorem replaces_of_apply_returnSeven : ∃ m o m' place x b b' handles,
    Module.load 0 (imageReturning 5) = .ok m ∧ returnSeven.apply m = (.ok o, m') ∧
      m.Finds "T" "f" place x ∧ x.body = some b ∧
      m' = (m.modifyMethod place fun x => x.withBody b') ∧ returnSeven.Replaces b handles b' ∧
      o = ⟨"return-seven", "T::f", (returnSeven.replacedAt handles).length, 0⟩ := by
  have hrun : (Module.load 0 (imageReturning 5) >>= fun m => (returnSeven.apply m).1)
      = .ok ⟨"return-seven", "T::f", 1, 0⟩ := by
    decide +kernel
  obtain ⟨m, hload, happly⟩ := bind_eq_ok.mp hrun
  have happly' : returnSeven.apply m
      = (.ok ⟨"return-seven", "T::f", 1, 0⟩, (returnSeven.apply m).2) := Prod.ext happly rfl
  obtain ⟨place, x, b, b', handles, hfinds, hbody, hm', hreplaces, ho, -⟩ :=
    replaces_of_apply happly'
  exact ⟨m, _, _, place, x, b, b', handles, hload, happly', hfinds, hbody, hm', hreplaces, ho⟩

end Descriptor

/-- The descriptor that names the first instruction of the method by its offset and by its position,
and makes the method return 7 and 8. -/
def returnTwice : Descriptor where
  name := "return-twice"
  description := "return 7 and 8"
  typeName := "T"
  methodName := "f"
  sites := [⟨.offset 0, .ofOpcode .ldcI4S, .replace (.immediate (.int8 7))⟩,
    ⟨.index 0, .ofOpcode .ldcI4S, .replace (.immediate (.int8 8))⟩]

/-- Both sites are at one instruction, which does not keep what the first one wrote; it is counted
twice. -/
theorem Descriptor.apply_returnTwice : ∃ m o m' place b b' h s,
    Module.load 0 (imageReturning 5) = .ok m ∧ returnTwice.validate = .ok () ∧
      m.patchedBody "T" "f" = .ok (place, b) ∧ returnTwice.apply m = (.ok o, m') ∧
      m'.patchedBody "T" "f" = .ok (place, b') ∧
      (∀ t ∈ returnTwice.sites, t.locator.find b = .ok h) ∧
      s ∈ returnTwice.sites ∧ ¬ s.Holds b' h ∧ o.replaced = 2 := by
  have hrun : (Module.load 0 (imageReturning 5) >>= fun m =>
      m.patchedBody "T" "f" >>= fun before =>
      (returnTwice.apply m).1 >>= fun o =>
      (returnTwice.apply m).2.patchedBody "T" "f" >>= fun after =>
      (Locator.offset 0).find before.2 >>= fun h =>
      (Locator.index 0).find before.2 >>= fun k =>
        .ok (decide (before.1 = after.1), decide (h = k), o.replaced,
          (after.2.get? h).map Instruction.operand))
      = .ok (true, true, 2, some (.immediate (.int8 8))) := by
    decide +kernel
  obtain ⟨m, hload, hrun⟩ := bind_eq_ok.mp hrun
  obtain ⟨⟨place, b⟩, hbefore, hrun⟩ := bind_eq_ok.mp hrun
  obtain ⟨o, happly, hrun⟩ := bind_eq_ok.mp hrun
  obtain ⟨⟨place', b'⟩, hafter, hrun⟩ := bind_eq_ok.mp hrun
  obtain ⟨h, hoffset, hrun⟩ := bind_eq_ok.mp hrun
  obtain ⟨k, hindex, hrun⟩ := bind_eq_ok.mp hrun
  simp only [Except.ok.injEq, Prod.mk.injEq, decide_eq_true_eq] at hrun
  obtain ⟨rfl, rfl, hcount, hoperand⟩ := hrun
  refine ⟨m, o, _, place, b, b', h, _, hload, rfl, hbefore, Prod.ext happly rfl, hafter, ?_,
    List.mem_cons_self, fun hholds => ?_, hcount⟩
  · exact List.forall_mem_cons.mpr ⟨hoffset, List.forall_mem_singleton.mpr hindex⟩
  · obtain ⟨i, hi, -, hseven⟩ := hholds _ rfl
    rw [hi, Option.map_some, hseven] at hoperand
    cases hoperand

end CilEdit
