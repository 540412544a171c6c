import CilEdit.Proofs.Interning
import CilEdit.Proofs.Patching
import CilEdit.Proofs.Reapplying
import CilEdit.Proofs.Splicing

/-!
The dialogue patch makes its whole edit or none.

Whatever can fail is looked up before the body is opened: with the anchors and the symbols at hand,
both insertions succeed. The skip block goes in first, so the key check can branch to it, and as it
comes later in the list it leaves the place of the key check alone. The inserted tokens resolve
unless an import had no row number left to give out.
-/

namespace CilEdit

namespace Module

variable {m m' m'' : Module} {t : Token} {s : Meaning} {place : MethodPlace} {x : MethodDef}

theorem resolves_iff : m.resolves t = true ↔ ∃ s, m.Names t s := by
  rw [resolves]
  constructor
  · intro h
    split at h
    · obtain ⟨value, hvalue⟩ := Option.isSome_iff_exists.mp h
      exact ⟨.string value, hvalue⟩
    · obtain ⟨symbol, hsymbol⟩ := exists_of_isOk h
      exact ⟨.symbol symbol, hsymbol⟩
  · rintro ⟨s, hs⟩
    cases s with
    | string value =>
        have htable : t.table = Token.userString := by
          rw [Names, userStringOf?, rowOf?] at hs
          split at hs
          · rename_i hrow
            exact hrow.1
          · cases hs
        rw [if_pos htable, hs]
        rfl
    | symbol symbol =>
        have htable : t.table ≠ Token.userString := by
          intro htable
          simp only [Names, Module.symbol, memberRefOf?, rowOf?, htable] at hs
          cases hs
        rw [if_neg htable, hs]
        rfl

theorem Grows.resolves (h : m.Grows m') (ht : m.resolves t = true) : m'.resolves t = true := by
  obtain ⟨s, hs⟩ := resolves_iff.mp ht
  exact resolves_iff.mpr ⟨s, h.names hs⟩

/-- What is entered is what its token names, unless there are more rows than row numbers. -/
theorem Grows.resolves_enter (h : m'.Grows m'') (henter : m.enter s = (t, m'))
    (hm'' : m''.WellFormed) (hrows : m''.RowsFit) : m''.resolves t = true := by
  have hknown := known?_enter m s
  rw [henter] at hknown
  exact resolves_iff.mpr ⟨s, hm''.numbered.names_of_known? hrows (h.known?_eq hknown)⟩

theorem symbol_stripped (m : Module) (t : Token) : m.stripped.symbol t = m.symbol t := by
  have htype : (m.stripped.typeOf? t).map (fun d => Symbol.type m.stripped.name d.name)
      = (m.typeOf? t).map fun d => Symbol.type m.name d.name := by
    rw [typeOf?, typeOf?, stripped, List.find?_map, Option.map_map]
    rfl
  have hmember : ∀ d : TypeDef, m.stripped.memberSymbol? t d.stripped = m.memberSymbol? t d := by
    intro d
    have hmethod : (d.stripped.methods.find? fun x => x.token == t)
        = (d.methods.find? fun x => x.token == t).map MethodDef.stripped := by
      rw [TypeDef.stripped, List.find?_map]
      rfl
    rw [memberSymbol?, memberSymbol?, hmethod]
    cases d.methods.find? fun x => x.token == t <;> rfl
  have hmembers : m.stripped.types.findSome? (m.stripped.memberSymbol? t)
      = m.types.findSome? (m.memberSymbol? t) := by
    rw [stripped, List.findSome?_map]
    exact congrArg (m.types.findSome? ·) (funext hmember)
  rw [Module.symbol, Module.symbol, htype, hmembers]
  rfl

theorem resolves_modifyMethod (m : Module) (place : MethodPlace) (b : Body) (t : Token) :
    (m.modifyMethod place fun x => x.withBody b).resolves t = m.resolves t := by
  rw [resolves, resolves, ← symbol_stripped, stripped_modifyMethod, symbol_stripped]
  rfl

theorem mem_of_findField {typeName name : String} {f : FieldDef}
    (hf : m.findField typeName name = .ok f) : ∃ d ∈ m.types, f ∈ d.fields := by
  obtain ⟨d, hd, hf⟩ := bind_eq_ok.mp hf
  rw [findType] at hd
  split at hd
  · rename_i d' htype
    cases hd
    rw [TypeDef.findField] at hf
    split at hf
    · rename_i f' hfield
      cases hf
      exact ⟨d, List.mem_of_find?_eq_some htype, List.mem_of_find?_eq_some hfield⟩
    · cases hf
  · cases hd

theorem Numbered.resolves_field (hm : m.Numbered) {d : TypeDef} (hd : d ∈ m.types) {f : FieldDef}
    (hf : f ∈ d.fields) : m.resolves f.token = true := by
  have hmember : (m.memberSymbol? f.token d).isSome = true := by
    rw [memberSymbol?]
    split
    · rfl
    · rw [Option.isSome_map, List.find?_isSome]
      exact ⟨f, hf, BEq.rfl⟩
  have hsome : (m.types.findSome? (m.memberSymbol? f.token)).isSome = true :=
    List.findSome?_isSome_iff.mpr ⟨d, hd, hmember⟩
  obtain ⟨symbol, hsymbol⟩ := Option.isSome_iff_exists.mp hsome
  refine resolves_iff.mpr ⟨.symbol symbol, ?_⟩
  simp only [Names, Module.symbol, hm.fields d hd f hf, hsymbol]
  rfl

theorem mem_methods_iff : x ∈ m.methods ↔ ∃ place, m.methodAt? place = some x := by
  simp only [methods, List.mem_flatMap, methodAt?_eq_some_iff]
  constructor
  · rintro ⟨d, hd, hx⟩
    obtain ⟨j, hj⟩ := List.mem_iff_getElem?.mp hd
    obtain ⟨k, hk⟩ := List.mem_iff_getElem?.mp hx
    exact ⟨⟨j, k⟩, d, hj, hk⟩
  · rintro ⟨place, d, hd, hx⟩
    exact ⟨d, List.mem_of_getElem? hd, List.mem_of_getElem? hx⟩

theorem mem_tokenOperands_iff : t ∈ m.tokenOperands ↔ ∃ place x b h i, m.methodAt? place = some x ∧
    x.body = some b ∧ b.get? h = some i ∧ i.operand = .token t := by
  simp only [tokenOperands, List.mem_flatMap, List.mem_filterMap, mem_methods_iff]
  constructor
  · rintro ⟨b, ⟨x, ⟨place, hx⟩, hb⟩, ⟨h, i⟩, hi, ht⟩
    refine ⟨place, x, b, h, i, hx, hb, Body.mem_entries_iff_get?.mp hi, ?_⟩
    split at ht
    · rename_i t' hoperand
      rw [hoperand, Option.some.inj ht]
    · cases ht
  · rintro ⟨place, x, b, h, i, hx, hb, hi, ht⟩
    refine ⟨b, ⟨x, ⟨place, hx⟩, hb⟩, (h, i), Body.mem_entries_iff_get?.mpr hi, ?_⟩
    rw [ht]

theorem validateTokens_eq_ok_iff :
    m.validateTokens = .ok () ↔ ∀ t ∈ m.tokenOperands, m.resolves t = true := by
  rw [validateTokens]
  constructor
  · intro h t ht
    split at h
    · cases h
    · rename_i hnone
      simpa using List.find?_eq_none.mp hnone t ht
  · intro hall
    have hnone : m.tokenOperands.find? (fun t => !m.resolves t) = none := by
      refine List.find?_eq_none.mpr fun t ht => ?_
      rw [hall t ht]
      exact Bool.false_ne_true
    rw [hnone]

end Module

theorem Operand.traverse_existing {f : Destination → Except Error Handle} {operand : Operand Handle}
    (h : ∀ t ∈ operand.targets, f (.existing t) = .ok t) :
    (Sequence.existing operand).traverse f = .ok operand := by
  cases operand with
  | none => rfl
  | immediate v => rfl
  | token t => rfl
  | target t =>
      rw [Sequence.existing, traverse, h t List.mem_cons_self]
      rfl
  | switch ts =>
      have hts : (ts.map Destination.existing).mapM f = .ok ts := by
        rw [mapM_map]
        exact (mapM_eq_ok_map (g := id) h).trans (congrArg Except.ok (List.map_id ts))
      rw [Sequence.existing, traverse, hts]
      rfl

/-- A sequence without labels enters a body as it is. -/
theorem Sequence.resolve_of_existing {s : Sequence} {b : Body}
    {instructions : List (Instruction Handle)} (hfailure : s.failure = none)
    (hpending : s.pending.toList = instructions.map fun i => (i.opcode, existing i.operand))
    (hoffsets : ∀ i ∈ instructions, i.offset = none)
    (hfits : ∀ i ∈ instructions, i.operand.fits i.opcode = true)
    (htargets : ∀ i ∈ instructions, ∀ t ∈ i.operand.targets, b.contains t = true) :
    s.resolve b = .ok instructions := by
  rw [resolve, hfailure]
  dsimp only
  rw [hpending, mapM_map]
  refine (mapM_eq_ok_map (g := fun i => i) ?_).trans
    (congrArg Except.ok (List.map_id' instructions))
  intro i hi
  have htraverse : (existing i.operand).traverse (s.resolveTarget b) = .ok i.operand :=
    Operand.traverse_existing fun t ht => resolveTarget_existing_iff.mpr ⟨htargets i hi t ht, rfl⟩
  rw [Function.comp_apply, resolveInstruction, bind_of_ok htraverse, Instruction.make,
    Operand.check, if_pos (hfits i hi), ← hoffsets i hi]
  rfl

namespace Dialogue

variable {r : References} {m m' m'' m₁ : Module} {site : Site} {s : Symbols} {b b' : Body}
  {place : Module.MethodPlace} {t t' : Token} {q q' : Request} {o : Outcome} {e : Error}
  {resume skip h : Handle} {i : Instruction Handle}

def Symbols.tokens (s : Symbols) : List Token :=
  [s.getKey, s.getText, s.setText, s.concat, s.current, s.uiText, s.text, s.empty]

/-- The instructions of the key check. -/
def checkCode (s : Symbols) (skip : Handle) : List (Instruction Handle) :=
  [⟨.ldcI4, .immediate (.int32 rightShift), none⟩, ⟨.call, .token s.getKey, none⟩,
    ⟨.brtrue, .target skip, none⟩]

/-- The instructions of the skip block. -/
def skipCode (s : Symbols) (resume : Handle) : List (Instruction Handle) :=
  [⟨.ldarg0, .none, none⟩, ⟨.ldnull, .none, none⟩, ⟨.stfld, .token s.current, none⟩,
    ⟨.ldarg0, .none, none⟩, ⟨.ldfld, .token s.uiText, none⟩, ⟨.dup, .none, none⟩,
    ⟨.callvirt, .token s.getText, none⟩, ⟨.ldarg0, .none, none⟩, ⟨.ldfld, .token s.text, none⟩,
    ⟨.call, .token s.concat, none⟩, ⟨.callvirt, .token s.setText, none⟩, ⟨.ldarg0, .none, none⟩,
    ⟨.ldstr, .token s.empty, none⟩, ⟨.stfld, .token s.text, none⟩, ⟨.br, .target resume, none⟩]

theorem mem_tokens_iff (s : Symbols) (skip resume : Handle) :
    t ∈ s.tokens ↔ ∃ i ∈ checkCode s skip ++ skipCode s resume, i.operand = .token t := by
  simp only [checkCode, skipCode, Symbols.tokens, List.cons_append, List.nil_append, List.mem_cons,
    List.not_mem_nil, or_false, exists_eq_or_imp, exists_eq_left, Operand.token.injEq, reduceCtorEq,
    false_or]
  grind

/-- The symbols of methods and fields can be operands where their opcodes are, and that of the empty
string is a string. -/
structure Symbols.Fit (s : Symbols) : Prop where
  references : ∀ t ∈ [s.getKey, s.getText, s.setText, s.concat, s.current, s.uiText, s.text],
    t.table ≠ Token.userString
  empty : s.empty.table = Token.userString

theorem fits_reference {opcode : Opcode} (hkind : opcode.operand = .token)
    (hopcode : opcode ≠ .ldstr) (ht : t.table ≠ Token.userString) :
    (Operand.token t : Operand Handle).fits opcode = true := by
  rw [← beq_eq_false_iff_ne] at hopcode ht
  simp only [Operand.fits, hkind, hopcode, ht, BEq.rfl]

theorem resolve_keyCheck (hs : s.Fit) (hskip : b.contains skip = true) :
    (keyCheck s skip).resolve b = .ok (checkCode s skip) := by
  have hgetKey : (Operand.token s.getKey : Operand Handle).fits .call = true :=
    fits_reference rfl (by decide) (hs.references s.getKey (by simp))
  refine Sequence.resolve_of_existing rfl rfl ?_ ?_ ?_
  · simp [checkCode]
  · simp only [checkCode, List.forall_mem_cons]
    exact ⟨rfl, hgetKey, rfl, List.forall_mem_nil _⟩
  · simp [checkCode, Operand.targets, hskip]

theorem resolve_skipBlock (hs : s.Fit) (hresume : b.contains resume = true) :
    (skipBlock s resume).resolve b = .ok (skipCode s resume) := by
  have hfits : ∀ opcode ∈ [Opcode.stfld, .ldfld, .call, .callvirt],
      ∀ t ∈ [s.getKey, s.getText, s.setText, s.concat, s.current, s.uiText, s.text],
      (Operand.token t : Operand Handle).fits opcode = true := by
    intro opcode hopcode t ht
    exact fits_reference (by revert opcode; decide) (by revert opcode; decide) (hs.references t ht)
  have hempty : (Operand.token s.empty : Operand Handle).fits .ldstr = true := by
    have hkind : Opcode.ldstr.operand = .token := rfl
    simp only [Operand.fits, hkind, hs.empty, BEq.rfl]
  refine Sequence.resolve_of_existing rfl rfl ?_ ?_ ?_
  · simp [skipCode]
  · simp only [skipCode, List.forall_mem_cons]
    refine ⟨rfl, rfl, hfits _ ?_ _ ?_, rfl, hfits _ ?_ _ ?_, rfl, hfits _ ?_ _ ?_, rfl,
      hfits _ ?_ _ ?_, hfits _ ?_ _ ?_, hfits _ ?_ _ ?_, rfl, hempty, hfits _ ?_ _ ?_, rfl,
      List.forall_mem_nil _⟩ <;> simp
  · simp [skipCode, Operand.targets, hresume]

/-- `b'` is `b` with the key check after position 68 and the skip block after position 141. -/
structure Skips (s : Symbols) (b b' : Body) : Prop where
  long : 142 ≤ b.length
  list : ∃ check skip first resume,
    b'.handles = b.handles.take 69 ++ check ++ (b.handles.drop 69).take 73 ++ skip
      ++ b.handles.drop 142 ∧
    skip.head? = some first ∧ b.handles[101]? = some resume ∧
    List.Forall₂ (fun h i => b'.get? h = some i) check (checkCode s first) ∧
    List.Forall₂ (fun h i => b'.get? h = some i) skip (skipCode s resume) ∧
    ∀ h ∈ check ++ skip, b.owns h = false
  kept : ∀ h, b.owns h = true → b'.get? h = b.get? h
  handlers : b'.handlers = b.handlers
  header : b'.maxStack = b.maxStack ∧ b'.locals = b.locals ∧ b'.initLocals = b.initLocals

/-- The body with the skip block. -/
def withBlock (s : Symbols) (b : Body) (resume : Handle) : Body :=
  b.insertAfter skipIndex (skipCode s resume)

/-- The body with the skip block and the key check, which leads to the block. -/
def withCheck (s : Symbols) (b : Body) (resume : Handle) : Body :=
  (withBlock s b resume).insertAfter keyCheckIndex (checkCode s b.next)

theorem insert_eq (hs : s.Fit) (hsite : findSite m = .ok site) :
    insert site s site.body = (.ok 18, withCheck s site.body site.resume) := by
  obtain ⟨-, -, -, hresume, hskip, hkeyCheck⟩ := findSite_eq_ok_iff.mp hsite
  refine insert_eq_ok_iff.mpr ⟨skipIndex, keyCheckIndex, skipCode s site.resume,
    checkCode s site.body.next, Body.position_eq_some_iff.mpr hskip,
    resolve_skipBlock hs (Body.contains_of_at? hresume), ?_, ?_, rfl, rfl⟩
  · -- The skip block comes later in the list than the anchor of the key check.
    rw [Body.position_eq_some_iff, ← Body.getElem?_handles, Body.handles_insertAfter_eq]
    rw [← Body.getElem?_handles] at hkeyCheck hskip
    have hlong := (List.getElem?_eq_some_iff.mp hskip).1
    rw [List.append_assoc, List.getElem?_append_left, List.getElem?_take_of_lt (by decide),
      hkeyCheck]
    rw [List.length_take]
    simp only [skipIndex, keyCheckIndex] at hlong ⊢
    omega
  · have hlength : 0 < (skipCode s site.resume).length := Nat.zero_lt_succ _
    exact resolve_keyCheck hs (Body.contains_insertAfter.mpr (.inr ⟨0, hlength, rfl⟩))

/-- Two insertions into a list, the first of which is further back. -/
theorem insert_twice {α : Type} {xs first second : List α} {n k : Nat} (hn : n ≤ k)
    (hk : k ≤ xs.length) :
    (xs.take k ++ first ++ xs.drop k).take n ++ second ++ (xs.take k ++ first ++ xs.drop k).drop n
      = xs.take n ++ second ++ (xs.drop n).take (k - n) ++ first ++ xs.drop k := by
  have hlength : n ≤ (xs.take k).length := by
    rw [List.length_take]
    omega
  rw [List.append_assoc (xs.take k), List.take_append_of_le_length hlength,
    List.drop_append_of_le_length hlength, List.take_take, List.drop_take, Nat.min_eq_left hn]
  simp only [List.append_assoc]

theorem handles_withCheck (hlong : 142 ≤ b.length) : (withCheck s b resume).handles
    = b.handles.take 69 ++ (withBlock s b resume).nextHandles 3 ++ (b.handles.drop 69).take 73
      ++ b.nextHandles 15 ++ b.handles.drop 142 := by
  have hlength : 142 ≤ b.handles.length := by
    rwa [Body.handles, List.length_map, Array.length_toList]
  have hblock : (withBlock s b resume).handles
      = b.handles.take 142 ++ b.nextHandles 15 ++ b.handles.drop 142 :=
    b.handles_insertAfter_eq skipIndex (skipCode s resume)
  have hcheck : (withCheck s b resume).handles = (withBlock s b resume).handles.take 69
      ++ (withBlock s b resume).nextHandles 3 ++ (withBlock s b resume).handles.drop 69 :=
    (withBlock s b resume).handles_insertAfter_eq keyCheckIndex (checkCode s b.next)
  rw [hcheck, hblock]
  exact insert_twice (by decide) hlength

theorem owns_withBlock (howns : b.owns h = true) : (withBlock s b resume).owns h = true :=
  Body.owns_insertAfter howns

theorem get?_withCheck (howns : b.owns h = true) : (withCheck s b resume).get? h = b.get? h :=
  (Body.get?_insertAfter_of_owns (owns_withBlock howns)).trans
    (Body.get?_insertAfter_of_owns howns)

theorem skips_withCheck (hlong : 142 ≤ b.length) (hresume : b.at? resumeIndex = some resume) :
    Skips s b (withCheck s b resume) := by
  have hblock : List.Forall₂ (fun h i => (withBlock s b resume).get? h = some i)
      (b.nextHandles 15) (skipCode s resume) :=
    b.forall₂_insertAfter skipIndex (skipCode s resume)
  have hcheck : List.Forall₂ (fun h i => (withCheck s b resume).get? h = some i)
      ((withBlock s b resume).nextHandles 3) (checkCode s b.next) :=
    (withBlock s b resume).forall₂_insertAfter keyCheckIndex (checkCode s b.next)
  refine
    { long := hlong
      list := ⟨(withBlock s b resume).nextHandles 3, b.nextHandles 15, b.next, resume,
        handles_withCheck hlong, rfl, ?_, hcheck, hblock.imp ?_, ?_⟩
      kept := fun h => get?_withCheck, handlers := ?_, header := ?_ }
  · rw [Body.getElem?_handles, ← hresume, resumeIndex]
  · intro h i hi
    exact Body.get?_insertAfter hi
  · intro h hh
    rcases List.mem_append.mp hh with hh | hh
    · rw [Bool.eq_false_iff]
      intro howns
      have hnew := Body.not_owns_of_mem_nextHandles hh
      rw [owns_withBlock howns] at hnew
      cases hnew
    · exact Body.not_owns_of_mem_nextHandles hh
  · rw [withCheck, withBlock, Body.handlers_insertAfter, Body.handlers_insertAfter]
  · simp only [withCheck, withBlock, Body.maxStack_insertAfter, Body.locals_insertAfter,
      Body.initLocals_insertAfter, and_self]

/-- A step that enters rows at most, and whose failures are no drift. -/
def OnlyEnters {α : Type} (step : ModuleStep α) : Prop :=
  ∀ m, m.Grows (step m).2 ∧ ∀ e, (step m).1 = .error e → e.isDrift = false

section OnlyEnters

variable {α β : Type}

theorem OnlyEnters.bind {step : ModuleStep α} {next : α → ModuleStep β} (h : OnlyEnters step)
    (hnext : ∀ a, OnlyEnters (next a)) : OnlyEnters (step >>= next) := by
  intro m
  obtain ⟨hgrows, herror⟩ := h m
  rw [Step.bind_apply]
  match hstep : step m with
  | (.error e, m') =>
      rw [hstep] at hgrows herror
      refine ⟨hgrows, ?_⟩
      rintro _ ⟨⟩
      exact herror e rfl
  | (.ok a, m') =>
      rw [hstep] at hgrows
      obtain ⟨hlast, herror'⟩ := hnext a m'
      exact ⟨hgrows.trans hlast, herror'⟩

theorem onlyEnters_pure (a : α) : OnlyEnters (pure a : ModuleStep α) :=
  fun m => ⟨.refl m, nofun⟩

theorem onlyEnters_read {look : Module → Except Error α}
    (h : ∀ m e, look m = .error e → e.isDrift = false) : OnlyEnters (Step.read look) :=
  fun m => ⟨.refl m, h m⟩

end OnlyEnters

theorem isDrift_findType (h : r.findType q.typeName = .error e) : e.isDrift = false := by
  rw [References.findType] at h
  split at h <;> cases h <;> rfl

theorem isDrift_findMethod {typeName : String} {query : MethodQuery}
    (h : m.findMethod typeName query = .error e) : e.isDrift = false := by
  rcases bind_eq_error.mp h with htype | ⟨d, -, hmethod⟩
  · rw [Module.findType] at htype
    split at htype <;> cases htype
    rfl
  · rcases bind_eq_error.mp hmethod with hindex | ⟨k, -, hread⟩
    · rw [TypeDef.methodIndex] at hindex
      split at hindex <;> cases hindex <;> rfl
    · split at hread <;> cases hread
      rfl

theorem isDrift_findField {typeName name : String} (h : m.findField typeName name = .error e) :
    e.isDrift = false := by
  rcases bind_eq_error.mp h with htype | ⟨d, -, hfield⟩
  · rw [Module.findType] at htype
    split at htype <;> cases htype
    rfl
  · rw [TypeDef.findField] at hfield
    split at hfield <;> cases hfield
    rfl

theorem onlyEnters_run {c : Import} (h : ∀ e, c.subject = .error e → e.isDrift = false) :
    OnlyEnters c.run := by
  intro m
  refine ⟨Import.grows_run c m, fun e he => ?_⟩
  rcases Import.run_cases c m with ⟨s, -, heq⟩ | ⟨e', hs, heq⟩
  · rw [heq] at he
    cases he
  · rw [heq] at he
    cases he
    exact h e hs

theorem onlyEnters_importRequest (r : References) (q : Request) :
    OnlyEnters (importRequest r q) := by
  refine OnlyEnters.bind (fun m => ⟨.refl m, fun e he => isDrift_findType he⟩) fun found => ?_
  have hmethod : ∀ e, (Import.method found.1 q.typeName q.query).subject = .error e →
      e.isDrift = false :=
    fun e he => isDrift_findMethod (map_eq_error.mp he)
  exact onlyEnters_run hmethod

theorem onlyEnters_ownField (fieldName : String) : OnlyEnters (ownField fieldName) :=
  .bind (onlyEnters_read fun _ _ => isDrift_findField) fun _ => onlyEnters_pure _

theorem onlyEnters_importSymbols (r : References) : OnlyEnters (importSymbols r) :=
  .bind (onlyEnters_importRequest r getKey) fun _ =>
  .bind (onlyEnters_importRequest r getText) fun _ =>
  .bind (onlyEnters_importRequest r setText) fun _ =>
  .bind (onlyEnters_importRequest r concat) fun _ =>
  .bind (onlyEnters_ownField "$current") fun _ =>
  .bind (onlyEnters_ownField "uiText") fun _ =>
  .bind (onlyEnters_ownField "<t>__0") fun _ =>
  .bind (onlyEnters_run (c := .string "") nofun) fun _ => onlyEnters_pure _

theorem grows_importRequest (h : importRequest r q m = (.ok t, m')) : m.Grows m' := by
  have hgrows := (onlyEnters_importRequest r q m).1
  rwa [h] at hgrows

/-- What is asked of a symbol: that it can be an operand where it is one, and that it resolves if
every row has a number. -/
def Usable (m : Module) (t : Token) : Prop :=
  t.table ≠ Token.userString ∧ (m.RowsFit → m.resolves t = true)

theorem usable_importRequest (hm : m.WellFormed) (h : importRequest r q m = (.ok t, m'))
    (hgrows : m'.Grows m'') (hm'' : m''.WellFormed) : Usable m'' t := by
  refine ⟨?_, fun hrows => ?_⟩
  · rw [table_importRequest hm.numbered h]
    decide
  · obtain ⟨source, d, x, -, -, hmember⟩ := importRequest_eq_ok_iff.mp h
    have henter : m.enter (.symbol (.member source.name q.typeName x.name (.method x.signature)))
        = (t, m') := hmember
    exact hgrows.resolves_enter henter hm'' hrows

theorem usable_ownField (hm : m.WellFormed) {fieldName : String}
    (h : (m.findField typeName fieldName).map FieldDef.token = .ok t) (hgrows : m.Grows m') :
    Usable m' t := by
  obtain ⟨f, hf, rfl⟩ := map_eq_ok.mp h
  obtain ⟨d, hd, hf⟩ := Module.mem_of_findField hf
  refine ⟨?_, fun _ => hgrows.resolves (hm.numbered.resolves_field hd hf)⟩
  rw [hm.numbered.fields d hd f hf]
  decide

theorem table_userString {value : String} (h : m.userString value = (t, m')) :
    t.table = Token.userString := by
  rw [Module.userString] at h
  split at h <;> cases h <;> exact Token.table_ofParts (by decide)

theorem usable_importSymbols (hm : m.WellFormed) (h : importSymbols r m = (.ok s, m')) :
    s.Fit ∧ (m'.RowsFit → ∀ t ∈ s.tokens, m'.resolves t = true) := by
  have hm' := (extends_importSymbols hm h).2.1
  obtain ⟨m₁, m₂, m₃, m₄, hgetKey, hgetText, hsetText, hconcat, hcurrent, huiText, htext, hempty⟩ :=
    importSymbols_eq_ok_iff.mp h
  have hm₁ := wellFormed_importRequest hm hgetKey
  have hm₂ := wellFormed_importRequest hm₁ hgetText
  have hm₃ := wellFormed_importRequest hm₂ hsetText
  have hm₄ := wellFormed_importRequest hm₃ hconcat
  have hlast : m₄.Grows m' := by
    have hgrows := m₄.grows_userString ""
    rwa [hempty] at hgrows
  have hgrows₃ := (grows_importRequest hconcat).trans hlast
  have hgrows₂ := (grows_importRequest hsetText).trans hgrows₃
  have hgrows₁ := (grows_importRequest hgetText).trans hgrows₂
  have husable : ∀ t ∈ [s.getKey, s.getText, s.setText, s.concat, s.current, s.uiText, s.text],
      Usable m' t := by
    simp only [List.forall_mem_cons]
    exact ⟨usable_importRequest hm hgetKey hgrows₁ hm',
      usable_importRequest hm₁ hgetText hgrows₂ hm',
      usable_importRequest hm₂ hsetText hgrows₃ hm',
      usable_importRequest hm₃ hconcat hlast hm', usable_ownField hm₄ hcurrent hlast,
      usable_ownField hm₄ huiText hlast, usable_ownField hm₄ htext hlast, nofun⟩
  refine ⟨⟨fun t ht => (husable t ht).1, table_userString hempty⟩, fun hrows t ht => ?_⟩
  rcases List.mem_append.mp (show t ∈ [s.getKey, s.getText, s.setText, s.concat, s.current,
    s.uiText, s.text] ++ [s.empty] from ht) with hreference | hstring
  · exact (husable t hreference).2 hrows
  · obtain rfl := List.mem_singleton.mp hstring
    have henter : m₄.enter (.string "") = (s.empty, m') := hempty
    exact (Module.Grows.refl m').resolves_enter henter hm' hrows

theorem userStrings_importMember (m : Module) (scope typeName name : String) (kind : MemberKind) :
    (m.importMember scope typeName name kind).2.userStrings = m.userStrings := by
  have htype : (m.importType scope typeName).2.userStrings = m.userStrings := by
    rcases Module.importType_cases m scope typeName with ⟨d, -, heq⟩ | heq <;> rw [heq]
    rfl
  rw [Module.importMember]
  generalize m.importType scope typeName = imported at htype
  obtain ⟨parent, middle⟩ := imported
  dsimp only at htype ⊢
  split <;> exact htype

/-- Another import from a type that is known adds no row for the type. -/
theorem typeRefs_importRequest (h : importRequest r q m = (.ok t, m'))
    (h' : importRequest r q' m' = (.ok t', m'')) (hsame : q'.typeName = q.typeName) :
    m''.typeRefs = m'.typeRefs := by
  obtain ⟨source, d, x, hfound, -, hmember⟩ := importRequest_eq_ok_iff.mp h
  obtain ⟨source', d', x', hfound', -, hmember'⟩ := importRequest_eq_ok_iff.mp h'
  rw [hsame, hfound] at hfound'
  cases hfound'
  have hknown := Module.known?_enter m
    (.symbol (.member source.name q.typeName x.name (.method x.signature)))
  rw [Module.enter, hmember] at hknown
  obtain ⟨row, hrow, -⟩ := Option.bind_eq_some_iff.mp hknown
  rw [hsame, Module.importMember, Module.importType, hrow] at hmember'
  dsimp only at hmember'
  split at hmember' <;> cases hmember' <;> rfl

/-- At most so many imported types, imported members and strings were added. -/
structure RowsAdded (m m' : Module) (types members strings : Nat) : Prop where
  typeRefs : m'.typeRefs.length ≤ m.typeRefs.length + types
  memberRefs : m'.memberRefs.length ≤ m.memberRefs.length + members
  userStrings : m'.userStrings.length ≤ m.userStrings.length + strings

theorem RowsAdded.trans {types types' members members' strings strings' : Nat}
    (h : RowsAdded m m' types members strings) (h' : RowsAdded m' m'' types' members' strings') :
    RowsAdded m m'' (types + types') (members + members') (strings + strings') where
  typeRefs := by
    have hfirst := h.typeRefs
    have hsecond := h'.typeRefs
    omega
  memberRefs := by
    have hfirst := h.memberRefs
    have hsecond := h'.memberRefs
    omega
  userStrings := by
    have hfirst := h.userStrings
    have hsecond := h'.userStrings
    omega

theorem rowsAdded_importRequest (h : importRequest r q m = (.ok t, m')) : RowsAdded m m' 1 1 0 := by
  obtain ⟨source, d, x, -, -, hmember⟩ := importRequest_eq_ok_iff.mp h
  obtain ⟨htypeRefs, hmemberRefs⟩ := Module.length_importMember hmember
  have hstrings :=
    userStrings_importMember m source.name q.typeName x.name (.method x.signature)
  rw [hmember] at hstrings
  exact ⟨htypeRefs, hmemberRefs, Nat.le_of_eq (congrArg List.length hstrings)⟩

theorem rowsAdded_userString {value : String} (h : m.userString value = (t, m')) :
    RowsAdded m m' 0 0 1 := by
  rw [Module.userString] at h
  split at h <;> cases h
  · exact ⟨Nat.le_refl _, Nat.le_refl _, Nat.le_succ _⟩
  · exact ⟨Nat.le_refl _, Nat.le_refl _, Nat.le_of_eq List.length_append⟩

theorem rowsAdded_importSymbols (h : importSymbols r m = (.ok s, m')) : RowsAdded m m' 3 4 1 := by
  obtain ⟨m₁, m₂, m₃, m₄, hgetKey, hgetText, hsetText, hconcat, -, -, -, hempty⟩ :=
    importSymbols_eq_ok_iff.mp h
  have hsame := typeRefs_importRequest hgetText hsetText rfl
  have hsecond : RowsAdded m₂ m₃ 0 1 0 :=
    { rowsAdded_importRequest hsetText with typeRefs := Nat.le_of_eq (congrArg List.length hsame) }
  exact (rowsAdded_importRequest hgetKey).trans ((rowsAdded_importRequest hgetText).trans
    (hsecond.trans ((rowsAdded_importRequest hconcat).trans (rowsAdded_userString hempty))))

/-- The patch fails while it looks for what it needs, or goes in as a whole. -/
theorem apply_cases (hm : m.WellFormed) (r : References) :
    (∃ e, findSite m = .error e ∧ apply r m = (.error e, m)) ∨
    (∃ site e m', findSite m = .ok site ∧ importSymbols r m = (.error e, m') ∧
      apply r m = (.error e, m')) ∨
    ∃ site s m₁, findSite m = .ok site ∧ importSymbols r m = (.ok s, m₁) ∧
      apply r m = (.ok ⟨name, qualifiedName typeName methodName, 0, 18⟩,
        m₁.modifyMethod site.place fun x => x.withBody (withCheck s site.body site.resume)) := by
  cases hsite : findSite m with
  | error e => exact .inl ⟨e, rfl, apply_of_findSite hsite⟩
  | ok site =>
      match hsymbols : importSymbols r m with
      | (.error e, m') =>
          refine .inr (.inl ⟨site, e, m', rfl, rfl, ?_⟩)
          rw [apply, Step.bind_apply, Step.read_apply, hsite]
          dsimp only
          rw [Step.bind_error hsymbols]
      | (.ok s, m₁) =>
          refine .inr (.inr ⟨site, s, m₁, rfl, rfl, ?_⟩)
          have hinsert := insert_eq (usable_importSymbols hm hsymbols).1 hsite
          exact apply_eq_ok_iff.mpr ⟨site, s, m₁, 18, _, hsite, hsymbols, hinsert, rfl, rfl⟩

/-- An instruction of the edited body is an old one or one of the 18 new ones. -/
theorem Skips.instruction_cases (hb : Skips s b b') (hi : b'.get? h = some i) :
    b.get? h = some i ∨ ∃ first resume, i ∈ checkCode s first ++ skipCode s resume := by
  obtain ⟨check, block, first, resume, hlist, -, -, hcheck, hblock, -⟩ := hb.list
  have hold : h ∈ b.handles → b.get? h = some i := by
    intro hmem
    rw [← hb.kept h (Body.owns_of_contains (Body.mem_handles_iff.mp hmem)), hi]
  have hnew : h ∈ check ++ block → i ∈ checkCode s first ++ skipCode s resume := by
    intro hmem
    obtain ⟨i', hi', hget⟩ := exists_mem_of_forall₂ (List.rel_append hcheck hblock) hmem
    rw [hi] at hget
    rwa [Option.some.inj hget]
  have hmem := Body.mem_handles_iff.mpr (Body.contains_of_get? hi)
  rw [hlist] at hmem
  simp only [List.mem_append] at hmem hnew
  rcases hmem with (((hmem | hmem) | hmem) | hmem) | hmem
  · exact .inl (hold (List.mem_of_mem_take hmem))
  · exact .inr ⟨first, resume, List.mem_append.mpr (hnew (.inl hmem))⟩
  · exact .inl (hold (List.mem_of_mem_drop (List.mem_of_mem_take hmem)))
  · exact .inr ⟨first, resume, List.mem_append.mpr (hnew (.inr hmem))⟩
  · exact .inl (hold (List.mem_of_mem_drop hmem))

/-- Every token of the symbols is an operand of the edited body. -/
theorem Skips.exists_operand (hb : Skips s b b') (ht : t ∈ s.tokens) :
    ∃ h i, b'.get? h = some i ∧ i.operand = .token t := by
  obtain ⟨check, block, first, resume, -, -, -, hcheck, hblock, -⟩ := hb.list
  obtain ⟨i, hi, hoperand⟩ := (mem_tokens_iff s first resume).mp ht
  obtain ⟨h, -, hget⟩ := exists_mem_of_forall₂ (List.rel_append hcheck hblock).flip hi
  exact ⟨h, i, hget, hoperand⟩

/-- What the patch makes of a module. -/
structure Applied (r : References) (m m' : Module) (s : Symbols) (b b' : Body) : Prop where
  symbols : ∃ m₁, importSymbols r m = (.ok s, m₁)
  method : ∃ place x, m.Finds typeName methodName place x ∧ x.body = some b ∧
    m'.Finds typeName methodName place (x.withBody b') ∧
    ∀ other, other ≠ place → m'.methodAt? other = m.methodAt? other
  skips : Skips s b b'
  definitions : m'.types.map TypeDef.stripped = m.types.map TypeDef.stripped
  name : m'.name = m.name
  rows : m.typeRefs <+: m'.typeRefs ∧ m.memberRefs <+: m'.memberRefs ∧
    m.userStrings <+: m'.userStrings
  added : RowsAdded m m' 3 4 1
  resolved : m'.RowsFit → ∀ t ∈ s.tokens, m'.resolves t = true
  valid : m.validateTokens = .ok () →
    (m'.validateTokens = .ok () ↔ ∀ t ∈ s.tokens, m'.resolves t = true)

/-- The tokens of a module are those that it had, and the inserted ones. -/
theorem validateTokens_iff_of_skips {x : MethodDef} (hgrows : m.Grows m₁)
    (hfound : m.Finds typeName methodName place x) (hbody : x.body = some b) (hb : Skips s b b')
    (hvalid : m.validateTokens = .ok ()) :
    (m₁.modifyMethod place fun x => x.withBody b').validateTokens = .ok () ↔
      ∀ t ∈ s.tokens, (m₁.modifyMethod place fun x => x.withBody b').resolves t = true := by
  have hlast := (hfound.of_types hgrows.types).modifyMethod b'
  rw [Module.validateTokens_eq_ok_iff] at hvalid ⊢
  constructor
  · intro hall t ht
    obtain ⟨h, i, hi, hoperand⟩ := hb.exists_operand ht
    exact hall t
      (Module.mem_tokenOperands_iff.mpr ⟨place, _, b', h, i, hlast.found, rfl, hi, hoperand⟩)
  · intro hnew t ht
    have hold : t ∈ m.tokenOperands →
        (m₁.modifyMethod place fun x => x.withBody b').resolves t = true := by
      intro hmem
      rw [Module.resolves_modifyMethod]
      exact hgrows.resolves (hvalid t hmem)
    obtain ⟨other, y, c, h, i, hy, hc, hi, hoperand⟩ := Module.mem_tokenOperands_iff.mp ht
    by_cases hsame : other = place
    · subst hsame
      cases hlast.found.symm.trans hy
      cases hc
      rcases hb.instruction_cases hi with hkept | ⟨first, resume, hmem⟩
      · exact hold (Module.mem_tokenOperands_iff.mpr
          ⟨other, x, b, h, i, hfound.found, hbody, hkept, hoperand⟩)
      · exact hnew t ((mem_tokens_iff s first resume).mpr ⟨i, hmem, hoperand⟩)
    · rw [Module.methodAt?_modifyMethod_of_ne hsame, Module.methodAt?, hgrows.types] at hy
      exact hold (Module.mem_tokenOperands_iff.mpr ⟨other, y, c, h, i, hy, hc, hi, hoperand⟩)

theorem applied_of_importSymbols (hm : m.WellFormed) (hsite : findSite m = .ok site)
    (hsymbols : importSymbols r m = (.ok s, m₁)) :
    Applied r m (m₁.modifyMethod site.place fun x =>
      x.withBody (withCheck s site.body site.resume)) s site.body
      (withCheck s site.body site.resume) := by
  obtain ⟨hbody, -, -, hresume, hskip, -⟩ := findSite_eq_ok_iff.mp hsite
  obtain ⟨x, hfound, hbody⟩ := Module.patchedBody_eq_ok_iff.mp hbody
  have hgrows : m.Grows m₁ := by
    have hgrows := (onlyEnters_importSymbols r m).1
    rwa [hsymbols] at hgrows
  have hlong : 142 ≤ site.body.length := by
    rw [← Body.getElem?_handles] at hskip
    have hlt := (List.getElem?_eq_some_iff.mp hskip).1
    rwa [Body.handles, List.length_map, Array.length_toList] at hlt
  have hskips := skips_withCheck (s := s) hlong hresume
  refine
    { symbols := ⟨m₁, hsymbols⟩
      method := ⟨site.place, x, hfound, hbody, (hfound.of_types hgrows.types).modifyMethod _, ?_⟩
      skips := hskips
      definitions := ?_
      name := hgrows.name
      rows := ⟨hgrows.typeRefs, hgrows.memberRefs, hgrows.userStrings⟩
      added := ?_, resolved := ?_
      valid := validateTokens_iff_of_skips hgrows hfound hbody hskips }
  · intro other hother
    rw [Module.methodAt?_modifyMethod_of_ne hother, Module.methodAt?, hgrows.types,
      Module.methodAt?]
  · rw [← hgrows.types]
    exact congrArg Module.types (m₁.stripped_modifyMethod site.place _)
  · have hadded := rowsAdded_importSymbols hsymbols
    exact ⟨hadded.typeRefs, hadded.memberRefs, hadded.userStrings⟩
  · intro hrows t ht
    rw [Module.resolves_modifyMethod]
    exact (usable_importSymbols hm hsymbols).2
      ⟨hrows.typeRefs, hrows.memberRefs, hrows.userStrings⟩ t ht

/-- The patch makes its whole edit or leaves every body as it is, and a drift leaves the whole
module as it is. It goes in once the anchors and the symbols are found. -/
theorem applies_whole {origin : Nat} {data : Bytes} (hload : Image.read origin data = .ok m)
    (r : References) :
    (∀ e m', apply r m = (.error e, m') → m.Grows m' ∧ (e.isDrift = true → m' = m)) ∧
    (∀ o m', apply r m = (.ok o, m') → o = ⟨name, qualifiedName typeName methodName, 0, 18⟩ ∧
      ∃ s b b', Applied r m m' s b b') ∧
    ((∃ site, findSite m = .ok site) → (∃ s m₁, importSymbols r m = (.ok s, m₁)) →
      ∃ o m', apply r m = (.ok o, m')) := by
  have hm := (Module.editable_of_read hload).wellFormed
  rcases apply_cases hm r with ⟨e, hsite, heq⟩ | ⟨site, e, m', hsite, hsymbols, heq⟩ |
    ⟨site, s, m₁, hsite, hsymbols, heq⟩
  · rw [heq]
    refine ⟨?_, nofun, ?_⟩
    · rintro _ _ ⟨⟩
      exact ⟨.refl m, fun _ => rfl⟩
    · rintro ⟨site, hfound⟩
      rw [hsite] at hfound
      cases hfound
  · rw [heq]
    have hnone := onlyEnters_importSymbols r m
    rw [hsymbols] at hnone
    refine ⟨?_, nofun, ?_⟩
    · rintro _ _ ⟨⟩
      refine ⟨hnone.1, fun hdrift => ?_⟩
      rw [hnone.2 e rfl] at hdrift
      cases hdrift
    · rintro - ⟨s, m₁, hfound⟩
      rw [hsymbols] at hfound
      cases hfound
  · rw [heq]
    refine ⟨nofun, ?_, fun _ _ => ⟨_, _, rfl⟩⟩
    rintro _ _ ⟨⟩
    exact ⟨rfl, s, site.body, _, applied_of_importSymbols hm hsite hsymbols⟩

end Dialogue

namespace Sample

/-- The small game has no tokens in its bodies. -/
theorem validateTokens_smallGame (n : Nat) : (smallGame n).validateTokens = .ok () := by
  have hnone : (smallGame 0).tokenOperands = [] := by decide +kernel
  have hsame : (smallGame n).tokenOperands = (smallGame 0).tokenOperands := rfl
  rw [Module.validateTokens, hsame, hnone]
  rfl

/-- The small game takes the whole patch, and its tokens resolve before and after. -/
theorem applies_whole_smallGame : ∃ data o m' s b b', Image.read 0 data = .ok (smallGame 0) ∧
    Dialogue.apply libraries (smallGame 0) = (.ok o, m') ∧
    Dialogue.Applied libraries (smallGame 0) m' s b b' ∧ o.inserted = 18 ∧
    (smallGame 0).validateTokens = .ok () ∧ m'.validateTokens = .ok () := by
  obtain ⟨data, hread⟩ := exists_read_smallGame (n := 0) (by decide)
  obtain ⟨o, happly⟩ := apply_dialogue_smallGame 0
  obtain ⟨rfl, s, b, b', happlied⟩ := (Dialogue.applies_whole hread libraries).2.1 _ _ happly
  have hvalid := validateTokens_smallGame 0
  have hrows : (skippableGame (smallGame 0) 0).RowsFit :=
    ⟨by decide, by decide, by decide⟩
  exact ⟨data, _, _, s, b, b', hread, happly, happlied, rfl, hvalid,
    (happlied.valid hvalid).mpr (happlied.resolved hrows)⟩

/-- With a full table of imported types, the tokens resolve before the patch and not after it. -/
theorem exists_unresolved_fullGame : ∃ data o m', Image.read 0 data = .ok fullGame ∧
    Dialogue.apply libraries fullGame = (.ok o, m') ∧ fullGame.validateTokens = .ok () ∧
    m'.validateTokens ≠ .ok () := by
  obtain ⟨data, hread⟩ := exists_read_smallGame (n := Token.maxRow) (by decide)
  obtain ⟨o, happly⟩ := apply_dialogue_smallGame Token.maxRow
  have hinvalid : (skippableGame fullGame Token.maxRow).validateTokens.isOk = false := by
    decide +kernel
  refine ⟨data, o, _, hread, happly, validateTokens_smallGame Token.maxRow, fun hvalid => ?_⟩
  have hok : (skippableGame fullGame Token.maxRow).validateTokens.isOk = true := by
    rw [fullGame, hvalid]
    rfl
  exact Bool.false_ne_true (hinvalid.symm.trans hok)

end Sample

end CilEdit
