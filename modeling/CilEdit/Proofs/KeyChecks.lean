import CilEdit.Patch.Dialogue
import CilEdit.Proofs.Places
import CilEdit.Proofs.Reloading

namespace CilEdit

namespace Module

/-- Definitions are the same, and rows of references were added at most. -/
structure Extends (m m' : Module) : Prop where
  types : m'.types = m.types
  typeRefs : m.typeRefs <+: m'.typeRefs
  memberRefs : m.memberRefs <+: m'.memberRefs

variable {m m' m'' source : Module} {r : References} {token : Token} {typeName : String}
  {q : MethodQuery}

theorem Extends.refl (m : Module) : m.Extends m :=
  ⟨rfl, List.prefix_refl _, List.prefix_refl _⟩

theorem Extends.trans (h : m.Extends m') (h' : m'.Extends m'') : m.Extends m'' where
  types := h'.types.trans h.types
  typeRefs := h.typeRefs.trans h'.typeRefs
  memberRefs := h.memberRefs.trans h'.memberRefs

theorem extends_importType (m : Module) (scope name : String) :
    m.Extends (m.importType scope name).2 := by
  rcases importType_cases m scope name with ⟨r, -, heq⟩ | heq
  · rw [heq]
    exact .refl m
  · rw [heq]
    exact ⟨rfl, List.prefix_append _ _, List.prefix_refl _⟩

theorem extends_importMember (m : Module) (scope typeName name : String) (kind : MemberKind) :
    m.Extends (m.importMember scope typeName name kind).2 := by
  have htype := extends_importType m scope typeName
  unfold importMember
  generalize m.importType scope typeName = imported at htype
  obtain ⟨parent, m'⟩ := imported
  dsimp only at htype ⊢
  split
  · exact htype
  · exact htype.trans ⟨rfl, List.prefix_refl _, List.prefix_append _ _⟩

theorem length_importMember {scope name : String} {kind : MemberKind}
    (h : m.importMember scope typeName name kind = (token, m')) :
    m'.typeRefs.length ≤ m.typeRefs.length + 1 ∧
      m'.memberRefs.length ≤ m.memberRefs.length + 1 := by
  have htype : (m.importType scope typeName).2.typeRefs.length ≤ m.typeRefs.length + 1 ∧
      (m.importType scope typeName).2.memberRefs = m.memberRefs := by
    rcases importType_cases m scope typeName with ⟨r, -, heq⟩ | heq
    · rw [heq]
      exact ⟨Nat.le_succ _, rfl⟩
    · rw [heq, addTypeRef, List.length_append, List.length_singleton]
      exact ⟨Nat.le_refl _, rfl⟩
  unfold importMember at h
  generalize m.importType scope typeName = imported at h htype
  obtain ⟨parent, middle⟩ := imported
  obtain ⟨htypeRefs, hmemberRefs⟩ := htype
  dsimp only at h htypeRefs hmemberRefs
  rw [← hmemberRefs]
  split at h
  · cases h
    exact ⟨htypeRefs, Nat.le_succ _⟩
  · cases h
    exact ⟨htypeRefs, by rw [List.length_append, List.length_singleton]⟩

theorem extends_userString (m : Module) (value : String) :
    m.Extends (m.userString value).2 := by
  unfold userString
  split
  · exact .refl m
  · exact ⟨rfl, List.prefix_refl _, List.prefix_refl _⟩

theorem rowOf?_mono {α : Type} {rows rows' : List α} (h : rows <+: rows') {table : Nat}
    {a : α} (ha : rowOf? rows table token = some a) : rowOf? rows' table token = some a := by
  unfold rowOf? at ha ⊢
  split at ha
  · rename_i hrow
    rw [if_pos hrow]
    obtain ⟨hlt, rfl⟩ := List.getElem?_eq_some_iff.mp ha
    exact List.prefix_iff_getElem?.mp h _ hlt
  · cases ha

theorem symbol_eq_ok (htable : token.table = Token.memberRef) {symbol : Symbol}
    (h : m.symbol token = .ok symbol) :
    ∃ member parent, m.memberRefOf? token = some member ∧
      m.typeRefOf? member.parent = some parent ∧
      symbol = .member parent.scope parent.name member.name member.kind := by
  unfold Module.symbol at h
  simp only [htable] at h
  cases hmember : m.memberRefOf? token with
  | none =>
      rw [hmember] at h
      cases h
  | some member =>
      rw [hmember] at h
      change m.importedSymbol member = .ok symbol at h
      rw [importedSymbol] at h
      cases hparent : m.typeRefOf? member.parent with
      | none =>
          rw [hparent] at h
          cases h
      | some parent =>
          rw [hparent] at h
          exact ⟨member, parent, rfl, hparent, (Except.ok.inj h).symm⟩

/-- A token of an imported member keeps its meaning. -/
theorem Extends.symbol_eq (h : m.Extends m') (htable : token.table = Token.memberRef)
    {symbol : Symbol} (hsymbol : m.symbol token = .ok symbol) : m'.symbol token = .ok symbol := by
  obtain ⟨member, parent, hmember, hparent, rfl⟩ := symbol_eq_ok htable hsymbol
  exact symbol_of_memberRef htable (rowOf?_mono h.memberRefs hmember)
    (rowOf?_mono h.typeRefs hparent)

theorem Storable.of_types (hm : m.Storable) (htypes : m'.types = m.types) : m'.Storable where
  fieldRows := by
    rw [fields, htypes]
    exact hm.fieldRows
  methodRows := by
    rw [methods, htypes]
    exact hm.methodRows
  types := by
    rw [htypes]
    exact hm.types

theorem Editable.of_extends (hm : m.Editable) (h : m.Extends m') (hm' : m'.WellFormed) :
    m'.Editable where
  wellFormed := hm'
  storable := hm.storable.of_types h.types
  bodies := by
    rw [h.types]
    exact hm.bodies

end Module

theorem Change.encodable {e : Edit} {b b' : Body} (h : Change e b b') (hmade : e.Made)
    (hb : b.Encodable) : b'.Encodable where
  linked := h.linked hb.linked
  shape := Body.shape_iff.mpr (Body.shape_of_change h hmade (Body.shape_iff.mp hb.shape))
  filters := by cases h <;> exact hb.filters

theorem Sequence.mem_of_resolve {s : Sequence} {b : Body} {instructions : List (Instruction Handle)}
    (h : s.resolve b = .ok instructions) {opcode : Opcode} {t : Token}
    (hp : (opcode, .token t) ∈ s.pending.toList) : ⟨opcode, .token t, none⟩ ∈ instructions := by
  rw [resolve] at h
  split at h
  · cases h
  · obtain ⟨i, hi, hresolved⟩ := ok_of_mapM_eq_ok h hp
    obtain ⟨operand, hoperand, hmake⟩ := bind_eq_ok.mp hresolved
    cases hoperand
    obtain ⟨rfl, -⟩ := Instruction.make_eq_ok hmake
    exact hi

theorem Body.exists_instruction_insertAfter (b : Body) (position : Nat)
    {instructions : List (Instruction Handle)} {i : Instruction Handle} (hi : i ∈ instructions) :
    ∃ k, (b.insertAfter position instructions).instruction k = .ok i := by
  obtain ⟨n, hn⟩ := List.mem_iff_getElem?.mp hi
  have hall := b.forall₂_insertAfter position instructions
  obtain ⟨k, hk⟩ : ∃ k, (b.nextHandles instructions.length)[n]? = some k := by
    obtain ⟨hlt, -⟩ := List.getElem?_eq_some_iff.mp hn
    exact ⟨_, List.getElem?_eq_getElem (Nat.lt_of_lt_of_eq hlt hall.length_eq.symm)⟩
  exact ⟨k, instruction_eq_ok_iff_get?.mpr (forall₂_getElem? hall hk hn)⟩

namespace Dialogue

variable {r : References} {m m' m₁ : Module} {site : Site} {s : Symbols} {b b' : Body}
  {place : Module.MethodPlace} {token : Token} {q : Request} {o : Outcome}

theorem importRequest_eq_ok_iff : importRequest r q m = (.ok token, m') ↔
    ∃ source t x, r.findType q.typeName = .ok (source, t) ∧
      source.findMethod q.typeName q.query = .ok x ∧
        m.importMember source.name q.typeName x.name (.method x.signature) = (token, m') := by
  rw [importRequest, Step.bind_eq_ok]
  constructor
  · rintro ⟨⟨source, t⟩, last, hfound, himport⟩
    rw [Step.ofExcept_apply, Prod.mk.injEq] at hfound
    obtain ⟨hfound, rfl⟩ := hfound
    obtain ⟨x, hx, hmember⟩ := Module.importMethod_eq_ok_iff.mp himport
    exact ⟨source, t, x, hfound, hx, hmember⟩
  · rintro ⟨source, t, x, hfound, hx, hmember⟩
    exact ⟨(source, t), m, by rw [Step.ofExcept_apply, hfound],
      Module.importMethod_eq_ok_iff.mpr ⟨x, hx, hmember⟩⟩

theorem ownField_eq_ok_iff {fieldName : String} : ownField fieldName m = (.ok token, m') ↔
    (m.findField typeName fieldName).map FieldDef.token = .ok token ∧ m' = m := by
  rw [ownField, Step.bind_eq_ok, map_eq_ok]
  constructor
  · rintro ⟨field, last, hfield, hreturn⟩
    rw [Step.read_apply, Prod.mk.injEq] at hfield
    obtain ⟨hfield, rfl⟩ := hfield
    cases hreturn
    exact ⟨⟨field, hfield, rfl⟩, rfl⟩
  · rintro ⟨⟨field, hfield, rfl⟩, rfl⟩
    exact ⟨field, m', by rw [Step.read_apply, hfield], rfl⟩

/-- The four methods are imported in order, the fields are those of the type. -/
theorem importSymbols_eq_ok_iff : importSymbols r m = (.ok s, m') ↔ ∃ m₁ m₂ m₃ m₄,
    importRequest r getKey m = (.ok s.getKey, m₁) ∧
      importRequest r getText m₁ = (.ok s.getText, m₂) ∧
      importRequest r setText m₂ = (.ok s.setText, m₃) ∧
      importRequest r concat m₃ = (.ok s.concat, m₄) ∧
      (m₄.findField typeName "$current").map FieldDef.token = .ok s.current ∧
      (m₄.findField typeName "uiText").map FieldDef.token = .ok s.uiText ∧
      (m₄.findField typeName "<t>__0").map FieldDef.token = .ok s.text ∧
      m₄.userString "" = (s.empty, m') := by
  simp only [importSymbols, Step.bind_eq_ok, ownField_eq_ok_iff]
  constructor
  · rintro ⟨_, m₁, hgetKey, _, m₂, hgetText, _, m₃, hsetText, _, m₄, hconcat, _, _,
      ⟨hcurrent, rfl⟩, _, _, ⟨huiText, rfl⟩, _, _, ⟨htext, rfl⟩, _, _, hempty, hreturn⟩
    cases hempty
    cases hreturn
    exact ⟨m₁, m₂, m₃, _, hgetKey, hgetText, hsetText, hconcat, hcurrent, huiText, htext, rfl⟩
  · rintro ⟨m₁, m₂, m₃, m₄, hgetKey, hgetText, hsetText, hconcat, hcurrent, huiText, htext, hempty⟩
    refine ⟨_, m₁, hgetKey, _, m₂, hgetText, _, m₃, hsetText, _, m₄, hconcat, _, _,
      ⟨hcurrent, rfl⟩, _, _, ⟨huiText, rfl⟩, _, _, ⟨htext, rfl⟩, _, m', ?_, rfl⟩
    rw [Step.modifyGet_apply, hempty]

theorem extends_importRequest (h : importRequest r q m = (.ok token, m')) : m.Extends m' := by
  obtain ⟨source, t, x, -, -, hmember⟩ := importRequest_eq_ok_iff.mp h
  have hextends := m.extends_importMember source.name q.typeName x.name (.method x.signature)
  rwa [hmember] at hextends

theorem wellFormed_importRequest (hm : m.WellFormed) (h : importRequest r q m = (.ok token, m')) :
    m'.WellFormed := by
  obtain ⟨source, t, x, -, -, hmember⟩ := importRequest_eq_ok_iff.mp h
  have hwellFormed := hm.importMember source.name q.typeName x.name (.method x.signature)
  rwa [hmember] at hwellFormed

theorem table_importRequest (hm : m.Numbered) (h : importRequest r q m = (.ok token, m')) :
    token.table = Token.memberRef := by
  obtain ⟨source, t, x, -, -, hmember⟩ := importRequest_eq_ok_iff.mp h
  obtain ⟨-, j, k, -, -, -, -, -, -, -, -, -, htoken⟩ := hm.importMember hmember
  rw [htoken]
  exact Token.table_ofParts (by decide)

/-- The imports add to the references alone, and that of `GetKey` comes first. -/
theorem extends_importSymbols (hm : m.WellFormed) (h : importSymbols r m = (.ok s, m')) :
    m.Extends m' ∧ m'.WellFormed ∧
      ∃ m₁, importRequest r getKey m = (.ok s.getKey, m₁) ∧ m₁.Extends m' := by
  obtain ⟨m₁, m₂, m₃, m₄, hgetKey, hgetText, hsetText, hconcat, -, -, -, hempty⟩ :=
    importSymbols_eq_ok_iff.mp h
  have hm₄ : m₄.WellFormed := wellFormed_importRequest (wellFormed_importRequest
    (wellFormed_importRequest (wellFormed_importRequest hm hgetKey) hgetText) hsetText) hconcat
  have hlast := m₄.extends_userString ""
  have hm' := hm₄.userString ""
  rw [hempty] at hlast hm'
  have hextends : m₁.Extends m' := (extends_importRequest hgetText).trans
    ((extends_importRequest hsetText).trans ((extends_importRequest hconcat).trans hlast))
  exact ⟨(extends_importRequest hgetKey).trans hextends, hm', m₁, hgetKey, hextends⟩

theorem handleAt_eq_ok_iff {index : Nat} {h : Handle} :
    b.handleAt index = .ok h ↔ b.at? index = some h := by
  rw [Body.handleAt]
  cases b.at? index <;> simp

theorem findSite_eq_ok_iff : findSite m = .ok site ↔
    m.patchedBody typeName methodName = .ok (site.place, site.body) ∧
      (site.body.entries.any fun e => isKeyCheck m e.2) = false ∧
      checkAnchors site.body = .ok () ∧ site.body.at? resumeIndex = some site.resume ∧
      site.body.at? skipIndex = some site.skip ∧
      site.body.at? keyCheckIndex = some site.keyCheck := by
  rw [findSite, bind_eq_ok]
  simp only [← handleAt_eq_ok_iff]
  constructor
  · rintro ⟨⟨place, b⟩, hbody, h⟩
    dsimp only at h
    split at h
    · cases h
    · rename_i hany
      obtain ⟨_, hanchors, h⟩ := bind_eq_ok.mp h
      obtain ⟨resume, hresume, h⟩ := bind_eq_ok.mp h
      obtain ⟨skip, hskip, h⟩ := bind_eq_ok.mp h
      obtain ⟨keyCheck, hkeyCheck, h⟩ := bind_eq_ok.mp h
      cases h
      exact ⟨hbody, Bool.eq_false_iff.mpr hany, hanchors, hresume, hskip, hkeyCheck⟩
  · rintro ⟨hbody, hany, hanchors, hresume, hskip, hkeyCheck⟩
    refine ⟨_, hbody, ?_⟩
    dsimp only
    rw [if_neg (Bool.eq_false_iff.mp hany)]
    exact (bind_of_ok hanchors).trans ((bind_of_ok hresume).trans ((bind_of_ok hskip).trans
      (bind_of_ok hkeyCheck)))

theorem findSite_of_isKeyCheck (hbody : m.patchedBody typeName methodName = .ok (place, b))
    (hany : (b.entries.any fun e => isKeyCheck m e.2) = true) :
    findSite m = .error (.alreadyApplied name) := by
  rw [findSite, bind_of_ok hbody]
  dsimp only
  rw [if_pos hany]
  rfl

theorem insert_eq_ok_iff {inserted : Nat} : insert site s b = (.ok inserted, b') ↔
    ∃ p q block check, b.position site.skip = some p ∧
      (skipBlock s site.resume).resolve b = .ok block ∧
      (b.insertAfter p block).position site.keyCheck = some q ∧
      (keyCheck s b.next).resolve (b.insertAfter p block) = .ok check ∧
      inserted = block.length + check.length ∧
      b' = (b.insertAfter p block).insertAfter q check := by
  simp only [insert, Step.bind_eq_ok, Body.splice_eq_ok_iff]
  constructor
  · rintro ⟨_, _, ⟨p, block, hp, -, hblock, rfl, rfl⟩, _, _, ⟨q, check, hq, -, hcheck, rfl, rfl⟩,
      hreturn⟩
    cases hreturn
    exact ⟨p, q, block, check, hp, hblock, hq, hcheck, by simp [Body.nextHandles], rfl⟩
  · rintro ⟨p, q, block, check, hp, hblock, hq, hcheck, rfl, rfl⟩
    refine ⟨_, _, ⟨p, block, hp, rfl, hblock, rfl, rfl⟩, _, _,
      ⟨q, check, hq, rfl, hcheck, rfl, rfl⟩, ?_⟩
    simp [Body.nextHandles, Step.pure_apply]

theorem apply_eq_ok_iff : apply r m = (.ok o, m') ↔ ∃ site s m₁ inserted b',
    findSite m = .ok site ∧ importSymbols r m = (.ok s, m₁) ∧
      insert site s site.body = (.ok inserted, b') ∧
      o = ⟨name, qualifiedName typeName methodName, 0, inserted⟩ ∧
      m' = m₁.modifyMethod site.place fun x => x.withBody b' := by
  simp only [apply, Step.bind_eq_ok, ModuleStep.editBody_eq_ok_iff]
  constructor
  · rintro ⟨site, _, hsite, s, m₁, hsymbols, inserted, _, ⟨b', hinsert, rfl⟩, hreturn⟩
    rw [Step.read_apply, Prod.mk.injEq] at hsite
    obtain ⟨hsite, rfl⟩ := hsite
    cases hreturn
    exact ⟨site, s, m₁, inserted, b', hsite, hsymbols, hinsert, rfl, rfl⟩
  · rintro ⟨site, s, m₁, inserted, b', hsite, hsymbols, hinsert, rfl, rfl⟩
    exact ⟨site, m, by rw [Step.read_apply, hsite], s, m₁, hsymbols, inserted, _,
      ⟨b', hinsert, rfl⟩, rfl⟩

theorem apply_of_findSite {e : Error} (h : findSite m = .error e) : apply r m = (.error e, m) := by
  rw [apply, Step.bind_apply, Step.read_apply, h]

/-- The patch edits one body, which stays encodable and gets a call of the imported `GetKey`. -/
theorem exists_inserted (h : apply r m = (.ok o, m')) : ∃ place x b b' s m₁,
    m.Finds typeName methodName place x ∧ x.body = some b ∧ importSymbols r m = (.ok s, m₁) ∧
      m' = m₁.modifyMethod place (fun x => x.withBody b') ∧ (b.Encodable → b'.Encodable) ∧
      ∃ k, b'.instruction k = .ok ⟨.call, .token s.getKey, none⟩ := by
  obtain ⟨site, s, m₁, inserted, b', hsite, hsymbols, hinsert, -, rfl⟩ := apply_eq_ok_iff.mp h
  obtain ⟨x, hfound, hbody⟩ := Module.patchedBody_eq_ok_iff.mp (findSite_eq_ok_iff.mp hsite).1
  obtain ⟨p, q, block, check, hp, hblock, hq, hcheck, -, rfl⟩ := insert_eq_ok_iff.mp hinsert
  refine ⟨site.place, x, site.body, _, s, m₁, hfound, hbody, hsymbols, rfl, ?_, ?_⟩
  · intro hb
    have hmiddle := (Change.spliced hp hblock).encodable trivial hb
    exact (Change.spliced hq hcheck).encodable trivial hmiddle
  · have hcall : (Opcode.call, Operand.token s.getKey) ∈
        (keyCheck s site.body.next).pending.toList :=
      List.mem_cons_of_mem _ List.mem_cons_self
    exact Body.exists_instruction_insertAfter _ _ (Sequence.mem_of_resolve hcheck hcall)

theorem editable_apply (hm : m.Editable) (h : apply r m = (.ok o, m')) : m'.Editable := by
  obtain ⟨place, x, b, b', s, m₁, hfound, hbody, hsymbols, rfl, hencodable, -⟩ := exists_inserted h
  obtain ⟨hextends, hm₁, -⟩ := extends_importSymbols hm.wellFormed hsymbols
  obtain ⟨t, ht, hx⟩ := Module.methodAt?_eq_some_iff.mp hfound.found
  have hb := hm.bodies t (List.mem_of_getElem? ht) x (List.mem_of_getElem? hx) b hbody
  exact (hm.of_extends hextends hm₁).modifyMethod (hencodable hb) place

/-- An instruction of the body calls what a token names, and that is `GetKey`. -/
def Checked (m : Module) (b : Body) : Prop :=
  ∃ k i token scope kind, b.instruction k = .ok i ∧ i.opcode = .call ∧ i.operand = .token token ∧
    token.table = Token.memberRef ∧
    m.symbol token = .ok (.member scope inputType getKey.query.name kind)

theorem Checked.findSite_eq (hb : Checked m b) {x : MethodDef}
    (hfound : m.Finds typeName methodName place x) (hbody : x.body = some b) :
    findSite m = .error (.alreadyApplied name) := by
  obtain ⟨k, i, token, scope, kind, hi, hopcode, hoperand, htable, hsymbol⟩ := hb
  obtain ⟨member, parent, hmember, hparent, heq⟩ := Module.symbol_eq_ok htable hsymbol
  rw [Symbol.member.injEq] at heq
  obtain ⟨-, htype, hname, -⟩ := heq
  have hcheck : isKeyCheck m i = true := by
    simp only [isKeyCheck, Instruction.calls, hoperand, hopcode, hmember, hparent, ← hname, ← htype,
      Option.any_some, BEq.rfl, Bool.and_true]
    rfl
  refine findSite_of_isKeyCheck (Module.patchedBody_eq_ok_iff.mpr ⟨x, hfound, hbody⟩) ?_
  have hmem := Body.mem_entries_iff.mpr (Body.instruction_eq_ok_iff.mp hi)
  exact List.any_eq_true.mpr ⟨(k, i), hmem, hcheck⟩

/-- The call is still there after the module was saved and loaded. -/
theorem Checked.reloaded (hb : Checked m b) {layout : Layout} (hrestores : b.Restores b' layout)
    (htypeRefs : m'.typeRefs = m.typeRefs) (hmemberRefs : m'.memberRefs = m.memberRefs) :
    Checked m' b' := by
  obtain ⟨k, i, token, scope, kind, hi, hopcode, hoperand, htable, hsymbol⟩ := hb
  obtain ⟨j, hj, hsame, hvalue⟩ := hrestores.exists_instruction hi (by rw [hopcode]; rfl)
    (by rw [hoperand]; rfl)
  refine ⟨_, j, token, scope, kind, hj, hsame.trans hopcode, hvalue.trans hoperand, htable, ?_⟩
  rw [Module.symbol_congr htable htypeRefs hmemberRefs]
  exact hsymbol

/-- Importing `GetKey` gives a token that names it. -/
def KeyNamed (r : References) (m : Module) : Prop :=
  ∀ token m', importRequest r getKey m = (.ok token, m') →
    ∃ scope kind, m'.symbol token = .ok (.member scope inputType getKey.query.name kind)

theorem name_of_findMethod {source : Module} {x : MethodDef}
    (h : source.findMethod q.typeName q.query = .ok x) : x.name = q.query.name := by
  obtain ⟨t, -, -, -, hfind⟩ := Module.findMethod_eq_ok h
  obtain ⟨k, hselects⟩ := TypeDef.findMethod_eq_ok_iff.mp hfind
  exact (MethodQuery.accepts_iff.mp hselects.accepts).1

/-- A row number has 24 bits, and an import adds at most one row to a table. -/
theorem keyNamed_of_length (hm : m.Numbered) (htypeRefs : m.typeRefs.length < Token.maxRow)
    (hmemberRefs : m.memberRefs.length < Token.maxRow) : KeyNamed r m := by
  intro token m' himport
  obtain ⟨source, t, x, -, hx, hmember⟩ := importRequest_eq_ok_iff.mp himport
  obtain ⟨htypes, hmembers⟩ := Module.length_importMember hmember
  rw [name_of_findMethod hx] at hmember
  have hlimit : Token.maxRow + 1 = Token.rowLimit := rfl
  exact ⟨_, _, Module.symbol_importMember hm hmember (by omega) (by omega)⟩

end Dialogue

end CilEdit
