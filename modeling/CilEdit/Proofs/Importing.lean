import CilEdit.Proofs.Loading
import CilEdit.Proofs.Overloads
import Mathlib.Data.List.Pairwise

namespace CilEdit

/-- The rows of a table with fewer rows than this have tokens of their own. -/
def Token.rowLimit : Nat := 0x1000000

namespace Token

variable {α : Type} {token : α → Token} {table k : Nat} {rows : List α} {a : α}

theorem exists_getElem?_of_inOrder (hrows : rows.map token = inOrder table rows.length)
    (ha : a ∈ rows) : ∃ k, rows[k]? = some a ∧ token a = ofParts table (k + 1) := by
  obtain ⟨k, hk⟩ := List.mem_iff_getElem?.mp ha
  have htoken : (rows.map token)[k]? = some (token a) := by
    rw [List.getElem?_map, hk]
    rfl
  rw [hrows] at htoken
  exact ⟨k, hk, (getElem?_inOrder htoken).2⟩

theorem rowOf?_ofParts (htable : table < 256) (hk : rows[k]? = some a)
    (hcount : rows.length < rowLimit) :
    Module.rowOf? rows table (ofParts table (k + 1)) = some a := by
  have hlt : k < rows.length := (List.getElem?_eq_some_iff.mp hk).1
  have hrow : (ofParts table (k + 1)).row = k + 1 := by
    rw [row_ofParts]
    exact Nat.mod_eq_of_lt (Nat.lt_of_le_of_lt hlt hcount)
  rw [Module.rowOf?, table_ofParts htable, hrow, if_pos ⟨rfl, Nat.succ_ne_zero k⟩]
  exact hk

end Token

namespace Module

variable {m m' : Module} {token : Token} {t : TypeDef} {x : MethodDef} {scope name : String}
  {kind : MemberKind}

/-- The tokens of references follow the order of their rows, and those of members belong to the
tables of members. -/
structure Numbered (m : Module) : Prop where
  typeRefs : m.typeRefs.map TypeRef.token = Token.inOrder Token.typeRef m.typeRefs.length
  memberRefs : m.memberRefs.map MemberRef.token = Token.inOrder Token.memberRef m.memberRefs.length
  fields : ∀ t ∈ m.types, ∀ f ∈ t.fields, f.token.table = Token.fieldDef
  methods : ∀ t ∈ m.types, ∀ x ∈ t.methods, x.token.table = Token.methodDef

theorem WellFormed.numbered (hm : m.WellFormed) : m.Numbered where
  typeRefs := hm.typeRefs
  memberRefs := hm.memberRefs
  fields t ht := (hm.members t ht).fields
  methods t ht x hx := ((hm.members t ht).methods x hx).table

theorem methods_map_token (m : Module) :
    m.methods.map MethodDef.token = m.types.flatMap fun t => t.methods.map MethodDef.token :=
  List.map_flatMap

/-- Where no token names two methods, a token tells the type of its method. -/
theorem type_eq_of_token (hnodup : (m.methods.map MethodDef.token).Nodup) {t' : TypeDef}
    {x' : MethodDef} (ht : t ∈ m.types) (hx : x ∈ t.methods) (ht' : t' ∈ m.types)
    (hx' : x' ∈ t'.methods) (htoken : x'.token = x.token) : t' = t := by
  rw [methods_map_token, List.nodup_flatMap] at hnodup
  apply Decidable.byContradiction
  intro hne
  have hsymm : Std.Symm (Function.onFun List.Disjoint fun t : TypeDef =>
      t.methods.map MethodDef.token) := ⟨fun _ _ h _ hb ha => h ha hb⟩
  refine hnodup.2.forall ht' ht hne (List.mem_map_of_mem hx') ?_
  rw [htoken]
  exact List.mem_map_of_mem hx

theorem method_eq_of_token (hnodup : (m.methods.map MethodDef.token).Nodup) {x' : MethodDef}
    (ht : t ∈ m.types) (hx : x ∈ t.methods) (hx' : x' ∈ t.methods)
    (htoken : x'.token = x.token) : x' = x :=
  List.inj_on_of_nodup_map hnodup (List.mem_flatMap.mpr ⟨t, ht, hx'⟩)
    (List.mem_flatMap.mpr ⟨t, ht, hx⟩) htoken

theorem memberSymbol?_of_mem (hnodup : (m.methods.map MethodDef.token).Nodup) (ht : t ∈ m.types)
    (hx : x ∈ t.methods) :
    m.memberSymbol? x.token t = some (.member m.name t.name x.name (.method x.signature)) := by
  rw [memberSymbol?]
  cases hfound : t.methods.find? fun y => y.token == x.token with
  | none =>
      have hne := List.find?_eq_none.mp hfound x hx
      exact absurd (beq_self_eq_true x.token) hne
  | some y =>
      have htoken : y.token = x.token := by simpa using List.find?_some hfound
      rw [method_eq_of_token hnodup ht hx (List.mem_of_find?_eq_some hfound) htoken]

/-- No other type has a member with the token of a method. -/
theorem eq_of_memberSymbol? (hm : m.Numbered) (hnodup : (m.methods.map MethodDef.token).Nodup)
    (ht : t ∈ m.types) (hx : x ∈ t.methods) {t' : TypeDef} (ht' : t' ∈ m.types) {symbol : Symbol}
    (h : m.memberSymbol? x.token t' = some symbol) : t' = t := by
  rw [memberSymbol?] at h
  cases hfound : t'.methods.find? fun y => y.token == x.token with
  | some y =>
      have htoken : y.token = x.token := by simpa using List.find?_some hfound
      exact type_eq_of_token hnodup ht hx ht' (List.mem_of_find?_eq_some hfound) htoken
  | none =>
      -- A field has a token of another table.
      rw [hfound] at h
      obtain ⟨f, hf, -⟩ := Option.map_eq_some_iff.mp h
      have htoken : f.token = x.token := by simpa using List.find?_some hf
      have htable := hm.fields t' ht' f (List.mem_of_find?_eq_some hf)
      rw [htoken, hm.methods t ht x hx] at htable
      cases htable

theorem symbol_method (hm : m.Numbered) (hnodup : (m.methods.map MethodDef.token).Nodup)
    (ht : t ∈ m.types) (hx : x ∈ t.methods) :
    m.symbol x.token = .ok (.member m.name t.name x.name (.method x.signature)) := by
  have hsymbol := memberSymbol?_of_mem hnodup ht hx
  have hfound : m.types.findSome? (m.memberSymbol? x.token)
      = some (.member m.name t.name x.name (.method x.signature)) := by
    cases hfound : m.types.findSome? (m.memberSymbol? x.token) with
    | none =>
        rw [List.findSome?_eq_none_iff.mp hfound t ht] at hsymbol
        cases hsymbol
    | some symbol =>
        obtain ⟨t', ht', hsymbol'⟩ := List.exists_of_findSome?_eq_some hfound
        obtain rfl := eq_of_memberSymbol? hm hnodup ht hx ht' hsymbol'
        exact hsymbol'.symm.trans hsymbol
  simp only [symbol, hm.methods t ht x hx, hfound]
  rfl

/-- Importing a type gives the token of a row for it. -/
theorem Numbered.importType (hm : m.Numbered) (h : m.importType scope name = (token, m')) :
    m'.Numbered ∧ ∃ k r, m'.typeRefs[k]? = some r ∧ r.scope = scope ∧ r.name = name ∧
      token = .ofParts Token.typeRef (k + 1) := by
  unfold Module.importType importedType? at h
  cases hfound : m.typeRefs.find? fun r => r.scope == scope && r.name == name with
  | some r =>
      rw [hfound] at h
      cases h
      obtain ⟨k, hk, htoken⟩ :=
        Token.exists_getElem?_of_inOrder hm.typeRefs (List.mem_of_find?_eq_some hfound)
      have hsame := List.find?_some hfound
      simp only [Bool.and_eq_true, beq_iff_eq] at hsame
      exact ⟨hm, k, r, hk, hsame.1, hsame.2, htoken⟩
  | none =>
      rw [hfound] at h
      cases h
      refine ⟨⟨Token.map_concat_inOrder hm.typeRefs rfl, hm.memberRefs, hm.fields, hm.methods⟩,
        m.typeRefs.length, _, List.getElem?_concat_length, rfl, rfl, rfl⟩

/-- Importing a member gives the token of a row for it, whose parent is a row for its type. -/
theorem Numbered.importMember (hm : m.Numbered) {typeName : String}
    (h : m.importMember scope typeName name kind = (token, m')) :
    m'.Numbered ∧ ∃ j k r s, m'.typeRefs[j]? = some r ∧ r.scope = scope ∧ r.name = typeName ∧
      m'.memberRefs[k]? = some s ∧ s.parent = .ofParts Token.typeRef (j + 1) ∧ s.name = name ∧
      s.kind = kind ∧ token = .ofParts Token.memberRef (k + 1) := by
  rw [Module.importMember] at h
  generalize himport : m.importType scope typeName = imported at h
  obtain ⟨parent, m''⟩ := imported
  obtain ⟨hm'', j, r, hj, hscope, hname, rfl⟩ := hm.importType himport
  simp only [importedMember?] at h
  cases hfound : m''.memberRefs.find? fun s => s.parent == .ofParts Token.typeRef (j + 1) &&
      s.name == name && s.kind == kind with
  | some s =>
      rw [hfound] at h
      cases h
      obtain ⟨k, hk, htoken⟩ :=
        Token.exists_getElem?_of_inOrder hm''.memberRefs (List.mem_of_find?_eq_some hfound)
      have hsame := List.find?_some hfound
      simp only [Bool.and_eq_true, beq_iff_eq] at hsame
      exact ⟨hm'', j, k, r, s, hj, hscope, hname, hk, hsame.1.1, hsame.1.2, hsame.2, htoken⟩
  | none =>
      rw [hfound] at h
      cases h
      exact ⟨⟨hm''.typeRefs, Token.map_concat_inOrder hm''.memberRefs rfl, hm''.fields,
        hm''.methods⟩, j, m''.memberRefs.length, r, _, hj, hscope, hname,
        List.getElem?_concat_length, rfl, rfl, rfl, rfl⟩

theorem symbol_of_memberRef {r : TypeRef} {s : MemberRef} (htable : token.table = Token.memberRef)
    (hs : m.memberRefOf? token = some s) (hr : m.typeRefOf? s.parent = some r) :
    m.symbol token = .ok (.member r.scope r.name s.name s.kind) := by
  simp only [symbol, htable, hs, importedSymbol, hr]
  rfl

/-- What is imported is what the token names. -/
theorem symbol_importMember (hm : m.Numbered) {typeName : String}
    (h : m.importMember scope typeName name kind = (token, m'))
    (htypeRefs : m'.typeRefs.length < Token.rowLimit)
    (hmemberRefs : m'.memberRefs.length < Token.rowLimit) :
    m'.symbol token = .ok (.member scope typeName name kind) := by
  obtain ⟨-, j, k, r, s, hr, rfl, rfl, hs, hparent, rfl, rfl, rfl⟩ := hm.importMember h
  refine symbol_of_memberRef (Token.table_ofParts (by decide))
    (Token.rowOf?_ofParts (by decide) hs hmemberRefs) ?_
  rw [hparent]
  exact Token.rowOf?_ofParts (by decide) hr htypeRefs

/-- The symbol of an imported member depends on the tables of references alone. -/
theorem symbol_congr (htable : token.table = Token.memberRef)
    (htypeRefs : m'.typeRefs = m.typeRefs) (hmemberRefs : m'.memberRefs = m.memberRefs) :
    m'.symbol token = m.symbol token := by
  simp only [symbol, htable, memberRefOf?, typeRefOf?, importedSymbol, htypeRefs, hmemberRefs]
  rfl

end Module

end CilEdit
