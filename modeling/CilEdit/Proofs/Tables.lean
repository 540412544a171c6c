import CilEdit.Body.Decode
import CilEdit.Metadata.ModuleStep
import CilEdit.Proofs.Sequencing

namespace CilEdit

namespace Token

def inOrder (table count : Nat) : List Token :=
  (List.range count).map fun k => ofParts table (k + 1)

theorem inOrder_succ (table count : Nat) :
    inOrder table (count + 1) = inOrder table count ++ [ofParts table (count + 1)] := by
  rw [inOrder, List.range_succ, List.map_append]
  rfl

theorem map_concat_inOrder {α : Type} {token : α → Token} {table : Nat} {rows : List α} {a : α}
    (hrows : rows.map token = inOrder table rows.length)
    (ha : token a = ofParts table (rows.length + 1)) :
    (rows ++ [a]).map token = inOrder table (rows ++ [a]).length := by
  rw [List.map_append, hrows, List.length_append, List.length_singleton, inOrder_succ, ← ha]
  rfl

theorem getElem?_inOrder {table count k : Nat} {t : Token}
    (ht : (inOrder table count)[k]? = some t) : k < count ∧ t = ofParts table (k + 1) := by
  rw [inOrder, List.getElem?_map, Option.map_eq_some_iff] at ht
  obtain ⟨n, hn, rfl⟩ := ht
  obtain ⟨hk, rfl⟩ := List.getElem?_eq_some_iff.mp hn
  rw [List.length_range] at hk
  exact ⟨hk, by rw [List.getElem_range]⟩

theorem row_le (table row : Nat) : (ofParts table row).row ≤ row := by
  rw [row_ofParts]
  exact Nat.mod_le _ _

end Token

structure MethodDef.WellFormed (x : MethodDef) : Prop where
  table : x.token.table = Token.methodDef
  stored : ∀ raw, x.raw = some raw → ∃ id b, x.body = some b ∧ Body.decode id raw = .ok b

structure TypeDef.WellFormed (t : TypeDef) : Prop where
  fields : ∀ f ∈ t.fields, f.token.table = Token.fieldDef
  methods : ∀ x ∈ t.methods, x.WellFormed

namespace Module

/-- What every module satisfies, whatever calls have made it. -/
structure WellFormed (m : Module) : Prop where
  types : m.types.map TypeDef.token = Token.inOrder Token.typeDef m.types.length
  typeRefs : m.typeRefs.map TypeRef.token = Token.inOrder Token.typeRef m.typeRefs.length
  memberRefs : m.memberRefs.map MemberRef.token = Token.inOrder Token.memberRef m.memberRefs.length
  members : ∀ t ∈ m.types, t.WellFormed
  parents : ∀ r ∈ m.memberRefs, ∃ row, 0 < row ∧ row ≤ m.typeRefs.length ∧
    r.parent = .ofParts Token.typeRef row

inductive Call
  | addType (name : String) (flags : UInt32)
  | addField (owner : Token) (flags : UInt32) (name type : String)
  | addMethod (owner : Token) (flags : MethodFlags) (name : String) (signature : Signature)
      (body : Option Body)
  | importType (scope name : String)
  | importMethod (source : Module) (typeName : String) (q : MethodQuery)
  | importField (source : Module) (typeName name : String)
  | userString (value : String)
  /-- Opens the body at a place and makes any change to it. -/
  | editBody (place : MethodPlace) (edit : Body → Body)

def Call.apply : Call → Module → Module
  | addType name flags, m => (m.addType name flags).2
  | addField owner flags name type, m => (Step.update (·.addField owner flags name type) m).2
  | addMethod owner flags name signature body, m =>
      (Step.update (·.addMethod owner flags name signature body) m).2
  | importType scope name, m => (m.importType scope name).2
  | importMethod source typeName q, m => (Module.importMethod source typeName q m).2
  | importField source typeName name, m => (Module.importField source typeName name m).2
  | userString value, m => (m.userString value).2
  | editBody place edit, m =>
      m.modifyMethod place fun x => { x with body := x.body.map edit, raw := none }

variable {m : Module}

theorem wellFormed_empty (name : String) : (empty name).WellFormed where
  types := rfl
  typeRefs := rfl
  memberRefs := rfl
  members := nofun
  parents := nofun

theorem map_modify_of_eq {α β : Type} {f : α → β} {change : α → α} (h : ∀ a, f (change a) = f a)
    (xs : List α) (index : Nat) : (xs.modify index change).map f = xs.map f := by
  refine List.ext_getElem? fun n => ?_
  rw [List.getElem?_map, List.getElem?_map, List.getElem?_modify]
  cases xs[n]? with
  | none => rfl
  | some a =>
      by_cases hn : index = n
      · simp [hn, h]
      · simp [hn]

theorem flatMap_modify_of_eq {α β : Type} {f : α → List β} {change : α → α}
    (h : ∀ a, f (change a) = f a) (xs : List α) (index : Nat) :
    (xs.modify index change).flatMap f = xs.flatMap f := by
  rw [List.flatMap_def, List.flatMap_def, map_modify_of_eq h]

theorem forall_mem_modify {α : Type} {P : α → Prop} {change : α → α} {xs : List α} {index : Nat}
    (hxs : ∀ a ∈ xs, P a) (hchange : ∀ a, P a → P (change a)) :
    ∀ a ∈ xs.modify index change, P a := by
  intro a ha
  obtain ⟨n, hn⟩ := List.mem_iff_getElem?.mp ha
  rw [List.getElem?_modify] at hn
  obtain ⟨b, hb, rfl⟩ := Option.map_eq_some_iff.mp hn
  have hPb := hxs b (List.mem_of_getElem? hb)
  split
  · exact hchange b hPb
  · exact hPb

theorem WellFormed.addType (hm : m.WellFormed) (name : String) (flags : UInt32) :
    (m.addType name flags).2.WellFormed where
  types := Token.map_concat_inOrder hm.types rfl
  typeRefs := hm.typeRefs
  memberRefs := hm.memberRefs
  members := List.forall_mem_append.mpr ⟨hm.members, List.forall_mem_singleton.mpr ⟨nofun, nofun⟩⟩
  parents := hm.parents

theorem WellFormed.modifyTypes (hm : m.WellFormed) {change : TypeDef → TypeDef}
    (htoken : ∀ t, (change t).token = t.token) (hchange : ∀ t, t.WellFormed → (change t).WellFormed)
    (index : Nat) : ({ m with types := m.types.modify index change } : Module).WellFormed where
  types := by
    rw [map_modify_of_eq htoken, List.length_modify]
    exact hm.types
  typeRefs := hm.typeRefs
  memberRefs := hm.memberRefs
  members := forall_mem_modify hm.members hchange
  parents := hm.parents

theorem modifyOwner_eq_ok {owner : Token} {change : TypeDef → TypeDef} {m' : Module}
    (h : m.modifyOwner owner change = .ok m') :
    ∃ index, m' = { m with types := m.types.modify index change } := by
  unfold modifyOwner at h
  split at h
  · exact ⟨_, (Except.ok.inj h).symm⟩
  · cases h

theorem WellFormed.addField (hm : m.WellFormed) {owner token : Token} {flags : UInt32}
    {name type : String} {m' : Module} (h : m.addField owner flags name type = .ok (token, m')) :
    m'.WellFormed := by
  obtain ⟨m'', howner, heq⟩ := map_eq_ok.mp h
  cases heq
  obtain ⟨index, rfl⟩ := modifyOwner_eq_ok howner
  apply hm.modifyTypes
  · intro t
    rfl
  · intro t ht
    refine ⟨List.forall_mem_append.mpr ⟨ht.fields, List.forall_mem_singleton.mpr ?_⟩, ht.methods⟩
    exact Token.table_ofParts (by decide)

theorem WellFormed.addMethod (hm : m.WellFormed) {owner token : Token} {flags : MethodFlags}
    {name : String} {signature : Signature} {body : Option Body} {m' : Module}
    (h : m.addMethod owner flags name signature body = .ok (token, m')) : m'.WellFormed := by
  obtain ⟨m'', howner, heq⟩ := map_eq_ok.mp h
  cases heq
  obtain ⟨index, rfl⟩ := modifyOwner_eq_ok howner
  apply hm.modifyTypes
  · intro t
    rfl
  · intro t ht
    refine ⟨ht.fields, List.forall_mem_append.mpr ⟨ht.methods, List.forall_mem_singleton.mpr ?_⟩⟩
    exact ⟨Token.table_ofParts (by decide), nofun⟩

theorem WellFormed.editBody (hm : m.WellFormed) (place : MethodPlace) (edit : Body → Body) :
    (Call.apply (.editBody place edit) m).WellFormed := by
  apply hm.modifyTypes
  · intro t
    rfl
  · intro t ht
    refine ⟨ht.fields, forall_mem_modify ht.methods ?_⟩
    -- The stored form is dropped, so nothing has to be said about it.
    intro x hx
    exact ⟨hx.table, nofun⟩

theorem importType_cases (m : Module) (scope name : String) :
    (∃ r ∈ m.typeRefs, m.importType scope name = (r.token, m)) ∨
      m.importType scope name = m.addTypeRef scope name := by
  unfold importType importedType?
  cases hfind : m.typeRefs.find? fun r => r.scope == scope && r.name == name with
  | none => exact .inr rfl
  | some r => exact .inl ⟨r, List.mem_of_find?_eq_some hfind, rfl⟩

theorem WellFormed.importType (hm : m.WellFormed) (scope name : String) :
    (m.importType scope name).2.WellFormed := by
  rcases importType_cases m scope name with ⟨r, -, heq⟩ | heq
  · rw [heq]
    exact hm
  · rw [heq]
    refine ⟨hm.types, Token.map_concat_inOrder hm.typeRefs rfl, hm.memberRefs, hm.members, ?_⟩
    intro r hr
    obtain ⟨row, hpos, hle, hparent⟩ := hm.parents r hr
    refine ⟨row, hpos, Nat.le_trans hle ?_, hparent⟩
    simp only [addTypeRef, List.length_append, List.length_singleton]
    exact Nat.le_succ _

theorem WellFormed.token_importType (hm : m.WellFormed) (scope name : String) :
    ∃ row, 0 < row ∧ row ≤ (m.importType scope name).2.typeRefs.length ∧
      (m.importType scope name).1 = .ofParts Token.typeRef row := by
  rcases importType_cases m scope name with ⟨r, hr, heq⟩ | heq
  · rw [heq]
    obtain ⟨k, hk⟩ := List.mem_iff_getElem?.mp (List.mem_map_of_mem (f := TypeRef.token) hr)
    rw [hm.typeRefs] at hk
    obtain ⟨hlt, htoken⟩ := Token.getElem?_inOrder hk
    exact ⟨k + 1, Nat.succ_pos k, hlt, htoken⟩
  · rw [heq]
    refine ⟨m.typeRefs.length + 1, Nat.succ_pos _, ?_, rfl⟩
    simp only [addTypeRef, List.length_append, List.length_singleton]
    exact Nat.le_refl _

theorem WellFormed.addMemberRef (hm : m.WellFormed) {parent : Token}
    (hparent : ∃ row, 0 < row ∧ row ≤ m.typeRefs.length ∧ parent = .ofParts Token.typeRef row)
    (name : String) (kind : MemberKind) : (m.addMemberRef parent name kind).2.WellFormed where
  types := hm.types
  typeRefs := hm.typeRefs
  memberRefs := Token.map_concat_inOrder hm.memberRefs rfl
  members := hm.members
  parents :=
    List.forall_mem_append.mpr ⟨hm.parents, List.forall_mem_singleton.mpr hparent⟩

theorem WellFormed.importMember (hm : m.WellFormed) (scope typeName name : String)
    (kind : MemberKind) : (m.importMember scope typeName name kind).2.WellFormed := by
  have htype := hm.importType scope typeName
  have hparent := hm.token_importType scope typeName
  unfold Module.importMember
  generalize m.importType scope typeName = imported at htype hparent
  obtain ⟨parent, m'⟩ := imported
  dsimp only at htype hparent ⊢
  split
  · exact htype
  · exact htype.addMemberRef hparent name kind

theorem WellFormed.userString (hm : m.WellFormed) (value : String) :
    (m.userString value).2.WellFormed := by
  unfold Module.userString
  split
  · exact hm
  · exact ⟨hm.types, hm.typeRefs, hm.memberRefs, hm.members, hm.parents⟩

theorem WellFormed.parent_table (hm : m.WellFormed) {r : MemberRef} (hr : r ∈ m.memberRefs) :
    r.parent.table = Token.typeRef ∧ r.parent.row ≤ m.typeRefs.length := by
  obtain ⟨row, -, hle, hparent⟩ := hm.parents r hr
  rw [hparent]
  exact ⟨Token.table_ofParts (by decide), Nat.le_trans (Token.row_le _ _) hle⟩

/-- A method is looked up before anything is entered for it. -/
theorem importMethod_eq_ok_iff {source m' : Module} {typeName : String} {q : MethodQuery}
    {token : Token} : importMethod source typeName q m = (.ok token, m') ↔
      ∃ x, source.findMethod typeName q = .ok x ∧
        m.importMember source.name typeName x.name (.method x.signature) = (token, m') := by
  simp only [importMethod, Step.ofExcept_bind_eq_ok_iff, Step.modifyGet_eq_ok_iff]

theorem importMethod_of_error {source : Module} {typeName : String} {q : MethodQuery} {e : Error}
    (h : source.findMethod typeName q = .error e) (m : Module) :
    importMethod source typeName q m = (.error e, m) := by
  rw [importMethod, h]
  rfl

theorem importField_eq_ok_iff {source m' : Module} {typeName name : String} {token : Token} :
    importField source typeName name m = (.ok token, m') ↔
      ∃ f, source.findField typeName name = .ok f ∧
        m.importMember source.name typeName f.name (.field f.type) = (token, m') := by
  simp only [importField, Step.ofExcept_bind_eq_ok_iff, Step.modifyGet_eq_ok_iff]

theorem importField_of_error {source : Module} {typeName name : String} {e : Error}
    (h : source.findField typeName name = .error e) (m : Module) :
    importField source typeName name m = (.error e, m) := by
  rw [importField, h]
  rfl

theorem WellFormed.importMethod (hm : m.WellFormed) (source : Module) (typeName : String)
    (q : MethodQuery) : (Module.importMethod source typeName q m).2.WellFormed :=
  Step.ofExcept_bind_modifyGet _ hm fun _ => hm.importMember _ _ _ _

theorem WellFormed.importField (hm : m.WellFormed) (source : Module) (typeName name : String) :
    (Module.importField source typeName name m).2.WellFormed :=
  Step.ofExcept_bind_modifyGet _ hm fun _ => hm.importMember _ _ _ _

/-- As long as no row of the imported types lies beyond the last one, every parent names a row. -/
theorem WellFormed.parent_row_ne_zero (hm : m.WellFormed)
    (hcount : m.typeRefs.length ≤ Token.maxRow) {r : MemberRef} (hr : r ∈ m.memberRefs) :
    r.parent.row ≠ 0 := by
  obtain ⟨row, hpos, hle, hparent⟩ := hm.parents r hr
  have hrow : row < 0x1000000 := Nat.lt_succ_of_le (Nat.le_trans hle hcount)
  rw [hparent, Token.row_ofParts, Nat.mod_eq_of_lt hrow]
  exact Nat.ne_of_gt hpos

theorem WellFormed.update (hm : m.WellFormed) {change : Module → Except Error (Token × Module)}
    (h : ∀ token m', change m = .ok (token, m') → m'.WellFormed) :
    (Step.update change m).2.WellFormed := by
  unfold Step.update
  split
  · rename_i token m' heq
    exact h token m' heq
  · exact hm

theorem WellFormed.apply (hm : m.WellFormed) (c : Call) : (c.apply m).WellFormed := by
  cases c with
  | addType name flags => exact hm.addType name flags
  | addField owner flags name type => exact hm.update fun _ _ => hm.addField
  | addMethod owner flags name signature body => exact hm.update fun _ _ => hm.addMethod
  | importType scope name => exact hm.importType scope name
  | importMethod source typeName q => exact hm.importMethod source typeName q
  | importField source typeName name => exact hm.importField source typeName name
  | userString value => exact hm.userString value
  | editBody place edit => exact hm.editBody place edit

end Module

end CilEdit
