import CilEdit.Proofs.ImageCodec

namespace CilEdit

open Reader

structure Module.Restores (m m' : Module) : Prop where
  name : m'.name = m.name
  types : List.Forall₂ TypeDef.Restores m.types m'.types
  typeRefs : m'.typeRefs = m.typeRefs
  memberRefs : m'.memberRefs = m.memberRefs
  userStrings : m'.userStrings = m.userStrings

/-- The module that is read back has the tables that were written, with the same stored bodies. -/
structure Module.Rereads (m m' : Module) : Prop where
  name : m'.name = m.name
  types : List.Forall₂ (TypeDef.Rereads m) m.types m'.types
  typeRefs : m'.typeRefs = m.typeRefs
  memberRefs : m'.memberRefs = m.memberRefs
  userStrings : m'.userStrings = m.userStrings

theorem Module.Rereads.restores {m m' : Module} (h : m.Rereads m') : m.Restores m' :=
  ⟨h.name, h.types.imp fun _ _ ht => ht.restores, h.typeRefs, h.memberRefs, h.userStrings⟩

theorem Module.Rereads.write_eq {m m' : Module} (h : m.Rereads m') :
    Image.write m' = Image.write m := by
  have htypes := Image.writeTable_congr (h.types.imp fun _ _ ht => ht.write_eq m')
  rw [Image.write, Image.write, h.name, htypes, h.typeRefs, h.memberRefs, h.userStrings]

/-- Rows that are stored are unique and not zero, and edited bodies can be decoded again. -/
structure Module.Storable (m : Module) : Prop where
  fieldRows : (m.fields.map fun f => f.token.row).Nodup
  methodRows : (m.methods.map fun x => x.token.row).Nodup
  types : ∀ t ∈ m.types, t.Storable

namespace Image

variable {m : Module} {bytes : Bytes}

theorem write_eq_ok (h : write m = .ok bytes) :
    ∃ name types typeRefs memberRefs userStrings, Prefixed.bytes m.name = .ok name ∧
      writeTable (writeType m) m.types = .ok types ∧
      writeTable writeTypeRef m.typeRefs = .ok typeRefs ∧
      writeTable writeMemberRef m.memberRefs = .ok memberRefs ∧
      writeTable Prefixed.bytes m.userStrings = .ok userStrings ∧
      bytes = preamble ++ (name ++ (types ++ (typeRefs ++ (memberRefs ++ userStrings)))) := by
  obtain ⟨name, hname, h⟩ := bind_eq_ok.mp h
  obtain ⟨types, htypes, h⟩ := bind_eq_ok.mp h
  obtain ⟨typeRefs, htypeRefs, h⟩ := bind_eq_ok.mp h
  obtain ⟨memberRefs, hmemberRefs, h⟩ := bind_eq_ok.mp h
  obtain ⟨userStrings, huserStrings, h⟩ := bind_eq_ok.mp h
  exact ⟨name, types, typeRefs, memberRefs, userStrings, hname, htypes, htypeRefs, hmemberRefs,
    huserStrings, (Except.ok.inj h).symm⟩

theorem readsAt_readPreamble (pos : Nat) : ReadsAt readPreamble pos preamble () := by
  refine (readsAt_take pos mark).bind ?_
  rw [if_neg (fun h => h rfl)]
  refine (readsAt_nat _ (show version < Bytes.capacity 2 by decide)).bind ?_
  rw [if_neg (fun h => h rfl)]
  exact (readsAt_nat _ (show 0 < Bytes.capacity 2 by decide)).bind_nil (readsAt_pure _ _)

theorem exists_rereads (hm : m.WellFormed) (hstorable : m.Storable)
    (hparents : ∀ r ∈ m.memberRefs, r.parent.row ≠ 0) (hwrite : write m = .ok bytes)
    (origin : Nat) : ∃ m', read origin bytes = .ok m' ∧ m.Rereads m' := by
  obtain ⟨name, types, typeRefs, memberRefs, userStrings, hname, htypes, htypeRefs, hmemberRefs,
    huserStrings, rfl⟩ := write_eq_ok hwrite
  have hrows : ∀ r ∈ m.memberRefs, r.parent.isRowOf Token.typeRef m.typeRefs.length = true := by
    intro r hr
    obtain ⟨htable, hle⟩ := hm.parent_table hr
    exact isRowOf_iff.mpr ⟨htable, hparents r hr, hle⟩
  obtain ⟨types', hread, hrereads⟩ := exists_readsAt_types htypes hm.types hm.members
    hstorable.types hstorable.fieldRows hstorable.methodRows origin
  refine ⟨{ m with types := types' }, ?_, rfl, hrereads, rfl, rfl, rfl⟩
  have hlast := readsAt_readRows huserStrings
  rw [read, parse, Input.ofBytes, readModule, Step.bind_ok (readsAt_readPreamble 0 _),
    Step.bind_ok (Prefixed.readsAt_read hname _ _), Step.bind_ok (hread _ _)]
  dsimp only
  rw [Step.bind_ok (readsAt_typeRefs htypeRefs hm.typeRefs _ _)]
  dsimp only
  rw [Step.bind_ok (readsAt_memberRefs hmemberRefs hm.memberRefs hrows _ _)]
  dsimp only
  rw [← List.append_nil userStrings, Step.bind_ok (hlast _ _)]
  rfl

theorem exists_read (hm : m.WellFormed) (hstorable : m.Storable)
    (hparents : ∀ r ∈ m.memberRefs, r.parent.row ≠ 0) (hwrite : write m = .ok bytes)
    (origin : Nat) : ∃ m', read origin bytes = .ok m' ∧ m.Restores m' ∧ write m' = .ok bytes := by
  obtain ⟨m', hread, hrereads⟩ := exists_rereads hm hstorable hparents hwrite origin
  exact ⟨m', hread, hrereads.restores, hrereads.write_eq.trans hwrite⟩

theorem read_eq_error (hm : m.WellFormed) (hstorable : m.Storable)
    (hparents : ∃ r ∈ m.memberRefs, r.parent.row = 0) (hwrite : write m = .ok bytes)
    (origin : Nat) : ∃ e, read origin bytes = .error e := by
  obtain ⟨name, types, typeRefs, memberRefs, userStrings, hname, htypes, htypeRefs, hmemberRefs,
    huserStrings, rfl⟩ := write_eq_ok hwrite
  have hrows : ∃ r ∈ m.memberRefs, r.parent.isRowOf Token.typeRef m.typeRefs.length = false := by
    obtain ⟨r, hr, hzero⟩ := hparents
    exact ⟨r, hr, Bool.eq_false_iff.mpr fun h => (isRowOf_iff.mp h).2.1 hzero⟩
  obtain ⟨types', hread, -⟩ := exists_readsAt_types htypes hm.types hm.members
    hstorable.types hstorable.fieldRows hstorable.methodRows origin
  obtain ⟨e, he⟩ := exists_failsAt_memberRefs hmemberRefs hrows
    (0 + preamble.length + name.length + types.length + typeRefs.length)
  obtain ⟨next, hnext⟩ := he userStrings
  refine ⟨e, ?_⟩
  rw [read, parse, Input.ofBytes, readModule, Step.bind_ok (readsAt_readPreamble 0 _),
    Step.bind_ok (Prefixed.readsAt_read hname _ _), Step.bind_ok (hread _ _)]
  dsimp only
  rw [Step.bind_ok (readsAt_typeRefs htypeRefs hm.typeRefs _ _)]
  dsimp only
  rw [Step.bind_error hnext]

theorem exists_writeTable {α : Type} {write : α → Except Error Bytes} {rows : List α}
    (hcount : rows.length < UInt32.size) (h : ∀ a ∈ rows, ∃ chunk, write a = .ok chunk) :
    ∃ stored, writeTable write rows = .ok stored := by
  choose! chunk hchunk using h
  rw [writeTable, if_pos hcount, mapM_eq_ok_map hchunk]
  exact ⟨_, rfl⟩

theorem exists_writeMethod {x : MethodDef} {stored : Bytes}
    (hname : ∃ stored, Prefixed.bytes x.name = .ok stored)
    (hsignature : ∃ stored, writeSignature x.signature = .ok stored)
    (hstored : storedBody m x = .ok stored) (hlength : stored.length < UInt32.size) :
    ∃ bytes, writeMethod m x = .ok bytes := by
  obtain ⟨name, hname⟩ := hname
  obtain ⟨signature, hsignature⟩ := hsignature
  rw [writeMethod, bind_of_ok hname, bind_of_ok hsignature, bind_of_ok hstored, if_pos hlength]
  exact ⟨_, rfl⟩

theorem exists_writeType {t : TypeDef} (hname : ∃ stored, Prefixed.bytes t.name = .ok stored)
    (hfields : ∃ stored, writeTable writeField t.fields = .ok stored)
    (hmethods : ∃ stored, writeTable (writeMethod m) t.methods = .ok stored) :
    ∃ bytes, writeType m t = .ok bytes := by
  obtain ⟨name, hname⟩ := hname
  obtain ⟨fields, hfields⟩ := hfields
  obtain ⟨methods, hmethods⟩ := hmethods
  rw [writeType, bind_of_ok hname, bind_of_ok hfields, bind_of_ok hmethods]
  exact ⟨_, rfl⟩

/-- The types can be written if their names and signatures can, and if the bodies fit. -/
theorem exists_writeTypes (hcount : m.types.length < UInt32.size)
    (hparts : ∀ t ∈ m.types, (Prefixed.bytes t.name).isOk ∧ (writeTable writeField t.fields).isOk ∧
      t.methods.length < UInt32.size ∧
      ∀ x ∈ t.methods, (Prefixed.bytes x.name).isOk ∧ (writeSignature x.signature).isOk)
    (hstored : ∀ t ∈ m.types, ∀ x ∈ t.methods,
      ∃ stored, storedBody m x = .ok stored ∧ stored.length < UInt32.size) :
    ∃ stored, writeTable (writeType m) m.types = .ok stored := by
  refine exists_writeTable hcount fun t ht => ?_
  obtain ⟨hname, hfields, hcount, hmethods⟩ := hparts t ht
  refine exists_writeType (exists_of_isOk hname) (exists_of_isOk hfields)
    (exists_writeTable hcount fun x hx => ?_)
  obtain ⟨hname, hsignature⟩ := hmethods x hx
  obtain ⟨stored, hstored, hlength⟩ := hstored t ht x hx
  exact exists_writeMethod (exists_of_isOk hname) (exists_of_isOk hsignature) hstored hlength

theorem exists_writeTypeRef {r : TypeRef} (hscope : ∃ stored, Prefixed.bytes r.scope = .ok stored)
    (hname : ∃ stored, Prefixed.bytes r.name = .ok stored) :
    ∃ bytes, writeTypeRef r = .ok bytes := by
  obtain ⟨scope, hscope⟩ := hscope
  obtain ⟨name, hname⟩ := hname
  rw [writeTypeRef, bind_of_ok hscope, bind_of_ok hname]
  exact ⟨_, rfl⟩

theorem exists_write (hname : ∃ stored, Prefixed.bytes m.name = .ok stored)
    (htypes : ∃ stored, writeTable (writeType m) m.types = .ok stored)
    (htypeRefs : ∃ stored, writeTable writeTypeRef m.typeRefs = .ok stored)
    (hmemberRefs : ∃ stored, writeTable writeMemberRef m.memberRefs = .ok stored)
    (huserStrings : ∃ stored, writeTable Prefixed.bytes m.userStrings = .ok stored) :
    ∃ bytes, write m = .ok bytes := by
  obtain ⟨name, hname⟩ := hname
  obtain ⟨types, htypes⟩ := htypes
  obtain ⟨typeRefs, htypeRefs⟩ := htypeRefs
  obtain ⟨memberRefs, hmemberRefs⟩ := hmemberRefs
  obtain ⟨userStrings, huserStrings⟩ := huserStrings
  rw [write, bind_of_ok hname, bind_of_ok htypes, bind_of_ok htypeRefs, bind_of_ok hmemberRefs,
    bind_of_ok huserStrings]
  exact ⟨_, rfl⟩

end Image

namespace Module

variable {m : Module} {bytes : Bytes}

theorem load_of_write (h : Image.write m = .ok bytes) (origin : Nat) :
    load origin bytes = Image.read origin bytes := by
  obtain ⟨name, types, typeRefs, memberRefs, userStrings, -, -, -, -, -, rfl⟩ := Image.write_eq_ok h
  rfl

/-- An image can be read exactly if every imported member belongs to a row. -/
theorem exists_load_iff (hm : m.WellFormed) (hstorable : m.Storable)
    (hbytes : m.toBytes = .ok bytes) (origin : Nat) :
    (∃ m', load origin bytes = .ok m') ↔ ∀ r ∈ m.memberRefs, r.parent.row ≠ 0 := by
  rw [load_of_write hbytes]
  constructor
  · rintro ⟨m', hread⟩ r hr hzero
    obtain ⟨e, he⟩ := Image.read_eq_error hm hstorable ⟨r, hr, hzero⟩ hbytes origin
    rw [he] at hread
    cases hread
  · intro hparents
    obtain ⟨m', hread, -⟩ := Image.exists_read hm hstorable hparents hbytes origin
    exact ⟨m', hread⟩

def edited : Module :=
  Call.apply (.addMethod (.ofParts Token.typeDef 1) default "f" (.ofStatic [] Signature.void)
    (some (Body.ofListing ⟨0, 0⟩ .filtered))) (Call.apply (.addType "T" 0) (empty "M"))

/-- A module that imports a type without a name so many times. -/
def ofTypeRefs (n : Nat) : Module :=
  { empty "" with
    typeRefs := (List.range n).map fun k => ⟨.ofParts Token.typeRef (k + 1), "", ""⟩ }

variable {n : Nat}

theorem length_ofTypeRefs (n : Nat) : (ofTypeRefs n).typeRefs.length = n := by
  rw [ofTypeRefs, List.length_map, List.length_range]

theorem exists_empty_text : ∃ stored, Prefixed.bytes "" = .ok stored :=
  exists_of_isOk (by decide +kernel)

theorem exists_writeTypeRef_ofTypeRefs {r : TypeRef} (hr : r ∈ (ofTypeRefs n).typeRefs) :
    ∃ chunk, Image.writeTypeRef r = .ok chunk := by
  obtain ⟨k, -, rfl⟩ := List.mem_map.mp hr
  exact Image.exists_writeTypeRef exists_empty_text exists_empty_text

theorem wellFormed_ofTypeRefs (n : Nat) : (ofTypeRefs n).WellFormed where
  types := rfl
  typeRefs := by
    rw [ofTypeRefs, List.map_map, List.length_map, List.length_range]
    rfl
  memberRefs := rfl
  members := nofun
  parents := nofun

def source : Module :=
  Call.apply (.addField (.ofParts Token.typeDef 1) 0 "f" "I")
    (Call.apply (.addType "T" 0) (empty "S"))

/-- The module with the field imported into it: its type gets the row after the last one. -/
def importing (n : Nat) : Module :=
  { ofTypeRefs n with
    typeRefs := (ofTypeRefs n).typeRefs ++ [⟨.ofParts Token.typeRef (n + 1), "S", "T"⟩]
    memberRefs := [⟨.ofParts Token.memberRef 1, .ofParts Token.typeRef (n + 1), "f", .field "I"⟩] }

end Module

end CilEdit
