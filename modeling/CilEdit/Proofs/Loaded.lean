import CilEdit.Proofs.ImageRoundTrip
import CilEdit.Proofs.Locating

namespace CilEdit

open Reader

/-- A method as it is loaded: with a row, and with the bytes of its body. -/
structure MethodDef.Loaded (origin : Nat) (x : MethodDef) : Prop where
  row : x.token.row ≠ 0
  stored : ∀ b, x.body = some b →
    ∃ raw, x.raw = some raw ∧ Body.decode ⟨origin, x.token.row⟩ raw = .ok b

structure TypeDef.Loaded (origin : Nat) (t : TypeDef) : Prop where
  fields : ∀ f ∈ t.fields, f.token.row ≠ 0
  methods : ∀ x ∈ t.methods, x.Loaded origin

/-- A module as it is loaded: stored rows are unique. -/
structure Module.Loaded (origin : Nat) (m : Module) : Prop where
  fieldRows : (m.fields.map fun f => f.token.row).Nodup
  methodRows : (m.methods.map fun x => x.token.row).Nodup
  types : ∀ t ∈ m.types, t.Loaded origin

namespace Image

theorem gives_readRow (table : Nat) (seen : List Nat) :
    (readRow table seen).Gives fun row =>
      row ≠ 0 ∧ row ∉ seen ∧ (Token.ofParts table row).row = row := by
  refine gives_bind fun row => ?_
  split
  · exact gives_bad _
  · rename_i hvalid
    rw [not_or, not_or, Nat.not_lt] at hvalid
    refine gives_pure ⟨hvalid.1, hvalid.2.2, ?_⟩
    rw [Token.row_ofParts]
    exact Nat.mod_eq_of_lt (Nat.lt_succ_of_le hvalid.2.1)

theorem gives_readField_row (seen : List Nat) : (readField seen).Gives fun p =>
    p.1.token.row ≠ 0 ∧ p.1.token.row ∉ seen ∧ p.2 = p.1.token.row :: seen := by
  refine (gives_readRow _ _).bind fun row hrow => gives_bind fun flags => gives_bind fun name =>
    gives_bind fun type => gives_pure ?_
  rw [hrow.2.2]
  exact ⟨hrow.1, hrow.2.1, rfl⟩

theorem gives_readMethod_row (origin : Nat) (seen : List Nat) :
    (readMethod origin seen).Gives fun p =>
      p.1.Loaded origin ∧ p.1.token.row ∉ seen ∧ p.2 = p.1.token.row :: seen := by
  refine (gives_readRow _ _).bind fun row hrow => gives_bind fun flags => gives_bind fun name =>
    gives_bind fun signature => (gives_readBody _).bind fun stored hstored => gives_pure ?_
  rw [hrow.2.2]
  refine ⟨⟨by rw [hrow.2.2]; exact hrow.1, ?_⟩, hrow.2.1, rfl⟩
  intro b hb
  obtain ⟨⟨raw, b⟩, rfl, rfl⟩ := Option.map_eq_some_iff.mp hb
  rw [hrow.2.2]
  exact ⟨raw, rfl, hstored raw b rfl⟩

/-- A table whose rows are checked against those that were read before has no row twice. -/
theorem gives_readMembers {α : Type} {reader : List Nat → Reader (α × List Nat)} (row : α → Nat)
    (Q : α → Prop)
    (h : ∀ seen, (reader seen).Gives fun p => Q p.1 ∧ row p.1 ∉ seen ∧ p.2 = row p.1 :: seen)
    {seen : List Nat} (hseen : seen.Nodup) :
    (readTable reader seen).Gives fun p =>
      (∀ a ∈ p.1, Q a) ∧ p.2 = (p.1.map row).reverse ++ seen ∧ p.2.Nodup := by
  refine gives_readTable (P := fun rows (last : List Nat) =>
    (∀ a ∈ rows, Q a) ∧ last = (rows.map row).reverse ++ seen ∧ last.Nodup) ⟨nofun, rfl, hseen⟩ ?_
  rintro rows _ ⟨hrows, rfl, hnodup⟩
  refine (h _).mono ?_
  rintro ⟨a, last⟩ ⟨ha, hfresh, hlast⟩
  dsimp only at ha hfresh hlast ⊢
  subst hlast
  refine ⟨List.forall_mem_append.mpr ⟨hrows, List.forall_mem_singleton.mpr ha⟩, ?_,
    List.nodup_cons.mpr ⟨hfresh, hnodup⟩⟩
  rw [reverse_map_concat]

theorem gives_readType_rows (origin : Nat) {types : List TypeDef}
    (hfields : (seenAfter types).fieldRows.Nodup) (hmethods : (seenAfter types).methodRows.Nodup) :
    (readType origin (seenAfter types)).Gives fun p => p.1.Loaded origin ∧
      p.2 = seenAfter (types ++ [p.1]) ∧ p.2.fieldRows.Nodup ∧ p.2.methodRows.Nodup := by
  refine gives_bind fun flags => gives_bind fun name =>
    (gives_readMembers (fun f => f.token.row) (fun f => f.token.row ≠ 0) gives_readField_row
      hfields).bind fun fields hfieldRows =>
        (gives_readMembers (fun x => x.token.row) (MethodDef.Loaded origin)
          (gives_readMethod_row origin)
          hmethods).bind fun methods hmethodRows => gives_pure ?_
  refine ⟨⟨hfieldRows.1, hmethodRows.1⟩, ?_, hfieldRows.2.2, hmethodRows.2.2⟩
  rw [seenAfter_concat, hfieldRows.2.1, hmethodRows.2.1]

theorem gives_types_rows (origin : Nat) : (readTable (readType origin) ⟨0, [], []⟩).Gives fun p =>
    (∀ t ∈ p.1, t.Loaded origin) ∧ p.2 = seenAfter p.1 ∧ p.2.fieldRows.Nodup ∧
      p.2.methodRows.Nodup := by
  refine gives_readTable (P := fun types (seen : Seen) => (∀ t ∈ types, t.Loaded origin) ∧
    seen = seenAfter types ∧ seen.fieldRows.Nodup ∧ seen.methodRows.Nodup)
    ⟨nofun, rfl, List.nodup_nil, List.nodup_nil⟩ ?_
  rintro types _ ⟨htypes, rfl, hfields, hmethods⟩
  refine (gives_readType_rows origin hfields hmethods).mono ?_
  rintro ⟨t, last⟩ ⟨ht, hlast, hrest⟩
  dsimp only at ht hlast hrest ⊢
  subst hlast
  exact ⟨List.forall_mem_append.mpr ⟨htypes, List.forall_mem_singleton.mpr ht⟩, rfl, hrest⟩

theorem loaded_of_read {origin : Nat} {data : Bytes} {m : Module}
    (h : read origin data = .ok m) : m.Loaded origin := by
  have hgives : (readModule origin).Gives (Module.Loaded origin) := by
    refine gives_bind fun _ => gives_bind fun name =>
      (gives_types_rows origin).bind fun types htypes => gives_bind fun typeRefs =>
        gives_bind fun memberRefs => gives_bind fun userStrings => gives_bind fun left => ?_
    split
    · exact gives_bad _
    · obtain ⟨hloaded, hseen, hfields, hmethods⟩ := htypes
      rw [hseen] at hfields hmethods
      exact gives_pure ⟨List.nodup_reverse.mp hfields, List.nodup_reverse.mp hmethods, hloaded⟩
  exact hgives.of_parse h

/-- Every imported member that was read belongs to a row. -/
theorem parents_of_read {origin : Nat} {data : Bytes} {m : Module} (h : read origin data = .ok m) :
    ∀ r ∈ m.memberRefs, r.parent.row ≠ 0 := by
  have hgives : (readModule origin).Gives fun m => ∀ r ∈ m.memberRefs, r.parent.row ≠ 0 := by
    refine gives_bind fun _ => gives_bind fun name => gives_bind fun types =>
      gives_bind fun typeRefs => (gives_memberRefs _).bind fun memberRefs hmemberRefs =>
        gives_bind fun userStrings => gives_bind fun left => ?_
    split
    · exact gives_bad _
    · exact gives_pure fun r hr => (isRowOf_iff.mp (hmemberRefs.2 r hr)).2.1
  exact hgives.of_parse h

end Image

namespace Module

variable {m m' : Module} {origin : Nat} {bytes : Bytes}

theorem Loaded.fresh (hm : m.Loaded origin) {t : TypeDef} (ht : t ∈ m.types) {x : MethodDef}
    (hx : x ∈ t.methods) {b : Body} (hb : x.body = some b) : b.Fresh := by
  obtain ⟨raw, -, hdecode⟩ := ((hm.types t ht).methods x hx).stored b hb
  exact Body.fresh_of_decode hdecode

theorem Loaded.storable (hm : m.Loaded origin) : m.Storable where
  fieldRows := hm.fieldRows
  methodRows := hm.methodRows
  types t ht := by
    refine ⟨(hm.types t ht).fields, fun x hx => ⟨((hm.types t ht).methods x hx).row, ?_⟩⟩
    intro hnone b hb
    obtain ⟨raw, hraw, -⟩ := ((hm.types t ht).methods x hx).stored b hb
    rw [hraw] at hnone
    cases hnone

theorem Storable.modifyMethod (hm : m.Storable) {b : Body} (hb : b.Encodable)
    (place : MethodPlace) : (m.modifyMethod place fun x => x.withBody b).Storable where
  fieldRows := by
    have hsame : (m.modifyMethod place fun x => x.withBody b).fields = m.fields := by
      apply flatMap_modify_of_eq
      intro t
      rfl
    rw [hsame]
    exact hm.fieldRows
  methodRows := by
    have hsame : (m.modifyMethod place fun x => x.withBody b).methods.map (fun x => x.token.row)
        = m.methods.map fun x => x.token.row := by
      rw [methods, methods, List.map_flatMap, List.map_flatMap]
      apply flatMap_modify_of_eq
      intro t
      apply map_modify_of_eq
      intro x
      rfl
    rw [hsame]
    exact hm.methodRows
  types := by
    refine forall_mem_modify hm.types ?_
    intro t ht
    refine ⟨ht.fields, forall_mem_modify ht.methods ?_⟩
    intro x hx
    refine ⟨hx.row, ?_⟩
    rintro - _ ⟨⟩
    exact hb

theorem WellFormed.modifyMethod (hm : m.WellFormed) (place : MethodPlace) (b : Body) :
    (m.modifyMethod place fun x => x.withBody b).WellFormed := by
  apply hm.modifyTypes
  · intro t
    rfl
  · intro t ht
    exact ⟨ht.fields, forall_mem_modify ht.methods fun x hx => ⟨hx.table, nofun⟩⟩

/-- A module that can be written and read again, whatever bodies are opened. -/
structure Editable (m : Module) : Prop where
  wellFormed : m.WellFormed
  storable : m.Storable
  bodies : ∀ t ∈ m.types, ∀ x ∈ t.methods, ∀ b, x.body = some b → b.Encodable

theorem read_of_load {data : Bytes} (h : load origin data = .ok m) :
    Image.read origin data = .ok m := by
  rw [load] at h
  split at h
  · cases h
  · exact h

theorem editable_of_read {data : Bytes} (h : Image.read origin data = .ok m) :
    m.Editable where
  wellFormed := Image.wellFormed_of_read h
  storable := (Image.loaded_of_read h).storable
  bodies _ ht _ hx _ hb := ((Image.loaded_of_read h).fresh ht hx hb).toEncodable

theorem Editable.modifyMethod (hm : m.Editable) {b : Body} (hb : b.Encodable)
    (place : MethodPlace) : (m.modifyMethod place fun x => x.withBody b).Editable where
  wellFormed := hm.wellFormed.modifyMethod place b
  storable := hm.storable.modifyMethod hb place
  bodies := by
    refine forall_mem_modify hm.bodies fun t ht => forall_mem_modify ht ?_
    rintro x - _ ⟨⟩
    exact hb

/-- What is read from the image of a module is the module as it was stored. -/
theorem Editable.restores_of_load (hm : m.Editable) (hbytes : m.toBytes = .ok bytes)
    (hload : load origin bytes = .ok m') : m.Restores m' ∧ m'.Loaded origin := by
  have hrows := (exists_load_iff hm.wellFormed hm.storable hbytes origin).mp ⟨m', hload⟩
  rw [load_of_write hbytes] at hload
  obtain ⟨m'', hread, hrestores, -⟩ :=
    Image.exists_read hm.wellFormed hm.storable hrows hbytes origin
  rw [hread] at hload
  cases hload
  exact ⟨hrestores, Image.loaded_of_read hread⟩

end Module

theorem eq_of_forall₂ {α : Type} {R : α → α → Prop} {xs ys : List α} (h : List.Forall₂ R xs ys)
    (heq : ∀ x ∈ xs, ∀ y ∈ ys, R x y → y = x) : ys = xs := by
  induction h with
  | nil => rfl
  | @cons x y xs ys hxy _ ih =>
      rw [heq x List.mem_cons_self y List.mem_cons_self hxy, ih fun x hx y hy =>
        heq x (List.mem_cons_of_mem _ hx) y (List.mem_cons_of_mem _ hy)]

section

variable {origin : Nat}

theorem MethodDef.loaded_of_decode {x : MethodDef} {b : Body} {raw : Bytes}
    (htable : x.token.table = Token.methodDef) (hrow : x.token.row ≠ 0) (hbody : x.body = some b)
    (hraw : x.raw = some raw) (hdecode : Body.decode ⟨origin, x.token.row⟩ raw = .ok b) :
    x.Loaded origin ∧ x.WellFormed := by
  refine ⟨⟨hrow, fun c hc => ⟨raw, hraw, ?_⟩⟩, htable, fun stored hstored => ?_⟩
  · rw [hbody] at hc
    cases hc
    exact hdecode
  · rw [hraw] at hstored
    cases hstored
    exact ⟨_, b, hbody, hdecode⟩

theorem MethodDef.Loaded.eq_of_restores {x x' : MethodDef} (hx : x.Loaded origin)
    (hstored : x.WellFormed) (hx' : x'.Loaded origin) (h : x.Restores x') : x' = x := by
  have hsame : x'.body = x.body ∧ x'.raw = x.raw := by
    cases hbody : x.body with
    | none =>
        have hraw : x.raw = none := by
          rw [Option.eq_none_iff_forall_ne_some]
          intro raw hraw
          obtain ⟨id, b, hb, -⟩ := hstored.stored raw hraw
          rw [hbody] at hb
          cases hb
        obtain ⟨hbody', hraw'⟩ := h.absent hbody
        exact ⟨hbody', hraw'.trans hraw.symm⟩
    | some b =>
        obtain ⟨raw, hraw, hdecode⟩ := hx.stored b hbody
        obtain ⟨hraw', id, b', hb', -⟩ := h.untouched raw hraw
        obtain ⟨raw', hagain, hdecode'⟩ := hx'.stored b' hb'
        rw [hraw'] at hagain
        cases hagain
        rw [h.token, hdecode] at hdecode'
        cases hdecode'
        exact ⟨hb', hraw'.trans hraw.symm⟩
  change (⟨x'.token, x'.flags, x'.name, x'.signature, x'.body, x'.raw⟩ : MethodDef) = x
  rw [h.token, h.flags, h.name, h.signature, hsame.1, hsame.2]

theorem TypeDef.Loaded.eq_of_restores {t t' : TypeDef} (ht : t.Loaded origin)
    (hstored : t.WellFormed) (ht' : t'.Loaded origin) (h : t.Restores t') : t' = t := by
  have hmethods : t'.methods = t.methods := eq_of_forall₂ h.methods fun x hx x' hx' hxx' =>
    (ht.methods x hx).eq_of_restores (hstored.methods x hx) (ht'.methods x' hx') hxx'
  change (⟨t'.token, t'.flags, t'.name, t'.fields, t'.methods⟩ : TypeDef) = t
  rw [h.token, h.flags, h.name, h.fields, hmethods]

/-- A loaded module is read back from its image as it is. -/
theorem Module.Loaded.read_eq {m : Module} {bytes : Bytes} (hm : m.Loaded origin)
    (hstored : m.WellFormed) (hparents : ∀ r ∈ m.memberRefs, r.parent.row ≠ 0)
    (hbytes : m.toBytes = .ok bytes) : Image.read origin bytes = .ok m := by
  obtain ⟨m', hread, h, -⟩ := Image.exists_read hstored hm.storable hparents hbytes origin
  have hm' := Image.loaded_of_read hread
  have htypes : m'.types = m.types := eq_of_forall₂ h.types fun t ht t' ht' htt' =>
    (hm.types t ht).eq_of_restores (hstored.members t ht) (hm'.types t' ht') htt'
  have hsame : m' = m := by
    change (⟨m'.name, m'.types, m'.typeRefs, m'.memberRefs, m'.userStrings⟩ : Module) = m
    rw [h.name, htypes, h.typeRefs, h.memberRefs, h.userStrings]
  rw [hread, hsame]

end

end CilEdit
