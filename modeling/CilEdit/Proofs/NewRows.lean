import CilEdit.Proofs.Loaded
import CilEdit.Proofs.StoredRows

namespace CilEdit

/-- The token has a row that can be stored and that none of the tokens has. -/
structure Token.New (t : Token) (tokens : List Token) : Prop where
  unused : ∀ u ∈ tokens, u.row ≠ t.row
  pos : 0 < t.row
  le : t.row ≤ Token.maxRow

theorem foldl_max_le_iff {xs : List Nat} {first n : Nat} :
    xs.foldl max first ≤ n ↔ first ≤ n ∧ ∀ x ∈ xs, x ≤ n := by
  induction xs generalizing first with
  | nil => simp
  | cons x xs ih => rw [List.foldl_cons, ih, Nat.max_le, List.forall_mem_cons, and_assoc]

namespace Module

variable {tokens : List Token} {t : Token}

theorem nextRow_le_iff {n : Nat} : nextRow tokens ≤ n + 1 ↔ ∀ t ∈ tokens, t.row ≤ n := by
  rw [nextRow, Nat.add_le_add_iff_right, foldl_max_le_iff, List.forall_mem_map]
  exact and_iff_right (Nat.zero_le n)

theorem row_lt_nextRow (ht : t ∈ tokens) : t.row < nextRow tokens :=
  Nat.lt_succ_of_le (nextRow_le_iff.mp (Nat.le_refl (nextRow tokens)) t ht)

theorem nextRow_le_maxRow_iff :
    nextRow tokens ≤ Token.maxRow ↔ ∀ t ∈ tokens, t.row < Token.maxRow := by
  have hlt : ∀ n : Nat, n < Token.maxRow ↔ n ≤ Token.maxRow - 1 := by
    intro n
    exact Nat.lt_iff_le_pred (by decide)
  simp only [hlt]
  exact nextRow_le_iff (n := Token.maxRow - 1)

/-- The last row is taken, so the next one is beyond it. -/
theorem row_nextRow_of_full (hfull : ¬ ∀ t ∈ tokens, t.row < Token.maxRow) (table : Nat) :
    (Token.ofParts table (nextRow tokens)).row = 0 := by
  have hgt := mt nextRow_le_maxRow_iff.mp hfull
  have hle : nextRow tokens ≤ Token.maxRow + 1 :=
    nextRow_le_iff.mpr fun t _ => Image.row_le_maxRow t
  rw [Token.row_ofParts, show nextRow tokens = 0x1000000 by rw [Token.maxRow] at hgt hle; omega]

theorem new_nextRow_iff (table : Nat) : (Token.ofParts table (nextRow tokens)).New tokens ↔
    ∀ t ∈ tokens, t.row < Token.maxRow := by
  constructor
  · intro hnew
    by_contra hfull
    exact Nat.ne_of_gt hnew.pos (row_nextRow_of_full hfull table)
  · intro hroom
    have hle := nextRow_le_maxRow_iff.mpr hroom
    have hrow : (Token.ofParts table (nextRow tokens)).row = nextRow tokens := by
      rw [Token.row_ofParts]
      exact Nat.mod_eq_of_lt (Nat.lt_succ_of_le hle)
    refine ⟨fun u hu => ?_, ?_, Image.row_le_maxRow _⟩
    · rw [hrow]
      exact Nat.ne_of_lt (row_lt_nextRow hu)
    · rw [hrow]
      exact Nat.succ_pos _

section

variable {m m' : Module} {δ : Type} {a : δ} {owner : Token} {change : TypeDef → TypeDef}

theorem exists_modifyOwner (howner : ∃ t ∈ m.types, t.token = owner)
    (change : TypeDef → TypeDef) : ∃ m', m.modifyOwner owner change = .ok m' := by
  rw [modifyOwner]
  split
  · exact ⟨_, rfl⟩
  · rename_i hnone
    obtain ⟨t, ht, htoken⟩ := howner
    have hne := List.findIdx?_eq_none_iff.mp hnone t ht
    rw [htoken, beq_self_eq_true] at hne
    cases hne

/-- A definition that is added to a type comes after some definitions of the module and before the
others. -/
theorem insert_of_modifyOwner (defs : TypeDef → List δ) (h : m.modifyOwner owner change = .ok m')
    (hchange : ∀ t, defs (change t) = defs t ++ [a]) :
    ∃ before after, m.types.flatMap defs = before ++ after ∧
      m'.types.flatMap defs = before ++ a :: after := by
  rw [modifyOwner] at h
  split at h
  · rename_i index hindex
    cases h
    have hlt := (List.findIdx?_eq_some_iff_findIdx_eq.mp hindex).1
    refine ⟨(m.types.take index).flatMap defs ++ defs m.types[index],
      (m.types.drop (index + 1)).flatMap defs, ?_, ?_⟩
    · rw [List.append_assoc, ← List.flatMap_cons, ← List.flatMap_append, List.getElem_cons_drop,
        List.take_append_drop]
    · rw [List.modify_eq_take_cons_drop hlt, List.flatMap_append, List.flatMap_cons, hchange]
      simp only [List.append_assoc, List.singleton_append]
  · cases h

/-- The call succeeds. Its token is new if and only if the last row is free, and is then the token
of the definition that `make` gives; otherwise its row is zero. -/
def HandsOut (result : Except Error (Token × Module)) (tokens : List Token)
    (find : Module → Token → Option δ) (make : Token → δ) : Prop :=
  ∃ token m', result = .ok (token, m') ∧
    (token.New tokens ↔ ∀ t ∈ tokens, t.row < Token.maxRow) ∧
    (token.New tokens → find m' token = some (make token)) ∧
    (¬ token.New tokens → token.row = 0)

/-- Whatever the kind of the definition, it gets the token of the next row. -/
theorem handsOut_of_modifyOwner (defs : TypeDef → List δ) (token : δ → Token) (table : Nat)
    (make : Token → δ) (change : Token → TypeDef → TypeDef)
    (hmake : ∀ t, token (make t) = t) (hchange : ∀ new t, defs (change new t) = defs t ++ [make new])
    (howner : ∃ t ∈ m.types, t.token = owner) :
    let tokens := (m.types.flatMap defs).map token
    let new := Token.ofParts table (nextRow tokens)
    HandsOut ((m.modifyOwner owner (change new)).map fun m => (new, m)) tokens
      (fun m t => (m.types.flatMap defs).find? fun a => token a == t) make := by
  intro tokens new
  obtain ⟨m', hm'⟩ := exists_modifyOwner howner (change new)
  have hiff : new.New tokens ↔ ∀ t ∈ tokens, t.row < Token.maxRow := new_nextRow_iff table
  refine ⟨new, m', by rw [hm']; rfl, hiff, fun hnew => ?_, fun hold => ?_⟩
  · obtain ⟨before, after, hbefore, hafter⟩ := insert_of_modifyOwner defs hm' (hchange new)
    have hnone : before.find? (fun a => token a == new) = none := by
      rw [List.find?_eq_none]
      intro b hb hsame
      have hmem : token b ∈ tokens := by
        refine List.mem_map_of_mem ?_
        rw [hbefore]
        exact List.mem_append_left _ hb
      exact hnew.unused _ hmem (congrArg Token.row (beq_iff_eq.mp hsame))
    dsimp only
    rw [hafter, List.find?_append, hnone, Option.none_or]
    exact List.find?_cons_of_pos (p := fun a => token a == new) (beq_iff_eq.mpr (hmake new))
  · exact row_nextRow_of_full (mt hiff.mpr hold) table

end

/-- The call adds a type, or a field or method while the last row of its kind is free. -/
def Call.HasRoom (m : Module) : Call → Prop
  | .addType _ _ => True
  | .addField _ _ _ _ => ∀ f ∈ m.fields, f.token.row < Token.maxRow
  | .addMethod _ _ _ _ _ => ∀ x ∈ m.methods, x.token.row < Token.maxRow
  | _ => False

/-- The modules that additions make of an empty or a loaded one, while rows last. -/
inductive Grown : Module → Prop
  | empty (name : String) : Grown (empty name)
  | read {origin : Nat} {data : Bytes} {m : Module} (h : Image.read origin data = .ok m) : Grown m
  | call {m : Module} {c : Call} (hc : c.HasRoom m) (h : Grown m) : Grown (c.apply m)

variable {m m' : Module}

theorem Grown.wellFormed (h : m.Grown) : m.WellFormed := by
  induction h with
  | empty name => exact wellFormed_empty name
  | read h => exact Image.wellFormed_of_read h
  | call _ _ ih => exact ih.apply _

theorem Loaded.rowsStorable {origin : Nat} (h : m.Loaded origin) : m.RowsStorable where
  fieldRows := h.fieldRows
  methodRows := h.methodRows
  fields := by
    intro f hf
    obtain ⟨t, ht, hft⟩ := List.mem_flatMap.mp hf
    exact (h.types t ht).fields f hft
  methods := by
    intro x hx
    obtain ⟨t, ht, hxt⟩ := List.mem_flatMap.mp hx
    exact ((h.types t ht).methods x hxt).row

section

variable {δ : Type} {owner : Token}

/-- Rows stay unique and above zero when a definition is added while the last row is free. -/
theorem rows_of_modifyOwner (defs : TypeDef → List δ) (token : δ → Token) (make : Token → δ)
    (change : Token → TypeDef → TypeDef) {table : Nat}
    (hmake : ∀ t, token (make t) = t) (hchange : ∀ new t, defs (change new t) = defs t ++ [make new])
    (hroom : ∀ a ∈ m.types.flatMap defs, (token a).row < Token.maxRow)
    (h : m.modifyOwner owner (change (.ofParts table (nextRow ((m.types.flatMap defs).map token))))
      = .ok m')
    (hnodup : ((m.types.flatMap defs).map fun a => (token a).row).Nodup)
    (hpos : ∀ a ∈ m.types.flatMap defs, (token a).row ≠ 0) :
    ((m'.types.flatMap defs).map fun a => (token a).row).Nodup ∧
      ∀ a ∈ m'.types.flatMap defs, (token a).row ≠ 0 := by
  have hnew := (new_nextRow_iff table).mpr (List.forall_mem_map.mpr hroom)
  generalize Token.ofParts table (nextRow ((m.types.flatMap defs).map token)) = new at h hnew
  obtain ⟨before, after, hbefore, hafter⟩ := insert_of_modifyOwner defs h (hchange new)
  have hperm : (m'.types.flatMap defs).Perm (make new :: m.types.flatMap defs) := by
    rw [hbefore, hafter]
    exact List.perm_middle
  constructor
  · rw [(hperm.map _).nodup_iff, List.map_cons, List.nodup_cons]
    refine ⟨fun hmem => ?_, hnodup⟩
    obtain ⟨b, hb, hsame⟩ := List.mem_map.mp hmem
    rw [hmake] at hsame
    exact hnew.unused _ (List.mem_map_of_mem hb) hsame
  · intro a ha
    rcases List.mem_cons.mp (hperm.mem_iff.mp ha) with rfl | ha
    · rw [hmake]
      exact Nat.ne_of_gt hnew.pos
    · exact hpos a ha

/-- Definitions of the other kind stay as they are. -/
theorem flatMap_of_modifyOwner {change : TypeDef → TypeDef} (defs : TypeDef → List δ)
    (h : m.modifyOwner owner change = .ok m') (hchange : ∀ t, defs (change t) = defs t) :
    m'.types.flatMap defs = m.types.flatMap defs := by
  obtain ⟨index, rfl⟩ := modifyOwner_eq_ok h
  exact flatMap_modify_of_eq hchange _ _

theorem flatMap_addType {name : String} {flags : UInt32} (defs : TypeDef → List δ)
    (h : ∀ token, defs ⟨token, flags, name, [], []⟩ = []) :
    (m.addType name flags).2.types.flatMap defs = m.types.flatMap defs := by
  rw [addType, List.flatMap_append, List.flatMap_singleton, h, List.append_nil]

end

theorem RowsStorable.addField (hm : m.RowsStorable)
    (hroom : ∀ f ∈ m.fields, f.token.row < Token.maxRow) {owner token : Token} {flags : UInt32}
    {name type : String} (h : m.addField owner flags name type = .ok (token, m')) :
    m'.RowsStorable := by
  obtain ⟨m'', howner, heq⟩ := map_eq_ok.mp h
  cases heq
  have hmethods : m'.methods = m.methods :=
    flatMap_of_modifyOwner TypeDef.methods howner fun _ => rfl
  obtain ⟨hnodup, hpos⟩ := rows_of_modifyOwner TypeDef.fields FieldDef.token
    (fun new => ⟨new, flags, name, type⟩)
    (fun new t => { t with fields := t.fields ++ [⟨new, flags, name, type⟩] })
    (fun _ => rfl) (fun _ _ => rfl) hroom howner hm.fieldRows hm.fields
  exact ⟨hnodup, by rw [hmethods]; exact hm.methodRows, hpos, by rw [hmethods]; exact hm.methods⟩

theorem RowsStorable.addMethod (hm : m.RowsStorable)
    (hroom : ∀ x ∈ m.methods, x.token.row < Token.maxRow) {owner token : Token}
    {flags : MethodFlags} {name : String} {signature : Signature} {body : Option Body}
    (h : m.addMethod owner flags name signature body = .ok (token, m')) : m'.RowsStorable := by
  obtain ⟨m'', howner, heq⟩ := map_eq_ok.mp h
  cases heq
  have hfields : m'.fields = m.fields :=
    flatMap_of_modifyOwner TypeDef.fields howner fun _ => rfl
  obtain ⟨hnodup, hpos⟩ := rows_of_modifyOwner TypeDef.methods MethodDef.token
    (fun new => ⟨new, flags, name, signature, body, none⟩)
    (fun new t => { t with methods := t.methods ++ [⟨new, flags, name, signature, body, none⟩] })
    (fun _ => rfl) (fun _ _ => rfl) hroom howner hm.methodRows hm.methods
  exact ⟨by rw [hfields]; exact hm.fieldRows, hnodup, by rw [hfields]; exact hm.fields, hpos⟩

theorem RowsStorable.apply (hm : m.RowsStorable) {c : Call} (hc : c.HasRoom m) :
    (c.apply m).RowsStorable := by
  cases c with
  | addType name flags =>
      have hfields : (m.addType name flags).2.fields = m.fields :=
        flatMap_addType TypeDef.fields fun _ => rfl
      have hmethods : (m.addType name flags).2.methods = m.methods :=
        flatMap_addType TypeDef.methods fun _ => rfl
      rw [Call.apply]
      exact ⟨by rw [hfields]; exact hm.fieldRows, by rw [hmethods]; exact hm.methodRows,
        by rw [hfields]; exact hm.fields, by rw [hmethods]; exact hm.methods⟩
  | addField owner flags name type =>
      rw [Call.apply, Step.update]
      split
      · rename_i token m' h
        exact hm.addField hc h
      · exact hm
  | addMethod owner flags name signature body =>
      rw [Call.apply, Step.update]
      split
      · rename_i token m' h
        exact hm.addMethod hc h
      · exact hm
  | _ => exact hc.elim

theorem Grown.rowsStorable (h : m.Grown) : m.RowsStorable := by
  induction h with
  | empty name => exact ⟨List.nodup_nil, List.nodup_nil, nofun, nofun⟩
  | read h => exact (Image.loaded_of_read h).rowsStorable
  | call hc _ ih => exact ih.apply hc

/-- A field or method that is added to a type gets a new token while the last row is free, and what
additions have made until then is not rejected on reading because of its rows. -/
theorem additions_storable (m : Module) :
    (∀ owner flags name type, (∃ t ∈ m.types, t.token = owner) →
      HandsOut (m.addField owner flags name type) (m.fields.map FieldDef.token) fieldOf?
        fun token => ⟨token, flags, name, type⟩) ∧
    (∀ owner flags name signature body, (∃ t ∈ m.types, t.token = owner) →
      HandsOut (m.addMethod owner flags name signature body) (m.methods.map MethodDef.token)
        methodOf? fun token => ⟨token, flags, name, signature, body, none⟩) ∧
    ∀ bytes origin, m.Grown → m.toBytes = .ok bytes → SparesRows (load origin bytes) := by
  refine ⟨?_, ?_, ?_⟩
  · intro owner flags name type howner
    exact handsOut_of_modifyOwner TypeDef.fields FieldDef.token Token.fieldDef
      (fun new => ⟨new, flags, name, type⟩)
      (fun new t => { t with fields := t.fields ++ [⟨new, flags, name, type⟩] })
      (fun _ => rfl) (fun _ _ => rfl) howner
  · intro owner flags name signature body howner
    exact handsOut_of_modifyOwner TypeDef.methods MethodDef.token Token.methodDef
      (fun new => ⟨new, flags, name, signature, body, none⟩)
      (fun new t => { t with methods := t.methods ++ [⟨new, flags, name, signature, body, none⟩] })
      (fun _ => rfl) (fun _ _ => rfl) howner
  · intro bytes origin hm hbytes
    exact hm.rowsStorable.sparesRows_load hm.wellFormed hbytes origin

/-- The image of a type with one field, whose row is stored in the given bytes. -/
def imageWithField (low middle high : UInt8) : Bytes :=
  [0x43, 0x49, 0x4C, 0x4D, 1, 0, 0, 0, 1, 77, 1, 0, 0, 0, 0, 0, 0, 0, 1, 84, 1, 0, 0, 0,
    low, middle, high, 0, 0, 0, 0, 0, 1, 102, 1, 73, 0, 0, 0, 0, 0, 0, 0, 0, 0, 0, 0, 0, 0, 0, 0, 0]

/-- The module of a type with the given fields, by row and name. -/
def ofFields (fields : List (Nat × String)) : Module :=
  { empty "M" with
    types := [⟨.ofParts Token.typeDef 1, 0, "T",
      fields.map fun f => ⟨.ofParts Token.fieldDef f.1, 0, f.2, "I"⟩, []⟩] }

/-- A field gets the row after a row that was loaded. -/
theorem additions_storable_gap : ∃ token m' bytes,
    Image.read 0 (imageWithField 7 0 0) = .ok (ofFields [(7, "f")]) ∧
    (ofFields [(7, "f")]).addField (.ofParts Token.typeDef 1) 0 "g" "I" = .ok (token, m') ∧
    token.New ((ofFields [(7, "f")]).fields.map FieldDef.token) ∧
    m'.fieldOf? token = some ⟨token, 0, "g", "I"⟩ ∧
    m'.toBytes = .ok bytes ∧ SparesRows (load 1 bytes) := by
  have hread : Image.read 0 (imageWithField 7 0 0) = .ok (ofFields [(7, "f")]) := by decide +kernel
  have hsame : (ofFields [(7, "f")]).addField (.ofParts Token.typeDef 1) 0 "g" "I"
      = .ok (.ofParts Token.fieldDef 8, ofFields [(7, "f"), (8, "g")]) := by
    decide +kernel
  have hroom : ∀ f ∈ (ofFields [(7, "f")]).fields, f.token.row < Token.maxRow := by decide
  obtain ⟨hfield, -, -⟩ := additions_storable (ofFields [(7, "f")])
  obtain ⟨token, m', hadd, hnew, hfound, -⟩ := hfield (.ofParts Token.typeDef 1) 0 "g" "I"
    ⟨_, List.mem_singleton_self _, rfl⟩
  rw [hsame] at hadd
  cases hadd
  have hgrown : (ofFields [(7, "f"), (8, "g")]).Grown := by
    have h := Grown.call (c := .addField (.ofParts Token.typeDef 1) 0 "g" "I") hroom (.read hread)
    rwa [Call.apply, Step.update, hsame] at h
  obtain ⟨bytes, hbytes⟩ : ∃ bytes, (ofFields [(7, "f"), (8, "g")]).toBytes = .ok bytes :=
    exists_of_isOk (by decide +kernel)
  obtain ⟨-, -, himage⟩ := additions_storable (ofFields [(7, "f"), (8, "g")])
  have htoken := hnew.mpr (List.forall_mem_map.mpr hroom)
  exact ⟨_, _, bytes, hread, hsame, htoken, hfound htoken, hbytes, himage bytes 1 hgrown hbytes⟩

/-- With the last row taken, two fields get the same token, which names the first of them, and the
image with the first one is rejected because of its row. -/
theorem addField_lastRow : ∃ token m' m'' bytes,
    Image.read 0 (imageWithField 0xFF 0xFF 0xFF) = .ok (ofFields [(Token.maxRow, "f")]) ∧
    (ofFields [(Token.maxRow, "f")]).addField (.ofParts Token.typeDef 1) 0 "g" "I"
      = .ok (token, m') ∧
    token.row = 0 ∧ token ∈ m'.fields.map FieldDef.token ∧
    m'.addField (.ofParts Token.typeDef 1) 0 "h" "I" = .ok (token, m'') ∧
    m''.fieldOf? token = some ⟨token, 0, "g", "I"⟩ ∧
    m'.toBytes = .ok bytes ∧ load 1 bytes = .error (.malformed (.invalidRow 0 Token.fieldDef)) := by
  obtain ⟨bytes, hbytes⟩ : ∃ bytes, (ofFields [(Token.maxRow, "f"), (0, "g")]).toBytes = .ok bytes :=
    exists_of_isOk (by decide +kernel)
  have hload : ((ofFields [(Token.maxRow, "f"), (0, "g")]).toBytes >>= load 1)
      = .error (.malformed (.invalidRow 0 Token.fieldDef)) := by
    decide +kernel
  rw [bind_of_ok hbytes] at hload
  exact ⟨.ofParts Token.fieldDef 0, ofFields [(Token.maxRow, "f"), (0, "g")],
    ofFields [(Token.maxRow, "f"), (0, "g"), (0, "h")], bytes, by decide +kernel, by decide +kernel,
    by decide, by decide, by decide +kernel, by decide +kernel, hbytes, hload⟩

end Module

end CilEdit
