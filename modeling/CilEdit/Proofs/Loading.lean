import CilEdit.Metadata.Image
import CilEdit.Proofs.Decoding
import CilEdit.Proofs.Tables

namespace CilEdit

open Reader

namespace Reader

variable {α σ : Type}

theorem Gives.iterate {P : σ → Prop} {step : σ → Reader σ} (h : ∀ s, P s → (step s).Gives P)
    (count : Nat) {s : σ} (hs : P s) : (iterate step count s).Gives P := by
  induction count generalizing s with
  | zero => exact gives_pure hs
  | succ count ih => exact (h s hs).bind fun _ => ih

end Reader

namespace Image

variable {α σ : Type}

theorem gives_readTable {P : List α → σ → Prop} {row : σ → Reader (α × σ)} {s : σ} (hnil : P [] s)
    (hrow : ∀ rows s, P rows s → (row s).Gives fun p => P (rows ++ [p.1]) p.2) :
    (readTable row s).Gives fun p => P p.1 p.2 := by
  refine gives_bind fun count => ?_
  have hloop : (iterate (readNext row) count ([], s)).Gives fun p => P p.1.reverse p.2 := by
    refine Gives.iterate ?_ count hnil
    rintro ⟨rows, s⟩ hs
    refine (hrow rows.reverse s hs).bind fun p hp => gives_pure ?_
    rw [List.reverse_cons]
    exact hp
  exact hloop.bind fun p hp => gives_pure hp

theorem gives_readTable_forall {P : α → Prop} {row : σ → Reader (α × σ)}
    (hrow : ∀ s, (row s).Gives fun p => P p.1) (s : σ) :
    (readTable row s).Gives fun p => ∀ a ∈ p.1, P a := by
  apply gives_readTable (P := fun rows _ => ∀ a ∈ rows, P a) nofun
  intro rows s hrows
  refine (hrow s).mono ?_
  intro p hp
  exact List.forall_mem_append.mpr ⟨hrows, List.forall_mem_singleton.mpr hp⟩

theorem gives_readField (seen : List Nat) :
    (readField seen).Gives fun p => p.1.token.table = Token.fieldDef :=
  gives_bind fun _ => gives_bind fun _ => gives_bind fun _ => gives_bind fun _ =>
    gives_pure (Token.table_ofParts (by decide))

theorem gives_readBody (id : BodyId) : (readBody id).Gives fun stored =>
    ∀ raw b, stored = some (raw, b) → Body.decode id raw = .ok b := by
  refine gives_bind fun length => ?_
  split
  · exact gives_pure nofun
  · refine gives_bind fun raw => (gives_ofExcept _).bind fun b hb => gives_pure ?_
    rintro _ _ ⟨⟩
    exact hb

theorem gives_readMethod (origin : Nat) (seen : List Nat) :
    (readMethod origin seen).Gives fun p => p.1.WellFormed := by
  refine gives_bind fun row => gives_bind fun flags => gives_bind fun name =>
    gives_bind fun signature => (gives_readBody _).bind fun stored hstored => gives_pure ?_
  refine ⟨Token.table_ofParts (by decide), ?_⟩
  intro raw hraw
  obtain ⟨⟨_, b⟩, rfl, rfl⟩ := Option.map_eq_some_iff.mp hraw
  exact ⟨_, b, rfl, hstored _ b rfl⟩

theorem gives_readType (origin : Nat) (seen : Seen) : (readType origin seen).Gives fun p =>
    p.1.WellFormed ∧ p.1.token = .ofParts Token.typeDef (seen.types + 1) ∧
      p.2.types = seen.types + 1 :=
  gives_bind fun _ => gives_bind fun _ =>
    (gives_readTable_forall gives_readField _).bind fun _ hfields =>
      (gives_readTable_forall (gives_readMethod origin) _).bind fun _ hmethods =>
        gives_pure ⟨⟨hfields, hmethods⟩, rfl, rfl⟩

theorem gives_types (origin : Nat) : (readTable (readType origin) ⟨0, [], []⟩).Gives fun p =>
    (p.1.map TypeDef.token = Token.inOrder Token.typeDef p.1.length ∧ p.2.types = p.1.length) ∧
      ∀ t ∈ p.1, t.WellFormed := by
  refine gives_readTable (P := fun types (seen : Seen) =>
    (types.map TypeDef.token = Token.inOrder Token.typeDef types.length ∧
      seen.types = types.length) ∧ ∀ t ∈ types, t.WellFormed) ⟨⟨rfl, rfl⟩, nofun⟩ ?_
  rintro types seen ⟨⟨htokens, hcount⟩, htypes⟩
  refine (gives_readType origin seen).mono ?_
  rintro ⟨t, next⟩ ⟨ht, htoken, hnext⟩
  rw [hcount] at htoken hnext
  refine ⟨⟨Token.map_concat_inOrder htokens htoken, ?_⟩, ?_⟩
  · rw [hnext, List.length_append, List.length_singleton]
  · exact List.forall_mem_append.mpr ⟨htypes, List.forall_mem_singleton.mpr ht⟩

theorem gives_typeRefs : (readTable readTypeRef 0).Gives fun p =>
    p.1.map TypeRef.token = Token.inOrder Token.typeRef p.1.length ∧ p.2 = p.1.length := by
  refine gives_readTable (P := fun rows count =>
    rows.map TypeRef.token = Token.inOrder Token.typeRef rows.length ∧ count = rows.length)
    ⟨rfl, rfl⟩ ?_
  rintro rows count ⟨htokens, rfl⟩
  refine gives_bind fun _ => gives_bind fun _ => gives_pure ?_
  refine ⟨Token.map_concat_inOrder htokens rfl, ?_⟩
  rw [List.length_append, List.length_singleton]

theorem isRowOf_iff {t : Token} {table count : Nat} :
    t.isRowOf table count = true ↔ t.table = table ∧ t.row ≠ 0 ∧ t.row ≤ count := by
  simp only [Token.isRowOf, decide_eq_true_eq]

theorem gives_readMemberRef (typeRefs count : Nat) :
    (readMemberRef typeRefs count).Gives fun p =>
      p.1.parent.isRowOf Token.typeRef typeRefs = true ∧
        p.1.token = .ofParts Token.memberRef (count + 1) ∧ p.2 = count + 1 := by
  refine gives_bind fun kind => gives_bind fun parent => ?_
  dsimp only
  split
  · exact gives_bad _
  · rename_i hparent
    rw [Bool.not_eq_true', Bool.not_eq_false] at hparent
    exact gives_bind fun _ => gives_bind fun _ => gives_pure ⟨hparent, rfl, rfl⟩

theorem gives_memberRefs (typeRefs : Nat) :
    (readTable (readMemberRef typeRefs) 0).Gives fun p =>
      (p.1.map MemberRef.token = Token.inOrder Token.memberRef p.1.length ∧ p.2 = p.1.length) ∧
        ∀ r ∈ p.1, r.parent.isRowOf Token.typeRef typeRefs = true := by
  refine gives_readTable (P := fun rows count =>
    (rows.map MemberRef.token = Token.inOrder Token.memberRef rows.length ∧ count = rows.length) ∧
      ∀ r ∈ rows, r.parent.isRowOf Token.typeRef typeRefs = true) ⟨⟨rfl, rfl⟩, nofun⟩ ?_
  rintro rows count ⟨⟨htokens, rfl⟩, hparents⟩
  refine (gives_readMemberRef typeRefs rows.length).mono ?_
  rintro ⟨r, next⟩ ⟨hparent, htoken, hnext⟩
  refine ⟨⟨Token.map_concat_inOrder htokens htoken, ?_⟩, ?_⟩
  · rw [hnext, List.length_append, List.length_singleton]
  · exact List.forall_mem_append.mpr ⟨hparents, List.forall_mem_singleton.mpr hparent⟩

theorem gives_readModule (origin : Nat) : (readModule origin).Gives Module.WellFormed := by
  refine gives_bind fun _ => gives_bind fun name => (gives_types origin).bind fun types htypes =>
    gives_typeRefs.bind fun typeRefs htypeRefs =>
      (gives_memberRefs _).bind fun memberRefs hmemberRefs => gives_bind fun _ =>
        gives_bind fun left => ?_
  rw [htypeRefs.2] at hmemberRefs
  split
  · exact gives_bad _
  · refine gives_pure ⟨htypes.1.1, htypeRefs.1, hmemberRefs.1.1, htypes.2, fun r hr => ?_⟩
    obtain ⟨htable, hrow, hle⟩ := isRowOf_iff.mp (hmemberRefs.2 r hr)
    exact ⟨_, Nat.pos_of_ne_zero hrow, hle, by rw [← htable, Token.ofParts_table_row]⟩

theorem wellFormed_of_read {origin : Nat} {data : Bytes} {m : Module}
    (h : read origin data = .ok m) : m.WellFormed :=
  (gives_readModule origin).of_parse h

end Image

/-- The modules that calls make of an empty or a loaded one. -/
inductive Module.Reached : Module → Prop
  | empty (name : String) : Reached (empty name)
  | read {origin : Nat} {data : Bytes} {m : Module} (h : Image.read origin data = .ok m) : Reached m
  | call {m : Module} (c : Call) (h : Reached m) : Reached (c.apply m)

theorem Module.Reached.wellFormed {m : Module} (h : m.Reached) : m.WellFormed := by
  induction h with
  | empty name => exact wellFormed_empty name
  | read h => exact Image.wellFormed_of_read h
  | call c _ ih => exact ih.apply c

end CilEdit
