import CilEdit.Proofs.ImageRoundTrip
import CilEdit.Proofs.Importing

namespace CilEdit

namespace Reader

variable {α β : Type} {xs ys : Bytes} {a : α} {P : α → Prop} {Q : β → Prop}

/-- Where the reader succeeds at the front of `bytes`, it takes exactly `bytes`, and its value
satisfies `P`. -/
def Spans (r : Reader α) (bytes : Bytes) (P : α → Prop) : Prop :=
  ∀ pos rest a next, r ⟨pos, bytes ++ rest⟩ = (.ok a, next) →
    P a ∧ next = ⟨pos + bytes.length, rest⟩

theorem spans_pure (h : P a) : Spans (pure a) [] P := by
  rintro pos rest _ next heq
  cases heq
  exact ⟨h, rfl⟩

theorem spans_bad (cause : Malformed) (bytes : Bytes) : Spans (bad cause) bytes P := by
  rintro pos rest a next heq
  cases heq

theorem spans_ofExcept (x : Except Error α) : Spans (Step.ofExcept x) [] fun _ => True := by
  rintro pos rest a next heq
  cases heq
  exact ⟨trivial, rfl⟩

theorem spans_require (count : Nat) (cause : Nat → Malformed) :
    Spans (require count cause) [] fun _ => True := by
  intro pos rest a next heq
  cases require_eq_ok heq
  exact ⟨trivial, rfl⟩

theorem spans_of_readsAt {r : Reader α} (h : ∀ pos, ReadsAt r pos xs a) : Spans r xs (· = a) := by
  intro pos rest b next heq
  rw [h pos rest] at heq
  cases heq
  exact ⟨rfl, rfl⟩

theorem spans_of_failsAt {r : Reader α} (h : ∀ pos, ∃ e, FailsAt r pos xs e) : Spans r xs P := by
  intro pos rest a next heq
  obtain ⟨e, he⟩ := h pos
  obtain ⟨last, hlast⟩ := he rest
  rw [hlast] at heq
  cases heq

theorem spans_remaining : Spans remaining [] fun _ => True := by
  rintro pos rest a next heq
  cases heq
  exact ⟨trivial, rfl⟩

theorem Spans.bind {r : Reader α} {f : α → Reader β} (hr : r.Spans xs P)
    (hf : ∀ a, P a → (f a).Spans ys Q) : (r >>= f).Spans (xs ++ ys) Q := by
  intro pos rest b last heq
  obtain ⟨a, next, ha, hb⟩ := bind_eq_ok heq
  rw [List.append_assoc] at ha
  obtain ⟨hP, rfl⟩ := hr pos (ys ++ rest) a next ha
  obtain ⟨hQ, rfl⟩ := hf a hP _ rest b last hb
  exact ⟨hQ, by rw [List.length_append, Nat.add_assoc]⟩

theorem Spans.bind_nil {r : Reader α} {f : α → Reader β} (hr : r.Spans xs P)
    (hf : ∀ a, P a → (f a).Spans [] Q) : (r >>= f).Spans xs Q := by
  have h := hr.bind hf
  rwa [List.append_nil] at h

end Reader

namespace Image

open Reader

variable {α σ : Type} {row : σ → Reader (α × σ)} {m m' : Module} {bytes : Bytes}

theorem spans_readCount {count : Nat} (hcount : count < UInt32.size) :
    readCount.Spans (Bytes.ofNat 4 count) (· = count) := by
  refine (spans_of_readsAt fun pos => readsAt_nat pos hcount).bind_nil ?_
  rintro _ rfl
  exact (spans_require _ _).bind fun _ _ => spans_pure rfl

theorem spans_iterate {chunks : List Bytes}
    (hrow : ∀ chunk ∈ chunks, ∀ s, (row s).Spans chunk fun _ => True) (seen : List α × σ) :
    (iterate (readNext row) chunks.length seen).Spans chunks.flatten fun _ => True := by
  induction chunks generalizing seen with
  | nil => exact spans_pure trivial
  | cons chunk chunks ih =>
      rw [List.forall_mem_cons] at hrow
      have hstep : (readNext row seen).Spans chunk fun _ => True :=
        (hrow.1 seen.2).bind_nil fun _ _ => spans_pure trivial
      exact hstep.bind fun next _ => ih hrow.2 next

/-- A table has the extent that it was written with if every row has. -/
theorem spans_readTable {write : α → Except Error Bytes} {rows : List α}
    (hwrite : writeTable write rows = .ok bytes)
    (hrow : ∀ a ∈ rows, ∀ chunk, write a = .ok chunk → ∀ s, (row s).Spans chunk fun _ => True)
    (s : σ) : (readTable row s).Spans bytes fun _ => True := by
  obtain ⟨hcount, chunks, hchunks, rfl⟩ := writeTable_eq_ok hwrite
  have hall : ∀ chunk ∈ chunks, ∀ s, (row s).Spans chunk fun _ => True := by
    intro chunk hmem
    obtain ⟨a, ha, hchunk⟩ := exists_of_mem_mapM hchunks hmem
    exact hrow a ha chunk hchunk
  refine (spans_readCount hcount).bind ?_
  rintro _ rfl
  rw [(mapM_eq_ok_iff.mp hchunks).length_eq]
  exact (spans_iterate hall ([], s)).bind_nil fun _ _ => spans_pure trivial

theorem spans_prefixed {text : String} (h : Prefixed.bytes text = .ok bytes) :
    Prefixed.read.Spans bytes (· = text) :=
  spans_of_readsAt (Prefixed.readsAt_read h)

theorem spans_readRow (table : Nat) (seen : List Nat) (t : Token) :
    (readRow table seen).Spans (Bytes.ofNat 4 t.row) fun _ => True := by
  have hrow : t.row < Bytes.capacity 4 := Nat.lt_of_le_of_lt (row_le_maxRow t) (by decide)
  refine (spans_of_readsAt fun pos => readsAt_nat pos hrow).bind_nil ?_
  rintro _ rfl
  split
  · exact spans_bad _ _
  · exact spans_pure trivial

theorem spans_readField {f : FieldDef} (hwrite : writeField f = .ok bytes) (seen : List Nat) :
    (readField seen).Spans bytes fun _ => True := by
  obtain ⟨name, hname, h⟩ := bind_eq_ok.mp hwrite
  obtain ⟨type, htype, h⟩ := bind_eq_ok.mp h
  cases h
  exact (spans_readRow _ _ _).bind fun _ _ => (spans_of_readsAt (readsAt_flags _)).bind
    fun _ _ => (spans_prefixed hname).bind fun _ _ => (spans_prefixed htype).bind_nil
      fun _ _ => spans_pure trivial

theorem spans_readBody {stored : Bytes} (hlength : stored.length < UInt32.size) (id : BodyId) :
    (readBody id).Spans (Bytes.ofNat 4 stored.length ++ stored) fun _ => True := by
  refine (spans_of_readsAt fun pos => readsAt_nat pos hlength).bind ?_
  rintro _ rfl
  split
  · rename_i hzero
    rw [List.length_eq_zero_iff.mp hzero]
    exact spans_pure trivial
  · refine (spans_of_readsAt fun pos => readsAt_take pos stored).bind_nil ?_
    rintro _ rfl
    exact (spans_ofExcept _).bind fun _ _ => spans_pure trivial

theorem spans_readMethod {x : MethodDef} (hwrite : writeMethod m x = .ok bytes) (origin : Nat)
    (seen : List Nat) : (readMethod origin seen).Spans bytes fun _ => True := by
  obtain ⟨name, signature, stored, hname, hsignature, -, hlength, rfl⟩ := writeMethod_eq_ok hwrite
  exact (spans_readRow _ _ _).bind fun _ _ =>
    (spans_of_readsAt fun pos => readsAt_nat pos x.flags.bits.toNat_lt).bind fun _ _ =>
      (spans_prefixed hname).bind fun _ _ =>
        (spans_of_readsAt (readsAt_readSignature hsignature)).bind fun _ _ =>
          (spans_readBody hlength _).bind_nil fun _ _ => spans_pure trivial

theorem spans_readType {t : TypeDef} (hwrite : writeType m t = .ok bytes) (origin : Nat)
    (seen : Seen) : (readType origin seen).Spans bytes fun _ => True := by
  obtain ⟨name, hname, h⟩ := bind_eq_ok.mp hwrite
  obtain ⟨fields, hfields, h⟩ := bind_eq_ok.mp h
  obtain ⟨methods, hmethods, h⟩ := bind_eq_ok.mp h
  cases h
  exact (spans_of_readsAt (readsAt_flags t.flags)).bind fun _ _ =>
    (spans_prefixed hname).bind fun _ _ =>
      (spans_readTable hfields (fun _ _ _ hwrite => spans_readField hwrite) _).bind fun _ _ =>
        (spans_readTable hmethods (fun _ _ _ hwrite => spans_readMethod hwrite origin) _).bind_nil
          fun _ _ => spans_pure trivial

/-- Imported members are read back as they were written, if their table can be read at all. -/
theorem spans_memberRefs {rows : List MemberRef}
    (hwrite : writeTable writeMemberRef rows = .ok bytes)
    (htokens : rows.map MemberRef.token = Token.inOrder Token.memberRef rows.length)
    (typeRefs : Nat) :
    (readTable (readMemberRef typeRefs) 0).Spans bytes (· = (rows, rows.length)) := by
  by_cases hparents : ∀ r ∈ rows, r.parent.isRowOf Token.typeRef typeRefs = true
  · exact spans_of_readsAt (readsAt_memberRefs hwrite htokens hparents)
  · apply spans_of_failsAt
    push Not at hparents
    simp only [Bool.not_eq_true] at hparents
    exact exists_failsAt_memberRefs hwrite hparents

theorem spans_readModule (hm : m.Numbered) (hwrite : write m = .ok bytes) (origin : Nat) :
    (readModule origin).Spans bytes fun m' =>
      m'.typeRefs = m.typeRefs ∧ m'.memberRefs = m.memberRefs := by
  obtain ⟨name, types, typeRefs, memberRefs, userStrings, hname, htypes, htypeRefs, hmemberRefs,
    huserStrings, rfl⟩ := write_eq_ok hwrite
  refine (spans_of_readsAt readsAt_readPreamble).bind fun _ _ => (spans_prefixed hname).bind
    fun _ _ => (spans_readTable htypes (fun _ _ _ hwrite => spans_readType hwrite origin) _).bind
      fun _ _ => (spans_of_readsAt (readsAt_typeRefs htypeRefs hm.typeRefs)).bind ?_
  rintro _ rfl
  refine (spans_memberRefs hmemberRefs hm.memberRefs _).bind ?_
  rintro _ rfl
  refine (spans_of_readsAt (readsAt_readRows huserStrings)).bind_nil fun _ _ =>
    spans_remaining.bind fun left _ => ?_
  split
  · exact spans_bad _ _
  · exact spans_pure ⟨rfl, rfl⟩

end Image

namespace Module

variable {m m' : Module} {bytes : Bytes}

/-- Whatever a saved module is loaded as, it has the references of the module. -/
theorem references_of_load (hm : m.Numbered) (hbytes : m.toBytes = .ok bytes) {origin : Nat}
    (hload : load origin bytes = .ok m') :
    m'.typeRefs = m.typeRefs ∧ m'.memberRefs = m.memberRefs := by
  rw [load_of_write hbytes, Image.read, Reader.parse, Input.ofBytes,
    ← List.append_nil bytes] at hload
  have hspans := Image.spans_readModule hm hbytes origin 0 []
  generalize Image.readModule origin ⟨0, bytes ++ []⟩ = run at hload hspans
  obtain ⟨result, next⟩ := run
  cases hload
  exact (hspans m' next rfl).1

variable {r : References} {source target : Module} {typeName : String} {q : MethodQuery}
  {token : Token} {x : MethodDef}

theorem findMethod_eq_ok (h : source.findMethod typeName q = .ok x) :
    ∃ t ∈ source.types, t.name = typeName ∧ source.findType typeName = .ok t ∧
      t.findMethod q = .ok x := by
  obtain ⟨t, ht, h⟩ := bind_eq_ok.mp h
  have hfound := ht
  rw [findType] at hfound
  split at hfound
  · rename_i hfind
    cases hfound
    exact ⟨t, List.mem_of_find?_eq_some hfind, by simpa using List.find?_some hfind, ht, h⟩
  · cases hfound

/-- The symbol of a method that some query selects resolves to the method. -/
theorem resolveMethod_of_findMethod (hnames : (r.map name).Nodup) (hsource : source ∈ r)
    (hx : source.findMethod typeName q = .ok x) :
    r.resolveMethod (.member source.name typeName x.name (.method x.signature)) = .ok x := by
  obtain ⟨t, -, rfl, ht, hfind⟩ := findMethod_eq_ok hx
  obtain ⟨k, hselects⟩ := TypeDef.findMethod_eq_ok_iff.mp hfind
  exact References.resolveMethod_of_selects hnames hsource ht hselects.ofMethod

theorem symbol_of_findMethod (hsource : source.Numbered)
    (htokens : (source.methods.map MethodDef.token).Nodup)
    (hx : source.findMethod typeName q = .ok x) :
    source.symbol x.token = .ok (.member source.name typeName x.name (.method x.signature)) := by
  obtain ⟨t, ht, rfl, -, hfind⟩ := findMethod_eq_ok hx
  obtain ⟨k, hselects⟩ := TypeDef.findMethod_eq_ok_iff.mp hfind
  exact symbol_method hsource htokens ht (List.mem_of_getElem? hselects.found)

/-- An imported method has the same symbol in its own module, in the importing one and in what that
is loaded as once it is saved, and the symbol resolves to the method. -/
theorem importMethod_resolves (hnames : (r.map name).Nodup)
    (htokens : ∀ m ∈ r, (m.methods.map MethodDef.token).Nodup) (hmem : source ∈ r)
    (hsource : source.Numbered) (htarget : target.Numbered)
    (himport : importMethod source typeName q target = (.ok token, m))
    (htypeRefs : m.typeRefs.length < Token.rowLimit)
    (hmemberRefs : m.memberRefs.length < Token.rowLimit) :
    ∃ x symbol, source.findMethod typeName q = .ok x ∧ source.symbol x.token = .ok symbol ∧
      m.symbol token = .ok symbol ∧
      ∀ origin bytes m', m.toBytes = .ok bytes → load origin bytes = .ok m' →
        m'.symbol token = .ok symbol ∧ r.resolveMethod symbol = .ok x := by
  obtain ⟨x, hx, hmember⟩ := importMethod_eq_ok_iff.mp himport
  have hsymbol := symbol_importMember htarget hmember htypeRefs hmemberRefs
  refine ⟨x, _, hx, symbol_of_findMethod hsource (htokens source hmem) hx, hsymbol, ?_⟩
  intro origin bytes m' hbytes hload
  obtain ⟨hnumbered, j, k, -, -, -, -, -, -, -, -, -, htoken⟩ := htarget.importMember hmember
  obtain ⟨htypes, hmembers⟩ := references_of_load hnumbered hbytes hload
  have htable : token.table = Token.memberRef := by
    rw [htoken]
    exact Token.table_ofParts (by decide)
  rw [symbol_congr htable htypes hmembers]
  exact ⟨hsymbol, resolveMethod_of_findMethod hnames hmem hx⟩

/-- What importing the first method of `overloaded ["A.X", "B.Y"]` makes of an empty module. -/
def importingMethod : Module :=
  { empty "G" with
    typeRefs := [⟨.ofParts Token.typeRef 1, "M", "T"⟩]
    memberRefs := [⟨.ofParts Token.memberRef 1, .ofParts Token.typeRef 1, "f",
      .method (.ofStatic ["A.X"] Signature.void)⟩] }

theorem wellFormed_importingMethod : importingMethod.WellFormed where
  types := rfl
  typeRefs := rfl
  memberRefs := rfl
  members := nofun
  parents := by
    intro r hr
    obtain rfl := List.mem_singleton.mp hr
    exact ⟨1, by decide, by decide, rfl⟩

theorem exists_load_importingMethod : ∃ bytes m', importingMethod.toBytes = .ok bytes ∧
    load 1 bytes = .ok m' := by
  obtain ⟨bytes, hbytes⟩ : ∃ bytes, importingMethod.toBytes = .ok bytes :=
    exists_of_isOk (by decide +kernel)
  obtain ⟨m', hread, -⟩ := Image.exists_read wellFormed_importingMethod
    ⟨List.nodup_nil, List.nodup_nil, nofun⟩
    (fun _ => wellFormed_importingMethod.parent_row_ne_zero (by decide)) hbytes 1
  exact ⟨bytes, m', hbytes, (load_of_write hbytes 1).trans hread⟩

theorem importMethod_resolves_simple_name :
    ∃ token m bytes m' x symbol,
      importMethod (.overloaded ["A.X", "B.Y"]) "T" ⟨"f", some ["X"]⟩ (empty "G")
        = (.ok token, m) ∧
      m.toBytes = .ok bytes ∧ load 1 bytes = .ok m' ∧ m'.symbol token = .ok symbol ∧
      References.resolveMethod [.overloaded ["A.X", "B.Y"]] symbol = .ok x := by
  have himport : importMethod (.overloaded ["A.X", "B.Y"]) "T" ⟨"f", some ["X"]⟩ (empty "G")
      = (.ok (.ofParts Token.memberRef 1), importingMethod) := by
    decide +kernel
  have hsource : (overloaded ["A.X", "B.Y"]).Numbered := ⟨rfl, rfl, by decide, by decide⟩
  obtain ⟨bytes, m', hbytes, hload⟩ := exists_load_importingMethod
  obtain ⟨x, symbol, -, -, -, hreloaded⟩ := importMethod_resolves
    (r := [overloaded ["A.X", "B.Y"]]) (List.nodup_singleton _) (by decide)
    (List.mem_singleton_self _) hsource (wellFormed_empty "G").numbered himport (by decide)
    (by decide)
  obtain ⟨hsymbol, hresolve⟩ := hreloaded 1 bytes m' hbytes hload
  exact ⟨_, _, bytes, m', x, symbol, himport, hbytes, hload, hsymbol, hresolve⟩

end Module

end CilEdit
