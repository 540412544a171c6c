import CilEdit.Proofs.KeyChecks

namespace CilEdit

/-- What a token names. -/
inductive Meaning
  | symbol (symbol : Symbol)
  | string (value : String)
  deriving DecidableEq, Repr

inductive Import
  | type (scope name : String)
  | method (source : Module) (typeName : String) (q : MethodQuery)
  | field (source : Module) (typeName name : String)
  | string (value : String)

namespace Import

def run : Import → ModuleStep Token
  | type scope name => Step.modifyGet (·.importType scope name)
  | method source typeName q => Module.importMethod source typeName q
  | field source typeName name => Module.importField source typeName name
  | string value => Step.modifyGet (·.userString value)

/-- What a call asks for. Only the module that it imports from decides whether there is such a
thing. -/
def subject : Import → Except Error Meaning
  | type scope name => .ok (.symbol (.type scope name))
  | method source typeName q =>
    (source.findMethod typeName q).map fun x =>
      .symbol (.member source.name typeName x.name (.method x.signature))
  | field source typeName name =>
    (source.findField typeName name).map fun f =>
      .symbol (.member source.name typeName f.name (.field f.type))
  | string value => .ok (.string value)

/-- The calls of a list, each with its answer, and the module that they leave. -/
def runAll : List Import → Module → List (Import × Except Error Token) × Module
  | [], m => ([], m)
  | c :: calls, m =>
    let rest := runAll calls (c.run m).2
    ((c, (c.run m).1) :: rest.1, rest.2)

end Import

namespace Module

def Names (m : Module) (t : Token) : Meaning → Prop
  | .symbol s => m.symbol t = .ok s
  | .string value => m.userStringOf? t = some value

/-- Every row of the tables that imports fill has a token of its own. -/
structure RowsFit (m : Module) : Prop where
  typeRefs : m.typeRefs.length < Token.rowLimit
  memberRefs : m.memberRefs.length < Token.rowLimit
  userStrings : m.userStrings.length < Token.rowLimit

/-- Rows of references and strings were added at most, and nothing else was changed. -/
structure Grows (m m' : Module) : Prop extends m.Extends m' where
  name : m'.name = m.name
  userStrings : m.userStrings <+: m'.userStrings

/-- The token of the first row for something. -/
def known? (m : Module) : Meaning → Option Token
  | .symbol (.type scope name) => (m.importedType? scope name).map TypeRef.token
  | .symbol (.member scope typeName name kind) =>
    (m.importedType? scope typeName).bind fun r =>
      (m.importedMember? r.token name kind).map MemberRef.token
  | .string value => (m.userStrings.idxOf? value).map fun k => .ofParts Token.userString (k + 1)

/-- The token of something, which is entered on first use. -/
def enter (m : Module) : Meaning → Token × Module
  | .symbol (.type scope name) => m.importType scope name
  | .symbol (.member scope typeName name kind) => m.importMember scope typeName name kind
  | .string value => m.userString value

variable {m m' m'' : Module} {s s' : Meaning} {t : Token} {c : Import}

theorem Grows.refl (m : Module) : m.Grows m :=
  ⟨.refl m, rfl, List.prefix_refl _⟩

theorem Grows.trans (h : m.Grows m') (h' : m'.Grows m'') : m.Grows m'' where
  toExtends := h.toExtends.trans h'.toExtends
  name := h'.name.trans h.name
  userStrings := h.userStrings.trans h'.userStrings

theorem grows_importType (m : Module) (scope name : String) :
    m.Grows (m.importType scope name).2 := by
  rcases importType_cases m scope name with ⟨r, -, heq⟩ | heq
  · rw [heq]
    exact .refl m
  · rw [heq]
    exact ⟨⟨rfl, List.prefix_append _ _, List.prefix_refl _⟩, rfl, List.prefix_refl _⟩

theorem grows_importMember (m : Module) (scope typeName name : String) (kind : MemberKind) :
    m.Grows (m.importMember scope typeName name kind).2 := by
  have htype := grows_importType m scope typeName
  unfold importMember
  generalize m.importType scope typeName = imported at htype
  obtain ⟨parent, m'⟩ := imported
  dsimp only at htype ⊢
  split
  · exact htype
  · exact htype.trans
      ⟨⟨rfl, List.prefix_refl _, List.prefix_append _ _⟩, rfl, List.prefix_refl _⟩

theorem grows_userString (m : Module) (value : String) : m.Grows (m.userString value).2 := by
  refine ⟨extends_userString m value, ?_, ?_⟩ <;> unfold userString <;> split
  · rfl
  · rfl
  · exact List.prefix_refl _
  · exact List.prefix_append _ _

theorem grows_enter (m : Module) (s : Meaning) : m.Grows (m.enter s).2 := by
  match s with
  | .symbol (.type scope name) => exact grows_importType m scope name
  | .symbol (.member scope typeName name kind) =>
      exact grows_importMember m scope typeName name kind
  | .string value => exact grows_userString m value

theorem WellFormed.enter (hm : m.WellFormed) (s : Meaning) : (m.enter s).2.WellFormed := by
  match s with
  | .symbol (.type scope name) => exact hm.importType scope name
  | .symbol (.member scope typeName name kind) => exact hm.importMember scope typeName name kind
  | .string value => exact hm.userString value

/-- The first row stays the first one. -/
theorem Grows.known?_eq (h : m.Grows m') (ht : m.known? s = some t) : m'.known? s = some t := by
  match s with
  | .symbol (.type scope name) =>
      obtain ⟨r, hr, rfl⟩ := Option.map_eq_some_iff.mp ht
      exact Option.map_eq_some_iff.mpr ⟨r, h.typeRefs.find?_eq_some hr, rfl⟩
  | .symbol (.member scope typeName name kind) =>
      obtain ⟨r, hr, hmember⟩ := Option.bind_eq_some_iff.mp ht
      obtain ⟨member, hfound, rfl⟩ := Option.map_eq_some_iff.mp hmember
      refine Option.bind_eq_some_iff.mpr ⟨r, h.typeRefs.find?_eq_some hr, ?_⟩
      exact Option.map_eq_some_iff.mpr ⟨member, h.memberRefs.find?_eq_some hfound, rfl⟩
  | .string value =>
      obtain ⟨k, hk, rfl⟩ := Option.map_eq_some_iff.mp ht
      exact Option.map_eq_some_iff.mpr ⟨k, h.userStrings.findIdx?_eq_some hk, rfl⟩

theorem enter_of_known? (ht : m.known? s = some t) : m.enter s = (t, m) := by
  match s with
  | .symbol (.type scope name) =>
      obtain ⟨r, hr, rfl⟩ := Option.map_eq_some_iff.mp ht
      rw [enter, importType, hr]
  | .symbol (.member scope typeName name kind) =>
      obtain ⟨r, hr, hmember⟩ := Option.bind_eq_some_iff.mp ht
      obtain ⟨member, hfound, rfl⟩ := Option.map_eq_some_iff.mp hmember
      rw [enter, importMember, importType, hr]
      dsimp only
      rw [hfound]
  | .string value =>
      obtain ⟨k, hk, rfl⟩ := Option.map_eq_some_iff.mp ht
      rw [enter, userString, hk]

theorem importedType?_importType (m : Module) (scope name : String) :
    ((m.importType scope name).2.importedType? scope name).map TypeRef.token
      = some (m.importType scope name).1 := by
  unfold importType
  cases hfound : m.importedType? scope name with
  | some r => exact congrArg (Option.map TypeRef.token) hfound
  | none =>
      rw [importedType?] at hfound
      dsimp only [addTypeRef, importedType?]
      rw [List.find?_append, hfound, List.find?_singleton]
      simp

theorem known?_enter (m : Module) (s : Meaning) :
    (m.enter s).2.known? s = some (m.enter s).1 := by
  match s with
  | .symbol (.type scope name) => exact importedType?_importType m scope name
  | .symbol (.member scope typeName name kind) =>
      have htype := importedType?_importType m scope typeName
      obtain ⟨r, hr, hparent⟩ := Option.map_eq_some_iff.mp htype
      rw [enter, importMember]
      generalize m.importType scope typeName = imported at hr hparent
      obtain ⟨parent, m'⟩ := imported
      dsimp only at hr hparent ⊢
      subst hparent
      cases hfound : m'.importedMember? r.token name kind with
      | some member =>
          rw [known?, hr]
          exact congrArg (Option.map MemberRef.token) hfound
      | none =>
          rw [importedMember?] at hfound
          refine Option.bind_eq_some_iff.mpr ⟨r, hr, ?_⟩
          dsimp only [addMemberRef, importedMember?]
          rw [List.find?_append, hfound, List.find?_singleton]
          simp
  | .string value =>
      rw [enter, userString]
      cases hfound : m.userStrings.idxOf? value with
      | some k => exact congrArg (Option.map _) hfound
      | none =>
          dsimp only [known?]
          rw [List.idxOf?] at hfound ⊢
          rw [List.findIdx?_append, hfound]
          simp

theorem symbol_of_typeRef {r : TypeRef} (htable : t.table = Token.typeRef)
    (hr : m.typeRefOf? t = some r) : m.symbol t = .ok (.type r.scope r.name) := by
  simp only [symbol, htable, hr]
  rfl

theorem symbol_of_userString {value : String} (h : m.userStringOf? t = some value) :
    m.symbol t = .error (.unresolvedToken t) := by
  rw [userStringOf?, rowOf?] at h
  split at h
  · rename_i htable
    simp only [symbol, memberRefOf?, rowOf?, htable.1]
    rfl
  · cases h

/-- A token names one thing. -/
theorem Names.eq (h : m.Names t s) (h' : m.Names t s') : s = s' := by
  match s, s' with
  | .symbol s, .symbol s' => exact congrArg Meaning.symbol (Except.ok.inj (h.symm.trans h'))
  | .symbol s, .string value =>
      rw [Names, symbol_of_userString h'] at h
      cases h
  | .string value, .symbol s =>
      rw [Names, symbol_of_userString h] at h'
      cases h'
  | .string value, .string value' =>
      exact congrArg Meaning.string (Option.some.inj (h.symm.trans h'))

theorem Numbered.names_of_known? (hm : m.Numbered) (hrows : m.RowsFit)
    (ht : m.known? s = some t) : m.Names t s := by
  match s with
  | .symbol (.type scope name) =>
      obtain ⟨-, k, r, hk, rfl, rfl, rfl⟩ := hm.importType (enter_of_known? ht)
      exact symbol_of_typeRef (Token.table_ofParts (by decide))
        (Token.rowOf?_ofParts (by decide) hk hrows.typeRefs)
  | .symbol (.member scope typeName name kind) =>
      exact symbol_importMember hm (enter_of_known? ht) hrows.typeRefs hrows.memberRefs
  | .string value =>
      obtain ⟨k, hk, rfl⟩ := Option.map_eq_some_iff.mp ht
      obtain ⟨hlt, hvalue, -⟩ := List.idxOf?_eq_some_iff.mp hk
      exact Token.rowOf?_ofParts (by decide) (List.getElem?_eq_some_iff.mpr ⟨hlt, hvalue⟩)
        hrows.userStrings

/-- A token keeps its meaning, whether an import gave it or it was in the module before. -/
theorem Grows.names (h : m.Grows m') (hs : m.Names t s) : m'.Names t s := by
  match s with
  | .string value => exact rowOf?_mono h.userStrings hs
  | .symbol s =>
      by_cases hmember : t.table = Token.memberRef
      · exact h.symbol_eq hmember hs
      · by_cases htype : t.table = Token.typeRef
        · cases hr : m.typeRefOf? t with
          | none =>
              simp only [Names, symbol, htype, hr] at hs
              cases hs
          | some r =>
              rw [Names, symbol_of_typeRef htype hr] at hs
              rw [Names, symbol_of_typeRef htype (rowOf?_mono h.typeRefs hr), hs]
        · -- What is left are definitions.
          have hsymbol : m'.symbol t = m.symbol t := by
            have hrow : ∀ m : Module, m.memberRefOf? t = none := fun m =>
              if_neg fun hrow => hmember hrow.1
            have hfind : m'.memberSymbol? t = m.memberSymbol? t := by
              funext d
              rw [memberSymbol?, memberSymbol?, h.name]
            simp only [symbol, if_neg htype, typeOf?, hrow, hfind, h.types, h.name]
          exact hsymbol.trans hs

theorem WellFormed.exists_parent (hm : m.WellFormed) (hrows : m.RowsFit) {r : MemberRef}
    (hr : r ∈ m.memberRefs) : ∃ p, m.typeRefOf? r.parent = some p := by
  obtain ⟨row, hpos, hle, hparent⟩ := hm.parents r hr
  obtain ⟨k, rfl⟩ := Nat.exists_eq_succ_of_ne_zero (Nat.ne_of_gt hpos)
  refine ⟨m.typeRefs[k], ?_⟩
  rw [hparent]
  exact Token.rowOf?_ofParts (by decide) (List.getElem?_eq_getElem hle) hrows.typeRefs

end Module

namespace Import

open CilEdit.Module

variable {m m' : Module} {s : Meaning} {t : Token} {c : Import} {calls : List Import}

theorem run_of_subject (hs : c.subject = .ok s) (m : Module) :
    c.run m = (.ok (m.enter s).1, (m.enter s).2) := by
  cases c with
  | type scope name =>
      cases hs
      rfl
  | method source typeName q =>
      obtain ⟨x, hx, rfl⟩ := map_eq_ok.mp hs
      exact importMethod_eq_ok_iff.mpr ⟨x, hx, rfl⟩
  | field source typeName name =>
      obtain ⟨f, hf, rfl⟩ := map_eq_ok.mp hs
      exact importField_eq_ok_iff.mpr ⟨f, hf, rfl⟩
  | string value =>
      cases hs
      rfl

/-- What is not there is asked for before anything is entered. -/
theorem run_of_subject_error {e : Error} (hs : c.subject = .error e) (m : Module) :
    c.run m = (.error e, m) := by
  cases c with
  | type scope name => cases hs
  | method source typeName q => exact importMethod_of_error (map_eq_error.mp hs) m
  | field source typeName name => exact importField_of_error (map_eq_error.mp hs) m
  | string value => cases hs

theorem run_cases (c : Import) (m : Module) :
    (∃ s, c.subject = .ok s ∧ c.run m = (.ok (m.enter s).1, (m.enter s).2)) ∨
      ∃ e, c.subject = .error e ∧ c.run m = (.error e, m) := by
  cases hs : c.subject with
  | ok s => exact .inl ⟨s, rfl, run_of_subject hs m⟩
  | error e => exact .inr ⟨e, rfl, run_of_subject_error hs m⟩

theorem grows_run (c : Import) (m : Module) : m.Grows (c.run m).2 := by
  rcases run_cases c m with ⟨s, -, heq⟩ | ⟨e, -, heq⟩
  · rw [heq]
    exact grows_enter m s
  · rw [heq]
    exact .refl m

theorem grows_runAll (calls : List Import) (m : Module) : m.Grows (runAll calls m).2 := by
  induction calls generalizing m with
  | nil => exact .refl m
  | cons c calls ih => exact (grows_run c m).trans (ih (c.run m).2)

theorem wellFormed_run (hm : m.WellFormed) (c : Import) : (c.run m).2.WellFormed := by
  rcases run_cases c m with ⟨s, -, heq⟩ | ⟨e, -, heq⟩
  · rw [heq]
    exact hm.enter s
  · rw [heq]
    exact hm

theorem wellFormed_runAll (hm : m.WellFormed) (calls : List Import) :
    (runAll calls m).2.WellFormed := by
  induction calls generalizing m with
  | nil => exact hm
  | cons c calls ih => exact ih (wellFormed_run hm c)

/-- Every token that a run gave is still the one under which its subject is entered. -/
theorem known?_of_mem_runAll (hmem : (c, .ok t) ∈ (runAll calls m).1) :
    ∃ s, c.subject = .ok s ∧ (runAll calls m).2.known? s = some t := by
  induction calls generalizing m with
  | nil => cases hmem
  | cons d calls ih =>
      rcases List.mem_cons.mp hmem with heq | hrest
      · obtain ⟨rfl, hanswer⟩ := Prod.mk.inj heq
        rcases run_cases c m with ⟨s, hs, hrun⟩ | ⟨e, -, hrun⟩
        · rw [hrun] at hanswer
          cases hanswer
          refine ⟨s, hs, ?_⟩
          change (runAll calls (c.run m).2).2.known? s = _
          rw [hrun]
          exact (grows_runAll calls _).known?_eq (known?_enter m s)
        · rw [hrun] at hanswer
          cases hanswer
      · exact ih hrest

end Import

namespace Module

/-- What holds after a run of imports that started at `m`, gave these answers and left `m'`. -/
structure ImportsKept (m m' : Module) (answers : List (Import × Except Error Token)) : Prop where
  rows : m.Grows m'
  kept : ∀ t s, m.Names t s → m'.Names t s
  names : ∀ c t, (c, .ok t) ∈ answers → ∃ s, c.subject = .ok s ∧ m'.Names t s
  again : ∀ (c : Import) (t : Token) (c' : Import), (c, .ok t) ∈ answers →
    c'.subject = c.subject → c'.run m' = (.ok t, m')
  distinct : ∀ c t c' t', (c, .ok t) ∈ answers → (c', .ok t') ∈ answers →
    c.subject ≠ c'.subject → t ≠ t'
  parents : ∀ r ∈ m'.memberRefs, ∃ p, m'.typeRefOf? r.parent = some p
  found : ∀ (c : Import) (s : Meaning), c.subject = .ok s → ∃ t last, c.run m' = (.ok t, last)
  missing : ∀ (c : Import) (e : Error) (last : Module), c.run m' = (.error e, last) →
    c.subject = .error e ∧ last = m'

/-- The tables of references and strings only grow, and everything in them that was imported is
there once. -/
theorem importsKept_runAll (hm : m.Reached) (calls : List Import)
    (hrows : (Import.runAll calls m).2.RowsFit) :
    m.ImportsKept (Import.runAll calls m).2 (Import.runAll calls m).1 := by
  have hgrows := Import.grows_runAll calls m
  have hlast := Import.wellFormed_runAll hm.wellFormed calls
  have hnames : ∀ c t, (c, .ok t) ∈ (Import.runAll calls m).1 →
      ∃ s, c.subject = .ok s ∧ (Import.runAll calls m).2.Names t s := by
    intro c t hmem
    obtain ⟨s, hs, ht⟩ := Import.known?_of_mem_runAll hmem
    exact ⟨s, hs, hlast.numbered.names_of_known? hrows ht⟩
  refine
    { rows := hgrows
      kept := fun t s => hgrows.names
      names := hnames, again := ?_, distinct := ?_
      parents := fun r => hlast.exists_parent hrows
      found := ?_, missing := ?_ }
  · intro c t c' hmem hsame
    obtain ⟨s, hs, ht⟩ := Import.known?_of_mem_runAll hmem
    rw [Import.run_of_subject (hsame.trans hs), enter_of_known? ht]
  · rintro c t c' t' hmem hmem' hne rfl
    obtain ⟨s, hs, ht⟩ := hnames c t hmem
    obtain ⟨s', hs', ht'⟩ := hnames c' t hmem'
    exact hne (hs.trans ((congrArg Except.ok (ht.eq ht')).trans hs'.symm))
  · intro c s hs
    exact ⟨_, _, Import.run_of_subject hs _⟩
  · intro c e last hrun
    rcases Import.run_cases c (Import.runAll calls m).2 with ⟨s, -, heq⟩ | ⟨e', hs, heq⟩
    · rw [heq] at hrun
      cases hrun
    · rw [heq] at hrun
      cases hrun
      exact ⟨hs, rfl⟩

/-- The overload for `A.X` is imported by two queries, around a string and a look-up that fails. -/
def importedTwice : List Import :=
  [.method (overloaded ["A.X", "B.Y"]) "T" ⟨"f", some ["X"]⟩, .string "f",
    .method (overloaded ["A.X", "B.Y"]) "T" ⟨"g", none⟩,
    .method (overloaded ["A.X", "B.Y"]) "T" ⟨"f", some ["A.X"]⟩]

theorem importsKept_importedTwice :
    (Import.runAll importedTwice (empty "G")).1.map Prod.snd
      = [.ok (.ofParts Token.memberRef 1), .ok (.ofParts Token.userString 1),
        .error (.methodNotFound "T" "g"), .ok (.ofParts Token.memberRef 1)] ∧
    (Import.runAll importedTwice (empty "G")).2.RowsFit ∧
    (empty "G").ImportsKept (Import.runAll importedTwice (empty "G")).2
      (Import.runAll importedTwice (empty "G")).1 := by
  have hrows : (Import.runAll importedTwice (empty "G")).2.RowsFit :=
    ⟨by decide +kernel, by decide +kernel, by decide +kernel⟩
  exact ⟨by decide +kernel, hrows, importsKept_runAll (.empty "G") importedTwice hrows⟩

end Module

end CilEdit
