import CilEdit.Proofs.Directories
import CilEdit.Proofs.Resaving

namespace CilEdit

/-- The patches turn `m` into `m'`, each of them succeeds, and these are their outcomes. -/
inductive Applied (r : References) : Module → List Patch → List Outcome → Module → Prop
  | nil (m : Module) : Applied r m [] [] m
  | cons {m next m' : Module} {p : Patch} {ps : List Patch} {o : Outcome} {os : List Outcome}
      (head : p.apply r m = (.ok o, next)) (tail : Applied r next ps os m') :
      Applied r m (p :: ps) (o :: os) m'

theorem Applied.append {r : References} {m next m' : Module} {ps qs : List Patch}
    {os us : List Outcome} (hps : Applied r m ps os next) (hqs : Applied r next qs us m') :
    Applied r m (ps ++ qs) (os ++ us) m' := by
  induction hps with
  | nil => exact hqs
  | cons hhead _ ih => exact .cons hhead (ih hqs)

namespace PatchSet

variable {r : References} {m m' : Module} {ps : List Patch} {os done : List Outcome} {e : Error}

theorem applyAll_eq_ok (h : applyAll r done ps m = (.ok os, m')) :
    ∃ us, os = done ++ us ∧ Applied r m ps us m' := by
  induction ps generalizing done m with
  | nil =>
      cases h
      exact ⟨[], (List.append_nil _).symm, .nil _⟩
  | cons p ps ih =>
      cases hp : p.apply r m with
      | mk result next =>
          rw [applyAll, Step.bind_apply, Step.mapError, hp] at h
          cases result with
          | error e => cases h
          | ok o =>
              obtain ⟨us, rfl, hus⟩ := ih h
              refine ⟨o :: us, ?_, .cons hp hus⟩
              rw [List.append_assoc, List.singleton_append]

theorem applyAll_of_applied (h : Applied r m ps os m') :
    applyAll r done ps m = (.ok (done ++ os), m') := by
  induction h generalizing done with
  | nil =>
      rw [List.append_nil]
      rfl
  | cons hhead _ ih =>
      rw [applyAll, Step.bind_apply, Step.mapError, hhead]
      refine ih.trans ?_
      rw [List.append_assoc, List.singleton_append]

theorem apply_eq_ok_iff {set : PatchSet} :
    set.apply r m = (.ok os, m') ↔ Applied r m set.patches os m' := by
  constructor
  · intro h
    obtain ⟨us, rfl, hall⟩ := applyAll_eq_ok h
    exact hall
  · intro h
    exact applyAll_of_applied h

theorem applyAll_eq_error (h : applyAll r done ps m = (.error e, m')) :
    ∃ before p after us next cause, ps = before ++ p :: after ∧ Applied r m before us next ∧
      p.apply r next = (.error cause, m') ∧ e = .patchFailed p.name cause := by
  induction ps generalizing done m with
  | nil => cases h
  | cons p ps ih =>
      cases hp : p.apply r m with
      | mk result next =>
          rw [applyAll, Step.bind_apply, Step.mapError, hp] at h
          cases result with
          | error cause =>
              cases h
              exact ⟨[], p, ps, [], m, cause, rfl, .nil _, hp, rfl⟩
          | ok o =>
              obtain ⟨before, q, after, us, last, cause, rfl, hbefore, hq, he⟩ := ih h
              exact ⟨p :: before, q, after, o :: us, last, cause, rfl, .cons hp hbefore, hq, he⟩

end PatchSet

/-- Calls with patch sets turn `m` into `m'`. The procedures of a call are applied up to the first
that fails, and what this one has done to the module before it failed stays; `listed` are the
outcomes of the calls that succeed. -/
inductive Called (r : References) : Module → List PatchSet → List Outcome → Module → Prop
  | nil (m : Module) : Called r m [] [] m
  | succeeded {m next m' : Module} {set : PatchSet} {sets : List PatchSet}
      {os listed : List Outcome} (all : Applied r m set.patches os next)
      (later : Called r next sets listed m') : Called r m (set :: sets) (os ++ listed) m'
  | failed {m reached next m' : Module} {set : PatchSet} {sets : List PatchSet}
      {before after : List Patch} {p : Patch} {os listed : List Outcome} {e : Error}
      (patches : set.patches = before ++ p :: after) (front : Applied r m before os reached)
      (stop : p.apply r reached = (.error e, next)) (later : Called r next sets listed m') :
      Called r m (set :: sets) listed m'

namespace Session

variable {r : References} {m : Module} {s : Session} {set : PatchSet} {sets : List PatchSet}

def called (s : Session) (sets : List PatchSet) : Session :=
  sets.foldl (fun s set => (s.apply set).2) s

/-- The patches of the calls that succeed. -/
def accepted : Session → List PatchSet → List Patch
  | _, [] => []
  | s, set :: sets =>
    (if (s.apply set).1.isOk then set.patches else []) ++ accepted (s.apply set).2 sets

/-- No call that fails changes the module. -/
def Clean : Session → List PatchSet → Prop
  | _, [] => True
  | s, set :: sets =>
    ((s.apply set).1.isOk = false → (s.apply set).2.module = s.module) ∧ Clean (s.apply set).2 sets

/-- A call with a set succeeds as a whole, or stops at a procedure. -/
theorem apply_cases (s : Session) (set : PatchSet) :
    (∃ os m, Applied s.references s.module set.patches os m ∧
      s.apply set = (.ok (s.outcomes ++ os), { s with module := m, outcomes := s.outcomes ++ os })) ∨
      ∃ before p after os reached cause m, set.patches = before ++ p :: after ∧
        Applied s.references s.module before os reached ∧
          p.apply s.references reached = (.error cause, m) ∧
            s.apply set = (.error (.patchFailed p.name cause), { s with module := m }) := by
  cases hset : set.apply s.references s.module with
  | mk result m =>
      cases result with
      | ok os =>
          refine .inl ⟨os, m, PatchSet.apply_eq_ok_iff.mp hset, ?_⟩
          rw [apply, hset]
      | error e =>
          obtain ⟨before, p, after, os, reached, cause, hps, hfront, hstop, rfl⟩ :=
            PatchSet.applyAll_eq_error hset
          refine .inr ⟨before, p, after, os, reached, cause, m, hps, hfront, hstop, ?_⟩
          rw [apply, hset]

theorem apply_eq_ok_iff {os : List Outcome} {s' : Session} :
    s.apply set = (.ok os, s') ↔ ∃ us m, Applied s.references s.module set.patches us m ∧
      os = s.outcomes ++ us ∧ s' = { s with module := m, outcomes := s.outcomes ++ us } := by
  constructor
  · intro h
    rcases s.apply_cases set with ⟨us, m, hall, heq⟩ | ⟨_, _, _, _, _, _, _, -, -, -, heq⟩
    · cases h.symm.trans heq
      exact ⟨us, m, hall, rfl, rfl⟩
    · cases h.symm.trans heq
  · rintro ⟨us, m, hall, rfl, rfl⟩
    rw [apply, PatchSet.apply_eq_ok_iff.mpr hall]

/-- What a session has done and holds after calls, from what it was when it was opened. -/
structure After (s : Session) (sets : List PatchSet) : Prop where
  target : (s.called sets).target = s.target
  before : (s.called sets).before = s.before
  outcomes : ∃ listed, (s.called sets).outcomes = s.outcomes ++ listed ∧
    Called s.references s.module sets listed (s.called sets).module ∧
    (s.Clean sets →
      Applied s.references s.module (s.accepted sets) listed (s.called sets).module)

theorem after_called (s : Session) (sets : List PatchSet) : s.After sets := by
  induction sets generalizing s with
  | nil =>
      refine ⟨rfl, rfl, [], (List.append_nil _).symm, .nil _, fun _ => .nil _⟩
  | cons set sets ih =>
      obtain ⟨htarget, hbefore, listed, houtcomes, hcalled, hclean⟩ := ih (s.apply set).2
      change (s.called (set :: sets)).target = _ at htarget
      change (s.called (set :: sets)).before = _ at hbefore
      change (s.called (set :: sets)).outcomes = _ at houtcomes
      change Called _ _ _ _ (s.called (set :: sets)).module at hcalled
      change _ → Applied _ _ _ _ (s.called (set :: sets)).module at hclean
      rcases s.apply_cases set with ⟨os, m, hall, heq⟩ |
        ⟨before, p, after, os, reached, cause, m, hps, hfront, hstop, heq⟩
      · rw [heq] at htarget hbefore houtcomes hcalled hclean
        refine ⟨htarget, hbefore, os ++ listed, ?_, .succeeded hall hcalled, ?_⟩
        · rw [houtcomes, List.append_assoc]
        · rintro ⟨-, hrest⟩
          rw [heq] at hrest
          rw [accepted, heq]
          exact hall.append (hclean hrest)
      · rw [heq] at htarget hbefore houtcomes hcalled hclean
        refine ⟨htarget, hbefore, listed, houtcomes, .failed hps hfront hstop hcalled, ?_⟩
        rintro ⟨hkept, hrest⟩
        rw [heq] at hkept hrest
        rw [accepted, heq]
        have hsame : m = s.module := hkept rfl
        subst hsame
        exact hclean hrest

/-- What a commit writes and reports. The file becomes the module that the calls have made of the
one in the opened file, and no other file changes. The outcomes are those of the calls that
succeeded; if no other call has changed the module, the file is the opened module with exactly the
procedures of these outcomes applied. -/
theorem commit_called {origin : Nat} {d d₁ d₂ : Directory} {here target : String}
    {names : List String} {report : Report}
    (hstart : Session.start origin d here target names = .ok s) (sets : List PatchSet)
    (hcommit : (s.called sets).commit d₁ = (.ok report, d₂)) :
    ∃ data m stored, d.find? target = some (.file data) ∧ Image.read origin data = .ok m ∧
      References.open (origin + 1) d (Path.folder here target) names = .ok s.references ∧
      Called s.references m sets report.outcomes (s.called sets).module ∧
      (s.Clean sets →
        Applied s.references m (s.accepted sets) report.outcomes (s.called sets).module) ∧
      (s.called sets).module.toBytes = .ok stored ∧ d₁.Replaced target stored d₂ ∧
      report.before = Sha1.hex data ∧ report.after = Sha1.hex stored ∧ report.written = true := by
  obtain ⟨data, m, opened, hdata, hm, hopened, rfl⟩ := start_eq_ok_iff.mp hstart
  obtain ⟨htarget, hbefore, listed, houtcomes, hcalled, hclean⟩ := after_called _ sets
  obtain ⟨stored, hstored, hwritten, rfl⟩ := commit_eq_ok_iff.mp hcommit
  rw [htarget] at hwritten
  rw [List.nil_append] at houtcomes
  rw [← houtcomes] at hcalled hclean
  exact ⟨data, m, stored, (Directory.read_eq_ok_iff.mp hdata).1, hm, hopened, hcalled, hclean,
    hstored, Directory.replaced_of_write hwritten, hbefore, rfl, rfl⟩

def emptyImage : Bytes :=
  [0x43, 0x49, 0x4C, 0x4D, 1, 0, 0, 0, 1, 77, 0, 0, 0, 0, 0, 0, 0, 0, 0, 0, 0, 0, 0, 0, 0, 0]

/-- The image with `x` as its one user string. -/
def notedImage : Bytes :=
  [0x43, 0x49, 0x4C, 0x4D, 1, 0, 0, 0, 1, 77, 0, 0, 0, 0, 0, 0, 0, 0, 0, 0, 0, 0, 1, 0, 0, 0, 1,
    120]

def noting : Patch :=
  .procedure "noting" Patch.noDescription fun _ => do
    let _ ← Step.modifyGet (·.userString "x")
    return ⟨"noting", "", 0, 0⟩

def refusing : Patch :=
  .procedure "refusing" Patch.noDescription fun _ => Step.fail (.alreadyApplied "refusing")

/-- A session on the empty module, and what a commit writes after calls that leave the module with
the user string `x`. -/
theorem exists_noting : ∃ s, Session.start 1 (.single emptyImage) "" "a" [] = .ok s ∧
    s.module.toBytes = .ok emptyImage ∧
      ∀ sets, (s.called sets).module = (s.module.userString "x").2 →
        ∃ report, (s.called sets).commit (.single emptyImage)
          = (.ok report, .single notedImage) ∧ report.outcomes = (s.called sets).outcomes := by
  obtain ⟨m, hm⟩ : ∃ m, Image.read 1 emptyImage = .ok m := exists_of_isOk (by decide +kernel)
  have hempty : (Image.read 1 emptyImage).bind Module.toBytes = .ok emptyImage := by
    decide +kernel
  have hnoted : (Image.read 1 emptyImage).bind (fun m => (m.userString "x").2.toBytes)
      = .ok notedImage := by
    decide +kernel
  rw [hm] at hempty hnoted
  refine ⟨_, start_eq_ok_iff.mpr ⟨_, m, [], Directory.read_single nofun, hm, rfl, rfl⟩, hempty, ?_⟩
  intro sets hmodule
  have hstored : ((Session.mk "a" m [] (Sha1.hex emptyImage) []).called sets).module.toBytes
      = .ok notedImage := by
    rw [hmodule]
    exact hnoted
  have hwrite : Directory.write
      ((Session.mk "a" m [] (Sha1.hex emptyImage) []).called sets).target notedImage
        (.single emptyImage) = (.ok (), .single notedImage) := by
    rw [(after_called _ sets).target]
    exact Directory.write_single _ _
  exact ⟨_, commit_eq_ok_iff.mpr ⟨_, hstored, hwrite, rfl⟩, rfl⟩

theorem commit_called_noting : ∃ s report,
    Session.start 1 (.single emptyImage) "" "a" [] = .ok s ∧
    (s.called [⟨[noting]⟩, ⟨[refusing]⟩]).commit (.single emptyImage)
      = (.ok report, .single notedImage) ∧
    ∃ data m stored, (Directory.single emptyImage).find? "a" = some (.file data) ∧
      Image.read 1 data = .ok m ∧ (s.called [⟨[noting]⟩, ⟨[refusing]⟩]).module.toBytes = .ok stored ∧
      Applied s.references m [noting] report.outcomes
        (s.called [⟨[noting]⟩, ⟨[refusing]⟩]).module := by
  obtain ⟨s, hstart, -, hcommitted⟩ := exists_noting
  obtain ⟨report, hcommit, -⟩ := hcommitted [⟨[noting]⟩, ⟨[refusing]⟩] rfl
  obtain ⟨data, m, stored, hdata, hm, -, -, hclean, hstored, -⟩ := commit_called hstart _ hcommit
  have hkept : s.Clean [⟨[noting]⟩, ⟨[refusing]⟩] := ⟨nofun, fun _ => rfl, trivial⟩
  exact ⟨s, report, hstart, hcommit, data, m, stored, hdata, hm, hstored, hclean hkept⟩

/-- A procedure before one that fails is not listed, but what it did is written. -/
theorem commit_called_unlisted : ¬ ∀ (origin : Nat) (d d₁ d₂ : Directory) (here target : String)
    (names : List String) (s : Session) (sets : List PatchSet) (report : Report),
    Session.start origin d here target names = .ok s →
    (s.called sets).commit d₁ = (.ok report, d₂) →
      ∃ ps m' stored, ps.Sublist (sets.flatMap PatchSet.patches) ∧
        Applied s.references s.module ps report.outcomes m' ∧ m'.toBytes = .ok stored ∧
          d₂.find? target = some (.file stored) := by
  intro hclaim
  obtain ⟨s, hstart, hempty, hcommitted⟩ := exists_noting
  obtain ⟨report, hcommit, houtcomes⟩ := hcommitted [⟨[noting, refusing]⟩] rfl
  obtain ⟨ps, m', stored, -, happlied, hstored, hfind⟩ :=
    hclaim _ _ _ _ _ _ _ s _ report hstart hcommit
  obtain ⟨data, m, opened, -, -, -, rfl⟩ := start_eq_ok_iff.mp hstart
  change report.outcomes = [] at houtcomes
  rw [houtcomes] at happlied
  cases happlied
  cases Except.ok.inj (hempty.symm.trans hstored)
  rw [Directory.find?_single] at hfind
  exact absurd hfind (by decide +kernel)

end Session

end CilEdit
