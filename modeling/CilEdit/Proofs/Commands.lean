import CilEdit.Command.Run
import CilEdit.Proofs.Sessions

namespace CilEdit.Command

variable {d d' : Directory} {path : String} {dryRun : Bool} {stored : Bytes} {report : Report}

/-- The module in the target, with both built-in patches applied, is stored as `stored`. -/
inductive Patchable (d : Directory) (path : String) (stored : Bytes) : Prop
  | intro {data : Bytes} {m m₁ m₂ : Module} {references : References} {first second : Outcome}
      (target : d.read path = .ok data)
      (module : Image.read 0 data = .ok m)
      (beside : References.open 1 d (Path.folder here path) PatchSet.referenceNames
        = .ok references)
      (transitions : Transitions.descriptor.apply m = (.ok first, m₁))
      (dialogue : Dialogue.apply references m₁ = (.ok second, m₂))
      (encoded : m₂.toBytes = .ok stored)

theorem builtin_eq_ok :
    PatchSet.builtin = .ok ⟨[.sites Transitions.descriptor, .dialogue]⟩ := by
  rfl

theorem context_eq_ok_iff {σ α : Type} {doing : String} {step : Step Error σ α} {s t : σ} {a : α} :
    context doing step s = (.ok a, t) ↔ step s = (.ok a, t) :=
  Step.mapError_eq_ok_iff

theorem applied_builtin_iff {r : References} {m m' : Module} {os : List Outcome} :
    Applied r m [.sites Transitions.descriptor, .dialogue] os m' ↔ ∃ first second m₁,
      Transitions.descriptor.apply m = (.ok first, m₁) ∧
        Dialogue.apply r m₁ = (.ok second, m') ∧ os = [first, second] := by
  constructor
  · rintro (_ | ⟨hfirst, _ | ⟨hsecond, _ | _⟩⟩)
    exact ⟨_, _, _, hfirst, hsecond, rfl⟩
  · rintro ⟨first, second, m₁, hfirst, hsecond, rfl⟩
    exact .cons hfirst (.cons hsecond (.nil m'))

/-- Preparing looks at files and changes none. -/
theorem still_prepare (path : String) : (prepare path).Still := by
  refine (Step.still_read _).bind fun _ => (Step.still_ofExcept _).bind fun set => ?_
  refine ((Step.still_read _).mapError _).bind fun s => ?_
  exact ((Step.still_ofExcept _).mapError _).bind fun _ => fun _ => rfl

theorem prepare_eq_ok_iff {s' : Session} : prepare path d = (.ok s', d') ↔ d = d' ∧
    ∃ s os, Session.start 0 d here path PatchSet.referenceNames = .ok s ∧
      s.apply ⟨[.sites Transitions.descriptor, .dialogue]⟩ = (.ok os, s') := by
  constructor
  · intro h
    refine ⟨((still_prepare path).eq h).symm, ?_⟩
    obtain ⟨_, d₁, hfile, h⟩ := Step.bind_eq_ok.mp h
    obtain ⟨-, rfl⟩ := Step.read_eq_ok_iff.mp hfile
    rw [builtin_eq_ok] at h
    obtain ⟨set, hset, h⟩ := Step.ofExcept_bind_eq_ok_iff.mp h
    cases hset
    obtain ⟨s, d₂, hs, h⟩ := Step.bind_eq_ok.mp h
    obtain ⟨hstart, rfl⟩ := Step.read_eq_ok_iff.mp (context_eq_ok_iff.mp hs)
    refine ⟨s, ?_⟩
    cases happly : s.apply ⟨[.sites Transitions.descriptor, .dialogue]⟩ with
    | mk outcomes s₁ =>
        rw [happly] at h
        obtain ⟨os, d₃, hos, hreturn⟩ := Step.bind_eq_ok.mp h
        obtain ⟨rfl, rfl⟩ := Step.ofExcept_eq_ok_iff.mp (context_eq_ok_iff.mp hos)
        cases hreturn
        exact ⟨os, hstart, rfl⟩
  · rintro ⟨rfl, s, os, hstart, happly⟩
    obtain ⟨data, m, references, hdata, -⟩ := Session.start_eq_ok_iff.mp hstart
    have hfile : checkFile path d = .ok () := by
      rw [checkFile, Directory.isFile_of_read hdata, if_pos rfl]
    have hopen : context s!"Error opening '{path}'"
        (Step.read fun d => Session.start 0 d here path PatchSet.referenceNames) d = (.ok s, d) :=
      context_eq_ok_iff.mpr (Step.read_eq_ok_iff.mpr ⟨hstart, rfl⟩)
    rw [prepare, Step.bind_ok (Step.read_eq_ok_iff.mpr ⟨hfile, rfl⟩), builtin_eq_ok]
    refine (Step.bind_ok hopen).trans ?_
    rw [happly]
    rfl

/-- The command succeeds after it has come to the encoded module, and after the write in a real
run. -/
theorem patch_eq_ok_iff : patch path dryRun d = (.ok report, d') ↔
    ∃ s os s' stored, Session.start 0 d here path PatchSet.referenceNames = .ok s ∧
      s.apply ⟨[.sites Transitions.descriptor, .dialogue]⟩ = (.ok os, s') ∧
        s'.module.toBytes = .ok stored ∧ report = s'.report stored (!dryRun) ∧
          (if dryRun then d' = d else Directory.write s'.target stored d = (.ok (), d')) := by
  constructor
  · intro h
    obtain ⟨s', d₁, hprepared, hlast⟩ := Step.bind_eq_ok.mp h
    obtain ⟨rfl, s, os, hstart, happly⟩ := prepare_eq_ok_iff.mp hprepared
    refine ⟨s, os, s', ?_⟩
    cases dryRun with
    | true =>
        obtain ⟨hreport, rfl⟩ := Step.ofExcept_eq_ok_iff.mp (context_eq_ok_iff.mp hlast)
        obtain ⟨stored, hstored, rfl⟩ := Session.dryRun_eq_ok_iff.mp hreport
        exact ⟨stored, hstart, happly, hstored, rfl, rfl⟩
    | false =>
        obtain ⟨stored, hstored, hwritten, rfl⟩ :=
          Session.commit_eq_ok_iff.mp (context_eq_ok_iff.mp hlast)
        exact ⟨stored, hstart, happly, hstored, rfl, hwritten⟩
  · rintro ⟨s, os, s', stored, hstart, happly, hstored, rfl, hwrite⟩
    rw [patch, Step.bind_ok (prepare_eq_ok_iff.mpr ⟨rfl, s, os, hstart, happly⟩)]
    cases dryRun with
    | true =>
        cases hwrite
        exact context_eq_ok_iff.mpr (Step.ofExcept_eq_ok_iff.mpr
          ⟨Session.dryRun_eq_ok_iff.mpr ⟨_, hstored, rfl⟩, rfl⟩)
    | false =>
        exact context_eq_ok_iff.mpr (Session.commit_eq_ok_iff.mpr ⟨_, hstored, hwrite, rfl⟩)

/-- A command that fails leaves every file as it is. -/
theorem atomic_patch (path : String) (dryRun : Bool) : (patch path dryRun).Atomic := by
  refine (still_prepare path).bind_atomic fun s => ?_
  cases dryRun with
  | true => exact Step.atomic_of_still ((Step.still_ofExcept s.dryRun).mapError _)
  | false => exact (Session.atomic_commit s).mapError _

theorem patchable_iff : Patchable d path stored ↔
    ∃ s os s', Session.start 0 d here path PatchSet.referenceNames = .ok s ∧
      s.apply ⟨[.sites Transitions.descriptor, .dialogue]⟩ = (.ok os, s') ∧
        s'.module.toBytes = .ok stored := by
  constructor
  · rintro ⟨hdata, hm, hbeside, htransitions, hdialogue, hstored⟩
    have hall := applied_builtin_iff.mpr ⟨_, _, _, htransitions, hdialogue, rfl⟩
    exact ⟨_, _, _, Session.start_eq_ok_iff.mpr ⟨_, _, _, hdata, hm, hbeside, rfl⟩,
      Session.apply_eq_ok_iff.mpr ⟨_, _, hall, rfl, rfl⟩, hstored⟩
  · rintro ⟨s, os, s', hstart, hset, hstored⟩
    obtain ⟨data, m, references, hdata, hm, hbeside, rfl⟩ := Session.start_eq_ok_iff.mp hstart
    obtain ⟨us, m', hall, -, rfl⟩ := Session.apply_eq_ok_iff.mp hset
    obtain ⟨first, second, m₁, htransitions, hdialogue, -⟩ := applied_builtin_iff.mp hall
    exact ⟨hdata, hm, hbeside, htransitions, hdialogue, hstored⟩

theorem exists_patch_dryRun_iff :
    (∃ report, patch path true d = (.ok report, d')) ↔
      d' = d ∧ ∃ stored, Patchable d path stored := by
  simp only [patch_eq_ok_iff, patchable_iff, if_true]
  constructor
  · rintro ⟨report, s, os, s', stored, hstart, hset, hstored, -, hsame⟩
    exact ⟨hsame, stored, s, os, s', hstart, hset, hstored⟩
  · rintro ⟨hsame, stored, s, os, s', hstart, hset, hstored⟩
    exact ⟨_, s, os, s', stored, hstart, hset, hstored, rfl, hsame⟩

theorem exists_patch_iff :
    (∃ report, patch path false d = (.ok report, d')) ↔
      ∃ stored, Patchable d path stored ∧ Directory.write path stored d = (.ok (), d') := by
  have htarget : ∀ s s' os, Session.start 0 d here path PatchSet.referenceNames = .ok s →
      s.apply ⟨[.sites Transitions.descriptor, .dialogue]⟩ = (.ok os, s') → s'.target = path := by
    intro s s' os hstart hset
    obtain ⟨data, m, references, -, -, -, rfl⟩ := Session.start_eq_ok_iff.mp hstart
    obtain ⟨us, m', -, -, rfl⟩ := Session.apply_eq_ok_iff.mp hset
    rfl
  simp only [patch_eq_ok_iff, patchable_iff, Bool.false_eq_true, if_false]
  constructor
  · rintro ⟨report, s, os, s', stored, hstart, hset, hstored, -, hwrite⟩
    rw [htarget s s' os hstart hset] at hwrite
    exact ⟨stored, ⟨s, os, s', hstart, hset, hstored⟩, hwrite⟩
  · rintro ⟨stored, ⟨s, os, s', hstart, hset, hstored⟩, hwrite⟩
    rw [← htarget s s' os hstart hset] at hwrite
    exact ⟨_, s, os, s', stored, hstart, hset, hstored, rfl, hwrite⟩

/-- The arguments that name a file to patch. -/
def Arguments.patching (path : String) (dryRun json verbose : Bool) : Arguments :=
  ⟨some path, dryRun, false, json, verbose⟩

theorem execute_of_patch (json verbose : Bool) (h : patch path dryRun d = (.ok report, d')) :
    let result := execute d (.patching path dryRun json verbose)
    result.exitCode = 0 ∧ result.failure = none ∧ result.directory = d' := by
  simp only [execute, Arguments.patching, h]
  exact ⟨rfl, rfl, rfl⟩

theorem execute_of_error (json verbose : Bool) {e : String}
    (h : patch path dryRun d = (.error e, d')) :
    let result := execute d (.patching path dryRun json verbose)
    result.exitCode = 1 ∧ result.failure = some e ∧ result.directory = d' := by
  simp only [execute, Arguments.patching, h]
  exact ⟨rfl, rfl, rfl⟩

/-- A run succeeds exactly if `patch` does, and what it fails over changes no file. -/
theorem execute_cases (d : Directory) (path : String) (dryRun json verbose : Bool) :
    let result := execute d (.patching path dryRun json verbose)
    (result.exitCode = 0 ∧ result.failure = none ∧
        ∃ report, patch path dryRun d = (.ok report, result.directory)) ∨
      result.exitCode = 1 ∧ result.failure.isSome = true ∧ result.directory = d ∧
        ∀ report d', patch path dryRun d ≠ (.ok report, d') := by
  match hpatch : patch path dryRun d with
  | (.ok report, d') =>
      obtain ⟨hexit, hfailure, hdirectory⟩ := execute_of_patch json verbose hpatch
      exact .inl ⟨hexit, hfailure, report, by rw [hdirectory]⟩
  | (.error e, d') =>
      obtain ⟨hexit, hfailure, hdirectory⟩ := execute_of_error json verbose hpatch
      have hsame := atomic_patch path dryRun d e d' hpatch
      exact .inr ⟨hexit, by rw [hfailure]; rfl, hdirectory.trans hsame, nofun⟩

/-- A run that patches a file either fails and leaves every file as it is, or stores the target with
both built-in patches applied and leaves every other file as it is. A dry run changes no file, and
it succeeds exactly if a real run gets as far as writing. -/
theorem execute_patching (d : Directory) (path : String) (json verbose : Bool) :
    let result := execute d (.patching path false json verbose)
    let dry := execute d (.patching path true json verbose)
    (result.exitCode = 1 ∧ result.failure.isSome = true ∧ result.directory = d ∨
      result.exitCode = 0 ∧ result.failure = none ∧
        ∃ stored, Patchable d path stored ∧ d.Replaced path stored result.directory) ∧
    (result.exitCode = 0 ↔
      ∃ stored d', Patchable d path stored ∧ Directory.write path stored d = (.ok (), d')) ∧
    dry.directory = d ∧ (dry.exitCode = 0 ↔ ∃ stored, Patchable d path stored) := by
  intro result dry
  refine ⟨?_, ?_, ?_⟩
  · rcases execute_cases d path false json verbose with ⟨hexit, hfailure, report, hpatch⟩ |
      ⟨hexit, hfailure, hdirectory, -⟩
    · obtain ⟨stored, hpatchable, hwrite⟩ := exists_patch_iff.mp ⟨report, hpatch⟩
      exact .inr ⟨hexit, hfailure, stored, hpatchable, Directory.replaced_of_write hwrite⟩
    · exact .inl ⟨hexit, hfailure, hdirectory⟩
  · constructor
    · intro hexit
      rcases execute_cases d path false json verbose with ⟨-, -, report, hpatch⟩ | ⟨hfail, -⟩
      · obtain ⟨stored, hpatchable, hwrite⟩ := exists_patch_iff.mp ⟨report, hpatch⟩
        exact ⟨stored, _, hpatchable, hwrite⟩
      · exact absurd (hexit.symm.trans hfail) (by decide)
    · rintro ⟨stored, d', hpatchable, hwrite⟩
      obtain ⟨report, hpatch⟩ := exists_patch_iff.mpr ⟨stored, hpatchable, hwrite⟩
      exact (execute_of_patch json verbose hpatch).1
  · rcases execute_cases d path true json verbose with ⟨hexit, -, report, hpatch⟩ |
      ⟨hexit, -, hdirectory, hno⟩
    · obtain ⟨hsame, hstored⟩ := exists_patch_dryRun_iff.mp ⟨report, hpatch⟩
      exact ⟨hsame, fun _ => hstored, fun _ => hexit⟩
    · refine ⟨hdirectory, fun hok => absurd (hok.symm.trans hexit) (by decide), fun hstored => ?_⟩
      obtain ⟨report, hpatch⟩ := exists_patch_dryRun_iff.mpr ⟨rfl, hstored⟩
      exact absurd hpatch (hno report d)

end CilEdit.Command
