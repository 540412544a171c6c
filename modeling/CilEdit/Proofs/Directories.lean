import CilEdit.Proofs.Sequencing
import CilEdit.Session.Directory

namespace CilEdit.Directory

variable {d d' : Directory} {path : String} {data : Bytes} {p q r : Place} {e : Entry}

theorem isFolder_eq_true_iff : d.isFolder p = true ↔ d.get? p = some .directory := by
  rw [isFolder, beq_iff_eq]

theorem not_isAround (h : d.get? p ≠ some .directory) : p.isAround = false := by
  rw [Bool.eq_false_iff]
  intro haround
  exact h (by rw [get?, if_pos haround])

theorem isFolder_insert (h : d.get? p ≠ some .directory) (data : Bytes) (q : Place) :
    (d.insert p (.file data)).isFolder q = d.isFolder q := by
  rw [Bool.eq_iff_iff, isFolder_eq_true_iff, isFolder_eq_true_iff]
  by_cases hq : q = p
  · subst hq
    rw [get?_insert_self d _ (not_isAround h)]
    exact ⟨nofun, fun hfolder => absurd hfolder h⟩
  · rw [get?_insert_of_ne d _ hq]

theorem isSome_insert (h : d.get? p ≠ some .directory) (data : Bytes)
    (hq : (d.get? q).isSome = true) : ((d.insert p (.file data)).get? q).isSome = true := by
  by_cases heq : q = p
  · subst heq
    rw [get?_insert_self d _ (not_isAround h)]
    rfl
  · rwa [get?_insert_of_ne d _ heq]

theorem step_insert (h : d.get? p ≠ some .directory) (data : Bytes) {segment : String}
    (hstep : d.step q segment = some r) : (d.insert p (.file data)).step q segment = some r := by
  rw [step] at hstep ⊢
  rw [isFolder_insert h]
  split at hstep
  · cases hstep
  · rename_i hfolder
    rw [if_neg hfolder]
    split at hstep
    · rename_i hvoid
      rw [if_pos hvoid]
      exact hstep
    · rename_i hvoid
      rw [if_neg hvoid]
      split at hstep
      · rename_i hup
        rw [if_pos hup]
        exact hstep
      · rename_i hup
        rw [if_neg hup]
        split at hstep
        · rename_i hthere
          rw [if_pos (isSome_insert h data hthere)]
          exact hstep
        · cases hstep

theorem walk_insert (h : d.get? p ≠ some .directory) (data : Bytes) {segments : List String}
    (hwalk : d.walk q segments = some r) :
    (d.insert p (.file data)).walk q segments = some r := by
  induction segments generalizing q with
  | nil => exact hwalk
  | cons segment segments ih =>
      rw [walk, List.foldlM_cons, Option.bind_eq_bind, Option.bind_eq_some_iff] at hwalk ⊢
      obtain ⟨next, hnext, hrest⟩ := hwalk
      exact ⟨next, step_insert h data hnext, ih hrest⟩

theorem destination?_eq_some (h : d.destination? path = some p) :
    ∃ folder, d.walk (start path) (Path.segments path).dropLast = some folder ∧
      d.isFolder folder = true ∧ Path.isName (Path.fileName path) = true ∧
        p = Path.fileName path :: folder := by
  rw [destination?, Option.bind_eq_bind, Option.bind_eq_some_iff] at h
  obtain ⟨folder, hwalk, h⟩ := h
  split at h
  · rename_i hall
    obtain ⟨hfolder, hname⟩ := Bool.and_eq_true_iff.mp hall
    exact ⟨folder, hwalk, hfolder, hname, (Option.some.inj h).symm⟩
  · cases h

/-- A path leads to its destination if there is something. -/
theorem place?_of_destination? (h : d.destination? path = some p) :
    d.place? path = if (d.get? p).isSome = true then some p else none := by
  obtain ⟨folder, hwalk, hfolder, hname, rfl⟩ := destination?_eq_some h
  obtain ⟨own, hown⟩ : ∃ own, (Path.segments path).getLast? = some own := by
    cases hlast : (Path.segments path).getLast? with
    | some own => exact ⟨own, rfl⟩
    | none =>
        rw [Path.fileName, hlast] at hname
        simp [Path.isName, Path.isVoid] at hname
  have hfileName : Path.fileName path = own := by
    rw [Path.fileName, hown]
    rfl
  have hsegments : Path.segments path = (Path.segments path).dropLast ++ [own] :=
    (List.dropLast_append_getLast? own hown).symm
  rw [Path.isName, Bool.and_eq_true, Bool.and_eq_true, Bool.and_eq_true] at hname
  obtain ⟨⟨⟨hvoid, hup⟩, -⟩, -⟩ := hname
  have hwalk' : d.place? path = (d.walk (start path) (Path.segments path).dropLast).bind
      fun folder => d.step folder (Path.fileName path) := by
    rw [place?, walk, hsegments, List.foldlM_append, List.dropLast_concat, hfileName]
    simp [walk]
  rw [hwalk', hwalk, Option.bind_some, step, hfolder, if_neg (by decide),
    if_neg (by simpa using hvoid), if_neg (by simpa using hup)]

theorem write_eq_ok (h : write path data d = (.ok (), d')) :
    ∃ p, d.destination? path = some p ∧ d.get? p ≠ some .directory ∧
      d' = d.insert p (.file data) := by
  rw [write] at h
  split at h
  · split at h
    · rename_i added hadd
      cases h
      have hfile : ¬ Entry.file data = .directory := nofun
      rw [add?, if_neg hfile, Option.bind_eq_bind, Option.bind_eq_some_iff] at hadd
      obtain ⟨p, hp, hadd⟩ := hadd
      refine ⟨p, hp, ?_⟩
      cases hget : d.get? p with
      | none =>
          rw [hget] at hadd
          exact ⟨nofun, (Option.some.inj hadd).symm⟩
      | some e =>
          rw [hget] at hadd
          cases e with
          | directory => cases hadd
          | file old => exact ⟨nofun, (Option.some.inj hadd).symm⟩
    · cases h
  · cases h

/-- A write succeeds below a directory, at a place that is none. -/
theorem write_of_destination?
    (hfolder : (d.walk (start path) (Path.parent path)).bind d.get? = some .directory)
    (hp : d.destination? path = some p) (hget : d.get? p ≠ some .directory) (data : Bytes) :
    write path data d = (.ok (), d.insert p (.file data)) := by
  have hfile : ¬ Entry.file data = .directory := nofun
  have hadd : d.add? path (.file data) = some (d.insert p (.file data)) := by
    rw [add?, if_neg hfile, hp, Option.bind_eq_bind, Option.bind_some]
    match hfound : d.get? p with
    | none => rfl
    | some (.file old) => rfl
    | some .directory => exact absurd hfound hget
  rw [write, hfolder, hadd]

theorem atomic_write (path : String) (data : Bytes) : (write path data).Atomic := by
  intro d e d' h
  rw [write] at h
  split at h
  · split at h <;> cases h
    rfl
  · cases h
    rfl

/-- The file at a path, and nothing else, is now `data`. -/
structure Replaced (d : Directory) (path : String) (data : Bytes) (d' : Directory) : Prop where
  find? : d'.find? path = some (.file data)
  others : ∀ p, d'.place? path ≠ some p → d'.get? p = d.get? p
  place : ∀ p, d.place? path = some p → d'.place? path = some p

theorem replaced_of_write (h : write path data d = (.ok (), d')) : d.Replaced path data d' := by
  obtain ⟨p, hp, hget, rfl⟩ := write_eq_ok h
  have hself := d.get?_insert_self (.file data) (not_isAround hget)
  have hdestination : (d.insert p (.file data)).destination? path = some p := by
    obtain ⟨folder, hwalk, hfolder, hname, hplace⟩ := destination?_eq_some hp
    rw [destination?, walk_insert hget data hwalk, Option.bind_eq_bind, Option.bind_some,
      isFolder_insert hget, hfolder, hname, hplace]
    rfl
  have hplace : (d.insert p (.file data)).place? path = some p := by
    rw [place?_of_destination? hdestination, hself]
    rfl
  refine ⟨?_, ?_, ?_⟩
  · rw [Directory.find?, hplace, Option.bind_some, hself]
  · intro q hq
    rw [hplace] at hq
    exact get?_insert_of_ne d _ fun heq => hq (congrArg some heq.symm)
  · intro q hq
    rw [place?_of_destination? hp] at hq
    split at hq
    · rw [hplace, hq]
    · cases hq

theorem read_eq_ok_iff : d.read path = .ok data ↔ d.find? path = some (.file data) ∧ data ≠ [] := by
  rw [read]
  cases hfind : d.find? path with
  | none => exact ⟨nofun, nofun⟩
  | some e =>
      cases e with
      | directory => exact ⟨nofun, nofun⟩
      | file found =>
          cases found with
          | nil =>
              refine ⟨nofun, ?_⟩
              rintro ⟨heq, hne⟩
              cases heq
              exact absurd rfl hne
          | cons byte bytes =>
              constructor
              · intro heq
                cases heq
                exact ⟨rfl, nofun⟩
              · rintro ⟨heq, -⟩
                cases heq
                rfl

theorem isFile_of_read (h : d.read path = .ok data) : d.isFile path = true := by
  rw [isFile, (read_eq_ok_iff.mp h).1]

/-- The directory whose only entry is the file `a`. -/
def single (data : Bytes) : Directory :=
  ⟨[(["a"], .file data)]⟩

theorem find?_single (data : Bytes) : (single data).find? "a" = some (.file data) := by
  rfl

theorem read_single {data : Bytes} (hdata : data ≠ []) : (single data).read "a" = .ok data :=
  read_eq_ok_iff.mpr ⟨find?_single data, hdata⟩

theorem write_single (old data : Bytes) : write "a" data (single old) = (.ok (), single data) := by
  have hdestination : (single old).destination? "a" = some ["a"] := rfl
  have hget : (single old).get? ["a"] ≠ some .directory := by
    rw [show (single old).get? ["a"] = some (.file old) from rfl]
    nofun
  exact write_of_destination? rfl hdestination hget data

end CilEdit.Directory

namespace CilEdit

variable {origin : Nat} {d : Directory} {path : String} {data : Bytes} {m : Module}

theorem Image.ne_nil_of_read (h : Image.read origin data = .ok m) : data ≠ [] := by
  rintro rfl
  cases h

theorem Module.open_eq_ok (hfind : d.find? path = some (.file data))
    (hread : Image.read origin data = .ok m) : Module.open origin d path = .ok m :=
  (bind_of_ok (Directory.read_eq_ok_iff.mpr ⟨hfind, Image.ne_nil_of_read hread⟩)).trans hread

end CilEdit
