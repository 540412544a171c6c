import CilEdit.Metadata.Image
import CilEdit.Metadata.References
import CilEdit.Session.Path

/-!
The files that a run sees.

A `Directory` holds files and directories by the names that lead to them. A path is walked one
segment at a time, and each segment needs a directory to stand on. A file is replaced as a whole or
not at all: `write` either gives the directory with the new file or fails and leaves it as it was.
-/

namespace CilEdit

inductive Entry
  | file (data : Bytes)
  | directory
  deriving DecidableEq, Repr

/-- Where an entry is: the names that lead to it, the innermost first. Places outside the directory
end in `..` or `/`. -/
abbrev Place := List String

namespace Place

def root : Place := ["/"]

def up : Place → Place
  | [] => [".."]
  | name :: p => if name = ".." then ".." :: name :: p else if name = "/" then [name] else p

def isAround (p : Place) : Bool :=
  p.all (· == "..") || p == root

end Place

/-- The entries of one working directory, by place; no place occurs twice. -/
structure Directory where
  entries : List (Place × Entry)
  deriving DecidableEq, Repr

namespace Directory

def empty : Directory := ⟨[]⟩

def get? (d : Directory) (p : Place) : Option Entry :=
  if p.isAround then some .directory else d.entries.lookup p

def isFolder (d : Directory) (p : Place) : Bool :=
  d.get? p == some .directory

def step (d : Directory) (p : Place) (segment : String) : Option Place :=
  if !d.isFolder p then none
  else if Path.isVoid segment then some p
  else if segment = ".." then some p.up
  else if (d.get? (segment :: p)).isSome then some (segment :: p)
  else none

def walk (d : Directory) (start : Place) (segments : List String) : Option Place :=
  segments.foldlM d.step start

def start (path : String) : Place :=
  if Path.isAbsolute path then .root else []

def place? (d : Directory) (path : String) : Option Place :=
  d.walk (start path) (Path.segments path)

def find? (d : Directory) (path : String) : Option Entry :=
  (d.place? path).bind d.get?

def isFile (d : Directory) (path : String) : Bool :=
  match d.find? path with
  | some (.file _) => true
  | _ => false

def destination? (d : Directory) (path : String) : Option Place := do
  let folder ← d.walk (start path) (Path.segments path).dropLast
  if d.isFolder folder && Path.isName (Path.fileName path) then some (Path.fileName path :: folder)
  else none

def erase (d : Directory) (p : Place) : Directory :=
  ⟨d.entries.filter fun e => e.1 != p⟩

def insert (d : Directory) (p : Place) (e : Entry) : Directory :=
  ⟨(d.erase p).entries ++ [(p, e)]⟩

theorem lookup_filter_self (es : List (Place × Entry)) (p : Place) :
    (es.filter fun e => e.1 != p).lookup p = none := by
  rw [List.lookup_eq_none_iff]
  intro e he
  have hp : e.1 ≠ p := by simpa using (List.mem_filter.mp he).2
  simpa using fun h => hp h.symm

theorem lookup_filter_of_ne (es : List (Place × Entry)) {p q : Place} (h : q ≠ p) :
    (es.filter fun e => e.1 != p).lookup q = es.lookup q := by
  induction es with
  | nil => rfl
  | cons e es ih =>
    obtain ⟨r, e⟩ := e
    by_cases hr : r = p
    · subst hr
      have hq : (q == r) = false := by simpa using h
      simpa [List.lookup_cons, hq] using ih
    · simp only [List.filter_cons, bne_iff_ne, ne_eq, hr, not_false_eq_true, if_true,
        List.lookup_cons, ih]

theorem get?_insert_self (d : Directory) {p : Place} (e : Entry) (h : p.isAround = false) :
    (d.insert p e).get? p = some e := by
  simp [get?, h, insert, erase, List.lookup_append, lookup_filter_self]

theorem get?_insert_of_ne (d : Directory) {p q : Place} (e : Entry) (h : q ≠ p) :
    (d.insert p e).get? q = d.get? q := by
  have hq : (q == p) = false := by simpa using h
  simp [get?, insert, erase, List.lookup_append, lookup_filter_of_ne _ h, List.lookup_cons, hq]

/-- With a file at a path that no directory has, or a directory at a path that nothing has. Only
the path of a directory may end in slashes. -/
def add? (d : Directory) (path : String) (e : Entry) : Option Directory := do
  let p ← d.destination? (if e = .directory then Path.unslashed path else path)
  match e, d.get? p with
  | .file _, some .directory | .directory, some _ => none
  | _, _ => some (d.insert p e)

def remove? (d : Directory) (path : String) : Option Directory := do
  let p ← d.place? path
  if d.isFolder p then none else some (d.erase p)

/-- The entries of the directory itself, without those deeper down. -/
def listing (d : Directory) : List (String × Entry) :=
  d.entries.filterMap fun (p, e) =>
    match p with
    | [name] => some (name, e)
    | _ => none

def read (d : Directory) (path : String) : Except Error Bytes :=
  match d.find? path with
  | none => .error (.fileNotFound path)
  | some .directory => .error .file
  | some (.file []) => Error.bad (.emptyFile path)
  | some (.file data) => .ok data

/-- Replaces the file at a path, or fails and changes nothing. The new file is staged in the folder
around the path, so that has to be there. -/
def write (path : String) (data : Bytes) : Step Error Directory Unit := fun d =>
  match (d.walk (start path) (Path.parent path)).bind d.get? with
  | some .directory =>
    match d.add? path (.file data) with
    | some d => (.ok (), d)
    | none => (.error (.persist path), d)
  | _ => (.error .file, d)

end Directory

def Module.open (origin : Nat) (d : Directory) (path : String) : Except Error Module := do
  Image.read origin (← d.read path)

def Module.save (m : Module) (path : String) : Step Error Directory Unit := do
  Directory.write path (← Step.ofExcept m.toBytes)

def References.open (origin : Nat) (d : Directory) (folder : String) (names : List String) :
    Except Error References :=
  names.zipIdx.mapM fun (name, index) =>
    Module.open (origin + index) d (Path.below folder name)

end CilEdit
