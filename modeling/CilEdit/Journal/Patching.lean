import CilEdit.Journal.Note
import CilEdit.Patch.Set

namespace CilEdit

namespace Body

def replaceJournal (b : Body) (h : Handle) (i : Instruction Handle) : Journal :=
  match b.instruction h, (Body.replace h i b).1 with
  | .ok old, .ok _ => [.replacing old i]
  | _, _ => []

def removeJournal (b : Body) (h : Handle) : Journal :=
  match b.instruction h, (Body.remove h b).1 with
  | .ok old, .ok _ => [.removing old]
  | _, _ => []

def spliceJournal (b : Body) (anchor : Handle) (s : Sequence) : Journal :=
  match b.instruction anchor, (Body.splice anchor s b).1 with
  | .ok i, .ok _ => [.splicing s.length i]
  | _, _ => []

end Body

namespace Module

def importTypeJournal (m : Module) (scope name : String) : Journal :=
  match m.importedType? scope name with
  | some _ => []
  | none => [.importedType scope name (m.importType scope name).1]

def importMemberJournal (m : Module) (scope typeName name : String) (kind : MemberKind) :
    Journal :=
  let (parent, after) := m.importType scope typeName
  m.importTypeJournal scope typeName ++
    match after.importedMember? parent name kind with
    | some _ => []
    | none => [.importedMember name (m.importMember scope typeName name kind).1]

def importMethodJournal (m source : Module) (typeName : String) (q : MethodQuery) : Journal :=
  match source.findMethod typeName q with
  | .ok method => m.importMemberJournal source.name typeName method.name (.method method.signature)
  | .error _ => []

def importFieldJournal (m source : Module) (typeName name : String) : Journal :=
  match source.findField typeName name with
  | .ok field => m.importMemberJournal source.name typeName field.name (.field field.type)
  | .error _ => []

end Module

namespace Descriptor

def resolveJournal (d : Descriptor) (b : Body) : Journal :=
  match d.findings b, d.resolve b with
  | .ok findings, .error (.incompletePatch ..) =>
    let applied := appliedCount findings
    if applied = 0 then [] else [.partlyApplied d.name applied d.replaceCount]
  | _, _ => []

def replaceAllJournal (b : Body) : List (Site × Handle × Instruction Handle) → Journal
  | [] => []
  | (s, h, i) :: rest =>
    .patchingSite s.locator s.expect i :: b.replaceJournal h i ++
      match Body.replace h i b with
      | (.ok _, b) => replaceAllJournal b rest
      | (.error _, _) => []

def journal (d : Descriptor) (m : Module) : Journal :=
  match d.validate, m.patchedBody d.typeName d.methodName with
  | .ok (), .ok (_, b) =>
    d.resolveJournal b ++
      match d.plan m with
      | .ok (_, b, edits) => replaceAllJournal b edits
      | .error _ => []
  | _, _ => []

end Descriptor

namespace Dialogue

/-- The journal of the imports of some methods, up to the first that fails. -/
def importJournal (references : References) (m : Module) : List Request → Journal
  | [] => []
  | r :: rest =>
    match references.findType r.typeName with
    | .error _ => []
    | .ok (source, _) =>
      m.importMethodJournal source r.typeName r.query ++
        match importRequest references r m with
        | (.ok _, m) => importJournal references m rest
        | (.error _, _) => []

def insertJournal (site : Site) (s : Symbols) : Journal :=
  let block := skipBlock s site.resume
  site.body.spliceJournal site.skip block ++
    match Body.splice site.skip block site.body with
    | (.ok skip, body) =>
      .insertedSkipBlock skip.first :: body.spliceJournal site.keyCheck (keyCheck s skip.first)
    | (.error _, _) => []

def journal (references : References) (m : Module) : Journal :=
  match findSite m with
  | .error _ => []
  | .ok site =>
    importJournal references m [getKey, getText, setText, concat] ++
      match importSymbols references m with
      | (.ok symbols, _) => insertJournal site symbols
      | (.error _, _) => []

end Dialogue

def Patch.journal (p : Patch) (references : References) (m : Module) : Journal :=
  match p with
  | .sites d => d.journal m
  | .dialogue => Dialogue.journal references m
  | .procedure .. => []

namespace PatchSet

/-- The journal of patches applied in order, up to the first that fails. -/
def listJournal (references : References) (m : Module) : List Patch → Journal
  | [] => []
  | p :: rest =>
    .applyingPatch p.name p.description :: p.journal references m ++
      match p.apply references m with
      | (.ok outcome, m) => .appliedPatch outcome :: listJournal references m rest
      | (.error _, _) => []

def journal (s : PatchSet) (references : References) (m : Module) : Journal :=
  listJournal references m s.patches

end PatchSet

end CilEdit
