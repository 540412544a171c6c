import CilEdit.Body.Sequence
import CilEdit.Patch.Descriptor

/-!
The patch that lets the player skip the letter-by-letter display of dialogue.

The coroutine appends one character of the line per frame. The patch adds a check of the right
shift key to its loop and a block that shows the whole line at once and then goes on to the wait
after a finished line.
-/

namespace CilEdit.Dialogue

def name : String := "dialogue-controls"

def description : String := "hold Right Shift to show dialogue lines instantly"

def typeName : String := "Dialogue/<SlowText>c__IteratorD"

def methodName : String := "MoveNext"

/-- The code of the right shift key. -/
def rightShift : Int32 := 303

/-- The position of the wait after a finished line. -/
def resumeIndex : Nat := 101

/-- The position of the branch out of the loop. -/
def returnIndex : Nat := 138

/-- The skip block goes after this position. -/
def skipIndex : Nat := 141

/-- The key check goes after this position. -/
def keyCheckIndex : Nat := 68

def inputType : String := "UnityEngine.Input"

def textType : String := "UnityEngine.UI.Text"

def stringType : String := "System.String"

structure Request where
  typeName : String
  query : MethodQuery

def getKey : Request := ⟨inputType, ⟨"GetKey", some ["KeyCode"]⟩⟩

def getText : Request := ⟨textType, ⟨"get_text", some []⟩⟩

def setText : Request := ⟨textType, ⟨"set_text", some ["String"]⟩⟩

def concat : Request := ⟨stringType, ⟨"Concat", some ["String", "String"]⟩⟩

structure Symbols where
  getKey : Token
  getText : Token
  setText : Token
  concat : Token
  current : Token
  uiText : Token
  text : Token
  empty : Token

def importRequest (references : References) (r : Request) : ModuleStep Token := do
  let (source, _) ← Step.ofExcept (references.findType r.typeName)
  Module.importMethod source r.typeName r.query

def ownField (fieldName : String) : ModuleStep Token := do
  let field ← Step.read (·.findField typeName fieldName)
  return field.token

def importSymbols (references : References) : ModuleStep Symbols := do
  let getKey ← importRequest references getKey
  let getText ← importRequest references getText
  let setText ← importRequest references setText
  let concat ← importRequest references concat
  let current ← ownField "$current"
  let uiText ← ownField "uiText"
  let text ← ownField "<t>__0"
  let empty ← Step.modifyGet (·.userString "")
  return { getKey, getText, setText, concat, current, uiText, text, empty }

def isKeyCheck (m : Module) (i : Instruction Handle) : Bool :=
  match i.operand with
  | .token t =>
    i.calls t &&
      match m.memberRefOf? t with
      | some member =>
        member.name == getKey.query.name &&
          (m.typeRefOf? member.parent).any fun parent => parent.name == inputType
      | none => false
  | _ => false

/-- The positions that the patch relies on, with the opcodes they must have. -/
def anchors : List (Nat × Option Opcode) :=
  [(resumeIndex, some .ldarg0), (returnIndex, some .br), (skipIndex, none), (keyCheckIndex, none)]

def anchorDrift? (b : Body) (anchor : Nat × Option Opcode) : Option Drift :=
  let (index, expected) := anchor
  let found := (b.at? index).bind b.get?
  (match found, expected with
    | none, some opcode => some (Drift.between opcode.mnemonic "end of method")
    | none, none => some (Drift.between "an instruction" "end of method")
    | some i, some opcode => (Pattern.ofOpcode opcode).drift? i
    | some _, none => none).map fun (drift : Drift) => drift.locate (.index index)

def checkAnchors (b : Body) : Except Error Unit :=
  match anchors.filterMap (anchorDrift? b) with
  | [] => .ok ()
  | drifts => .error (.versionDrift (qualifiedName typeName methodName) drifts)

structure Site where
  place : Module.MethodPlace
  body : Body
  resume : Handle
  skip : Handle
  keyCheck : Handle

/-- Finds the anchors in a method that does not carry the patch yet. -/
def findSite (m : Module) : Except Error Site := do
  let (place, body) ← m.patchedBody typeName methodName
  if body.entries.any fun (_, i) => isKeyCheck m i then throw (.alreadyApplied name)
  checkAnchors body
  let resume ← body.handleAt resumeIndex
  let skip ← body.handleAt skipIndex
  let keyCheck ← body.handleAt keyCheckIndex
  return { place, body, resume, skip, keyCheck }

/-- The block that shows the rest of the line: nothing is yielded, the text gets the line appended,
the line becomes empty, and the wait follows. -/
def skipBlock (s : Symbols) (resume : Handle) : Sequence :=
  (Sequence.empty 0)
    |>.emit .ldarg0 .none
    |>.emit .ldnull .none
    |>.emit .stfld (.token s.current)
    |>.emit .ldarg0 .none
    |>.emit .ldfld (.token s.uiText)
    |>.emit .dup .none
    |>.emit .callvirt (.token s.getText)
    |>.emit .ldarg0 .none
    |>.emit .ldfld (.token s.text)
    |>.emit .call (.token s.concat)
    |>.emit .callvirt (.token s.setText)
    |>.emit .ldarg0 .none
    |>.emit .ldstr (.token s.empty)
    |>.emit .stfld (.token s.text)
    |>.branch .br (.existing resume)

/-- The check that goes to the skip block while the key is held. -/
def keyCheck (s : Symbols) (skip : Handle) : Sequence :=
  (Sequence.empty 0)
    |>.emit .ldcI4 (.immediate (.int32 rightShift))
    |>.emit .call (.token s.getKey)
    |>.branch .brtrue (.existing skip)

def insert (site : Site) (symbols : Symbols) : Step Error Body Nat := do
  let skip ← Body.splice site.skip (skipBlock symbols site.resume)
  let check ← Body.splice site.keyCheck (keyCheck symbols skip.first)
  return skip.handles.length + check.handles.length

def apply (references : References) : ModuleStep Outcome := do
  let site ← Step.read findSite
  let symbols ← importSymbols references
  let inserted ← ModuleStep.editBody site.place site.body (insert site symbols)
  return { name, method := qualifiedName typeName methodName, replaced := 0, inserted }

end CilEdit.Dialogue
