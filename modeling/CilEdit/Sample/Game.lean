import CilEdit.Journal.Coding
import CilEdit.Patch.Set

namespace CilEdit.Sample

def publicType : UInt32 := 0x1

def nestedPrivate : UInt32 := 0x3

def sealedType : UInt32 := 0x100

def assemblyField : UInt32 := 0x3

def coroutineFlags : MethodFlags := .ofBits 0x61

def publicStatic : MethodFlags := .ofBits 0x16

def publicStaticBySig : MethodFlags := .ofBits 0x96

def accessorFlags : MethodFlags := .ofBits 0x8C6

def boolean : String := "System.Boolean"

/-- Emits `nop` until the next instruction has a given position. -/
def padTo (s : Sequence) (position : Nat) : Sequence :=
  (List.range (position - s.length)).foldl (fun s _ => s.emit .nop .none) s

/-- One duration of the menu coroutine: `nop` up to its offset, then a literal that is popped, or
six `nop` in their place. The state is the code and its size. -/
def addDuration (nopAt : Option Nat) (state : Sequence × Nat) (offset : Nat) : Sequence × Nat :=
  let (s, size) := state
  let s := padTo s (s.length + (offset - size))
  let s :=
    if nopAt = some offset then padTo s (s.length + 6)
    else (s.emit .ldcR4 (.immediate (.float32 0x3FC00000))).emit .pop .none
  (s, max size offset + 6)

def menuCode (nopAt : Option Nat) : Sequence :=
  let (s, _) := Transitions.offsets.foldl (addDuration nopAt) (.empty 0, 0)
  (s.emit .ldcI41 .none).emit .ret .none

structure DialogueFields where
  pc : Token
  current : Token
  uiText : Token
  text : Token

def dialogueCode (f : DialogueFields) : Sequence :=
  let (start, s) := (Sequence.empty 0).label
  let (resume, s) := s.label
  let (stop, s) := s.label
  let s := s
    |>.emit .ldarg0 .none
    |>.emit .ldfld (.token f.pc)
    |>.switch [.label start, .label resume]
    |>.bind start
  let s := (padTo s (Dialogue.keyCheckIndex - 2))
    |>.emit .ldarg0 .none
    |>.emit .ldfld (.token f.uiText)
    |>.emit .pop .none
  let s := (padTo s Dialogue.resumeIndex)
    |>.bind resume
    |>.emit .ldarg0 .none
    |>.emit .ldnull .none
    |>.emit .stfld (.token f.current)
    |>.emit .ldcI41 .none
    |>.emit .ret .none
  let s := (padTo s Dialogue.returnIndex).branch .br (.label stop)
  (padTo s (Dialogue.skipIndex + 1))
    |>.bind stop
    |>.emit .ldcI40 .none
    |>.emit .ret .none

/-- The game as it is assembled; its bodies carry no offsets yet. -/
def gameDraft (origin : Nat) (nopAt : Option Nat) : Except Error Module := do
  let moveNext := Signature.ofInstance [] boolean
  let m := Module.empty "Assembly-CSharp.dll"
  let (_, m) := m.addType "StartGame" publicType
  let (iterator, m) := m.addType Transitions.typeName nestedPrivate
  let menu ← (menuCode nopAt).toBody ⟨origin, 1⟩
  let (_, m) ← m.addMethod iterator coroutineFlags Transitions.methodName moveNext (some menu)
  let (_, m) := m.addType "Dialogue" publicType
  let (iterator, m) := m.addType Dialogue.typeName nestedPrivate
  let (pc, m) ← m.addField iterator assemblyField "$PC" "System.Int32"
  let (current, m) ← m.addField iterator assemblyField "$current" "System.Object"
  let (uiText, m) ← m.addField iterator assemblyField "uiText" Dialogue.textType
  let (text, m) ← m.addField iterator assemblyField "<t>__0" Dialogue.stringType
  let dialogue ← (dialogueCode { pc, current, uiText, text }).toBody ⟨origin, 2⟩
  let (_, m) ← m.addMethod iterator coroutineFlags Dialogue.methodName moveNext (some dialogue)
  return m

/-- The game as it is loaded; `nopAt` leaves out the literal at one offset. -/
def game (origin : Nat) (nopAt : Option Nat) : Except Error Module := do
  Module.load origin (← (← gameDraft origin nopAt).toBytes)

def addMethods (m : Module) (owner : Token) (flags : MethodFlags)
    (methods : List (String × Signature)) : Except Error Module :=
  methods.foldlM (fun m (name, signature) =>
    (m.addMethod owner flags name signature none).map Prod.snd) m

def mscorlib : Except Error Module := do
  let string := Dialogue.stringType
  let object := "System.Object"
  let (_, m) := (Module.empty "mscorlib.dll").addType object publicType
  let (owner, m) := m.addType string (publicType + sealedType)
  addMethods m owner publicStaticBySig
    ([[object, object], [string, string], [string, string, string]].map fun params =>
      ("Concat", .ofStatic params string))

def unity : Except Error Module := do
  let keyCode := "UnityEngine.KeyCode"
  let (_, m) := (Module.empty "UnityEngine.dll").addType keyCode (publicType + sealedType)
  let (owner, m) := m.addType Dialogue.inputType publicType
  addMethods m owner publicStatic
    ([Dialogue.stringType, keyCode].map fun param => ("GetKey", .ofStatic [param] boolean))

def unityUi : Except Error Module :=
  let (owner, m) := (Module.empty "UnityEngine.UI.dll").addType Dialogue.textType publicType
  addMethods m owner accessorFlags
    [("get_text", .ofInstance [] Dialogue.stringType),
      ("set_text", .ofInstance [Dialogue.stringType] Signature.void)]

def ofName? (origin : Nat) (nopAt : Option Nat) : String → Option (Except Error Module)
  | "game" => some (game origin nopAt)
  | "mscorlib" => some mscorlib
  | "unity" => some unity
  | "unity_ui" => some unityUi
  | _ => none

/-- The journal of making a sample: only the game has bodies to encode. -/
def journal (origin : Nat) (nopAt : Option Nat) (name : String) : Journal :=
  match name, gameDraft origin nopAt with
  | "game", .ok draft => Image.writeJournal draft
  | _, _ => []

end CilEdit.Sample
