import CilEdit.Text.Hex

namespace CilEdit.Text

inductive Json
  | bool (value : Bool)
  | number (value : Nat)
  | string (value : String)
  | array (items : List Json)
  | object (fields : List (String × Json))

namespace Json

def escape (c : Char) : String :=
  if c = '"' then "\\\""
  else if c = '\\' then "\\\\"
  else if c = '\n' then "\\n"
  else if c = '\r' then "\\r"
  else if c = '\t' then "\\t"
  else if c.toNat = 8 then "\\b"
  else if c.toNat = 12 then "\\f"
  else if c.toNat < 32 then "\\u" ++ Hex.padded 4 c.toNat
  else c.toString

def quote (text : String) : String :=
  "\"" ++ String.join (text.toList.map escape) ++ "\""

def lineBreak (level : Nat) : String :=
  "\n" ++ String.ofList (List.replicate (2 * level) ' ')

/-- Items on lines of their own between brackets; without items only the brackets. -/
def bracketed (opening closing : String) (level : Nat) (items : List String) : String :=
  if items.isEmpty then opening ++ closing
  else
    opening ++ lineBreak (level + 1) ++ ("," ++ lineBreak (level + 1)).intercalate items
      ++ lineBreak level ++ closing

mutual

def render (level : Nat) : Json → String
  | .bool value => if value then "true" else "false"
  | .number value => toString value
  | .string value => quote value
  | .array items => bracketed "[" "]" level (renderItems (level + 1) items)
  | .object fields => bracketed "\x7b" "\x7d" level (renderFields (level + 1) fields)

def renderItems (level : Nat) : List Json → List String
  | [] => []
  | item :: rest => item.render level :: renderItems level rest

def renderFields (level : Nat) : List (String × Json) → List String
  | [] => []
  | (name, value) :: rest => (quote name ++ ": " ++ value.render level) :: renderFields level rest

end

end Json

end CilEdit.Text
