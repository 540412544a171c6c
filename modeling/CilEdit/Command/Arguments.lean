namespace CilEdit.Command

structure Arguments where
  path : Option String
  dryRun : Bool
  list : Bool
  json : Bool
  verbose : Bool
  deriving DecidableEq, Repr

inductive Request
  | version
  | help
  | invalid
  | run (arguments : Arguments)
  deriving DecidableEq, Repr

namespace Arguments

def none : Arguments :=
  ⟨.none, false, false, false, false⟩

/-- Sets a switch; no switch may be given twice. -/
def long (a : Arguments) : String → Option Arguments
  | "--dry-run" => if a.dryRun then .none else some { a with dryRun := true }
  | "--list" => if a.list then .none else some { a with list := true }
  | "--json" => if a.json then .none else some { a with json := true }
  | "--verbose" => if a.verbose then .none else some { a with verbose := true }
  | _ => .none

def positional (a : Arguments) (argument : String) : Option Arguments :=
  match a.path with
  | .none => if argument.isEmpty then .none else some { a with path := some argument }
  | some _ => .none

/-- The arguments are complete. A listing excludes a path and a dry run. -/
def finish (a : Arguments) : Request :=
  if a.list ∧ (a.path.isSome ∨ a.dryRun) then .invalid else .run a

def short (a : Arguments) : List Char → Arguments ⊕ Request
  | [] => .inl a
  | 'V' :: _ => .inr .version
  | 'h' :: _ => .inr .help
  | 'v' :: rest =>
    match a.long "--verbose" with
    | some a => a.short rest
    | .none => .inr .invalid
  | _ => .inr .invalid

def rest (a : Arguments) : List String → Request
  | [] => a.finish
  | argument :: others =>
    match a.positional argument with
    | some a => a.rest others
    | .none => .invalid

def take (a : Arguments) : List String → Request
  | [] => a.finish
  | "--" :: others => a.rest others
  | "--version" :: _ => .version
  | "--help" :: _ => .help
  | argument :: others =>
    match argument.toList with
    | '-' :: '-' :: _ =>
      match a.long argument with
      | some a => a.take others
      | .none => .invalid
    | '-' :: letter :: letters =>
      match a.short (letter :: letters) with
      | .inl a => a.take others
      | .inr request => request
    | _ =>
      match a.positional argument with
      | some a => a.take others
      | .none => .invalid

end Arguments

def Request.ofArguments (arguments : List String) : Request :=
  Arguments.none.take arguments

end CilEdit.Command
