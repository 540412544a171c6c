namespace CilEdit.Text

inductive Align
  | left | right
  deriving DecidableEq, Repr

structure Table where
  columns : List (String × Align)
  rows : List (List String)

namespace Table

def pad (width : Nat) (align : Align) (cell : String) : String :=
  let blanks := String.ofList (List.replicate (width - cell.length) ' ')
  match align with
  | .left => cell ++ blanks
  | .right => blanks ++ cell

def trimEnd (line : String) : String :=
  String.ofList (line.toList.reverse.dropWhile (· == ' ')).reverse

def width (t : Table) (index : Nat) (header : String) : Nat :=
  (t.rows.map fun row => (row[index]?.getD "").length).foldl max header.length

def lines (t : Table) : List String :=
  let layout := t.columns.mapIdx fun index (header, align) => (t.width index header, align)
  (t.columns.map Prod.fst :: t.rows).map fun row =>
    trimEnd ("  ".intercalate ((row.zip layout).map fun (cell, width, align) =>
      pad width align cell))

end Table

end CilEdit.Text
