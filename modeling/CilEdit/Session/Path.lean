namespace CilEdit.Path

def segments (path : String) : List String :=
  if path.isEmpty then [] else (path.toList.splitOn '/').map String.ofList

def isAbsolute (path : String) : Bool :=
  (segments path).head? == some ""

def isVoid (segment : String) : Bool :=
  segment == "" || segment == "."

/-- Whether a segment can name an entry: it leads down, has at most 255 bytes and no zero byte. -/
def isName (segment : String) : Bool :=
  !isVoid segment && segment != ".." && segment.utf8ByteSize ≤ 255
    && !segment.toList.contains '\x00'

def ofSegments (segments : List String) : String :=
  "/".intercalate segments

def trim (segments : List String) : List String :=
  (segments.reverse.dropWhile isVoid).reverse

/-- Segments without the void ones at their end; the root in front of them stays. -/
def trimEnd : List String → List String
  | "" :: rest => "" :: trim rest
  | segments => trim segments

/-- The segments of the folder around a path. There are none for the folder that paths start
from. -/
def parent (path : String) : List String :=
  match trimEnd (segments path) with
  | [] => [".."]
  | own => trimEnd own.dropLast

/-- The front of a path up to its name; `here` leads to the folder that paths start from. -/
def folder (here path : String) : String :=
  match parent path with
  | [] => here
  | own => ofSegments own ++ "/"

/-- A path below a folder; an absolute path is the same below all of them. -/
def below (folder path : String) : String :=
  if isAbsolute path then path else folder ++ path

def fileName (path : String) : String :=
  (segments path).getLast?.getD ""

def unslashed (path : String) : String :=
  ofSegments ((segments path).reverse.dropWhile String.isEmpty).reverse

def plain (path : String) : String :=
  ofSegments ((segments path).dropWhile isVoid)

def ways (path : String) : List String :=
  (List.range (segments path).length).map fun k => ofSegments ((segments path).take (k + 1))

end CilEdit.Path
