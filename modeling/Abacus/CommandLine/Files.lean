/-! Files by relative path. -/
namespace Abacus.CommandLine

/-- A path without empty and `.` parts; `..` stays. -/
structure Path where
  /-- The slashes that it starts with, of which there may be one or two. -/
  root : String
  parts : List String
deriving DecidableEq, Inhabited

namespace Path

def ofString (text : String) : Path where
  root :=
    if text.startsWith "//" && !text.startsWith "///" then "//"
    else if text.startsWith "/" then "/"
    else ""
  parts := (text.splitOn "/").filter fun part => part ≠ "" && part ≠ "."

def render (p : Path) : String :=
  if p.root = "" && p.parts.isEmpty then "." else p.root ++ "/".intercalate p.parts

end Path

def plainNewlines : List Char → List Char
  | [] => []
  | '\r' :: '\n' :: rest => '\n' :: plainNewlines rest
  | '\r' :: rest => '\n' :: plainNewlines rest
  | c :: rest => c :: plainNewlines rest

structure Folder where
  files : List (List String × String) := []

namespace Folder

def isFolder (f : Folder) (parts : List String) : Bool :=
  parts.isEmpty || f.files.any fun (path, _) => parts.isPrefixOf path && path ≠ parts

def follow (f : Folder) (here : List String) : List String → Option String
  | [] => none
  | [part] => if part = ".." then none else f.files.lookup (part :: here).reverse
  | ".." :: rest =>
    match here with
    | [] => none
    | _ :: up => follow f up rest
  | part :: rest =>
    if f.isFolder (part :: here).reverse then follow f (part :: here) rest else none

def read? (f : Folder) (p : Path) : Option String :=
  if p.root = "" then f.follow [] p.parts else none

end Folder

end Abacus.CommandLine
