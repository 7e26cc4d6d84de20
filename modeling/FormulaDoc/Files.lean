/-!
Files by their paths in a working folder. A path is cleaned of empty names and single dots before it
is followed; two dots lead to the folder around, and from the root to the root. Of what is around the
working folder only the folders are known, and at the root only what every system has.
-/

namespace FormulaDoc

/-- What stands at a path: nothing, a text file, a folder, or something that no path so long can
name. -/
inductive Found where
  | nothing
  | text (s : String)
  | folder
  | longPath
  deriving DecidableEq

/-- The names on a path that matter. -/
def pathNames (path : String) : List String :=
  ((path.toList.splitOn '/').map String.ofList).filter fun name => name != "" && name != "."

/-- The path without empty names and single dots. -/
def cleanPath (path : String) : String :=
  let names := "/".intercalate (pathNames path)
  if path.startsWith "/" then "/" ++ names else if names = "" then "." else names

/-- The most bytes that a name may have. -/
def maxNameSize : Nat := 255

/-- The most bytes that a whole path may have. -/
def maxPathSize : Nat := 4095

/-- Text files by the names on their paths. -/
abbrev Files := List (List String × String)

namespace Files

def ofPaths (files : List (String × String)) : Files :=
  files.map fun (path, text) => (pathNames path, text)

/-- What stands at a place in the working folder. -/
def look (files : Files) (place : List String) : Found :=
  match files.lookup place with
  | some s => .text s
  | none =>
    if place = [] ∨ files.any fun (names, _) => place.isPrefixOf names then .folder else .nothing

end Files

/-- The folders at the root of a system. -/
def systemFolders : List String :=
  ["bin", "boot", "dev", "etc", "home", "lib", "media", "mnt", "opt", "proc", "root", "run", "sbin",
    "srv", "sys", "tmp", "usr", "var"]

/-- What stands at a place from the root on. -/
def lookAtRoot : List String → Found
  | [] => .folder
  | [name] => if name ∈ systemFolders then .folder else .nothing
  | place => if place = ["dev", "null"] then .text "" else .nothing

/-- What the rest of a path leads to from a place. The names that follow two dots at the top are left to
`above`, if there is anything above the top. -/
def followPath (look : List String → Found) (above : Option (List String → Found))
    (place : List String) : List String → Found
  | [] => look place
  | name :: rest =>
    if look place ≠ .folder then .nothing
    else if name = ".." then
      match place, above with
      | [], some above => above rest
      | _, _ => followPath look above place.dropLast rest
    else if maxNameSize < name.utf8ByteSize then .longPath
    else followPath look above (place ++ [name]) rest

/-- How deep a working folder may lie below the root. -/
def maxDepth : Nat := 8

/-- What the rest of a path leads to from the folder around the working folder. Enough steps up lead to
the root. -/
def followAround (names : List String) : Found :=
  let rest := names.dropWhile (· == "..")
  if maxDepth + rest.length ≤ names.length then followPath lookAtRoot none [] rest
  else
    match rest with
    | [] => .folder
    | name :: _ => if maxNameSize < name.utf8ByteSize then .longPath else .nothing

/-- What stands at a path. No path holds a zero character. -/
def Files.find (files : Files) (path : String) : Found :=
  if path.toList.contains '\x00' then .nothing
  else if maxPathSize < (cleanPath path).utf8ByteSize then .longPath
  else if path.startsWith "/" then followPath lookAtRoot none [] (pathNames path)
  else followPath files.look (some followAround) [] (pathNames path)

end FormulaDoc
