/-
Generated files on top of a tree (`amber/overlay.go`).

`OverlayTree` first collects the generated files in a tree of their own, then lays that
over the covered one: a generated file replaces or adds a file, a generated directory is
merged into a directory that is there.  The tree of generated files is a `Dir` whose
entries already carry the fixed metadata they get, so a directory that exists only in
the overlay is taken over as it is.

The files are a Go map.  Here they are a list in the order in which the map is
iterated, and each path is given by its components.
-/
import JobsIroh.Amber.Prune

namespace JobsIroh.Tree

/-- An entry with a directory's other entries after it. -/
def Node.cons (a : Attr) (rest : Dir) : Node → Dir
  | .leaf l => .leaf a l rest
  | .sub d => .sub a d rest

/-- Add an entry in name order, or replace the one of that name. -/
def Dir.put (a : Attr) (node : Node) : Dir → Dir
  | .nil => node.cons a .nil
  | .leaf b l rest =>
    if a.name = b.name then node.cons a rest
    else if a.name < b.name then node.cons a (.leaf b l rest)
    else .leaf b l (rest.put a node)
  | .sub b d rest =>
    if a.name = b.name then node.cons a rest
    else if a.name < b.name then node.cons a (.sub b d rest)
    else .sub b d (rest.put a node)

def generatedFile (name : String) : Attr := { name, perm := 0o444, mtime := coverEpochNano }

def generatedDir (name : String) : Attr := { name, perm := 0o555, mtime := coverEpochNano }

/-- Add a file to the tree of generated files; `p` is its whole path. -/
def addFile (p : Path) (content : Bytes) : Dir → List String → Except String Dir
  | _, [] => .error "overlay: generated path resolves to the root"
  | d, [seg] =>
    match d.find seg with
    | none => .ok (d.put (generatedFile seg) (.leaf (.file content)))
    | some _ => .error ("overlay: generated path \"" ++ shown p ++
        "\" conflicts with another generated entry")
  | d, seg :: next :: segs =>
    match d.find seg with
    | none =>
      (addFile p content .nil (next :: segs)).map fun s => d.put (generatedDir seg) (.sub s)
    | some (_, .leaf _) => .error ("overlay: generated path \"" ++ shown p ++
        "\" descends into generated file")
    | some (a, .sub d') => (addFile p content d' (next :: segs)).map fun s => d.put a (.sub s)

/-- The tree of the generated files. -/
def overlayTrie : Dir → List (Path × Bytes) → Except String Dir
  | d, [] => .ok d
  | d, (p, content) :: files =>
    match addFile (cleanRooted p) content d (cleanRooted p) with
    | .error e => .error e
    | .ok d => overlayTrie d files

/-- Lay the generated entries, in name order, over a directory. -/
def overlayDir (loc : Path) : Dir → Dir → Except String Dir
  | .nil, d => .ok d
  | .leaf a l rest, d =>
    match d.find a.name with
    | some (_, .sub _) =>
      .error ("overlay: generated file " ++ shown (loc ++ [a.name]) ++
        " replaces a covered directory")
    | _ => overlayDir loc rest (d.put a (.leaf l))
  | .sub a new rest, d =>
    match d.find a.name with
    | some (b, .sub old) =>
      match overlayDir (loc ++ [a.name]) new old with
      | .error e => .error e
      | .ok merged => overlayDir loc rest (d.put b (.sub merged))
    | some (_, .leaf _) =>
      .error ("overlay: generated path descends into non-directory " ++ shown (loc ++ [a.name]))
    | none => overlayDir loc rest (d.put a (.sub new))

def overlayTree (root : Dir) (files : List (Path × Bytes)) : Except String Dir :=
  match overlayTrie .nil files with
  | .error e => .error e
  | .ok new => overlayDir [] new root

end JobsIroh.Tree
