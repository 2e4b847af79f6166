/-
The covered tree (`amber/prune.go`).

`PruneTree` keeps the given paths of a tree, with the directories above them, and
normalises the metadata of every entry it keeps: owner and group zero, one fixed time,
permissions and extended attributes as they are.  `NormalizeTree` keeps everything.
-/
import JobsIroh.Amber.Tree
import JobsIroh.Lib.PrefixTrie

namespace JobsIroh.Tree

/-- The time stamped on every entry of a covered tree. -/
def coverEpochNano : Int := 315532800 * 1000000000

def Attr.normal (a : Attr) : Attr := { a with uid := 0, gid := 0, mtime := coverEpochNano }

/-- `path.Clean` of an absolute path: `..` stops at the root. -/
def cleanRooted (p : Path) : Path :=
  p.foldl (fun acc s =>
    if s = "" ∨ s = "." then acc
    else if s = ".." then acc.dropLast
    else acc ++ [s]) []

/-- A location in an error message. -/
def shown (p : Path) : String := if p = [] then "." else "/".intercalate p

/-- The names below a trie node that a directory has no entry of. -/
def unmatched (t : PrefixTrie String) (d : Dir) : List String :=
  t.names.filter fun n => n ∉ d.names

/-- Every path to be kept below `loc` is in its directory; which is reported is open. -/
def checkMatched (loc : Path) (t : PrefixTrie String) (d r : Dir) : Except String Dir :=
  match unmatched t d with
  | [] => .ok r
  | n :: _ => .error ("prune: covered path " ++ shown (loc ++ [n]) ++ " not found in tree")

def pruneEntries (loc : Path) : Dir → PrefixTrie String → Except String Dir
  | .nil, _ => .ok .nil
  | .leaf a l rest, t =>
    match t.child a.name with
    | none => pruneEntries loc rest t
    | some c =>
      if c.isFull then (pruneEntries loc rest t).map (.leaf a.normal l ·)
      else .error ("prune: covered path descends into non-directory " ++ shown loc ++ "/" ++ a.name)
  | .sub a d rest, t =>
    match t.child a.name with
    | none => pruneEntries loc rest t
    | some c =>
      match pruneEntries (loc ++ [a.name]) d c with
      | .error e => .error e
      | .ok d' =>
        match checkMatched (loc ++ [a.name]) c d d' with
        | .error e => .error e
        | .ok d' => (pruneEntries loc rest t).map (.sub a.normal d' ·)

@[simp] theorem pruneEntries_nil (loc : Path) (t : PrefixTrie String) :
    pruneEntries loc .nil t = .ok .nil := by
  rw [pruneEntries]

def pruneDir (loc : Path) (d : Dir) (t : PrefixTrie String) : Except String Dir :=
  match pruneEntries loc d t with
  | .error e => .error e
  | .ok r => checkMatched loc t d r

def pruneTree (root : Dir) (keep : List Path) : Except String Dir :=
  let words := keep.map cleanRooted
  if [] ∈ words then .error "prune: covered path \"\" resolves to the context root"
  else if words = [] then .error "prune: empty keep set"
  else pruneDir [] root (.ofList words)

def normalizeTree (root : Dir) : Except String Dir := pruneDir [] root .full

end JobsIroh.Tree
