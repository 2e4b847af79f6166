/-
The closure walk (`cover/cover.go`).

`Walk` starts from the build dir and the declared paths, `WalkClosure` from the
declared paths alone.  A path is resolved component by component; every symlink passed
joins the covered paths, and so does the place where the resolution ends.  A link found
there, and every link in a directory found there, is chased: its target, joined to the
link's directory and cleaned as a string, is covered in turn.

`resolve` restarts from the root with every link it passes, so one stretch of it from
the root to the next link is `hop`, and the budget counts the stretches.  `cover` is
bounded by fuel; running out is an error of its own.
-/
import JobsIroh.Amber.Prune
import JobsIroh.Lib.Paths
import Mathlib.Data.List.Dedup
import Mathlib.Data.List.Sort

namespace JobsIroh.Cover

open JobsIroh.Tree
open Paths (isAbs cleanRel escapes)

/-- Symlinks one resolution may pass. -/
def linkBudget : Nat := 40

/-- The path in quotes; the cleaned path without a component is the dot. -/
def quoted (p : Path) : String :=
  "\"" ++ (if p = [] then "." else "/".intercalate p) ++ "\""

/-! ### Resolving a path -/

/-- How a stretch of a resolution ends. -/
inductive Hop where
  | missing
  /-- The last component, with nothing after it. -/
  | found (loc : Path) (node : Node)
  /-- A symlink in the directory `cur`, with components after it. -/
  | through (cur : Path) (name : String) (target : Path) (rest : List String)
  | blocked (loc : Path)
  | atRoot
  deriving DecidableEq, Repr

def hop : Path → Dir → List String → Hop
  | _, _, [] => .atRoot
  | cur, dir, seg :: segs =>
    if seg = "" ∨ seg = "." then hop cur dir segs
    else
      match dir.find seg with
      | none => .missing
      | some (_, node) =>
        if segs = [] then .found (cur ++ [seg]) node
        else
          match node with
          | .leaf (.link target) => .through cur seg target segs
          | .leaf _ => .blocked (cur ++ [seg])
          | .sub d => hop (cur ++ [seg]) d segs

inductive Outcome where
  | missing
  | found (loc : Path) (node : Node)
  | failed (text : String)
  deriving DecidableEq, Repr

/-- `resolve` from the root on: the symlinks met, and how it ends. -/
def resolveFrom (root : Dir) (p : Path) (budget : Nat) (segs : List String) :
    List Path × Outcome :=
  match hop [] root segs with
  | .missing => ([], .missing)
  | .atRoot => ([], .failed ("cover: path " ++ quoted p ++ " resolves to the context root"))
  | .blocked loc =>
    ([], .failed ("cover: path " ++ quoted p ++ " descends into non-directory " ++ quoted loc))
  | .found loc (.leaf (.link target)) =>
    match budget with
    | 0 => ([], .failed ("cover: symlink loop resolving " ++ quoted p ++ " (budget 40 exceeded)"))
    | _ + 1 => ([loc], .found loc (.leaf (.link target)))
  | .found loc node => ([], .found loc node)
  | .through cur name target rest =>
    match budget with
    | 0 => ([], .failed ("cover: symlink loop resolving " ++ quoted p ++ " (budget 40 exceeded)"))
    | budget + 1 =>
      let full := cur ++ [name]
      if isAbs target then
        ([full], .failed ("cover: path " ++ quoted p ++ " traverses symlink " ++ quoted full ++
          " with absolute target " ++ quoted target ++ " (escapes the context)"))
      else if escapes (cleanRel (cur ++ target)) then
        ([full], .failed ("cover: path " ++ quoted p ++ " traverses symlink " ++ quoted full ++
          " whose target escapes the context root"))
      else
        let out := resolveFrom root p budget (cleanRel (cur ++ target) ++ rest)
        (full :: out.1, out.2)

def resolve (root : Dir) (p : Path) : List Path × Outcome := resolveFrom root p linkBudget p

/-! ### Covering -/

structure Walker where
  covered : List Path := []
  visited : List Path := []
  warnings : List (Path × String) := []
  deriving DecidableEq, Repr

inductive CoverError where
  | outOfFuel
  | failed (text : String)
  deriving DecidableEq, Repr

/-- One covered symlink, at a location that needs no more resolving. -/
def chaseLink (next : Path → Walker → Except CoverError Walker) (allow : List Path)
    (loc target : Path) (w : Walker) : Except CoverError Walker :=
  if isAbs target then
    if loc ∈ allow then .ok w
    else .error (.failed ("cover: symlink " ++ quoted loc ++ " targets absolute path " ++
      quoted target ++
      " (escapes the context; add it to sources_allow_escaping to keep it dangling)"))
  else if escapes (cleanRel (loc.dropLast ++ target)) then
    if loc ∈ allow then .ok w
    else .error (.failed ("cover: symlink " ++ quoted loc ++ " target " ++ quoted target ++
      " escapes the context root (add it to sources_allow_escaping to keep it dangling)"))
  else next (cleanRel (loc.dropLast ++ target)) w

/-- Every symlink of a directory and of those below it. -/
def scanDir (chase : Path → Path → Walker → Except CoverError Walker) :
    Path → Dir → Walker → Except CoverError Walker
  | _, .nil, w => .ok w
  | loc, .leaf a (.link target) rest, w =>
    match chase (loc ++ [a.name]) target w with
    | .error e => .error e
    | .ok w => scanDir chase loc rest w
  | loc, .leaf _ _ rest, w => scanDir chase loc rest w
  | loc, .sub a d rest, w =>
    match scanDir chase (loc ++ [a.name]) d w with
    | .error e => .error e
    | .ok w => scanDir chase loc rest w

/-- What is done at the place where a resolution ended. -/
def follow (next : Path → Walker → Except CoverError Walker) (allow : List Path) (loc : Path) :
    Node → Walker → Except CoverError Walker
  | .leaf (.link target), w => chaseLink next allow loc target w
  | .leaf _, w => .ok w
  | .sub d, w => scanDir (chaseLink next allow) loc d w

def cover (root : Dir) (allow : List Path) :
    Nat → Path → Bool → Walker → Except CoverError Walker
  | 0, _, _, _ => .error .outOfFuel
  | fuel + 1, p, declared, w =>
    if p ∈ w.visited then .ok w
    else
      let (links, out) := resolve root p
      let w := { w with visited := p :: w.visited, covered := links ++ w.covered }
      match out with
      | .failed text => .error (.failed text)
      | .missing =>
        if declared then
          .error (.failed ("cover: declared source " ++ quoted p ++ " not found in the context"))
        else .ok { w with warnings := w.warnings ++
          [(p, "chased symlink target does not exist in the context; link kept dangling")] }
      | .found loc node =>
        let w := { w with covered := p :: w.covered }
        -- A path that went through symlinks covers the place it led to as well.
        match (if loc = p then .ok w else cover root allow fuel loc false w) with
        | .error e => .error e
        | .ok w => follow (fun q => cover root allow fuel q false) allow loc node w

def coverAll (root : Dir) (allow : List Path) (fuel : Nat) :
    List Path → Walker → Except CoverError Walker
  | [], w => .ok w
  | p :: seeds, w =>
    match cover root allow fuel p true w with
    | .error e => .error e
    | .ok w => coverAll root allow fuel seeds w

structure WalkResult where
  paths : List Path
  warnings : List (Path × String)
  deriving DecidableEq, Repr

/-- The covered paths without repetitions, in the order of their strings. -/
def Walker.result (w : Walker) : WalkResult :=
  { paths := w.covered.dedup.insertionSort fun p q => "/".intercalate p ≤ "/".intercalate q
    warnings := w.warnings }

/-- The build dir, when there is one, and the declared paths. -/
def seeds (dir : Path) (declared : List Path) : List Path :=
  if dir = [""] then declared else dir :: declared

def walk (root : Dir) (dir : Path) (declared allow : List Path) (fuel : Nat) :
    Except CoverError WalkResult :=
  if seeds dir declared = [] then .error (.failed "cover: empty seed set (no dir, no sources)")
  else (coverAll root allow fuel (seeds dir declared) {}).map Walker.result

/-- A covered path is at, under or above the build dir. -/
def coversDir (dir : Path) (covered : List Path) : Bool :=
  covered.any fun p => dir.isPrefixOf p || p.isPrefixOf dir

def walkClosure (root : Dir) (dir : Path) (declared allow : List Path) (fuel : Nat) :
    Except CoverError WalkResult :=
  if declared = [] then .error (.failed "cover: empty closure")
  else
    match coverAll root allow fuel declared {} with
    | .error e => .error e
    | .ok w =>
      if dir ≠ [""] ∧ coversDir dir w.covered = false then
        .error (.failed ("cover: closure does not cover the build dir " ++ quoted dir ++
          " — the sandbox workdir would not exist"))
      else .ok w.result

end JobsIroh.Cover
