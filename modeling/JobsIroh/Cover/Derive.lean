/-
The identity of a covered build (`cover.Derive`, `amber/kptree.go`, `amber/buildfrom.go`)
and its two callers, the scheduler's and the local pipeline's `deriveKP`.

The covered tree is the context pruned to the pinned paths, or all of it normalised, with
the generated files on top.  KP is the key of a tree that holds the pinned bytes, the
platform, the covered tree and the version of the algorithm.

`World` leaves trees and files to the store.  `Objects` is such a store: the trees and
files it holds, each under the key of its content, and `Site.world` is the world in which
the scheduler reads them.  The generated files are a Go map; `MapOrder` is the order in
which a run of the code happens to iterate it.
-/
import JobsIroh.Amber.Overlay
import JobsIroh.Sched.Node

namespace JobsIroh.Cover

open JobsIroh.Tree

/-! ### The covered tree -/

/-- An order for each map of generated files. -/
structure MapOrder where
  order : List (String × Bytes) → List (String × Bytes)
  perm : ∀ l, (order l).Perm l

/-- The order in which the decoder lists the map. -/
def MapOrder.listed : MapOrder := ⟨id, fun _ => List.Perm.refl _⟩

def generatedMaxBytes : Nat := 2 ^ 20

def generatedSize (g : List (String × Bytes)) : Nat := (g.map fun e => e.2.length).sum

def splitPaths (paths : List String) : List Path := paths.map (Text.split '/')

/-- The pinned part of the context. -/
def prunePinned (p : Pinned) (root : Dir) : Except String Dir :=
  if p.closure ≠ [] then pruneTree root (splitPaths p.closure)
  else if p.sources ≠ [] then pruneTree root (splitPaths p.sources)
  else normalizeTree root

/-- `Derive` up to the covered tree. -/
def coveredTree (o : MapOrder) (p : Pinned) (root : Dir) : Except String Dir :=
  if generatedSize p.generated > generatedMaxBytes then
    .error ("cover: generated sources total " ++ toString (generatedSize p.generated) ++
      " bytes exceeds the " ++ toString generatedMaxBytes ++ " cap")
  else if p.closure ≠ [] ∧ p.sources ≠ [] then
    .error "cover: pinned declares both Closure and Sources"
  else
    match prunePinned p root with
    | .error e => .error e
    | .ok src =>
      if p.generated ≠ [] then
        overlayTree src ((o.order p.generated).map fun e => (Text.split '/' e.1, e.2))
      else .ok src

/-- `strconv.Itoa(KPVersion)` as bytes. -/
def kpVersionBytes : Bytes := (toString kpVersion).toList.map fun c => UInt8.ofNat c.toNat

/-- `BuildKPTree`; the entries in name order. -/
def kpTree (pinned platform : Bytes) (src : Dir) : Dir :=
  .leaf { name := "job.cbor", perm := 0o444 } (.file pinned)
    (.leaf { name := "platform", perm := 0o444 } (.file platform)
      (.sub { name := "src", perm := 0o555 } src
        (.leaf { name := "v", perm := 0o444 } (.file kpVersionBytes) .nil)))

variable {κ : Type}

def derive (K : Keys κ) (o : MapOrder) (pinned : Bytes) (p : Pinned) (platform : Bytes)
    (root : Dir) : Except String κ :=
  (coveredTree o p root).map fun src => (kpTree pinned platform src).key K

/-- `BuildFromTree`: a build's environment tree F. -/
def buildFromTree (env : Dir) (dir params platform : Bytes) (override : Option Bytes) : Dir :=
  let file name data rest := Dir.leaf { name, perm := 0o444 } (.file data) rest
  let last := Dir.sub { name := "env", perm := 0o555 } env
    (file "params" params (file "platform" platform .nil))
  let mid := if dir = [] then last else file "dir" dir last
  match override with
  | none => mid
  | some data => file "BUILD.jobs" data mid

/-! ### The store of objects -/

/-- The content key of an entry; links and special files have none. -/
def contentKey (K : Keys κ) : Tree.Node → Option κ
  | .sub d => some (d.key K)
  | .leaf (.file data) => some (K.fileKey data)
  | .leaf _ => none

/-- The trees and files of a store, complete and under the keys of their content. -/
structure Objects (κ : Type) where
  keys : Keys κ
  tree : κ → Option Dir
  file : κ → Option Bytes
  tree_key : ∀ {k d}, tree k = some d → d.key keys = k
  file_key : ∀ {k b}, file k = some b → keys.fileKey b = k
  /-- A key tells a file from a directory. -/
  file_or_tree : ∀ {k b}, file k = some b → tree k = none
  tree_sub : ∀ {k d n a e}, tree k = some d → d.find n = some (a, .sub e) →
    tree (e.key keys) = some e
  tree_file : ∀ {k d n a b}, tree k = some d → d.find n = some (a, .leaf (.file b)) →
    file (keys.fileKey b) = some b

/-- The store together with the rest of the world. -/
structure Site (κ : Type) where
  outside : World κ
  objects : Objects κ
  /-- The bytes of a text. -/
  toBytes : String → Bytes
  toBytes_text : ∀ b, toBytes (outside.text b) = b
  /-- What the tar of a tree has under a name that is no regular file. -/
  tarOther : Dir → String → Except String Bytes

namespace Site

variable (S : Site κ)

/-- The scheduler's world. -/
def world (o : MapOrder) : World κ :=
  { S.outside with
    file := fun k =>
      match S.objects.file k with
      | some b => .ok b
      | none => .error ("amber: " ++ S.outside.string k ++ " is not a file-content key")
    subdir := fun k name =>
      match S.objects.tree k with
      | none => .error (S.outside.absent k)
      | some d =>
        match d.find name with
        | none => .ok none
        | some (_, node) =>
          match contentKey S.objects.keys node with
          | some ck => .ok (some ck)
          | none => .error ("invalid content key for \"" ++ name ++ "\"")
    derive := fun pinned p platform env =>
      match S.objects.tree env with
      | none => .error (S.outside.absent env)
      | some root => Cover.derive S.objects.keys o pinned p (S.toBytes platform) root }

/-! ### The local pipeline -/

def resolveSubdirKey (st : Store κ) (root : κ) (name : String) : Except String κ :=
  match (if st.complete root then S.objects.tree root else none) with
  | none => .error (S.outside.absent root)
  | some d =>
    match d.find name with
    | none => .error ("no \"" ++ name ++ "\" entry")
    | some (_, node) =>
      match contentKey S.objects.keys node with
      | some ck => .ok ck
      | none => .error ("entry \"" ++ name ++ "\" has no content key")

/-- The file at the top of a tree, read out of its tar. -/
def readTreeFile (st : Store κ) (root : κ) (name : String) : Except String Bytes :=
  match (if st.complete root then S.objects.tree root else none) with
  | none => .error (S.outside.absent root)
  | some d =>
    match d.find name with
    | some (_, .leaf (.file b)) => .ok b
    | _ => S.tarOther d name

/-- The local pipeline's `deriveKP` before its writes. -/
def localDeriveKPValue (o : MapOrder) (st : Store κ) (f : κ) : Except String (κ × κ) :=
  match st.refs (.pinned f) with
  | none => .error ("build-pinned:" ++ S.outside.string f ++ " missing after pin")
  | some pinnedKey =>
    match st.readFile (S.world o) pinnedKey with
    | .error e => .error e
    | .ok pinnedBytes =>
      match S.outside.decodePinned pinnedBytes with
      | .error e => .error e
      | .ok p =>
        match S.resolveSubdirKey st f "env" with
        | .error e => .error ("resolve F-tree env: " ++ e)
        | .ok env =>
          match S.readTreeFile st f "platform" with
          | .error e => .error ("read F-tree platform: " ++ e)
          | .ok platform =>
            match (S.world o).derive pinnedBytes p (S.outside.text platform) env with
            | .error e => .error ("derive KP: " ++ e)
            | .ok kp => .ok (kp, pinnedKey)

end Site

/-! ### Deriving and recording -/

/-- Who derives a KP, and in which order that run iterates the generated files. -/
inductive Caller where
  | sched (o : MapOrder)
  | pipeline (o : MapOrder)

def Site.deriveKPValue (S : Site κ) : Caller → Store κ → κ → Except String (κ × κ)
  | .sched o => JobsIroh.deriveKPValue (S.world o)
  | .pipeline o => S.localDeriveKPValue o

variable [DecidableEq κ]

/-- The refs a derivation leaves; only the scheduler writes the pull carrier. -/
def Caller.record (st : Store κ) (f kp pinnedKey : κ) : Caller → Store κ
  | .sched _ => (((st.ingest kp).putRef (.pinned kp) pinnedKey).putRef (.kpTree kp) kp).putRef
      (.pinCover f) kp
  | .pipeline _ => ((st.ingest kp).putRef (.pinned kp) pinnedKey).putRef (.pinCover f) kp

/-- One derivation for F on a store; one that fails writes nothing. -/
def Site.deriveKP (S : Site κ) (st : Store κ) (call : Caller × κ) : Option (Store κ) :=
  match S.deriveKPValue call.1 st call.2 with
  | .error _ => some st
  | .ok (kp, pinnedKey) => some (call.1.record st call.2 kp pinnedKey)

end JobsIroh.Cover
