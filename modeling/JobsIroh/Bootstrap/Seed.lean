/-
The bootstrap artifacts that a binary carries (`bootstrap/seed.go`).

`Seed` publishes the embedded artifacts of some platforms, and beside each ref a marker
whose name holds the hash of the blob; an artifact is skipped when the marker of its blob
is there.  `SeedShellAs` does the same for the shell under a ref of the caller's, but
publishes the ref again when it finds the marker.

The key of an artifact depends on more than the blob (the times and owners of the files it
is unpacked to), which is a number here.  What the calls of a run come to is given with the
run: a run that is killed looks like one whose next call fails.
-/
import JobsIroh.Lib.Run
import JobsIroh.Lib.Text

namespace JobsIroh.Bootstrap

abbrev Blob := List UInt8

/-- The files embedded in a binary. -/
abbrev Binary := String → Option Blob

abbrev Refs (κ : Type) := String → Option κ

inductive SeedArtifact where
  | tarballHttps
  | shell
  | hostmusl
  | github
  deriving DecidableEq, Repr

def SeedArtifact.file : SeedArtifact → String
  | .tarballHttps => "tarball-https.tar.zst"
  | .shell => "shell.tar.zst"
  | .hostmusl => "hostmusl.tar.zst"
  | .github => "github.tar.zst"

def SeedArtifact.stem : SeedArtifact → String
  | .tarballHttps => "fetcher:tarball+https:"
  | .shell => "shell:"
  | .hostmusl => "fetcher:hostmusl:"
  | .github => "fetcher:github:"

def SeedArtifact.ref (a : SeedArtifact) (platform : String) : String := a.stem ++ platform

def seedArtifacts : List SeedArtifact := [.tarballHttps, .shell, .hostmusl, .github]

def platformDir (platform : String) : String :=
  String.ofList (platform.toList.map fun c => if c = '/' then '-' else c)

def seedPath (platform : String) (a : SeedArtifact) : String :=
  "seed/" ++ platformDir platform ++ "/" ++ a.file

/-- The store as seeding uses it. -/
structure Store (κ : Type) where
  /-- The first eight bytes of the SHA-256 of a blob, in hexadecimal. -/
  sum8 : Blob → String
  sum8_length : ∀ b, (sum8 b).length = 16
  /-- The key under which a blob is ingested at some time. -/
  ingest : Blob → Nat → κ

/-- What the calls for one artifact come to. -/
structure Io where
  /-- The marker cannot be read. -/
  getFails : Bool := false
  /-- When the blob is ingested, if that succeeds. -/
  ingest : Option Nat := some 0
  putRef : Bool := true
  putMarker : Bool := true

inductive SeedError where
  | ingest (ref : String)
  | publish (ref : String)
  | publishMarker (ref : String)
  | republish (ref : String)
  | noSeed (platform : String)
  | interrupted
  deriving DecidableEq, Repr

variable {κ : Type} (st : Store κ)

def seedMarkerRef (ref : String) (blob : Blob) : String :=
  "seed-src:" ++ ref ++ ":" ++ st.sum8 blob

def putRef (refs : Refs κ) (ref : String) (k : κ) : Refs κ := Function.update refs ref (some k)

/-- Ingest a blob, then publish the ref and its marker. -/
def publish (io : Io) (ref : String) (blob : Blob) (refs : Refs κ) :
    Except SeedError κ × Refs κ :=
  match io.ingest with
  | none => (.error (.ingest ref), refs)
  | some n =>
    let k := st.ingest blob n
    if io.putRef then
      let refs := putRef refs ref k
      if io.putMarker then (.ok k, putRef refs (seedMarkerRef st ref blob) k)
      else (.error (.publishMarker ref), refs)
    else (.error (.publish ref), refs)

/-- The marker is found: a failed read counts as not found. -/
def marked (io : Io) (ref : String) (blob : Blob) (refs : Refs κ) : Option κ :=
  if io.getFails then none else refs (seedMarkerRef st ref blob)

/-- One artifact in the loop of `Seed`. -/
def seedOne (io : Io) (ref : String) (blob : Blob) (refs : Refs κ) :
    Except SeedError Unit × Refs κ :=
  match marked st io ref blob refs with
  | some _ => (.ok (), refs)
  | none =>
    match publish st io ref blob refs with
    | (.error e, refs) => (.error e, refs)
    | (.ok _, refs) => (.ok (), refs)

/-- An artifact that is not embedded is skipped. -/
def seedFrom (bin : Binary) :
    List (String × SeedArtifact) → List Io → Refs κ → Except SeedError Unit × Refs κ
  | [], _, refs => (.ok (), refs)
  | (p, a) :: rest, ios, refs =>
    match bin (seedPath p a) with
    | none => seedFrom bin rest ios refs
    | some blob =>
      match ios with
      | [] => (.error .interrupted, refs)
      | io :: ios =>
        match seedOne st io (a.ref p) blob refs with
        | (.error e, refs) => (.error e, refs)
        | (.ok _, refs) => seedFrom bin rest ios refs

def requested (platforms : List String) : List (String × SeedArtifact) :=
  platforms.flatMap fun p => seedArtifacts.map fun a => (p, a)

def seed (bin : Binary) (platforms : List String) (ios : List Io) (refs : Refs κ) :
    Except SeedError Unit × Refs κ :=
  seedFrom st bin (requested platforms) ios refs

def seedShellAs (bin : Binary) (platform ref : String) (io : Io) (refs : Refs κ) :
    Except SeedError κ × Refs κ :=
  match bin (seedPath platform .shell) with
  | none => (.error (.noSeed platform), refs)
  | some blob =>
    match marked st io ref blob refs with
    | some k =>
      if io.putRef then (.ok k, putRef refs ref k) else (.error (.republish ref), refs)
    | none => publish st io ref blob refs

/-! ### Histories of a store -/

/-- The last run of `Seed` that returned without error, and the refs it left. -/
structure LastRun (κ : Type) where
  bin : Binary
  platforms : List String
  refs : Refs κ

structure History (κ : Type) where
  refs : Refs κ
  last : Option (LastRun κ)

inductive Event where
  | seed (bin : Binary) (platforms : List String) (ios : List Io)
  | seedShellAs (bin : Binary) (platform ref : String) (io : Io)
  | expire (ref : String)

def History.new (refs : Refs κ) : History κ := { refs, last := none }

def step (s : History κ) : Event → Option (History κ)
  | .seed bin platforms ios =>
    match seed st bin platforms ios s.refs with
    | (.ok _, refs) => some { refs, last := some { bin, platforms, refs } }
    | (.error _, refs) => some { s with refs }
  | .seedShellAs bin platform ref io =>
    some { s with refs := (seedShellAs st bin platform ref io s.refs).2 }
  | .expire ref => some { s with refs := Function.update s.refs ref none }

end JobsIroh.Bootstrap
