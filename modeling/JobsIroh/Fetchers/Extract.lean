/-
The two tar extractors of the fetchers: the shared one (`fetchers/tarextract`) and that of
the GitHub fetcher (`fetchers/github`).

Both go through the entries of an archive in order and check each name, and each link
target, as a string; what they then do goes through the calls of the file system.  The
shared one opens files without following a link at the end and replaces what lies where a
link is to be; the other one follows, and replaces nothing.
-/
import JobsIroh.Lib.Posix

namespace JobsIroh.Fetchers

open Paths Posix

inductive Typeflag where
  | dir
  | reg
  | symlink
  | other
  deriving DecidableEq, Repr

/-- An entry as the tar reader yields it, with the bytes that can be read of its body. -/
structure Header where
  name : Path
  typeflag : Typeflag
  linkname : Path := [""]
  mode : Nat := 0
  body : List UInt8 := []
  /-- The body can be read to its end. -/
  whole : Bool := true
  deriving DecidableEq, Repr

structure Archive where
  entries : List Header
  /-- After the entries comes the end of the archive, not a read error. -/
  complete : Bool := true

/-- `os.FileMode.Perm`. -/
def perm (hdr : Header) : Nat := hdr.mode % 512

variable (pr : Proc)

/-! ### The shared extractor -/

namespace Tar

inductive Error where
  | tar
  | unsafePath (name : Path)
  | unsafeSymlink (name target : Path)
  | copy
  | os (e : Errno)
  deriving DecidableEq, Repr

/-- `strings.TrimRight(name, "/")`. -/
def trimRight (name : Path) : Path :=
  match (name.reverse.dropWhile (· = "")).reverse with
  | [] => [""]
  | parts => parts

def stripComponents (name : Path) (n : Int) : Option Path :=
  if n ≤ 0 then some name
  else
    let parts := trimRight name
    if (parts.length : Int) ≤ n then none else some (parts.drop n.toNat)

/-- Where an entry goes; an entry that the strip consumes, or that is the top, is skipped. -/
def destination (outDir : Path) (strip : Int) (name : Path) : Except Error (Option Clean) :=
  match stripComponents name strip with
  | none => .ok none
  | some rel =>
    let c := clean rel
    if c.abs = false ∧ c.comps = [] then .ok none
    else if c.abs || escapes c.comps then .error (.unsafePath name)
    else .ok (some (join outDir c.parts))

/-- The target of a link, seen from where the link is to be, lies outside as a string. -/
def unsafeLink (outDir : Path) (dst : Clean) (target : Path) : Bool :=
  let resolved := if isAbs target then clean target else join dst.dir.parts target
  match rel (clean outDir) resolved with
  | none => true
  | some r => escapes r

def writeReg (hdr : Header) (dst : Clean) (d : Disk) : Option Error × Disk :=
  match openFile pr false (perm hdr) dst d with
  | (.error e, d) => (some (.os e), d)
  | (.ok l, d) =>
    let d := writeFile l hdr.body d
    if hdr.whole then andThen (chmod pr (perm hdr) dst d) .os fun d => (none, d)
    else (some .copy, d)

def writeLink (hdr : Header) (dst : Clean) (d : Disk) : Option Error × Disk :=
  andThen (symlink pr hdr.linkname dst (remove pr dst d).2) .os fun d => (none, d)

/-- One round of the loop of `Extract`. -/
def extractEntry (outDir : Path) (strip : Int) (hdr : Header) (d : Disk) :
    Option Error × Disk :=
  match destination outDir strip hdr.name with
  | .error e => (some e, d)
  | .ok none => (none, d)
  | .ok (some dst) =>
    match hdr.typeflag with
    | .dir => andThen (mkdirAll pr dst d) .os fun d => (none, d)
    | .reg => andThen (mkdirAll pr dst.dir d) .os (writeReg pr hdr dst)
    | .symlink =>
      if unsafeLink outDir dst hdr.linkname then
        (some (.unsafeSymlink hdr.name hdr.linkname), d)
      else andThen (mkdirAll pr dst.dir d) .os (writeLink pr hdr dst)
    | .other => (none, d)

def extractFrom (outDir : Path) (strip : Int) (complete : Bool) :
    List Header → Disk → Option Error × Disk
  | [], d => (if complete then none else some .tar, d)
  | hdr :: rest, d =>
    match extractEntry pr outDir strip hdr d with
    | (some e, d) => (some e, d)
    | (none, d) => extractFrom outDir strip complete rest d

def extract (outDir : Path) (strip : Int) (a : Archive) (d : Disk) : Option Error × Disk :=
  extractFrom pr outDir strip a.complete a.entries d

end Tar

/-! ### The GitHub extractor -/

namespace Github

inductive Error where
  | gunzip
  | readTar
  | unsafePath (name : Path)
  | mkdir (target : Clean) (e : Errno)
  | mkdirParent (target : Clean) (e : Errno)
  | create (target : Clean) (e : Errno)
  | write (target : Clean)
  | absoluteSymlink (name target : Path)
  | symlinkEscapes (name : Path)
  | symlink (target : Clean) (e : Errno)
  | noContent
  deriving DecidableEq

def dropDot : Path → Path
  | "." :: s :: rest => s :: rest
  | name => name

/-- `strings.TrimLeft(name, "/")`. -/
def trimLeft (name : Path) : Path :=
  match name.dropWhile (· = "") with
  | [] => [""]
  | parts => parts

def stripTop (name : Path) : Option Path :=
  match trimLeft (dropDot name) with
  | _ :: s :: rest => if s = "" ∧ rest = [] then none else some (s :: rest)
  | _ => none

/-- As strings: the target is the base, or starts with the base and a slash. -/
def within (base target : Clean) : Bool :=
  target = base ||
    (base.comps ≠ [] && base.abs = target.abs && base.comps.isPrefixOf target.comps)

def safeJoin (base rel : Path) : Option Clean :=
  let target := join base rel
  if within (clean base) target then some target else none

def writeReg (hdr : Header) (target : Clean) (d : Disk) : Option Error × Disk :=
  match openFile pr true (perm hdr) target d with
  | (.error e, d) => (some (.create target e), d)
  | (.ok l, d) =>
    let d := writeFile l hdr.body d
    (if hdr.whole then none else some (.write target), d)

def writeLink (hdr : Header) (target : Clean) (d : Disk) : Option Error × Disk :=
  andThen (symlink pr hdr.linkname target d) (.symlink target) fun d => (none, d)

/-- One round of the loop of `extractTarball`. -/
def extractEntry (dest : Path) (hdr : Header) (d : Disk) : Option Error × Disk :=
  match stripTop hdr.name with
  | none => (none, d)
  | some rel =>
    match safeJoin dest rel with
    | none => (some (.unsafePath hdr.name), d)
    | some target =>
      match hdr.typeflag with
      | .dir => andThen (mkdirAll pr target d) (.mkdir target) fun d => (none, d)
      | .reg => andThen (mkdirAll pr target.dir d) (.mkdirParent target) (writeReg pr hdr target)
      | .symlink =>
        if isAbs hdr.linkname then (some (.absoluteSymlink hdr.name hdr.linkname), d)
        else if within (clean dest) (join target.dir.parts hdr.linkname) = false then
          (some (.symlinkEscapes hdr.name), d)
        else andThen (mkdirAll pr target.dir d) (.mkdirParent target) (writeLink pr hdr target)
      | .other => (none, d)

/-- The entry sets `wrote` when it goes through. -/
def writes (hdr : Header) : Bool := (stripTop hdr.name).isSome && hdr.typeflag ≠ .other

def extractFrom (dest : Path) (complete : Bool) :
    Bool → List Header → Disk → Option Error × Disk
  | wrote, [], d =>
    (if complete then (if wrote then none else some .noContent) else some .readTar, d)
  | wrote, hdr :: rest, d =>
    match extractEntry pr dest hdr d with
    | (some e, d) => (some e, d)
    | (none, d) => extractFrom dest complete (wrote || writes hdr) rest d

/-- The body of the reply, when it is a gzip stream, holds an archive. -/
def extractTarball (dest : Path) (body : Option Archive) (d : Disk) : Option Error × Disk :=
  match body with
  | none => (some .gunzip, d)
  | some a => extractFrom pr dest a.complete false a.entries d

end Github

end JobsIroh.Fetchers
