/-
A small world to run the machine in.

Keys are single bytes and the file at a key holds that byte, so a definition is the
byte that names it and the decoders are tables.
-/
import JobsIroh.Sched.Machine

namespace JobsIroh

/-- What each one-byte file decodes to. -/
structure Files where
  definition : UInt8 → Except String Definition := fun _ => .error "not a definition"
  importDef : UInt8 → Except String ImportDef := fun _ => .error "not an import"
  resolved : UInt8 → Except String PluginResolved := fun _ => .error "not plugin-resolved"
  pinned : UInt8 → Except String Pinned := fun _ => .error "not pinned"
  subdir : UInt8 → String → Option UInt8 := fun _ _ => none
  derive : UInt8 → Except String UInt8 := fun _ => .error "no cover"

/-- Decode a one-byte file. -/
def oneByte {β : Type} (f : UInt8 → Except String β) : Bytes → Except String β
  | [b] => f b
  | _ => .error "not one byte"

theorem singleton_ne_nil (k : UInt8) : [k] ≠ [] := List.cons_ne_nil k []

def smallWorld (fs : Files) : World UInt8 where
  bytes k := [k]
  parse := oneByte .ok
  parse_bytes _ := rfl
  bytes_ne_nil := singleton_ne_nil
  hexError _ := ""
  fileKey := oneByte .ok
  decodeImport := oneByte fs.importDef
  decodeDefinition := oneByte fs.definition
  canonical d := .ok d.params
  decodePluginResolved := oneByte fs.resolved
  decodePinned := oneByte fs.pinned
  decodeTreeRef := oneByte fun b => .ok [b]
  file k := .ok [k]
  subdir k name := .ok (fs.subdir k name)
  derive b _ _ _ := oneByte fs.derive b
  validateName _ := .ok ()
  parseCPU _ := .ok 0
  parseMem _ := .ok 0
  absent _ := "object not found"
  text _ := ""
  quote s := s

/-- A store with these refs and every object. -/
def smallStore (refs : List (RefName UInt8 × UInt8)) : Store UInt8 where
  refs r := refs.lookup r
  complete _ := true

/-- A definition whose bytes are its own key. -/
def smallDef (b : UInt8) (source : Input) : Definition :=
  { source := source, platform := "linux", params := [b] }

/-- A live runner, then a submit of the definition `b`, then `n` turns of the critical
section in which every publish is accepted. -/
def submitRun (b : UInt8) (n : Nat) : List (Label UInt8) :=
  [.hello "runner" "linux" 0, .prepare {} { defn := [b] }, .submit {} 0 "r1"] ++
    List.replicate n (.exec { publish := some 1 })

/-- Every definition takes its source from the import `7`, which is fetched by name. -/
def fetchWorld : World UInt8 :=
  smallWorld { definition := fun b => .ok (smallDef b ⟨.importK, [7]⟩)
               importDef := fun _ => .ok { fetcher := "git" } }

/-- A runner's report on the first attempt at the import `7`, with this batch. -/
def fetched (refs : List RefProposal) : Result :=
  { node := "import_07", gen := 1, cls := .ok, refs := refs }

end JobsIroh
