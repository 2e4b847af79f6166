/-
The content store as the scheduler sees it: keys, objects and named refs.

The key package, the canonical encoding and the tree objects live outside this
repository.  `World` lists what the scheduler calls there; its laws say that the key
package reads back the bytes it renders and that no key is empty.  Everything the
scheduler does with them is modelled.

A ref is addressed by its text.  The families the scheduler itself reads and
writes are the constructors of `RefName`, each carrying the key in its name, so
that two names of different families are different by construction; every other
name (`shell:`, `fetcher:`, `build-cache:`, the push scratch refs) is `raw`.
`RefName.render` and `RefName.parse` go between the two views: a parsed name
always renders to the text it came from, and a rendered family name parses back.
-/
import JobsIroh.Builddef

namespace JobsIroh

/-- The third-party key package: a key is rendered as the hex of its bytes. -/
structure KeyPkg (κ : Type) where
  bytes : κ → Bytes
  parse : Bytes → Except String κ
  parse_bytes : ∀ k, parse (bytes k) = .ok k
  bytes_ne_nil : ∀ k, bytes k ≠ []
  /-- The text of `hex.DecodeString`'s error. -/
  hexError : String → String

/-- Everything the scheduler calls outside this repository. -/
structure World (κ : Type) extends KeyPkg κ where
  /-- `amber.FileKey`: the key a file with these bytes is stored under. -/
  fileKey : Bytes → Except String κ
  decodeImport : Bytes → Except String ImportDef
  decodeDefinition : Bytes → Except String Definition
  canonical : Definition → Except String Bytes
  decodePluginResolved : Bytes → Except String PluginResolved
  decodePinned : Bytes → Except String Pinned
  /-- The key bytes inside a tree input's definition. -/
  decodeTreeRef : Bytes → Except String Bytes
  /-- The bytes of the file object at a key, once its closure is in the store. -/
  file : κ → Except String Bytes
  /-- A named child of the tree object at a key, once its closure is in the store. -/
  subdir : κ → String → Except String (Option κ)
  /-- `cover.Derive`: the covered-source identity of a pinned build. -/
  derive : Bytes → Pinned → String → κ → Except String κ
  validateName : String → Except String Unit
  parseCPU : String → Except String Int
  parseMem : String → Except String Int
  /-- The error text for an object that is not in the store. -/
  absent : κ → String
  /-- Bytes read as text, and Go's `%q`. -/
  text : Bytes → String
  quote : String → String

variable {κ : Type}

namespace KeyPkg

variable (W : KeyPkg κ)

/-- `key.String`: lower-case hex. -/
def string (k : κ) : String := Text.hexEncode (W.bytes k)

/-- `hex.DecodeString`, which takes either case, then `key.Parse`. -/
def parseHex (s : String) : Except String κ :=
  match Text.hexDecode s with
  | none => .error (W.hexError s)
  | some b => W.parse b

/-- A key in the one spelling `string` gives it. -/
def parseCanonical [DecidableEq κ] (s : String) : Option κ :=
  match W.parseHex s with
  | .ok k => if W.string k = s then some k else none
  | .error _ => none

theorem parseHex_string (k : κ) : W.parseHex (W.string k) = .ok k := by
  rw [parseHex, string, Text.hexDecode_hexEncode]
  exact W.parse_bytes k

/-- Different keys have different text. -/
theorem string_injective : Function.Injective W.string := by
  intro a b h
  have ha := W.parseHex_string a
  rw [h, W.parseHex_string b] at ha
  exact (Except.ok.inj ha).symm

theorem string_ne_empty (k : κ) : W.string k ≠ "" := by
  intro h
  have hd := Text.hexDecode_hexEncode (W.bytes k)
  rw [← string, h] at hd
  exact W.bytes_ne_nil k (Option.some.inj hd).symm

@[simp]
theorem parseCanonical_string [DecidableEq κ] (k : κ) :
    W.parseCanonical (W.string k) = some k := by
  rw [parseCanonical, W.parseHex_string]
  simp

theorem string_of_parseCanonical [DecidableEq κ] {s : String} {k : κ}
    (h : W.parseCanonical s = some k) : W.string k = s := by
  unfold parseCanonical at h
  split at h
  · split at h
    · rename_i hs
      rw [← Option.some.inj h]
      exact hs
    · cases h
  · cases h

end KeyPkg

/-- `builddef.DecodeTreeKey`. -/
def World.decodeTreeKey (W : World κ) (b : Bytes) : Except String κ :=
  match W.decodeTreeRef b with
  | .error e => .error ("decode tree ref: " ++ e)
  | .ok raw => W.parse raw

/-- `Input.Key`: the file key of the embedded definition, whatever its kind. -/
def World.inputKey (W : World κ) (i : Input) : Except String κ := W.fileKey i.definition

/-! ### Ref names -/

/-- A ref name, with the key pulled out of the families the scheduler works on. -/
inductive RefName (κ : Type) where
  | importOutput (k : κ)
  | buildFrom (k : κ)
  | buildFromTree (k : κ)
  | pluginResolved (k : κ)
  | pinned (k : κ)
  | output (k : κ)
  | outputDeps (k : κ)
  | fTree (k : κ)
  | kpTree (k : κ)
  | pinCover (k : κ)
  | build (k : κ)
  | raw (s : String)
  deriving DecidableEq, Repr

/-- The closure-algorithm version in every `pin-cover` name. -/
def kpVersion : Nat := 2

/-- The families as the text before the key and the constructor for it. -/
def families (κ : Type) : List (String × (κ → RefName κ)) :=
  [("import-output:", .importOutput), ("build-from:", .buildFrom),
   ("build-from-tree:", .buildFromTree), ("build-plugin-resolved:", .pluginResolved),
   ("build-pinned:", .pinned), ("build-output:", .output),
   ("build-output-deps:", .outputDeps), ("f-tree/", .fTree), ("kp-tree/", .kpTree),
   ("pin-cover/2:", .pinCover), ("build:", .build)]

namespace RefName

variable (W : KeyPkg κ)

/-- The text of a name. -/
def render : RefName κ → String
  | importOutput k => "import-output:" ++ W.string k
  | buildFrom k => "build-from:" ++ W.string k
  | buildFromTree k => "build-from-tree:" ++ W.string k
  | pluginResolved k => "build-plugin-resolved:" ++ W.string k
  | pinned k => "build-pinned:" ++ W.string k
  | output k => "build-output:" ++ W.string k
  | outputDeps k => "build-output-deps:" ++ W.string k
  | fTree k => "f-tree/" ++ W.string k
  | kpTree k => "kp-tree/" ++ W.string k
  | pinCover k => "pin-cover/" ++ toString kpVersion ++ ":" ++ W.string k
  | build k => "build:" ++ W.string k
  | raw s => s

/-- Try one family after the other; the first whose text and canonical key match. -/
def parseFamilies [DecidableEq κ] (s : String) : List (String × (κ → RefName κ)) → RefName κ
  | [] => raw s
  | (p, mk) :: rest =>
    match (Text.cutPrefix p s).bind W.parseCanonical with
    | some k => mk k
    | none => parseFamilies s rest

/-- The structured view of a name. -/
def parse [DecidableEq κ] (s : String) : RefName κ := parseFamilies W s (families κ)

end RefName

/-! ### The store -/

/-- Named refs over a set of keys whose object closure is present. -/
structure Store (κ : Type) where
  refs : RefName κ → Option κ
  complete : κ → Bool

namespace Store

variable [DecidableEq κ]

def putRef (st : Store κ) (r : RefName κ) (k : κ) : Store κ :=
  { st with refs := Function.update st.refs r (some k) }

def deleteRef (st : Store κ) (r : RefName κ) : Store κ :=
  { st with refs := Function.update st.refs r none }

/-- Objects arrive; they are never removed while the scheduler runs. -/
def ingest (st : Store κ) (k : κ) : Store κ :=
  { st with complete := Function.update st.complete k true }

/-- A ref exists. -/
def has (st : Store κ) (r : RefName κ) : Prop := st.refs r ≠ none

instance (st : Store κ) (r : RefName κ) : Decidable (st.has r) :=
  inferInstanceAs (Decidable (_ ≠ _))

def readFile (W : World κ) (st : Store κ) (k : κ) : Except String Bytes :=
  if st.complete k then W.file k else .error (W.absent k)

def treeSubdir (W : World κ) (st : Store κ) (k : κ) (name : String) :
    Except String (Option κ) :=
  if st.complete k then W.subdir k name else .error (W.absent k)

/-- `readRefFileLocked`: the file a ref points at. -/
def readRefFile (W : World κ) (st : Store κ) (r : RefName κ) : Except String Bytes :=
  match st.refs r with
  | none => .error (r.render W.toKeyPkg ++ " not found")
  | some k => st.readFile W k

end Store

end JobsIroh
