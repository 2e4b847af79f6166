/-
The bytes of a definition.

A definition is written as a CBOR map whose keys are sorted by length and then bytewise, with
empty optional fields left out.  Its parameters and the definitions it embeds are raw
messages: they are written as they stand, and read as the bytes of one item.  A reader takes
any well-formed item; an absent field and a null are the zero value.  The texts of the
reader's own errors are the library's and are not modelled.

`decodeDefinition_canonical` is the round trip: whatever well-formed items the raw fields
hold, they come back byte for byte.
-/
import JobsIroh.Builddef
import JobsIroh.Lib.Cbor

namespace JobsIroh

open Cbor (utf8 text record readRecord item WellFormed)

/-! ### Writing -/

def omitempty (empty : Bool) (name : String) (v : Bytes) : List (String × Bytes) :=
  if empty then [] else [(name, v)]

/-- A raw message is written as it stands, an empty one as null. -/
def rawMessage (b : Bytes) : Bytes := if b = [] then [0xf6] else b

def Input.fields (i : Input) : List (String × Bytes) :=
  [("kind", text i.kind.name), ("definition", rawMessage i.definition)]

def Definition.fields (d : Definition) : List (String × Bytes) :=
  omitempty (d.ctx = 0) "ctx" (Cbor.int d.ctx) ++
  omitempty (d.dir = "") "dir" (text d.dir) ++
  [("params", rawMessage d.params), ("source", record d.source.fields),
    ("platform", text d.platform)] ++
  omitempty (d.buildFile = "") "buildFile" (text d.buildFile) ++
  omitempty (d.buildJobs = []) "buildJobs" (Cbor.bytes d.buildJobs)

/-- `Definition.Canonical`. -/
def Definition.canonical (d : Definition) : Except String Bytes := .ok (record d.fields)

/-- Insert where `sort.Strings` puts it; a tag that is there already is not added again. -/
def insertTag (t : String) : List String → List String
  | [] => [t]
  | u :: us => if t = u then u :: us else if t < u then t :: u :: us else u :: insertTag t us

/-- `canonTags`: sorted, each tag once. -/
def canonTags (tags : List String) : List String := tags.foldr insertTag []

def ImportDef.fields (i : ImportDef) : List (String × Bytes) :=
  [("params", rawMessage i.params), ("fetcher", text i.fetcher)] ++
  omitempty (i.platform = "") "platform" (text i.platform) ++
  omitempty (i.fetcherDef = []) "fetcherDef" i.fetcherDef ++
  omitempty (i.requiredTags = []) "requiredTags"
    (Cbor.head 4 (canonTags i.requiredTags).length ++ (canonTags i.requiredTags).flatMap text)

/-- `importdef.Definition.Canonical`. -/
def ImportDef.canonical (i : ImportDef) : Except String Bytes := .ok (record i.fields)

/-- The body of a tree input: its key and nothing else. -/
def treeRef (key : Bytes) : Bytes := record [("key", Cbor.bytes key)]

/-! ### Reading -/

/-- The library's default limit on nested arrays, maps and tags. -/
def maxNestedLevels : Nat := 32

/-- A field that is absent is the zero value. -/
def field {α : Type} (fs : List (Option String × Bytes)) (name : String) (zero : α)
    (read : Bytes → Option α) : Option α :=
  match fs.lookup (some name) with
  | none => some zero
  | some v => read v

/-- One whole item, null and undefined being the zero value. -/
def readScalar {α : Type} (zero : α) (read : Cbor.Item → Option α) (b : Bytes) : Option α :=
  match item maxNestedLevels b with
  | some (.simple 22 _, []) => some zero
  | some (.simple 23 _, []) => some zero
  | some (x, []) => read x
  | _ => none

def readText : Bytes → Option String := readScalar "" Cbor.Item.text?

def readByteString : Bytes → Option Bytes :=
  readScalar [] fun
    | .bytes b => some b
    | _ => none

def readInt : Bytes → Option Int :=
  readScalar 0 fun x => x.int?.filter fun i => -2 ^ 63 ≤ i && i < 2 ^ 63

def readTags : Bytes → Option (List String) :=
  readScalar [] fun
    | .array xs => xs.mapM Cbor.Item.text?
    | _ => none

/-- The fields of a struct `level` levels down. -/
def readFields (level : Nat) (b : Bytes) : Option (List (Option String × Bytes)) :=
  match readRecord (maxNestedLevels - level) b with
  | some (fs, []) => some fs
  | _ => readScalar [] (fun _ => none) b

def InputKind.ofName (s : String) : InputKind :=
  if s = "import" then .importK
  else if s = "build" then .build
  else if s = "tree" then .tree
  else .other s

def readInput (b : Bytes) : Option Input := do
  let fs ← readFields 2 b
  let kind ← field fs "kind" "" readText
  let definition ← field fs "definition" [] some
  return { kind := InputKind.ofName kind, definition }

def readDefinition (b : Bytes) : Option Definition := do
  let fs ← readFields 1 b
  let source ← field fs "source" { kind := .other "", definition := [] } readInput
  let dir ← field fs "dir" "" readText
  let platform ← field fs "platform" "" readText
  let params ← field fs "params" [] some
  let buildJobs ← field fs "buildJobs" [] readByteString
  let buildFile ← field fs "buildFile" "" readText
  let ctx ← field fs "ctx" 0 readInt
  return { source, dir, platform, params, buildJobs, buildFile, ctx }

def readImport (b : Bytes) : Option ImportDef := do
  let fs ← readFields 1 b
  let fetcher ← field fs "fetcher" "" readText
  let params ← field fs "params" [] some
  let requiredTags ← field fs "requiredTags" [] readTags
  let platform ← field fs "platform" "" readText
  let fetcherDef ← field fs "fetcherDef" [] some
  return { fetcher, params, requiredTags, platform, fetcherDef }

/-- The key of a tree input's body. -/
def readTreeRef (b : Bytes) : Option Bytes := do
  let fs ← readFields 1 b
  field fs "key" [] readByteString

def orMalformed {α : Type} : Option α → Except String α
  | some x => .ok x
  | none => .error "cbor: cannot unmarshal"

theorem Except.bind_eq_ok {ε α β : Type} {x : Except ε α} {f : α → Except ε β} {y : β} :
    (x >>= f) = .ok y ↔ ∃ a, x = .ok a ∧ f a = .ok y := by
  cases x with
  | error | ok => simp [bind, Except.bind]

/-- `DecodeDefinition`. -/
def decodeDefinition (b : Bytes) : Except String Definition := orMalformed (readDefinition b)

/-- `importdef.Decode`. -/
def decodeImport (b : Bytes) : Except String ImportDef := orMalformed (readImport b)

def decodeTreeRef (b : Bytes) : Except String Bytes := orMalformed (readTreeRef b)

/-! ### The round trip -/

/-- What the format can hold: one well-formed item in each raw field, lengths of eight bytes
at most, a context number of the size of an `int`. -/
structure Definition.Encodable (d : Definition) : Prop where
  params : WellFormed 31 d.params
  definition : WellFormed 30 d.source.definition
  kind : InputKind.ofName d.source.kind.name = d.source.kind
  kindName : (utf8 d.source.kind.name).length < 256 ^ 8
  dir : (utf8 d.dir).length < 256 ^ 8
  platform : (utf8 d.platform).length < 256 ^ 8
  buildFile : (utf8 d.buildFile).length < 256 ^ 8
  buildJobs : d.buildJobs.length < 256 ^ 8
  ctx : -2 ^ 63 ≤ d.ctx ∧ d.ctx < 2 ^ 63

theorem rawMessage_of_wellFormed {depth : Nat} {b : Bytes} (h : WellFormed depth b) :
    rawMessage b = b := by
  obtain ⟨x, hx⟩ := h
  refine if_neg fun hnil => ?_
  rw [hnil, Cbor.item_nil] at hx
  cases hx

theorem readScalar_append {α : Type} {zero : α} {read : Cbor.Item → Option α} {b : Bytes}
    {x : Cbor.Item} (hx : item maxNestedLevels b = some (x, [])) (h22 : ∀ n, x ≠ .simple 22 n)
    (h23 : ∀ n, x ≠ .simple 23 n) : readScalar zero read b = read x := by
  unfold readScalar
  rw [hx]
  split
  · rename_i heq
    exact absurd (Prod.mk.inj (Option.some.inj heq)).1 (h22 _)
  · rename_i heq
    exact absurd (Prod.mk.inj (Option.some.inj heq)).1 (h23 _)
  · rename_i heq
    rw [(Prod.mk.inj (Option.some.inj heq)).1]
  · rename_i hno
    exact absurd rfl (hno x)

@[simp]
theorem readText_text {s : String} (hs : (utf8 s).length < 256 ^ 8) :
    readText (text s) = some s := by
  have hx : item maxNestedLevels (text s ++ []) = some (.text (utf8 s), []) :=
    Cbor.item_text hs []
  rw [List.append_nil] at hx
  rw [readText, readScalar_append hx (by simp) (by simp), Cbor.Item.text?, Cbor.ofUtf8_utf8]

theorem readByteString_bytes {b : Bytes} (hb : b.length < 256 ^ 8) :
    readByteString (Cbor.bytes b) = some b := by
  have hx : item maxNestedLevels (Cbor.bytes b ++ []) = some (.bytes b, []) :=
    Cbor.item_bytes hb []
  rw [List.append_nil] at hx
  rw [readByteString, readScalar_append hx (by simp) (by simp)]

theorem readInt_int {i : Int} (hlo : -2 ^ 63 ≤ i) (hhi : i < 2 ^ 63) :
    readInt (Cbor.int i) = some i := by
  obtain ⟨x, hx, hi⟩ : ∃ x, item maxNestedLevels (Cbor.int i ++ []) = some (x, []) ∧
      x.int? = some i := Cbor.item_int (by omega) (by omega) []
  rw [List.append_nil] at hx
  have hne : ∀ info n, x ≠ .simple info n := by
    intro info n heq
    rw [heq] at hi
    cases hi
  rw [readInt, readScalar_append hx (hne 22) (hne 23), hi]
  simp only [Option.filter, Bool.and_eq_true, decide_eq_true_eq]
  rw [if_pos ⟨hlo, hhi⟩]

theorem readFields_record (level : Nat) {fs : List (String × Bytes)} (hlen : fs.length < 256 ^ 8)
    (hfs : ∀ f ∈ fs, (utf8 f.1).length < 256 ^ 8 ∧ WellFormed (maxNestedLevels - level) f.2) :
    readFields level (record fs) = some (fs.map fun f => (some f.1, f.2)) := by
  have hr := Cbor.readRecord_record hlen hfs []
  rw [List.append_nil] at hr
  unfold readFields
  rw [hr]

theorem lookup_map_some (fs : List (String × Bytes)) (name : String) :
    (fs.map fun f => (some f.1, f.2)).lookup (some name) = fs.lookup name := by
  induction fs with
  | nil => rfl
  | cons f fs ih =>
    rw [List.map_cons, List.lookup_cons, List.lookup_cons, ih]
    simp

section

variable {α : Type} {fs : List (String × Bytes)} {name : String} {x : α} {v : Bytes}
  (zero : α) (read : Bytes → Option α)

theorem field_of_lookup (hl : fs.lookup name = some v) (hv : read v = some x) :
    field (fs.map fun f => (some f.1, f.2)) name zero read = some x := by
  unfold field
  rw [lookup_map_some, hl]
  exact hv

/-- A field left out because it holds the zero value is read as the zero value. -/
theorem field_of_omitted {empty : Prop} [Decidable empty]
    (hl : fs.lookup name = if empty then none else some v) (hzero : empty → x = zero)
    (hv : read v = some x) : field (fs.map fun f => (some f.1, f.2)) name zero read = some x := by
  by_cases hempty : empty
  · unfold field
    rw [lookup_map_some, hl, if_pos hempty, hzero hempty]
  · rw [if_neg hempty] at hl
    exact field_of_lookup zero read hl hv

end

theorem mem_omitempty {empty : Bool} {name : String} {v : Bytes} {f : String × Bytes}
    (h : f ∈ omitempty empty name v) : f = (name, v) := by
  unfold omitempty at h
  split at h
  · cases h
  · exact List.mem_singleton.mp h

theorem short_name : ∀ name ∈ ["kind", "definition", "ctx", "dir", "params", "source", "platform",
    "buildFile", "buildJobs"], (utf8 name).length < 256 ^ 8 := by
  decide +kernel

namespace Definition

variable {d : Definition}

theorem Encodable.source_fields (h : d.Encodable) :
    ∀ f ∈ d.source.fields, (utf8 f.1).length < 256 ^ 8 ∧ WellFormed 30 f.2 := by
  intro f hf
  simp only [Input.fields, List.mem_cons, List.not_mem_nil, or_false] at hf
  rcases hf with rfl | rfl
  · exact ⟨short_name _ (by simp), Cbor.wellFormed_text h.kindName⟩
  · rw [rawMessage_of_wellFormed h.definition]
    exact ⟨short_name _ (by simp), h.definition⟩

theorem Encodable.fields (h : d.Encodable) :
    ∀ f ∈ d.fields, (utf8 f.1).length < 256 ^ 8 ∧ WellFormed 31 f.2 := by
  intro f hf
  simp only [Definition.fields, List.mem_append, List.mem_cons, List.not_mem_nil, or_false] at hf
  rcases hf with (((hf | hf) | rfl | rfl | rfl) | hf) | hf
  · rw [mem_omitempty hf]
    have hctx := h.ctx
    exact ⟨short_name _ (by simp), Cbor.wellFormed_int (by omega) (by omega)⟩
  · rw [mem_omitempty hf]
    exact ⟨short_name _ (by simp), Cbor.wellFormed_text h.dir⟩
  · rw [rawMessage_of_wellFormed h.params]
    exact ⟨short_name _ (by simp), h.params⟩
  · exact ⟨short_name _ (by simp),
      Cbor.wellFormed_record (by show 2 < 256 ^ 8; decide) h.source_fields⟩
  · exact ⟨short_name _ (by simp), Cbor.wellFormed_text h.platform⟩
  · rw [mem_omitempty hf]
    exact ⟨short_name _ (by simp), Cbor.wellFormed_text h.buildFile⟩
  · rw [mem_omitempty hf]
    exact ⟨short_name _ (by simp), Cbor.wellFormed_bytes h.buildJobs⟩

theorem Encodable.readInput_source (h : d.Encodable) :
    readInput (record d.source.fields) = some d.source := by
  have hr := readFields_record 2 (show d.source.fields.length < 256 ^ 8 by
    show 2 < 256 ^ 8
    decide) h.source_fields
  have hkind : d.source.fields.lookup "kind" = some (text d.source.kind.name) := by
    simp [Input.fields]
  have hdef : d.source.fields.lookup "definition" = some d.source.definition := by
    simp [Input.fields, List.lookup_cons, rawMessage_of_wellFormed h.definition]
  unfold readInput
  rw [hr]
  simp only [Option.bind_eq_bind, Option.bind_some,
    field_of_lookup "" readText hkind (readText_text h.kindName),
    field_of_lookup [] some hdef rfl, h.kind]
  rfl

theorem length_fields_lt (d : Definition) : d.fields.length < 256 ^ 8 := by
  have homit : ∀ empty name v, (omitempty empty name v).length ≤ 1 := by
    intro empty name v
    unfold omitempty
    split <;> simp
  have h₁ := homit (d.ctx = 0) "ctx" (Cbor.int d.ctx)
  have h₂ := homit (d.dir = "") "dir" (text d.dir)
  have h₃ := homit (d.buildFile = "") "buildFile" (text d.buildFile)
  have h₄ := homit (d.buildJobs = []) "buildJobs" (Cbor.bytes d.buildJobs)
  simp only [Definition.fields, List.length_append, List.length_cons, List.length_nil]
  omega

theorem lookup_fields (d : Definition) :
    d.fields.lookup "ctx" = (if d.ctx = 0 then none else some (Cbor.int d.ctx)) ∧
    d.fields.lookup "dir" = (if d.dir = "" then none else some (text d.dir)) ∧
    d.fields.lookup "params" = some (rawMessage d.params) ∧
    d.fields.lookup "source" = some (record d.source.fields) ∧
    d.fields.lookup "platform" = some (text d.platform) ∧
    d.fields.lookup "buildFile" =
      (if d.buildFile = "" then none else some (text d.buildFile)) ∧
    d.fields.lookup "buildJobs" =
      (if d.buildJobs = [] then none else some (Cbor.bytes d.buildJobs)) := by
  by_cases h₁ : d.ctx = 0 <;> by_cases h₂ : d.dir = "" <;> by_cases h₃ : d.buildFile = "" <;>
    by_cases h₄ : d.buildJobs = [] <;>
    simp [Definition.fields, omitempty, h₁, h₂, h₃, h₄, List.lookup_cons]

end Definition

/-- **What is written is read back**, the raw fields byte for byte. -/
theorem decodeDefinition_canonical {d : Definition} (h : d.Encodable) :
    d.canonical = .ok (record d.fields) ∧ decodeDefinition (record d.fields) = .ok d := by
  refine ⟨rfl, ?_⟩
  have hr := readFields_record 1 d.length_fields_lt h.fields
  obtain ⟨hctx, hdir, hparams, hsource, hplatform, hfile, hjobs⟩ := d.lookup_fields
  rw [rawMessage_of_wellFormed h.params] at hparams
  unfold decodeDefinition readDefinition
  rw [hr]
  simp only [Option.bind_eq_bind, Option.bind_some,
    field_of_lookup { kind := .other "", definition := [] } readInput hsource h.readInput_source,
    field_of_omitted "" readText hdir id (readText_text h.dir),
    field_of_lookup "" readText hplatform (readText_text h.platform),
    field_of_lookup [] some hparams rfl,
    field_of_omitted [] readByteString hjobs id (readByteString_bytes h.buildJobs),
    field_of_omitted "" readText hfile id (readText_text h.buildFile),
    field_of_omitted 0 readInt hctx id (readInt_int h.ctx.1 h.ctx.2)]
  rfl

end JobsIroh
