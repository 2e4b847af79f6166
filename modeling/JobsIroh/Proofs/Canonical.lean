/-
What Submit's byte comparison settles.

`Definition.Canonical` sorts the keys and shortens the heads of its own struct; the parameters
and the embedded definitions go out as they came in.  Two accepted byte strings with one
logical value are therefore equal exactly when these raw fields are.  Whoever makes a
definition passes every raw field through the same encoder, and among definitions made so
there is one byte string for each value: `Canonical` says so level by level, and the induction
that compares two of them is on it.
-/
import JobsIroh.Builddef.Codec
import JobsIroh.Sched.Submit

namespace JobsIroh

variable {κ V : Type}

/-- The rest of the encoding, beside what `World` has: parameters as values, imports and
tree inputs. -/
structure ParamCodec (V : Type) where
  /-- What absent parameters stand for. -/
  null : V
  unmarshal : Bytes → Except String V
  /-- `importdef.CanonicalParams`. -/
  canonicalParams : V → Except String Bytes
  canonicalImport : ImportDef → Except String Bytes
  treeInput : Bytes → Except String Bytes

namespace ParamCodec

/-- `ParamsValue`. -/
def paramsValue (C : ParamCodec V) (b : Bytes) : Except String V :=
  if b = [] then .ok C.null else C.unmarshal b

end ParamCodec

/-! ### The logical value -/

/-- The fields that are not raw bytes. -/
def Definition.plain (d : Definition) : Definition :=
  { d with params := [], source := { d.source with definition := [] } }

def ImportDef.plain (i : ImportDef) : ImportDef := { i with params := [], fetcherDef := [] }

/-- A definition with nothing left undecoded. -/
inductive Logical (V : Type) where
  | build (d : Definition) (params : V) (source : Logical V)
  | named (i : ImportDef) (params : V)
  | fetched (i : ImportDef) (params : V) (fetcher : Logical V)
  | tree (key : Bytes)
  deriving DecidableEq, Repr

/-- Decode a definition of this kind, the raw fields included, `depth` definitions deep. -/
def logical (C : ParamCodec V) (W : World κ) : Nat → InputKind → Bytes → Except String (Logical V)
  | 0, _, _ => .error "nested too deep"
  | depth + 1, .build, b => do
    let d ← W.decodeDefinition b
    let params ← C.paramsValue d.params
    let source ← logical C W depth d.source.kind d.source.definition
    return .build d.plain params source
  | depth + 1, .importK, b => do
    let i ← W.decodeImport b
    let params ← C.paramsValue i.params
    if i.fetcherDef = [] then return .named i.plain params
    let fetcher ← logical C W depth .build i.fetcherDef
    return .fetched i.plain params fetcher
  | _ + 1, .tree, b => do
    let key ← W.decodeTreeRef b
    return .tree key
  | _ + 1, .other k, _ => .error ("unknown input kind " ++ W.quote k)

section

variable {C : ParamCodec V} {W : World κ}

variable {n : Nat} {b : Bytes} {v : Logical V}

theorem logical_build (h : logical C W n .build b = .ok v) :
    ∃ m d params source, n = m + 1 ∧ W.decodeDefinition b = .ok d ∧
      C.paramsValue d.params = .ok params ∧
      logical C W m d.source.kind d.source.definition = .ok source ∧
      v = .build d.plain params source := by
  cases n with
  | zero => cases h
  | succ m =>
    simp only [logical, Except.bind_eq_ok] at h
    obtain ⟨d, hd, params, hp, source, hs, hv⟩ := h
    exact ⟨m, d, params, source, rfl, hd, hp, hs, (Except.ok.inj hv).symm⟩

theorem logical_import
    (h : logical C W n .importK b = .ok v) :
    ∃ m i params, n = m + 1 ∧ W.decodeImport b = .ok i ∧ C.paramsValue i.params = .ok params ∧
      (i.fetcherDef = [] ∧ v = .named i.plain params ∨
        i.fetcherDef ≠ [] ∧ ∃ fetcher, logical C W m .build i.fetcherDef = .ok fetcher ∧
          v = .fetched i.plain params fetcher) := by
  cases n with
  | zero => cases h
  | succ m =>
    simp only [logical, Except.bind_eq_ok] at h
    obtain ⟨i, hi, params, hp, hrest⟩ := h
    refine ⟨m, i, params, rfl, hi, hp, ?_⟩
    split at hrest
    · rename_i hf
      exact .inl ⟨hf, (Except.ok.inj hrest).symm⟩
    · rename_i hf
      obtain ⟨fetcher, hfetch, hv⟩ := Except.bind_eq_ok.mp hrest
      exact .inr ⟨hf, fetcher, hfetch, (Except.ok.inj hv).symm⟩

theorem logical_tree (h : logical C W n .tree b = .ok v) :
    ∃ key, W.decodeTreeRef b = .ok key ∧ v = .tree key := by
  cases n with
  | zero => cases h
  | succ =>
    simp only [logical, Except.bind_eq_ok] at h
    obtain ⟨key, hk, hv⟩ := h
    exact ⟨key, hk, (Except.ok.inj hv).symm⟩

/-! ### Definitions as their makers write them -/

/-- The parameters are the canonical form of their value. -/
def ParamCodec.CanonicalParams (C : ParamCodec V) (b : Bytes) : Prop :=
  ∃ v, C.paramsValue b = .ok v ∧ C.canonicalParams v = .ok b

variable (C W) in
/-- Written by the encoder at every level. -/
inductive Canonical : InputKind → Bytes → Prop where
  | build {b : Bytes} {d : Definition} (hd : W.decodeDefinition b = .ok d)
      (hc : W.canonical d = .ok b) (hp : C.CanonicalParams d.params)
      (hs : Canonical d.source.kind d.source.definition) : Canonical .build b
  | importDef {b : Bytes} {i : ImportDef} (hd : W.decodeImport b = .ok i)
      (hc : C.canonicalImport i = .ok b) (hp : C.CanonicalParams i.params)
      (hf : i.fetcherDef ≠ [] → Canonical .build i.fetcherDef) : Canonical .importK b
  | tree {b key : Bytes} (hd : W.decodeTreeRef b = .ok key) (hc : C.treeInput key = .ok b) :
      Canonical .tree b

theorem ParamCodec.CanonicalParams.eq {b' : Bytes} {v : V} (h : C.CanonicalParams b)
    (h' : C.CanonicalParams b') (hv : C.paramsValue b = .ok v)
    (hv' : C.paramsValue b' = .ok v) : b = b' := by
  obtain ⟨w, hw, hb⟩ := h
  obtain ⟨w', hw', hb'⟩ := h'
  rw [hw] at hv
  rw [hw'] at hv'
  rw [Except.ok.inj hv] at hb
  rw [Except.ok.inj hv', hb] at hb'
  exact Except.ok.inj hb'

theorem Definition.eq_of_plain {d d' : Definition} (h : d.plain = d'.plain)
    (hp : d.params = d'.params) (hs : d.source.definition = d'.source.definition) : d = d' := by
  obtain ⟨⟨kind, definition⟩, dir, platform, params, buildJobs, buildFile, ctx⟩ := d
  simp only [Definition.plain, Definition.mk.injEq, Input.mk.injEq] at h
  obtain ⟨⟨hk, -⟩, hdir, hplatform, -, hjobs, hfile, hctx⟩ := h
  subst hk hdir hplatform hjobs hfile hctx hp hs
  rfl

theorem ImportDef.eq_of_plain {i i' : ImportDef} (h : i.plain = i'.plain)
    (hp : i.params = i'.params) (hf : i.fetcherDef = i'.fetcherDef) : i = i' := by
  obtain ⟨fetcher, params, requiredTags, platform, fetcherDef⟩ := i
  simp only [ImportDef.plain, ImportDef.mk.injEq] at h
  obtain ⟨hfetcher, -, htags, hplatform, -⟩ := h
  subst hfetcher htags hplatform hp hf
  rfl

/-- **Among definitions so made, a value has one byte string.** -/
theorem Canonical.eq_of_logical {kind : InputKind} (h : Canonical C W kind b) :
    ∀ {n : Nat} {b' : Bytes} {v : Logical V}, Canonical C W kind b' →
      logical C W n kind b = .ok v → logical C W n kind b' = .ok v → b = b' := by
  -- Both sides decode alike field by field; the raw fields are equal by induction, and then
  -- the encoder is applied to one and the same struct.
  induction h with
  | @build b d hd hc hp hs ih =>
    intro n b' v h' hl hl'
    obtain ⟨m, d₁, p, src, rfl, hd₁, hp₁, hs₁, rfl⟩ := logical_build hl
    obtain ⟨m', d₂, p', src', hm, hd₂, hp₂, hs₂, hv⟩ := logical_build hl'
    obtain rfl : d = d₁ := Except.ok.inj (hd.symm.trans hd₁)
    obtain ⟨hplain, rfl, rfl⟩ := Logical.build.inj hv
    obtain rfl : m = m' := Nat.succ.inj hm
    cases h' with
    | @build _ d' hd' hc' hp' hs' =>
      obtain rfl : d' = d₂ := Except.ok.inj (hd'.symm.trans hd₂)
      have hkind : d.source.kind = d'.source.kind := by
        show d.plain.source.kind = d'.plain.source.kind
        rw [hplain]
      rw [← hkind] at hs' hs₂
      have heq : d = d' :=
        Definition.eq_of_plain hplain (hp.eq hp' hp₁ hp₂) (ih hs' hs₁ hs₂)
      rw [← heq, hc] at hc'
      exact Except.ok.inj hc'
  | @importDef b i hd hc hp hf ih =>
    intro n b' v h' hl hl'
    obtain ⟨m, i₁, p, rfl, hi₁, hp₁, hcase⟩ := logical_import hl
    obtain ⟨m', i₂, p', hm, hi₂, hp₂, hcase'⟩ := logical_import hl'
    obtain rfl : i = i₁ := Except.ok.inj (hd.symm.trans hi₁)
    obtain rfl : m = m' := Nat.succ.inj hm
    cases h' with
    | @importDef _ i' hd' hc' hp' hf' =>
      obtain rfl : i' = i₂ := Except.ok.inj (hd'.symm.trans hi₂)
      have same : i.plain = i'.plain → p = p' → i.fetcherDef = i'.fetcherDef → b = b' := by
        intro hplain hpv hfd
        have heq : i = i' := ImportDef.eq_of_plain hplain (hp.eq hp' hp₁ (hpv ▸ hp₂)) hfd
        rw [← heq, hc] at hc'
        exact Except.ok.inj hc'
      obtain ⟨hno, rfl⟩ | ⟨hne, f, hlf, rfl⟩ := hcase
      · obtain ⟨hno', hv⟩ | ⟨-, _, -, hv⟩ := hcase'
        · obtain ⟨hplain, hpv⟩ := Logical.named.inj hv
          exact same hplain hpv (hno.trans hno'.symm)
        · cases hv
      · obtain ⟨-, hv⟩ | ⟨hne', f', hlf', hv⟩ := hcase'
        · cases hv
        · obtain ⟨hplain, hpv, rfl⟩ := Logical.fetched.inj hv
          exact same hplain hpv (ih hne (hf' hne') hlf hlf')
  | @tree b key hd hc =>
    intro n b' v h' hl hl'
    obtain ⟨k, hk, rfl⟩ := logical_tree hl
    obtain ⟨k', hk', hv⟩ := logical_tree hl'
    obtain rfl := Logical.tree.inj hv
    obtain rfl : key = k := Except.ok.inj (hd.symm.trans hk)
    cases h' with
    | @tree _ key' hd' hc' =>
      obtain rfl : key' = key := Except.ok.inj (hd'.symm.trans hk')
      rw [hc] at hc'
      exact Except.ok.inj hc'

end

/-! ### What is accepted -/

/-- **Accepted bytes are as unique as the raw fields in them.**  Two accepted definitions of one
logical value have the same bytes exactly when their parameters and source definitions have;
they do, and have the same identity, when both were made by the encoder throughout. -/
theorem accepted_bytes_unique (C : ParamCodec V) (W : World κ) {req req' : SubmitRequest}
    {d d' : Definition} {res res' : Resources} {n : Nat} {v : Logical V}
    (hacc : validateSubmit W req = .ok (d, res)) (hacc' : validateSubmit W req' = .ok (d', res'))
    (hl : logical C W n .build req.defn = .ok v) (hl' : logical C W n .build req'.defn = .ok v) :
    (req.defn = req'.defn ↔
      d.params = d'.params ∧ d.source.definition = d'.source.definition) ∧
    (C.CanonicalParams d.params → Canonical C W d.source.kind d.source.definition →
      C.CanonicalParams d'.params → Canonical C W d'.source.kind d'.source.definition →
      req.defn = req'.defn ∧ W.fileKey req.defn = W.fileKey req'.defn) := by
  obtain ⟨hd, hc, -⟩ := validateSubmit_ok hacc
  obtain ⟨hd', hc', -⟩ := validateSubmit_ok hacc'
  refine ⟨⟨fun heq => ?_, fun ⟨hp, hs⟩ => ?_⟩, fun hp hs hp' hs' => ?_⟩
  · rw [heq, hd'] at hd
    obtain rfl := Except.ok.inj hd
    exact ⟨rfl, rfl⟩
  · obtain ⟨m, d₁, p, src, rfl, hd₁, -, -, rfl⟩ := logical_build hl
    obtain ⟨m', d₂, p', src', -, hd₂, -, -, hv⟩ := logical_build hl'
    obtain rfl : d = d₁ := Except.ok.inj (hd.symm.trans hd₁)
    obtain rfl : d' = d₂ := Except.ok.inj (hd'.symm.trans hd₂)
    have heq : d = d' := Definition.eq_of_plain (Logical.build.inj hv).1 hp hs
    rw [← heq, hc] at hc'
    exact Except.ok.inj hc'
  · have heq := Canonical.eq_of_logical (.build hd hc hp hs) (.build hd' hc' hp' hs') hl hl'
    exact ⟨heq, by rw [heq]⟩

def submitted (d : Definition) : SubmitRequest := { defn := Cbor.record d.fields }

/-- Any well-formed items will do for the raw fields. -/
theorem accepted_of_encodable {W : World κ} (hdec : W.decodeDefinition = decodeDefinition)
    (hcan : W.canonical = Definition.canonical) {d : Definition} (h : d.Encodable)
    (hplatform : d.platform ≠ "") (hkind : ∀ k, d.source.kind ≠ .other k) :
    validateSubmit W (submitted d) = .ok (d, ⟨0, 0⟩) := by
  obtain ⟨hc, hd⟩ := decodeDefinition_canonical h
  have hne : Cbor.record d.fields ≠ [] := by
    intro hnil
    rw [hnil] at hd
    cases hd
  unfold validateSubmit submitted
  rw [if_neg hne, hdec, hd, hcan]
  dsimp only
  rw [hc]
  dsimp only
  rw [if_neg (not_not_intro rfl), if_neg hplatform]
  split
  · rename_i k hk
    exact absurd hk (hkind k)
  · rfl

/-- Keys are the bytes they address, and definitions are read and written as CBOR. -/
def cborWorld : World Bytes where
  bytes k := 0 :: k
  parse
    | 0 :: k => .ok k
    | _ => .error "not a key"
  parse_bytes _ := rfl
  bytes_ne_nil _ := by simp
  hexError _ := ""
  fileKey b := .ok b
  decodeImport := decodeImport
  decodeDefinition := decodeDefinition
  canonical := Definition.canonical
  decodePluginResolved _ := .error "not plugin-resolved"
  decodePinned _ := .error "not pinned"
  decodeTreeRef := decodeTreeRef
  file k := .ok k
  subdir _ _ := .ok none
  derive _ _ _ _ := .error "no cover"
  validateName _ := .ok ()
  parseCPU _ := .ok 0
  parseMem _ := .ok 0
  absent _ := "object not found"
  text _ := ""
  quote s := s

/-- A value is represented by its canonical form. -/
def cborCodec : ParamCodec Bytes where
  null := [0xf6]
  unmarshal b := orMalformed <|
    match Cbor.item maxNestedLevels b with
    | some (x, []) => x.encode maxNestedLevels
    | _ => none
  canonicalParams v := .ok v
  canonicalImport := ImportDef.canonical
  treeInput key := .ok (treeRef key)

/-- A build of the tree `7` with these parameters. -/
def treeBuild (params : Bytes) : Definition :=
  { source := ⟨.tree, treeRef [0, 7]⟩, platform := "linux", params := params }

/-- Its value, for parameters whose canonical form is `v`. -/
def treeBuilt (v : Bytes) : Logical Bytes :=
  .build { source := ⟨.tree, []⟩, platform := "linux", params := [] } v (.tree [0, 7])

theorem treeBuild_encodable {params : Bytes} (h : Cbor.WellFormed 31 params) :
    (treeBuild params).Encodable where
  params := h
  definition := Cbor.wellFormed_record (by decide) (by
    intro f hf
    rw [List.mem_singleton.mp hf]
    exact ⟨by decide +kernel, Cbor.wellFormed_bytes (by decide)⟩)
  kind := rfl
  kindName := (by decide +kernel : (Cbor.utf8 "tree").length < 256 ^ 8)
  dir := (by decide +kernel : (Cbor.utf8 "").length < 256 ^ 8)
  platform := (by decide +kernel : (Cbor.utf8 "linux").length < 256 ^ 8)
  buildFile := (by decide +kernel : (Cbor.utf8 "").length < 256 ^ 8)
  buildJobs := (by decide : 0 < 256 ^ 8)
  ctx := (by decide : -2 ^ 63 ≤ (0 : Int) ∧ (0 : Int) < 2 ^ 63)

/-- The number 1 as a parameter, written in one byte, submitted twice. -/
theorem accepted_bytes_unique_one :
    cborWorld.fileKey (submitted (treeBuild [0x01])).defn =
      cborWorld.fileKey { submitted (treeBuild [0x01]) with label := "again" }.defn := by
  have hacc : validateSubmit cborWorld (submitted (treeBuild [0x01])) =
      .ok (treeBuild [0x01], ⟨0, 0⟩) :=
    accepted_of_encodable rfl rfl (treeBuild_encodable ⟨.uint 1, rfl⟩) (by decide)
      (by simp [treeBuild])
  have hacc' : validateSubmit cborWorld { submitted (treeBuild [0x01]) with label := "again" } =
      .ok (treeBuild [0x01], ⟨0, 0⟩) := hacc
  have hl : logical cborCodec cborWorld 2 .build (submitted (treeBuild [0x01])).defn =
      .ok (treeBuilt [0x01]) := by decide +kernel
  have hp : cborCodec.CanonicalParams (treeBuild [0x01]).params := ⟨[0x01], by decide +kernel, rfl⟩
  have hkey : cborWorld.decodeTreeRef (treeRef [0, 7]) = .ok [0, 7] := by decide +kernel
  have hs : Canonical cborCodec cborWorld .tree (treeRef [0, 7]) := .tree hkey rfl
  exact ((accepted_bytes_unique cborCodec cborWorld hacc hacc' hl hl).2 hp hs hp hs).2

/-- The identity Submit gives a request, over a store that has every object. -/
def submittedKey (req : SubmitRequest) : Except SubmitError Bytes :=
  (prepareSubmit cborWorld {} { refs := fun _ => none, complete := fun _ => true } req).2.map (·.k)

/-- **The number 1 as a parameter, in one byte and in two.**  Both definitions are accepted and
decode to the same value, and they have different bytes and identities. -/
theorem two_encodings_accepted :
    logical cborCodec cborWorld 2 .build (submitted (treeBuild [0x01])).defn =
      .ok (treeBuilt [0x01]) ∧
    logical cborCodec cborWorld 2 .build (submitted (treeBuild [0x18, 0x01])).defn =
      .ok (treeBuilt [0x01]) ∧
    (submitted (treeBuild [0x01])).defn ≠ (submitted (treeBuild [0x18, 0x01])).defn ∧
    ∃ k k', submittedKey (submitted (treeBuild [0x01])) = .ok k ∧
      submittedKey (submitted (treeBuild [0x18, 0x01])) = .ok k' ∧ k ≠ k' := by
  refine ⟨by decide +kernel, by decide +kernel, by decide +kernel,
    (submitted (treeBuild [0x01])).defn, (submitted (treeBuild [0x18, 0x01])).defn,
    by decide +kernel, by decide +kernel, by decide +kernel⟩

end JobsIroh
