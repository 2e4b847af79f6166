/-
Go values and Starlark values, from `recipe/value.go` and `builddef/fetcherbuild.go`.

`convert` takes a decoded value to Starlark, where a map of a kind and a definition becomes an
input, and `fromStarlark` takes it back.  A Go map and a Starlark dict have each key once and
are lists of their entries, in the order of a `range`; a float is its bits.  The definitions
inside an input nest as bytes, and `depth` bounds how far `rehydrateInput` follows them.
-/
import JobsIroh.Builddef.Codec
import JobsIroh.Lib.Assoc
import Mathlib.Data.List.Perm.Subperm

namespace JobsIroh.Recipe

open Cbor (text record)

/-! ### Values -/

inductive GoValue where
  | nil
  | bool (b : Bool)
  | string (s : String)
  | bytes (b : Bytes)
  | int (i : Int64)
  | int64 (i : Int64)
  | uint64 (u : UInt64)
  | float64 (bits : UInt64)
  | list (xs : List GoValue)
  | map (m : List (String × GoValue))
  | other (type : String)

inductive Starlark where
  | none
  | bool (b : Bool)
  | string (s : String)
  | bytes (b : Bytes)
  | int (i : Int)
  | float (bits : UInt64)
  | input (i : Input)
  | list (xs : List Starlark)
  | tuple (xs : List Starlark)
  | dict (items : List (Starlark × Starlark))
  | other (type : String)

/-! ### Inputs -/

structure FetcherPin where
  url : String
  sha256 : String

structure Rehydrator where
  platform : String := ""
  pins : Option (List (String × FetcherPin)) := none
  seeds : List String := []
  enforce : Bool := false
  /-- `%q`. -/
  quote : String → String
  depth : Nat

def pinsFileName : String := "fetchers.toml"

/-- `FetcherBuild`: the build of a fetcher from its sources. -/
def fetcherBuild (url sha256 platform : String) : Except String Definition := do
  let params := record [("url", text url), ("strip", Cbor.int 1), ("sha256", text sha256)]
  let imp : ImportDef := { fetcher := "tarball+https", params, platform }
  let impCanon ← imp.canonical.mapError ("canonical fetcher source import: " ++ ·)
  return { source := ⟨.importK, impCanon⟩, platform, params := [0xf6] }

/-- The import with its platform stamped and, when enforced, its fetcher pinned; nothing when
neither changes it. -/
def Rehydrator.rehydrateImport (r : Rehydrator) (d : ImportDef) :
    Except String (Option ImportDef) := do
  let stamp := r.platform ≠ "" ∧ d.platform ≠ r.platform
  let d := if stamp then { d with platform := r.platform } else d
  if r.enforce ∧ d.fetcherDef = [] ∧ d.fetcher ∉ r.seeds then
    match r.pins.bind (·.lookup d.fetcher) with
    | none => .error ("plugin emitted import with fetcher " ++ r.quote d.fetcher ++
        ": not in the plugin's bundled " ++ pinsFileName ++ " and not a seed fetcher")
    | some pin =>
      let fb ← (fetcherBuild pin.url pin.sha256 d.platform).mapError
        ("rehydrate plugin import " ++ r.quote d.fetcher ++ ": " ++ ·)
      return some { d with fetcherDef := ← fb.canonical }
  else return if stamp then some d else none

/-- `rehydrateInput`; a definition that does not change keeps its bytes. -/
def Rehydrator.rehydrateInput (r : Rehydrator) : Nat → Input → Except String Input
  | 0, _ => .error "definitions nest too deeply"
  | depth + 1, i =>
    match i.kind with
    | .build => do
      let bdef ← (decodeDefinition i.definition).mapError ("rehydrate plugin build: decode: " ++ ·)
      if bdef.source.kind = .tree then return i
      let src ← r.rehydrateInput depth bdef.source
      if src.definition = bdef.source.definition then return i
      let canon ← ({ bdef with source := src }.canonical).mapError
        ("rehydrate plugin build: encode: " ++ ·)
      return { i with definition := canon }
    | .importK => do
      let d ← (decodeImport i.definition).mapError ("rehydrate plugin import: decode: " ++ ·)
      match ← r.rehydrateImport d with
      | none => return i
      | some d =>
        let canon ← d.canonical.mapError ("rehydrate plugin import: encode: " ++ ·)
        return { i with definition := canon }
    | _ => return i

/-- `asInputSpec`: the map has the two entries of an input. -/
def asInputSpec (m : List (String × GoValue)) : Option Input :=
  if m.length ≠ 2 then none
  else match m.lookup "kind", m.lookup "definition" with
    | some (.string kind), some (.bytes definition) =>
      if kind = "import" then some ⟨.importK, definition⟩
      else if kind = "build" then some ⟨.build, definition⟩
      else none
    | _, _ => none

/-! ### The two converters -/

section

variable (r : Rehydrator)

mutual

def convert : GoValue → Except String Starlark
  | .nil => .ok .none
  | .bool b => .ok (.bool b)
  | .string s => .ok (.string s)
  | .bytes b => .ok (.bytes b)
  | .int i => .ok (.int i.toInt)
  | .int64 i => .ok (.int i.toInt)
  | .uint64 u => .ok (.int u.toNat)
  | .float64 bits => .ok (.float bits)
  | .list xs => do return .list (← convertAll xs)
  | .map m =>
    match asInputSpec m with
    | some i => do return .input (← r.rehydrateInput r.depth i)
    | none => do return .dict (← convertEntries m)
  | .other type => .error ("cannot convert " ++ type ++ " to Starlark")

def convertAll : List GoValue → Except String (List Starlark)
  | [] => .ok []
  | x :: xs => do return (← convert x) :: (← convertAll xs)

def convertEntries : List (String × GoValue) → Except String (List (Starlark × Starlark))
  | [] => .ok []
  | (k, x) :: m => do return (.string k, ← convert x) :: (← convertEntries m)

end

end

/-- `toStarlark`, the conversion that pins nothing. -/
def toStarlark (quote : String → String) (depth : Nat) (v : GoValue) (platform : String) :
    Except String Starlark :=
  convert { platform, quote, depth } v

/-- The map of an input. -/
def inputSpec (i : Input) : List (String × GoValue) :=
  [("kind", .string i.kind.name), ("definition", .bytes i.definition)]

section

-- `shown` is `%v` of a key.
variable (shown : Starlark → String)

mutual

def fromStarlark : Starlark → Except String GoValue
  | .none => .ok .nil
  | .bool b => .ok (.bool b)
  | .string s => .ok (.string s)
  | .bytes b => .ok (.bytes b)
  | .int i =>
    if -2 ^ 63 ≤ i ∧ i < 2 ^ 63 then .ok (.int64 (Int64.ofInt i))
    else if 0 ≤ i ∧ i < 2 ^ 64 then .ok (.uint64 (UInt64.ofNat i.toNat))
    else .error "integer out of range"
  | .float bits => .ok (.float64 bits)
  | .input i => .ok (.map (inputSpec i))
  | .list xs => do return .list (← fromStarlarkAll xs)
  | .tuple xs => do return .list (← fromStarlarkAll xs)
  | .dict items => do return .map (← fromStarlarkItems items)
  | .other type => .error ("cannot convert Starlark " ++ type ++ " to Go")

def fromStarlarkAll : List Starlark → Except String (List GoValue)
  | [] => .ok []
  | x :: xs => do return (← fromStarlark x) :: (← fromStarlarkAll xs)

def fromStarlarkItems : List (Starlark × Starlark) → Except String (List (String × GoValue))
  | [] => .ok []
  | (.string k, x) :: items => do return (k, ← fromStarlark x) :: (← fromStarlarkItems items)
  | (k, _) :: _ => .error ("dict key " ++ shown k ++ " is not a string")

end

end

/-! ### There and back -/

mutual

/-- What a value is in Starlark: an input where a map has the two entries of one, and a dict for
any other map. -/
def GoValue.image : GoValue → Starlark
  | .nil => .none
  | .bool b => .bool b
  | .string s => .string s
  | .bytes b => .bytes b
  | .int i => .int i.toInt
  | .int64 i => .int i.toInt
  | .uint64 u => .int u.toNat
  | .float64 bits => .float bits
  | .list xs => .list (imageAll xs)
  | .map m =>
    match asInputSpec m with
    | some i => .input i
    | none => .dict (imageEntries m)
  | .other type => .other type

def GoValue.imageAll : List GoValue → List Starlark
  | [] => []
  | x :: xs => x.image :: imageAll xs

def GoValue.imageEntries : List (String × GoValue) → List (Starlark × Starlark)
  | [] => []
  | (k, x) :: m => (.string k, x.image) :: imageEntries m

end

mutual

/-- The value with every integer as an `int64` where it is one, and the entries of an input in
the order of `inputSpec`. -/
def GoValue.sized : GoValue → GoValue
  | .int i => .int64 i
  | .uint64 u => if u.toNat < 2 ^ 63 then .int64 (Int64.ofNat u.toNat) else .uint64 u
  | .list xs => .list (sizedAll xs)
  | .map m =>
    match asInputSpec m with
    | some i => .map (inputSpec i)
    | none => .map (sizedEntries m)
  | v => v

def GoValue.sizedAll : List GoValue → List GoValue
  | [] => []
  | x :: xs => x.sized :: sizedAll xs

def GoValue.sizedEntries : List (String × GoValue) → List (String × GoValue)
  | [] => []
  | (k, x) :: m => (k, x.sized) :: sizedEntries m

end

/-- Nothing changes an input when nothing is stamped and nothing is pinned. -/
theorem Rehydrator.rehydrateInput_plain {r : Rehydrator} (hp : r.platform = "")
    (he : r.enforce = false) (depth : Nat) :
    ∀ {i i' : Input}, r.rehydrateInput depth i = .ok i' → i' = i := by
  induction depth with
  | zero =>
    intro i i' h
    cases h
  | succ depth ih =>
    intro i i' h
    rw [rehydrateInput] at h
    split at h
    · -- a build: the source comes back as it was, so its bytes are the same
      obtain ⟨bdef, -, h⟩ := Except.bind_eq_ok.mp h
      split at h
      · exact (Except.ok.inj h).symm
      obtain ⟨src, hsrc, h⟩ := Except.bind_eq_ok.mp h
      rw [ih hsrc, if_pos rfl] at h
      exact (Except.ok.inj h).symm
    · obtain ⟨d, -, h⟩ := Except.bind_eq_ok.mp h
      have hnone : r.rehydrateImport d = .ok none := by simp [rehydrateImport, hp, he]; rfl
      rw [hnone] at h
      exact (Except.ok.inj h).symm
    · exact (Except.ok.inj h).symm

variable {r : Rehydrator} {shown : Starlark → String}

theorem fromStarlark_int64 (i : Int64) : fromStarlark shown (.int i.toInt) = .ok (.int64 i) := by
  have hlo := i.le_toInt
  have hhi := i.toInt_lt
  rw [fromStarlark, if_pos ⟨by omega, by omega⟩, Int64.ofInt_toInt]

theorem fromStarlark_uint64 (u : UInt64) :
    fromStarlark shown (.int u.toNat) = .ok (GoValue.uint64 u).sized := by
  have hlt := u.toNat_lt
  rw [fromStarlark, GoValue.sized]
  by_cases h : u.toNat < 2 ^ 63
  · rw [if_pos ⟨by omega, by omega⟩, if_pos h]
    rfl
  · rw [if_neg (by omega), if_pos ⟨by omega, by omega⟩, if_neg h, Int.toNat_natCast,
      UInt64.ofNat_toNat]

mutual

theorem convert_back (hp : r.platform = "") (he : r.enforce = false) : ∀ (v : GoValue)
    (sv : Starlark), convert r v = .ok sv → sv = v.image ∧ fromStarlark shown sv = .ok v.sized
  | .list xs, _, h => by
    obtain ⟨svs, hs, h⟩ := Except.bind_eq_ok.mp h
    obtain ⟨himage, hback⟩ := convertAll_back hp he xs svs hs
    rw [← Except.ok.inj h, GoValue.image, ← himage, fromStarlark, hback]
    exact ⟨rfl, rfl⟩
  | .map m, _, h => by
    rw [convert] at h
    rw [GoValue.image, GoValue.sized]
    split at h <;> obtain ⟨x, hx, h⟩ := Except.bind_eq_ok.mp h <;> rw [← Except.ok.inj h]
    · rw [r.rehydrateInput_plain hp he _ hx]
      exact ⟨rfl, rfl⟩
    · obtain ⟨himage, hback⟩ := convertEntries_back hp he m x hx
      rw [← himage, fromStarlark, hback]
      exact ⟨rfl, rfl⟩
  | .int i, _, h | .int64 i, _, h => by
    rw [← Except.ok.inj h]
    exact ⟨rfl, fromStarlark_int64 i⟩
  | .uint64 u, _, h => by
    rw [← Except.ok.inj h]
    exact ⟨rfl, fromStarlark_uint64 u⟩
  | .nil, _, h | .bool _, _, h | .string _, _, h | .bytes _, _, h | .float64 _, _, h => by
    rw [← Except.ok.inj h]
    exact ⟨rfl, rfl⟩

theorem convertAll_back (hp : r.platform = "") (he : r.enforce = false) : ∀ (xs : List GoValue)
    (svs : List Starlark), convertAll r xs = .ok svs →
      svs = GoValue.imageAll xs ∧ fromStarlarkAll shown svs = .ok (GoValue.sizedAll xs)
  | [], _, h => by
    rw [← Except.ok.inj h]
    exact ⟨rfl, rfl⟩
  | x :: xs, _, h => by
    obtain ⟨sv, hsv, h⟩ := Except.bind_eq_ok.mp h
    obtain ⟨svs, hsvs, h⟩ := Except.bind_eq_ok.mp h
    obtain ⟨himage, hback⟩ := convert_back hp he x sv hsv
    obtain ⟨himages, hbacks⟩ := convertAll_back hp he xs svs hsvs
    rw [← Except.ok.inj h, GoValue.imageAll, ← himage, ← himages, fromStarlarkAll, hback, hbacks]
    exact ⟨rfl, rfl⟩

theorem convertEntries_back (hp : r.platform = "") (he : r.enforce = false) :
    ∀ (m : List (String × GoValue)) (d : List (Starlark × Starlark)),
      convertEntries r m = .ok d → d = GoValue.imageEntries m ∧
        fromStarlarkItems shown d = .ok (GoValue.sizedEntries m)
  | [], _, h => by
    rw [← Except.ok.inj h]
    exact ⟨rfl, rfl⟩
  | (k, x) :: m, _, h => by
    obtain ⟨sv, hsv, h⟩ := Except.bind_eq_ok.mp h
    obtain ⟨d, hd, h⟩ := Except.bind_eq_ok.mp h
    obtain ⟨himage, hback⟩ := convert_back hp he x sv hsv
    obtain ⟨himages, hbacks⟩ := convertEntries_back hp he m d hd
    rw [← Except.ok.inj h, GoValue.imageEntries, ← himage, ← himages, fromStarlarkItems, hback,
      hbacks]
    exact ⟨rfl, rfl⟩

end

theorem asInputSpec_eq_some {m : List (String × GoValue)} {i : Input}
    (h : asInputSpec m = some i) : m.length = 2 ∧ m.lookup "kind" = some (.string i.kind.name) ∧
      m.lookup "definition" = some (.bytes i.definition) := by
  unfold asInputSpec at h
  split at h
  · cases h
  rename_i hlen
  split at h
  · rename_i kind definition hk hd
    refine ⟨not_not.mp hlen, ?_⟩
    split at h
    · rename_i himport
      rw [himport] at hk
      rw [← Option.some.inj h]
      exact ⟨hk, hd⟩
    · split at h
      · rename_i hbuild
        rw [hbuild] at hk
        rw [← Option.some.inj h]
        exact ⟨hk, hd⟩
      · cases h
  · cases h

/-- The two entries of an input are all that its map has. -/
theorem inputSpec_perm {m : List (String × GoValue)} {i : Input} (h : asInputSpec m = some i) :
    (inputSpec i).Perm m := by
  obtain ⟨hlen, hkind, hdef⟩ := asInputSpec_eq_some h
  have hsubset : inputSpec i ⊆ m := by
    simpa [inputSpec] using ⟨Assoc.mem_of_lookup hkind, Assoc.mem_of_lookup hdef⟩
  have hnodup : (inputSpec i).Nodup := by simp [inputSpec]
  exact (List.subperm_of_subset hnodup hsubset).perm_of_length_le (by simp [hlen, inputSpec])

/-- **Value conversion round trip.** What is converted without a platform comes back as it was,
up to the types of its integers and the order of an input's entries.  The maps with the two
entries of an input, and no others, are inputs in between, with the same definition. -/
theorem toStarlark_round_trip (quote : String → String) (shown : Starlark → String)
    (depth : Nat) (v : GoValue) (sv : Starlark) (h : toStarlark quote depth v "" = .ok sv) :
    sv = v.image ∧ fromStarlark shown sv = .ok v.sized ∧
      ∀ m i, asInputSpec m = some i → (inputSpec i).Perm m := by
  obtain ⟨himage, hback⟩ := convert_back rfl rfl v sv h
  exact ⟨himage, hback, fun _ _ => inputSpec_perm⟩

/-- An integer above the signed range, an input and a map that only looks like one. -/
def mixedValue : GoValue :=
  .list [.uint64 9223372036854775808, .int (-1),
    .map [("definition", .bytes (record [("params", [0xf6]), ("fetcher", text "git")])),
      ("kind", .string "import")],
    .map [("kind", .string "tree"), ("definition", .bytes [])]]

theorem toStarlark_round_trip_mixed : toStarlark id 1 mixedValue "" = .ok mixedValue.image ∧
    fromStarlark (fun _ => "") mixedValue.image = .ok mixedValue.sized := by
  have hto : toStarlark id 1 mixedValue "" = .ok mixedValue.image := by rfl
  exact ⟨hto, (toStarlark_round_trip id (fun _ => "") 1 mixedValue _ hto).2.1⟩

end JobsIroh.Recipe
