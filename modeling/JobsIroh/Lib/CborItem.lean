/-
CBOR items written as they stand, and a decoder with limits.

An item is written with the shortest heads and definite lengths, its entries in the order
they have.  Its size is a sum over its parts, without writing it.  A decoder that limits
the depth and the number of elements takes a written item back exactly when the item keeps
to the limits.
-/
import JobsIroh.Lib.Cbor
import Mathlib.Algebra.Order.BigOperators.Group.List

namespace Cbor

/-! ### Heads -/

/-- How many bytes the shortest head takes. -/
def headSize (n : Nat) : Nat :=
  if n < 24 then 1 else if n < 256 then 2 else if n < 256 ^ 2 then 3 else if n < 256 ^ 4 then 5
  else 9

@[simp]
theorem length_head (major n : Nat) : (head major n).length = headSize n := by
  unfold head headSize
  repeat' split
  all_goals simp

theorem headSize_pos (n : Nat) : 0 < headSize n := by
  unfold headSize
  repeat' split
  all_goals omega

namespace Item

/-! ### Writing -/

theorem sizeOf_entry {kv : Item × Item} {kvs : List (Item × Item)} (h : kv ∈ kvs) :
    sizeOf kv.1 < sizeOf kvs ∧ sizeOf kv.2 < sizeOf kvs := by
  have hlt := List.sizeOf_lt_of_mem h
  obtain ⟨k, v⟩ := kv
  simp only [Prod.mk.sizeOf_spec] at hlt
  exact ⟨by dsimp only; omega, by dsimp only; omega⟩

def write : Item → Bytes
  | .uint n => head 0 n
  | .nint n => head 1 n
  | .bytes b => head 2 b.length ++ b
  | .text b => head 3 b.length ++ b
  | .array xs => head 4 xs.length ++ xs.flatMap write
  | .map kvs => head 5 kvs.length ++ kvs.flatMap fun kv => write kv.1 ++ write kv.2
  | .tag n x => head 6 n ++ write x
  | .simple _ arg => head 7 arg
decreasing_by
  all_goals
    first
      | (have hlt := sizeOf_entry ‹_ ∈ _›; simp only [Item.map.sizeOf_spec]; omega)
      | (have hlt := List.sizeOf_lt_of_mem ‹_ ∈ _›; simp only [Item.array.sizeOf_spec]; omega)
      | (simp only [Item.tag.sizeOf_spec]; omega)

/-- The number of bytes `write` takes. -/
def size : Item → Nat
  | .uint n => headSize n
  | .nint n => headSize n
  | .bytes b => headSize b.length + b.length
  | .text b => headSize b.length + b.length
  | .array xs => headSize xs.length + (xs.map size).sum
  | .map kvs => headSize kvs.length + (kvs.map fun kv => size kv.1 + size kv.2).sum
  | .tag n x => headSize n + size x
  | .simple _ arg => headSize arg
decreasing_by
  all_goals
    first
      | (have hlt := sizeOf_entry ‹_ ∈ _›; simp only [Item.map.sizeOf_spec]; omega)
      | (have hlt := List.sizeOf_lt_of_mem ‹_ ∈ _›; simp only [Item.array.sizeOf_spec]; omega)
      | (simp only [Item.tag.sizeOf_spec]; omega)

/-- **The size is the number of bytes written.** -/
theorem length_write (x : Item) : x.write.length = x.size := by
  induction x using write.induct with
  | case1 | case2 | case3 | case4 | case8 => simp [write, size]
  | case5 xs ih =>
    have hsum : (xs.flatMap write).length = (xs.map size).sum := by
      rw [List.length_flatMap]
      exact congrArg List.sum (List.map_congr_left ih)
    simp [write, size, hsum]
  | case6 kvs ih₁ ih₂ =>
    have hsum : (kvs.flatMap fun kv => write kv.1 ++ write kv.2).length =
        (kvs.map fun kv => size kv.1 + size kv.2).sum := by
      rw [List.length_flatMap]
      refine congrArg List.sum (List.map_congr_left fun kv hkv => ?_)
      rw [List.length_append, ih₁ kv hkv, ih₂ kv hkv]
    simp [write, size, hsum]
  | case7 n x ih => simp [write, size, ih]

/-! ### Reading back -/

/-- The numbers take at most 64 bits, and the item nests at most `depth` deep. -/
def Formed : Nat → Item → Prop
  | _, .uint n => n < 256 ^ 8
  | _, .nint n => n < 256 ^ 8
  | _, .bytes _ => True
  | _, .text _ => True
  | _, .simple info arg => info = arg ∧ arg < 24
  | 0, _ => False
  | depth + 1, .array xs => ∀ x ∈ xs, Formed depth x
  | depth + 1, .map kvs => ∀ kv ∈ kvs, Formed depth kv.1 ∧ Formed depth kv.2
  | depth + 1, .tag n x => n < 256 ^ 8 ∧ Formed depth x

theorem size_le_of_entry {kv : Item × Item} {kvs : List (Item × Item)} (h : kv ∈ kvs) :
    kv.1.size + kv.2.size ≤ (kvs.map fun kv => size kv.1 + size kv.2).sum :=
  List.le_sum_of_mem (List.mem_map.mpr ⟨kv, h, rfl⟩)

theorem size_pos (x : Item) : 0 < x.size := by
  cases x <;> rw [size] <;> have := headSize_pos <;> grind

/-- There are no more elements than bytes. -/
theorem length_le_sum {α : Type} {f : α → Nat} (hf : ∀ x, 0 < f x) (xs : List α) :
    xs.length ≤ (xs.map f).sum := by
  induction xs with
  | nil => simp
  | cons x =>
    have := hf x
    simp only [List.length_cons, List.map_cons, List.sum_cons]
    omega

/-- An item without items inside is read back at any depth. -/
theorem item_atom {depth : Nat} {x : Item} (hf : Formed 0 x) (hs : x.size < 256 ^ 8) (t : Bytes) :
    item depth (x.write ++ t) = some (x, t) := by
  cases x with
  | uint n =>
    obtain ⟨info, hinfo, hr⟩ := readHead_head 0 n (by omega) (by simpa [Formed] using hf) t
    rw [write, item_of_head hr (by simp [Head.nests])]
    simp [body, hinfo]
  | nint n =>
    obtain ⟨info, hinfo, hr⟩ := readHead_head 1 n (by omega) (by simpa [Formed] using hf) t
    rw [write, item_of_head hr (by simp [Head.nests])]
    simp [body, hinfo]
  | bytes =>
    rw [size] at hs
    rw [write]
    exact item_bytes (by omega) t
  | text b =>
    rw [size] at hs
    obtain ⟨info, hinfo, hr⟩ := readHead_head 3 b.length (by omega) (by omega) (b ++ t)
    rw [write, List.append_assoc, item_of_head hr (by simp [Head.nests])]
    simp [body, hinfo, Reader.map, takeBytes_append]
  | simple info arg =>
    obtain ⟨rfl, harg⟩ : info = arg ∧ arg < 24 := by simpa [Formed] using hf
    have hr : readHead (initial 7 info :: t) = some (⟨7, info, info⟩, t) :=
      readHead_initial [] (by omega) (by omega) (by simp [width, harg]) rfl t
    rw [write, head, if_pos harg]
    rw [List.singleton_append, item_of_head hr (by simp [Head.nests])]
    have h31 : info ≠ 31 := by omega
    have h24 : ¬ (info = 24 ∧ info < 32) := by omega
    unfold body
    rw [if_neg h31]
    exact if_neg h24
  | _ => cases hf

/-- **A written item is read back**, whatever stands behind it. -/
theorem item_write : ∀ {depth : Nat} {x : Item}, Formed depth x → x.size < 256 ^ 8 →
    ∀ t, item depth (x.write ++ t) = some (x, t) := by
  intro depth
  induction depth with
  | zero => exact fun hf hs t => item_atom hf hs t
  | succ depth ih =>
    intro x hf hs t
    cases x with
    | array xs =>
      rw [size] at hs
      have hlen := length_le_sum size_pos xs
      obtain ⟨info, hinfo, hr⟩ := readHead_head 4 xs.length (by omega) (by omega)
        (xs.flatMap write ++ t)
      rw [write, List.append_assoc]
      refine Reader.bind_eq_some.mpr ⟨_, _, hr, ?_⟩
      have hbody : body (item depth) ⟨4, info, xs.length⟩ =
          (times (item depth) xs.length).map .array := by
        simp [body, hinfo]
      rw [hbody]
      refine Reader.map_eq_some.mpr ⟨xs, ?_, rfl⟩
      have hall : ∀ y ∈ xs, ∀ t, item depth (write y ++ t) = some (y, t) := by
        intro y hy
        have := List.le_sum_of_mem (List.mem_map_of_mem hy : y.size ∈ xs.map size)
        exact ih (hf y hy) (by omega)
      simpa using times_flatMap hall t
    | map kvs =>
      rw [size] at hs
      have hlen := length_le_sum (fun kv => Nat.add_pos_left (size_pos kv.1) (size kv.2)) kvs
      obtain ⟨info, hinfo, hr⟩ := readHead_head 5 kvs.length (by omega) (by omega)
        ((kvs.flatMap fun kv => write kv.1 ++ write kv.2) ++ t)
      rw [write, List.append_assoc]
      refine Reader.bind_eq_some.mpr ⟨_, _, hr, ?_⟩
      have hbody : body (item depth) ⟨5, info, kvs.length⟩ =
          (times (pair (item depth)) kvs.length).map .map := by
        simp [body, hinfo]
      rw [hbody]
      refine Reader.map_eq_some.mpr ⟨kvs, ?_, rfl⟩
      have hall : ∀ kv ∈ kvs, ∀ t,
          pair (item depth) ((write kv.1 ++ write kv.2) ++ t) = some (kv, t) := by
        intro kv hkv t
        have := size_le_of_entry hkv
        obtain ⟨hk, hv⟩ := hf kv hkv
        rw [List.append_assoc]
        refine Reader.bind_eq_some.mpr ⟨_, _, ih hk (by omega) _, ?_⟩
        exact Reader.map_eq_some.mpr ⟨_, ih hv (by omega) t, rfl⟩
      simpa using times_flatMap hall t
    | tag n x =>
      rw [size] at hs
      obtain ⟨hn, hx⟩ : n < 256 ^ 8 ∧ Formed depth x := hf
      obtain ⟨info, hinfo, hr⟩ := readHead_head 6 n (by omega) hn (write x ++ t)
      rw [write, List.append_assoc]
      refine Reader.bind_eq_some.mpr ⟨_, _, hr, ?_⟩
      have hbody : body (item depth) ⟨6, info, n⟩ = (item depth).map (.tag n) := by
        simp [body, hinfo]
      rw [hbody]
      exact Reader.map_eq_some.mpr ⟨x, ih hx (by omega) t, rfl⟩
    | _ => exact item_atom (by unfold Formed at hf ⊢; exact hf) hs t

/-! ### A decoder with limits -/

/-- No array and no map has more than `limit` entries, and none nests more than `depth` deep. -/
def within (limit : Nat) : Nat → Item → Bool
  | _, .uint _ | _, .nint _ | _, .bytes _ | _, .text _ | _, .simple _ _ => true
  | 0, _ => false
  | depth + 1, .array xs => xs.length ≤ limit && xs.all (within limit depth)
  | depth + 1, .map kvs =>
    kvs.length ≤ limit && kvs.all fun kv => within limit depth kv.1 && within limit depth kv.2
  | depth + 1, .tag _ x => within limit depth x

/-- One item and nothing else, within the limits. -/
def decode (limit depth : Nat) (bs : Bytes) : Option Item :=
  match item depth bs with
  | some (x, []) => if x.within limit depth then some x else none
  | _ => none

/-- **A written item that keeps to the limits is taken.** -/
theorem decode_write {limit depth : Nat} {x : Item} (hf : Formed depth x)
    (hw : x.within limit depth = true) (hs : x.size < 256 ^ 8) :
    decode limit depth x.write = some x := by
  have hx := item_write hf hs []
  rw [List.append_nil] at hx
  unfold decode
  rw [hx]
  exact if_pos hw

end Item

/-- An encoder with the shortest heads, and a decoder with limits that takes back what keeps to
them. -/
structure Codec (limit depth : Nat) where
  encode : Item → Bytes
  decode : Bytes → Option Item
  length_encode : ∀ x, (encode x).length = x.size
  decode_encode : ∀ {x : Item}, x.Formed depth → x.within limit depth = true →
    x.size < 256 ^ 8 → decode (encode x) = some x

namespace Item

def codec (limit depth : Nat) : Codec limit depth where
  encode := write
  decode := decode limit depth
  length_encode := length_write
  decode_encode := decode_write

/-! ### Values -/

def ofText (s : String) : Item := .text (utf8 s)

/-- An entry of a record, which may be left out. -/
structure Field where
  key : Item
  value : Item
  present : Bool := true

def record (fs : List Field) : Item :=
  .map ((fs.filter (·.present)).map fun f => (f.key, f.value))

/-! ### Upper bounds -/

/-- What a decoder with these limits takes, in at most `n` bytes. -/
structure AtMost (limit depth n : Nat) (x : Item) : Prop where
  formed : Formed depth x
  within : x.within limit depth = true
  size : x.size ≤ n

section

variable {limit depth m n : Nat} {x : Item}

theorem AtMost.mono (h : AtMost limit depth n x) (hn : n ≤ m) : AtMost limit depth m x :=
  ⟨h.formed, h.within, h.size.trans hn⟩

theorem headSize_le (n : Nat) : headSize n ≤ 9 := by
  unfold headSize
  repeat' split
  all_goals omega

theorem atMost_bytes {b : Bytes} (h : b.length ≤ n) : AtMost limit depth (n + 9) (.bytes b) := by
  have := headSize_le b.length
  refine ⟨by simp [Formed], by simp [Item.within], ?_⟩
  rw [size]
  omega

theorem atMost_number (h : n < 256 ^ 8) :
    AtMost limit depth 9 (.uint n) ∧ AtMost limit depth 9 (.nint n) := by
  constructor <;>
    exact ⟨by simpa [Formed] using h, by simp [Item.within], by rw [size]; exact headSize_le n⟩

/-- A key that takes at most 15 bytes. -/
def Field.plain (f : Field) : Bool :=
  match f.key with
  | .uint n => n < 24
  | .text b => b.length < 15
  | _ => false

theorem Field.atMost_key (limit depth : Nat) {f : Field} (h : f.plain = true) :
    AtMost limit depth 15 f.key := by
  rcases f with ⟨key, value, present⟩
  cases key with
  | uint k =>
    have hk : k < 24 := by simpa [Field.plain] using h
    exact (atMost_number (by omega)).1.mono (by decide)
  | text b =>
    have hb : b.length < 15 := by simpa [Field.plain] using h
    refine ⟨by simp [Formed], by simp [Item.within], ?_⟩
    rw [size, headSize, if_pos (by omega)]
    omega
  | _ => simp [Field.plain] at h

/-- Fields with bounds on their values, and what they take together. -/
inductive Rows (limit depth : Nat) : Nat → List Field → Prop where
  | nil : Rows limit depth 0 []
  | cons {b n : Nat} {f : Field} {fs : List Field} (hf : AtMost limit depth b f.value)
      (hfs : Rows limit depth n fs) : Rows limit depth (b + 15 + n) (f :: fs)

theorem Rows.value {fs : List Field} (h : Rows limit depth n fs) :
    ∀ f ∈ fs, ∃ b, AtMost limit depth b f.value := by
  induction h with
  | nil => simp
  | cons hf _ ih => exact List.forall_mem_cons.mpr ⟨⟨_, hf⟩, ih⟩

theorem Rows.sum_le {fs : List Field} (h : Rows limit depth n fs)
    (hkeys : ∀ f ∈ fs, f.plain = true) :
    ((fs.filter (·.present)).map fun f => f.key.size + f.value.size).sum ≤ n := by
  induction h with
  | nil => simp
  | @cons _ _ f _ hf _ ih =>
    have := ih fun f hf => hkeys f (List.mem_cons_of_mem _ hf)
    have := (Field.atMost_key limit depth (hkeys f List.mem_cons_self)).size
    have := hf.size
    rw [List.filter_cons]
    split
    · simp only [List.map_cons, List.sum_cons]
      omega
    · omega

theorem atMost_record {fs : List Field} (hlimit : fs.length ≤ limit)
    (hplain : fs.all Field.plain = true) (h : Rows limit depth n fs) :
    AtMost limit (depth + 1) (n + 9) (record fs) := by
  have hkeys := List.all_eq_true.mp hplain
  refine ⟨?_, ?_, ?_⟩
  · rw [record, Formed]
    simp only [List.forall_mem_map, List.mem_filter, and_imp]
    intro f hf _
    obtain ⟨_, hv⟩ := h.value f hf
    exact ⟨(Field.atMost_key limit depth (hkeys f hf)).formed, hv.formed⟩
  · have hlen := (List.length_filter_le (·.present) fs).trans hlimit
    simp only [record, Item.within, List.length_map, hlen, decide_true, Bool.true_and,
      List.all_map, List.all_eq_true, List.mem_filter, and_imp]
    intro f hf _
    obtain ⟨_, hv⟩ := h.value f hf
    simp [(Field.atMost_key limit depth (hkeys f hf)).within, hv.within]
  · have := h.sum_le hkeys
    have := headSize_le ((fs.filter (·.present)).map fun f => (f.key, f.value)).length
    rw [record, size, List.map_map]
    simp only [Function.comp_def]
    omega

end

end Item

end Cbor
