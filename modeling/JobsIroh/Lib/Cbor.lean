/-
CBOR data items: a reader for every well-formed item, a writer for the canonical form.

The reader takes heads of any width, strings in chunks and containers of indefinite length,
so that many byte strings read as the same item.  The writer has one form for each: the
shortest head and a definite length.  What makes a format of this kind compose is that a
reader does not look past what it takes (`Local`); a record is then read back field by field,
whatever stands behind each field.
-/
import Mathlib.Data.List.Basic
import Mathlib.Tactic.Ring

namespace Cbor

abbrev Bytes := List UInt8

/-! ### Numbers -/

/-- The `w` low bytes of `n`, most significant first. -/
def bigEndian : Nat → Nat → Bytes
  | 0, _ => []
  | w + 1, n => UInt8.ofNat (n / 256 ^ w) :: bigEndian w n

/-- The number a byte string spells, on top of the digits read so far. -/
def valueFrom (n : Nat) (bs : Bytes) : Nat := bs.foldl (fun n b => 256 * n + b.toNat) n

def value (bs : Bytes) : Nat := valueFrom 0 bs

@[simp]
theorem length_bigEndian (w n : Nat) : (bigEndian w n).length = w := by
  induction w with
  | zero => rfl
  | succ w ih => simp [bigEndian, ih]

theorem valueFrom_bigEndian (w : Nat) :
    ∀ m n, valueFrom m (bigEndian w n) = m * 256 ^ w + n % 256 ^ w := by
  induction w with
  | zero =>
    intro m n
    simp [bigEndian, valueFrom, Nat.mod_one]
  | succ w ih =>
    intro m n
    have hstep : valueFrom m (bigEndian (w + 1) n) =
        valueFrom (256 * m + n / 256 ^ w % 256) (bigEndian w n) := by
      simp [bigEndian, valueFrom]
    rw [hstep, ih, Nat.pow_succ, Nat.mod_mul]
    ring

theorem value_bigEndian {w n : Nat} (h : n < 256 ^ w) : value (bigEndian w n) = n := by
  rw [value, valueFrom_bigEndian, Nat.zero_mul, Nat.zero_add, Nat.mod_eq_of_lt h]

/-! ### Heads -/

/-- The major type, the additional information and the argument; an indefinite length has the
information 31. -/
structure Head where
  major : Nat
  info : Nat
  arg : Nat
  deriving DecidableEq, Repr

def initial (major info : Nat) : UInt8 := UInt8.ofNat (32 * major + info)

/-- The shortest head. -/
def head (major n : Nat) : Bytes :=
  if n < 24 then [initial major n]
  else if n < 256 then initial major 24 :: bigEndian 1 n
  else if n < 256 ^ 2 then initial major 25 :: bigEndian 2 n
  else if n < 256 ^ 4 then initial major 26 :: bigEndian 4 n
  else initial major 27 :: bigEndian 8 n

/-- How many bytes of argument follow; three values are reserved. -/
def width (info : Nat) : Option Nat :=
  if info < 24 ∨ info = 31 then some 0
  else if info = 24 then some 1
  else if info = 25 then some 2
  else if info = 26 then some 4
  else if info = 27 then some 8
  else none

/-! ### Readers -/

/-- A reader takes something from the front and returns it with the rest. -/
abbrev Reader (α : Type) := Bytes → Option (α × Bytes)

/-- What is read does not depend on what stands behind it. -/
def Local {α : Type} (p : Reader α) : Prop :=
  ∀ bs x r, p bs = some (x, r) → ∀ t, p (bs ++ t) = some (x, r ++ t)

section

variable {α β : Type}

def Reader.map (f : α → β) (p : Reader α) : Reader β := fun bs =>
  (p bs).map fun x => (f x.1, x.2)

/-- Read `p`, and go on with what it gave. -/
def Reader.bind (p : Reader α) (k : α → Reader β) : Reader β := fun bs =>
  match p bs with
  | none => none
  | some (x, r) => k x r

/-- Split off the first `n` bytes. -/
def takeBytes (n : Nat) : Reader Bytes := fun bs =>
  if bs.length < n then none else some (bs.take n, bs.drop n)

/-- The head that starts with `b`, with `w` bytes of argument. -/
def headOf (b : UInt8) (w : Nat) (arg : Bytes) : Head where
  major := b.toNat / 32
  info := b.toNat % 32
  arg := if w = 0 then b.toNat % 32 else value arg

def readHead : Reader Head
  | [] => none
  | b :: rest =>
    match width (b.toNat % 32) with
    | none => none
    | some w => (takeBytes w).map (headOf b w) rest

def times (p : Reader α) : Nat → Reader (List α)
  | 0 => fun bs => some ([], bs)
  | n + 1 => p.bind fun x => (times p n).map (x :: ·)

/-- Read until the break byte; the fuel is the number of bytes there are. -/
def untilBreak (p : Reader α) : Nat → Reader (List α)
  | 0, _ => none
  | _ + 1, 0xff :: rest => some ([], rest)
  | fuel + 1, bs => p.bind (fun x => Reader.map (x :: ·) (untilBreak p fuel)) bs

def pair (p : Reader α) : Reader (α × α) := p.bind fun k => p.map fun v => (k, v)

variable {p : Reader α}

theorem Reader.map_eq_some {f : α → β} {bs r : Bytes} {y : β} :
    p.map f bs = some (y, r) ↔ ∃ x, p bs = some (x, r) ∧ f x = y := by
  unfold Reader.map
  cases p bs with
  | none => simp
  | some => simp [Prod.ext_iff, and_comm]

theorem Reader.bind_eq_some {k : α → Reader β} {bs r : Bytes} {y : β} :
    p.bind k bs = some (y, r) ↔ ∃ x r₁, p bs = some (x, r₁) ∧ k x r₁ = some (y, r) := by
  unfold Reader.bind
  cases p bs with
  | none => simp
  | some => simp [Prod.ext_iff]

theorem Local.map (h : Local p) (f : α → β) : Local (p.map f) := by
  intro bs y r hy t
  obtain ⟨x, hx, rfl⟩ := Reader.map_eq_some.mp hy
  exact Reader.map_eq_some.mpr ⟨x, h bs x r hx t, rfl⟩

theorem Local.bind {k : α → Reader β} (h : Local p) (hk : ∀ x, Local (k x)) :
    Local (p.bind k) := by
  intro bs y r hy t
  obtain ⟨x, r₁, hx, hy⟩ := Reader.bind_eq_some.mp hy
  exact Reader.bind_eq_some.mpr ⟨x, r₁ ++ t, h bs x r₁ hx t, hk x r₁ y r hy t⟩

theorem Local.times (h : Local p) (n : Nat) : Local (times p n) := by
  induction n with
  | zero =>
    intro bs x r hx t
    obtain ⟨rfl, rfl⟩ := Prod.mk.inj (Option.some.inj hx)
    rfl
  | succ n ih => exact h.bind fun x => ih.map (x :: ·)

theorem Local.pair (h : Local p) : Local (pair p) :=
  h.bind fun _ => h.map _

theorem local_takeBytes (n : Nat) : Local (takeBytes n) := by
  intro bs x r hx t
  unfold takeBytes at hx ⊢
  split at hx
  · cases hx
  obtain ⟨rfl, rfl⟩ := Prod.mk.inj (Option.some.inj hx)
  have hle : n ≤ bs.length := by omega
  rw [if_neg (by simp; omega), List.take_append_of_le_length hle,
    List.drop_append_of_le_length hle]

theorem local_readHead : Local readHead := by
  intro bs x r hx t
  cases bs with
  | nil => cases hx
  | cons b =>
    rw [List.cons_append]
    simp only [readHead] at hx ⊢
    cases hw : width (b.toNat % 32) with
    | none =>
      rw [hw] at hx
      cases hx
    | some w =>
      rw [hw] at hx
      exact (local_takeBytes w).map (headOf b w) _ _ _ hx t

/-- More fuel changes nothing, and neither does what stands behind. -/
theorem untilBreak_mono (hp : Local p) (hnil : p [] = none) {fuel : Nat} :
    ∀ {fuel' bs x r}, fuel ≤ fuel' → untilBreak p fuel bs = some (x, r) →
      ∀ t, untilBreak p fuel' (bs ++ t) = some (x, r ++ t) := by
  induction fuel with
  | zero =>
    intro fuel' bs x r _ h
    cases h
  | succ fuel ih =>
    intro fuel' bs x r hle h t
    obtain ⟨fuel', rfl⟩ : ∃ n, fuel' = n + 1 := ⟨fuel' - 1, by omega⟩
    by_cases hbreak : ∃ rest, bs = 0xff :: rest
    · obtain ⟨rest, rfl⟩ := hbreak
      obtain ⟨rfl, rfl⟩ := Prod.mk.inj (Option.some.inj h)
      rfl
    · have hne : ∀ rest, bs ≠ 0xff :: rest := fun rest heq => hbreak ⟨rest, heq⟩
      rw [untilBreak.eq_3 p bs fuel hne, Reader.bind_eq_some] at h
      obtain ⟨y, r₁, hy, hrest⟩ := h
      obtain ⟨ys, hys, rfl⟩ := Reader.map_eq_some.mp hrest
      have hne' : ∀ rest, bs ++ t ≠ 0xff :: rest := by
        intro rest heq
        cases bs with
        | nil =>
          rw [hnil] at hy
          cases hy
        | cons b bs => exact hne bs (by rw [(List.cons.inj heq).1])
      rw [untilBreak.eq_3 p (bs ++ t) fuel' hne', Reader.bind_eq_some]
      exact ⟨y, r₁ ++ t, hp bs y r₁ hy t, Reader.map_eq_some.mpr ⟨ys, ih (by omega) hys t, rfl⟩⟩

/-- Read until the break byte; there are no more elements than bytes. -/
def elements (p : Reader α) : Reader (List α) := fun bs => untilBreak p bs.length bs

theorem Local.elements (h : Local p) (hnil : p [] = none) : Local (elements p) := by
  intro bs x r hx t
  refine untilBreak_mono h hnil ?_ hx t
  rw [List.length_append]
  exact Nat.le_add_right _ _

end

/-! ### Items -/

inductive Item where
  | uint (n : Nat)
  | nint (n : Nat)
  | bytes (b : Bytes)
  | text (b : Bytes)
  | array (xs : List Item)
  | map (kvs : List (Item × Item))
  | tag (n : Nat) (x : Item)
  | simple (info arg : Nat)
  deriving Repr

/-- One chunk of a string of indefinite length: a string of the same type and a definite
length. -/
def chunk (major : Nat) : Reader Bytes :=
  readHead.bind fun h bs =>
    if h.major = major ∧ h.info ≠ 31 then takeBytes h.arg bs else none

/-- What follows the head of an item; `p` reads the items inside. -/
def body (p : Reader Item) (h : Head) : Reader Item :=
  if h.info = 31 then
    match h.major with
    | 2 => (elements (chunk 2)).map fun cs => .bytes cs.flatten
    | 3 => (elements (chunk 3)).map fun cs => .text cs.flatten
    | 4 => (elements p).map .array
    | 5 => (elements (pair p)).map .map
    | _ => fun _ => none
  else
    match h.major with
    | 0 => fun bs => some (.uint h.arg, bs)
    | 1 => fun bs => some (.nint h.arg, bs)
    | 2 => (takeBytes h.arg).map .bytes
    | 3 => (takeBytes h.arg).map .text
    | 4 => (times p h.arg).map .array
    | 5 => (times (pair p) h.arg).map .map
    | 6 => p.map (.tag h.arg)
    | _ => fun bs => if h.info = 24 ∧ h.arg < 32 then none else some (.simple h.info h.arg, bs)

/-- The head of an array, a map or a tag. -/
def Head.nests (h : Head) : Bool := h.major = 4 || h.major = 5 || h.major = 6

/-- One item, with at most `depth` arrays, maps and tags around its innermost part. -/
def item : Nat → Reader Item
  | 0 => readHead.bind fun h => if h.nests then fun _ => none else body (fun _ => none) h
  | depth + 1 => readHead.bind (body (item depth))

theorem item_nil (depth : Nat) : item depth [] = none := by
  cases depth <;> rfl

theorem local_const {α : Type} (x : α) : Local fun bs => some (x, bs) := by
  intro bs y r h t
  obtain ⟨rfl, rfl⟩ := Prod.mk.inj (Option.some.inj h)
  rfl

theorem local_none {α : Type} : Local fun _ => (none : Option (α × Bytes)) := by
  intro bs y r h
  cases h

theorem local_chunk (major : Nat) : Local (chunk major) := by
  refine local_readHead.bind fun h => ?_
  by_cases hc : h.major = major ∧ h.info ≠ 31
  · simp only [if_pos hc]
    exact local_takeBytes h.arg
  · simp only [if_neg hc]
    exact local_none

theorem Local.body {p : Reader Item} (hp : Local p) (hnil : p [] = none) (h : Head) :
    Local (body p h) := by
  have hchunk : ∀ major, Local (Cbor.elements (chunk major)) := fun major =>
    (local_chunk major).elements rfl
  have hpair : Cbor.pair p [] = none := by
    unfold Cbor.pair Reader.bind
    rw [hnil]
  unfold Cbor.body
  split
  · split
    · exact (hchunk 2).map _
    · exact (hchunk 3).map _
    · exact (hp.elements hnil).map _
    · exact (hp.pair.elements hpair).map _
    · exact local_none
  · split
    · exact local_const _
    · exact local_const _
    · exact (local_takeBytes _).map _
    · exact (local_takeBytes _).map _
    · exact (hp.times _).map _
    · exact (hp.pair.times _).map _
    · exact hp.map _
    · split
      · exact local_none
      · exact local_const _

/-- **An item is read the same whatever stands behind it.** -/
theorem local_item (depth : Nat) : Local (item depth) := by
  induction depth with
  | zero =>
    refine local_readHead.bind fun h => ?_
    split
    · exact local_none
    · exact local_none.body rfl h
  | succ depth ih => exact local_readHead.bind fun h => ih.body (item_nil depth) h

/-- The bytes of one item, unread. -/
def raw (depth : Nat) : Reader Bytes := fun bs =>
  (item depth bs).map fun x => (bs.take (bs.length - x.2.length), x.2)

/-- The bytes are one item and nothing else. -/
def WellFormed (depth : Nat) (bs : Bytes) : Prop := ∃ x, item depth bs = some (x, [])

/-- **A well-formed item is spliced and taken out again byte for byte.** -/
theorem raw_append {depth : Nat} {bs : Bytes} (h : WellFormed depth bs) (t : Bytes) :
    raw depth (bs ++ t) = some (bs, t) := by
  obtain ⟨x, hx⟩ := h
  unfold raw
  rw [local_item depth _ _ _ hx t]
  simp

/-! ### The canonical form -/

theorem toNat_initial {major info : Nat} (hm : major < 8) (hi : info < 32) :
    (initial major info).toNat = 32 * major + info := by
  unfold initial
  rw [UInt8.toNat_ofNat']
  omega

theorem readHead_initial {major info w : Nat} (arg : Bytes) (hm : major < 8) (hi : info < 32)
    (hw : width info = some w) (hlen : arg.length = w) (t : Bytes) :
    readHead (initial major info :: (arg ++ t)) =
      some (⟨major, info, if w = 0 then info else value arg⟩, t) := by
  have hn := toNat_initial hm hi
  have hinfo : (initial major info).toNat % 32 = info := by omega
  have hmajor : (initial major info).toNat / 32 = major := by omega
  simp only [readHead, hinfo, hw]
  refine Reader.map_eq_some.mpr ⟨arg, ?_, ?_⟩
  · unfold takeBytes
    rw [if_neg (by simp [hlen]), List.take_left' hlen, List.drop_left' hlen]
  · unfold headOf
    rw [hinfo, hmajor]

/-- **A head is read back**, and is not that of an indefinite length. -/
theorem readHead_head (major n : Nat) (hm : major < 8) (hn : n < 256 ^ 8) (t : Bytes) :
    ∃ info, info ≠ 31 ∧ readHead (head major n ++ t) = some (⟨major, info, n⟩, t) := by
  unfold head
  split
  · rename_i h
    refine ⟨n, by omega, ?_⟩
    have hr := readHead_initial [] hm (by omega : n < 32)
      (by simp [width, h] : width n = some 0) rfl t
    simpa using hr
  have wide : ∀ {info w : Nat}, info < 32 → width info = some w → w ≠ 0 → n < 256 ^ w →
      readHead (initial major info :: bigEndian w n ++ t) = some (⟨major, info, n⟩, t) := by
    intro info w hi hw h0 hlt
    have hr := readHead_initial (bigEndian w n) hm hi hw (length_bigEndian w n) t
    rw [if_neg h0, value_bigEndian hlt] at hr
    exact hr
  split
  · exact ⟨24, by omega, wide (by omega) rfl (by omega) (by omega)⟩
  split
  · exact ⟨25, by omega, wide (by omega) rfl (by omega) (by omega)⟩
  split
  · exact ⟨26, by omega, wide (by omega) rfl (by omega) (by omega)⟩
  · exact ⟨27, by omega, wide (by omega) rfl (by omega) hn⟩

def utf8 (s : String) : Bytes := s.toUTF8.data.toList

/-- The text of a byte string, if it is one. -/
def ofUtf8 (b : Bytes) : Option String := String.fromUTF8? ⟨b.toArray⟩

@[simp]
theorem ofUtf8_utf8 (s : String) : ofUtf8 (utf8 s) = some s := by
  exact dif_pos s.isValidUTF8

def text (s : String) : Bytes := head 3 (utf8 s).length ++ utf8 s

def bytes (b : Bytes) : Bytes := head 2 b.length ++ b

def int (i : Int) : Bytes :=
  if 0 ≤ i then head 0 i.toNat else head 1 (-1 - i).toNat

theorem body_of_not_nests {h : Head} (hn : h.nests = false) (p q : Reader Item) :
    body p h = body q h := by
  obtain ⟨major, info, arg⟩ := h
  match major with
  | 0 | 1 | 2 | 3 => rfl
  | 4 | 5 | 6 => cases hn
  | _ + 7 => rfl

/-- Without a nesting head the depth does not matter. -/
theorem item_of_head {bs r : Bytes} {h : Head} (hr : readHead bs = some (h, r))
    (hn : h.nests = false) (depth : Nat) : item depth bs = body (fun _ => none) h r := by
  have hbind : ∀ k : Head → Reader Item, readHead.bind k bs = k h r := by
    intro k
    simp only [Reader.bind, hr]
  cases depth with
  | zero =>
    rw [item, hbind]
    simp [hn]
  | succ => rw [item, hbind, body_of_not_nests hn]

theorem takeBytes_append (b t : Bytes) : takeBytes b.length (b ++ t) = some (b, t) := by
  simp [takeBytes]

variable {depth : Nat}

theorem item_text {s : String} (hs : (utf8 s).length < 256 ^ 8) (t : Bytes) :
    item depth (text s ++ t) = some (.text (utf8 s), t) := by
  obtain ⟨info, hinfo, hr⟩ := readHead_head 3 _ (by omega) hs (utf8 s ++ t)
  rw [text, List.append_assoc, item_of_head hr (by simp [Head.nests])]
  simp [body, hinfo, Reader.map, takeBytes_append]

theorem item_bytes {b : Bytes} (hb : b.length < 256 ^ 8) (t : Bytes) :
    item depth (bytes b ++ t) = some (.bytes b, t) := by
  obtain ⟨info, hinfo, hr⟩ := readHead_head 2 _ (by omega) hb (b ++ t)
  rw [bytes, List.append_assoc, item_of_head hr (by simp [Head.nests])]
  simp [body, hinfo, Reader.map, takeBytes_append]

/-- The integer of an item. -/
def Item.int? : Item → Option Int
  | .uint n => some n
  | .nint n => some (-1 - n)
  | _ => none

theorem item_int {i : Int} (hlo : -256 ^ 8 ≤ i) (hhi : i < 256 ^ 8) (t : Bytes) :
    ∃ x, item depth (int i ++ t) = some (x, t) ∧ x.int? = some i := by
  unfold int
  split
  · rename_i h
    obtain ⟨info, hinfo, hr⟩ := readHead_head 0 i.toNat (by omega) (by omega) t
    refine ⟨.uint i.toNat, ?_, ?_⟩
    · rw [item_of_head hr (by simp [Head.nests])]
      simp [body, hinfo]
    · simp only [Item.int?]
      rw [Int.toNat_of_nonneg h]
  · obtain ⟨info, hinfo, hr⟩ :=
      readHead_head 1 (-1 - i).toNat (by omega) (by omega) t
    refine ⟨.nint (-1 - i).toNat, ?_, ?_⟩
    · rw [item_of_head hr (by simp [Head.nests])]
      simp [body, hinfo]
    · simp only [Item.int?]
      congr 1
      omega

/-! ### Records -/

/-- A map with text keys whose values are written already. -/
def record (fs : List (String × Bytes)) : Bytes :=
  head 5 fs.length ++ fs.flatMap fun f => text f.1 ++ f.2

/-- The text of a key. -/
def Item.text? : Item → Option String
  | .text b => ofUtf8 b
  | _ => none

/-- One entry, its value left unread. -/
def entry (depth : Nat) : Reader (Option String × Bytes) :=
  (item depth).bind fun k => (raw depth).map fun v => (k.text?, v)

/-- The entries of a map. -/
def readRecord (depth : Nat) : Reader (List (Option String × Bytes)) :=
  readHead.bind fun h bs =>
    if h.major ≠ 5 then none
    else if h.info = 31 then elements (entry depth) bs
    else times (entry depth) h.arg bs

theorem entry_append {name : String} {v : Bytes} (hname : (utf8 name).length < 256 ^ 8)
    (hv : WellFormed depth v) (t : Bytes) :
    entry depth ((text name ++ v) ++ t) = some ((some name, v), t) := by
  refine Reader.bind_eq_some.mpr ⟨.text (utf8 name), v ++ t, ?_, ?_⟩
  · rw [List.append_assoc]
    exact item_text hname (v ++ t)
  · refine Reader.map_eq_some.mpr ⟨v, raw_append hv t, ?_⟩
    rw [Item.text?, ofUtf8_utf8]

theorem times_flatMap {α β : Type} {p : Reader β} {w : α → Bytes} {g : α → β} {xs : List α}
    (h : ∀ x ∈ xs, ∀ t, p (w x ++ t) = some (g x, t)) (t : Bytes) :
    times p xs.length (xs.flatMap w ++ t) = some (xs.map g, t) := by
  induction xs with
  | nil => rfl
  | cons x xs ih =>
    rw [List.flatMap_cons, List.append_assoc]
    refine Reader.bind_eq_some.mpr ⟨g x, _, h x List.mem_cons_self _, ?_⟩
    refine Reader.map_eq_some.mpr ⟨_, ih fun y hy => h y (List.mem_cons_of_mem _ hy), rfl⟩

/-- **A record is read back, its values byte for byte.** -/
theorem readRecord_record {fs : List (String × Bytes)} (hlen : fs.length < 256 ^ 8)
    (hfs : ∀ f ∈ fs, (utf8 f.1).length < 256 ^ 8 ∧ WellFormed depth f.2) (t : Bytes) :
    readRecord depth (record fs ++ t) = some (fs.map fun f => (some f.1, f.2), t) := by
  obtain ⟨info, hinfo, hr⟩ := readHead_head 5 _ (by omega) hlen
    ((fs.flatMap fun f => text f.1 ++ f.2) ++ t)
  rw [record, List.append_assoc]
  refine Reader.bind_eq_some.mpr ⟨_, _, hr, ?_⟩
  rw [if_neg (by simp), if_neg hinfo]
  exact times_flatMap (fun f hf t => entry_append (hfs f hf).1 (hfs f hf).2 t) t

theorem wellFormed_record {fs : List (String × Bytes)} (hlen : fs.length < 256 ^ 8)
    (hfs : ∀ f ∈ fs, (utf8 f.1).length < 256 ^ 8 ∧ WellFormed depth f.2) :
    WellFormed (depth + 1) (record fs) := by
  -- The value of each entry, for the list of what is read.
  let read : String × Bytes → Item × Item := fun f =>
    (.text (utf8 f.1), ((item depth f.2).map Prod.fst).getD (.uint 0))
  have hpair : ∀ f ∈ fs, ∀ t, pair (item depth) ((text f.1 ++ f.2) ++ t) = some (read f, t) := by
    intro f hf t
    obtain ⟨x, hx⟩ := (hfs f hf).2
    refine Reader.bind_eq_some.mpr ⟨.text (utf8 f.1), f.2 ++ t, ?_, ?_⟩
    · rw [List.append_assoc]
      exact item_text (hfs f hf).1 (f.2 ++ t)
    · refine Reader.map_eq_some.mpr ⟨x, local_item depth _ _ _ hx t, ?_⟩
      simp [read, hx]
  obtain ⟨info, hinfo, hr⟩ := readHead_head 5 _ (by omega) hlen
    ((fs.flatMap fun f => text f.1 ++ f.2) ++ [])
  refine ⟨.map (fs.map read), ?_⟩
  rw [List.append_nil] at hr
  refine Reader.bind_eq_some.mpr ⟨_, _, hr, ?_⟩
  have hbody : body (item depth) ⟨5, info, fs.length⟩ =
      (times (pair (item depth)) fs.length).map .map := by
    simp [body, hinfo]
  rw [hbody]
  refine Reader.map_eq_some.mpr ⟨fs.map read, ?_, rfl⟩
  simpa using times_flatMap hpair []

theorem wellFormed_text {s : String} (hs : (utf8 s).length < 256 ^ 8) :
    WellFormed depth (text s) := by
  have hx : item depth (text s ++ []) = some (.text (utf8 s), []) := item_text hs []
  rw [List.append_nil] at hx
  exact ⟨_, hx⟩

theorem wellFormed_bytes {b : Bytes} (hb : b.length < 256 ^ 8) : WellFormed depth (bytes b) := by
  have hx : item depth (bytes b ++ []) = some (.bytes b, []) := item_bytes hb []
  rw [List.append_nil] at hx
  exact ⟨_, hx⟩

theorem wellFormed_int {i : Int} (hlo : -256 ^ 8 ≤ i) (hhi : i < 256 ^ 8) :
    WellFormed depth (int i) := by
  obtain ⟨x, hx, -⟩ : ∃ x, item depth (int i ++ []) = some (x, []) ∧ x.int? = some i :=
    item_int hlo hhi []
  rw [List.append_nil] at hx
  exact ⟨x, hx⟩

/-! ### Items written back -/

/-- Shorter keys first, keys of one length bytewise. -/
def insertEntry (e : Bytes × Bytes) : List (Bytes × Bytes) → List (Bytes × Bytes)
  | [] => [e]
  | f :: fs =>
    if e.1.length < f.1.length ∨ e.1.length = f.1.length ∧ e.1 ≤ f.1 then e :: f :: fs
    else f :: insertEntry e fs

/-- The canonical form of an item; floating point values have none here. -/
def Item.encode : Nat → Item → Option Bytes
  | _, .uint n => some (head 0 n)
  | _, .nint n => some (head 1 n)
  | _, .bytes b => some (head 2 b.length ++ b)
  | _, .text b => some (head 3 b.length ++ b)
  | _, .simple info arg => if info ≤ 24 then some (head 7 arg) else none
  | 0, _ => none
  | depth + 1, .array xs => (xs.mapM (encode depth)).map fun ws => head 4 xs.length ++ ws.flatten
  | depth + 1, .map kvs =>
    (kvs.mapM fun kv => (encode depth kv.1).bind fun k => (encode depth kv.2).map fun v => (k, v))
      |>.map fun es => head 5 kvs.length ++
        (es.foldr insertEntry []).flatMap fun e => e.1 ++ e.2
  | depth + 1, .tag n x => (encode depth x).map fun w => head 6 n ++ w

end Cbor
