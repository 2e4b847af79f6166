/-
A pack on a byte stream (`amberiroh/pack.go`, `amberiroh/protocol.go`).

The writer takes the bytes in pieces of any size and sends a chunk whenever it has a full one.
On the stream a frame is a length and a message.  The reader hands the bytes out in pieces of
the size it is asked for, and takes from the stream the frames to the end frame and nothing
behind it.
-/
import JobsIroh.Amberiroh.Pack
import JobsIroh.Builddef.Codec
import JobsIroh.Lib.CborItem
import JobsIroh.Lib.Framing

namespace JobsIroh

open Cbor (Item)
open Cbor.Item (ofText record AtMost atMost_record atMost_number atMost_bytes)

/-! ### Messages -/

def maxFrame : Nat := 16 * 1024 * 1024

/-- The library's default limit on the elements of an array and the pairs of a map. -/
def maxElements : Nat := 131072

/-- The message codec, with the limits that the library has by default. -/
abbrev MsgCodec := Cbor.Codec maxElements maxNestedLevels

/-- A field under a number. -/
def keyed (k : Nat) (x : Item) : Item.Field := { key := .uint k, value := x }

def optionalKey (present : Bool) (k : Nat) (x : Item) : Item.Field :=
  { key := .uint k, value := x, present }

/-- The value at a number, absent being the zero value. -/
def keyField {α : Type} (kvs : List (Item × Item)) (k : Nat) (zero : α) (read : Item → Option α) :
    Option α :=
  match kvs.find? (fun kv => kv.1.int? = some (k : Int)) with
  | none => some zero
  | some kv => read kv.2

def intValue (x : Item) : Option Int64 :=
  match x.int? with
  | some i => if -2 ^ 63 ≤ i ∧ i < 2 ^ 63 then some (Int64.ofInt i) else none
  | none => none

def bytesValue : Item → Option Bytes
  | .bytes b => some b
  | _ => none

/-! ### Frames -/

/-- The fields of a message that a pack frame has. -/
def PackFrame.item : PackFrame → Item
  | .data b => record [keyed 0 (.uint 7), optionalKey (!b.isEmpty) 8 (.bytes b)]
  | .dataEnd => record [keyed 0 (.uint 8)]
  | .err code text =>
    record [keyed 0 (.uint 10), optionalKey (code ≠ "") 10 (ofText code),
      optionalKey (text ≠ "") 11 (ofText text)]
  | .other t => record [keyed 0 (.uint t)]

def PackFrame.ofItem : Item → Option PackFrame
  | .map kvs => do
    let type ← keyField kvs 0 0 intValue
    let data ← keyField kvs 8 [] bytesValue
    let code ← keyField kvs 10 "" Item.text?
    let text ← keyField kvs 11 "" Item.text?
    return if type = 7 then .data data
      else if type = 8 then .dataEnd
      else if type = 10 then .err code text
      else .other type.toInt.toNat
  | _ => none

variable (C : MsgCodec)

def decodePack (payload : Bytes) : Option PackFrame := (C.decode payload).bind PackFrame.ofItem

/-- What `WriteMsg` leaves on a stream, one frame after the other. -/
def writeFrames (fs : List PackFrame) : Bytes :=
  Framing.writeAll maxFrame (fs.map fun f => C.encode f.item)

/-! ### The writer -/

/-- The loop of `Write`: as much as the buffer has room for, which is sent when it is full. -/
def ChunkWriter.writeUpTo (c : ChunkWriter) : Nat → Bytes → ChunkWriter
  | 0, _ => c
  | fuel + 1, p =>
    if p = [] then c
    else
      let take := min (chunkSize - c.buf.length) p.length
      let c := { c with buf := c.buf ++ p.take take }
      writeUpTo (if c.buf.length = chunkSize then c.flush else c) fuel (p.drop take)

/-- The frames of a pack that is written in the pieces `ps`. -/
def packFrames (ps : List Bytes) : List PackFrame :=
  (ps.foldl (fun (c : ChunkWriter) p => c.writeUpTo p.length p) {}).finish

/-! ### The reader -/

/-- Why a read returns no bytes; `broken` is a frame that is cut off, too long or no message. -/
inductive ReadEnd where
  | eof
  | broken
  | remote (code text : String)
  | protocol (type : Nat)
  deriving DecidableEq, Repr

structure PackReader where
  stream : Bytes
  cur : Bytes := []
  done : Bool := false
  err : Option ReadEnd := none

def readMsg (stream : Bytes) : Except ReadEnd (PackFrame × Bytes) :=
  if stream = [] then .error .eof
  else match Framing.read maxFrame (decodePack C) stream with
    | none => .error .broken
    | some r => .ok r

namespace PackReader

/-- The loop of `Read`; a frame takes at least one byte of the stream. -/
def fill : Nat → PackReader → PackReader
  | 0, p => p
  | fuel + 1, p =>
    if p.cur ≠ [] ∨ p.err ≠ none ∨ p.done then p
    else match readMsg C p.stream with
      | .error e => { p with err := some e }
      | .ok (.data b, rest) => fill fuel { p with stream := rest, cur := b }
      | .ok (.dataEnd, rest) => { p with stream := rest, done := true }
      | .ok (.err code text, rest) => { p with stream := rest, err := some (.remote code text) }
      | .ok (.other t, rest) => { p with stream := rest, err := some (.protocol t) }

/-- `Read` into a buffer of `n` bytes. -/
def read (p : PackReader) (n : Nat) : PackReader × Except ReadEnd Bytes :=
  let p := p.fill C (p.stream.length + 1)
  if p.cur = [] then (p, .error (p.err.getD .eof))
  else ({ p with cur := p.cur.drop n }, .ok (p.cur.take n))

/-- Reads into one buffer after the other: what they return, and how and where they end. -/
def drain : List Nat → PackReader → Bytes × Option (ReadEnd × Bytes)
  | [], _ => ([], none)
  | n :: ns, p =>
    match p.read C n with
    | (p, .error e) => ([], some (e, p.stream))
    | (p, .ok b) => (b ++ (drain ns p).1, (drain ns p).2)

end PackReader

/-! ### What is sent -/

/-- A data frame that is not empty and not too long. -/
def PackFrame.IsChunk (f : PackFrame) : Prop := ∃ d, f = .data d ∧ d ≠ [] ∧ d.length ≤ chunkSize

/-- The bytes given to a writer are in the chunks it has sent and in its buffer. -/
structure ChunkWriter.Chunked (c : ChunkWriter) (bytes : Bytes) : Prop where
  sent : ∀ f ∈ c.sent, f.IsChunk
  bytes : frameBytes c.sent ++ c.buf = bytes
  room : c.buf.length < chunkSize

theorem ChunkWriter.flush_chunked {c : ChunkWriter} (hsent : ∀ f ∈ c.sent, f.IsChunk)
    (hbuf : c.buf.length ≤ chunkSize) :
    c.flush.Chunked (frameBytes c.sent ++ c.buf) ∧ c.flush.buf = [] := by
  unfold flush
  split
  · rename_i hnil
    exact ⟨⟨hsent, rfl, by rw [hnil]; decide⟩, hnil⟩
  · rename_i hne
    refine ⟨⟨fun f hf => ?_, by simp [frameBytes], by show 0 < chunkSize; decide⟩, rfl⟩
    rcases List.mem_append.mp hf with hf | hf
    · exact hsent f hf
    · exact ⟨c.buf, List.mem_singleton.mp hf, hne, hbuf⟩

theorem ChunkWriter.Chunked.writeUpTo (fuel : Nat) : ∀ {c : ChunkWriter} {bytes p : Bytes},
    c.Chunked bytes → p.length ≤ fuel → (c.writeUpTo fuel p).Chunked (bytes ++ p) := by
  induction fuel with
  | zero =>
    intro c bytes p h hp
    rw [List.length_eq_zero_iff.mp (Nat.le_zero.mp hp), List.append_nil]
    exact h
  | succ fuel ih =>
    intro c bytes p h hp
    unfold ChunkWriter.writeUpTo
    split
    · rename_i hnil
      rw [hnil, List.append_nil]
      exact h
    · rename_i hne
      have hpos := List.length_pos_iff.mpr hne
      have hroom := h.room
      generalize htake : min (chunkSize - c.buf.length) p.length = k
      have hlen : (c.buf ++ p.take k).length = c.buf.length + k := by
        rw [List.length_append, List.length_take]
        omega
      have hbytes : frameBytes c.sent ++ (c.buf ++ p.take k) = bytes ++ p.take k := by
        rw [← List.append_assoc, h.bytes]
      rw [← List.take_append_drop k p, ← List.append_assoc, List.take_append_drop]
      refine ih ?_ (by rw [List.length_drop]; omega)
      split
      · rw [← hbytes]
        exact (flush_chunked (c := { c with buf := c.buf ++ p.take k }) h.sent
          (by dsimp only; omega)).1
      · rename_i hfull
        dsimp only at hfull
        exact ⟨h.sent, hbytes, by dsimp only; omega⟩

/-- The chunks of a pack hold the bytes that were written. -/
theorem packFrames_eq (ps : List Bytes) : ∃ body, packFrames ps = body ++ [.dataEnd] ∧
    (∀ f ∈ body, f.IsChunk) ∧ frameBytes body = ps.flatten := by
  have hall : ∀ (ps : List Bytes) {c : ChunkWriter} (bytes : Bytes), c.Chunked bytes →
      (ps.foldl (fun c p => c.writeUpTo p.length p) c).Chunked (bytes ++ ps.flatten) := by
    intro ps
    induction ps with
    | nil =>
      intro c bytes h
      rwa [List.flatten_nil, List.append_nil]
    | cons p ps ih =>
      intro c bytes h
      rw [List.flatten_cons, ← List.append_assoc]
      exact ih _ (h.writeUpTo _ (Nat.le_refl _))
  have h := hall ps (c := {}) [] ⟨by simp, rfl, by decide⟩
  obtain ⟨hc, hbuf⟩ := ChunkWriter.flush_chunked h.sent h.room.le
  refine ⟨_, rfl, hc.sent, ?_⟩
  have hbytes := hc.bytes
  rw [hbuf, List.append_nil, h.bytes] at hbytes
  exact hbytes

/-! ### What is read -/

variable {C}

/-- A frame of a pack fits, and is read as what it is. -/
theorem decodePack_item {f : PackFrame} (hf : f.IsChunk ∨ f = .dataEnd) :
    (C.encode f.item).length ≤ maxFrame ∧ decodePack C (C.encode f.item) = some f := by
  have hdecode : ∀ {x : Item}, AtMost maxElements maxNestedLevels maxFrame x →
      (C.encode x).length ≤ maxFrame ∧ decodePack C (C.encode x) = PackFrame.ofItem x := by
    intro x h
    have hsize := h.size
    rw [C.length_encode]
    refine ⟨hsize, ?_⟩
    unfold maxFrame at hsize
    unfold decodePack
    rw [C.decode_encode h.formed h.within (by omega)]
    rfl
  rcases hf with ⟨d, rfl, hne, hd⟩ | rfl
  · refine (hdecode ?_).imp_right fun h => h.trans ?_
    · exact (atMost_record (by decide : 2 ≤ _) rfl
        (.cons (atMost_number (by decide)).1 (.cons (atMost_bytes hd) .nil))).mono (by decide)
    · simp [PackFrame.item, record, keyed, optionalKey, hne, PackFrame.ofItem, keyField,
        Item.int?, intValue, bytesValue]
  · refine (hdecode ?_).imp_right fun h => h.trans ?_
    · exact (atMost_record (by decide : 1 ≤ _) rfl
        (.cons (atMost_number (by decide)).1 .nil)).mono (by decide)
    · simp [PackFrame.item, record, keyed, PackFrame.ofItem, keyField, Item.int?, intValue]

theorem readMsg_frame {f : PackFrame} (hf : f.IsChunk ∨ f = .dataEnd)
    (fs : List PackFrame) (rest : Bytes) :
    readMsg C (writeFrames C (f :: fs) ++ rest) = .ok (f, writeFrames C fs ++ rest) := by
  obtain ⟨hlen, hdecode⟩ := decodePack_item (C := C) hf
  unfold readMsg writeFrames
  rw [List.map_cons, Framing.writeAll_cons hlen, List.append_assoc,
    if_neg (by simp [Cbor.bigEndian]), Framing.read_frame (by decide) hlen, hdecode]
  rfl

namespace PackReader

variable {p : PackReader}

theorem fill_of_cur (h : p.cur ≠ []) (fuel : Nat) : p.fill C fuel = p := by
  cases fuel with
  | zero => rfl
  | succ => rw [fill, if_pos (Or.inl h)]

/-- The bytes `cur` are at hand, and the frames of `body` are still to come. -/
def reading (C : MsgCodec) (cur : Bytes) (body : List PackFrame) (rest : Bytes) :
    PackReader :=
  { stream := writeFrames C (body ++ [.dataEnd]) ++ rest, cur }

/-- **The reads hand out the chunks and end at the end frame.** -/
theorem drain_reading (rest : Bytes) (ns : List Nat) : ∀ (cur : Bytes) {body : List PackFrame},
    (∀ f ∈ body, f.IsChunk) → (cur ++ frameBytes body).length < ns.length →
    drain C (ns.map (· + 1)) (reading C cur body rest) =
      (cur ++ frameBytes body, some (.eof, rest)) := by
  induction ns with
  | nil =>
    intro cur body _ hlen
    simp at hlen
  | cons n ns ih =>
    intro cur body hbody hlen
    -- the loop of the next read leaves the bytes `d` at hand
    have hand : ∀ (d : Bytes) (fs : List PackFrame) {p : PackReader}, d ≠ [] →
        p.fill C (p.stream.length + 1) = reading C d fs rest → (∀ f ∈ fs, f.IsChunk) →
        (d ++ frameBytes fs).length ≤ ns.length →
        drain C ((n + 1) :: ns.map (· + 1)) p = (d ++ frameBytes fs, some (.eof, rest)) := by
      intro d fs p hne hfill hfs hlen
      have hread : p.read C (n + 1) =
          (reading C (d.drop (n + 1)) fs rest, .ok (d.take (n + 1))) := by
        rw [read, hfill]
        exact if_neg hne
      have hpos := List.length_pos_iff.mpr hne
      rw [List.length_append] at hlen
      rw [drain, hread]
      dsimp only
      rw [ih _ hfs (by rw [List.length_append, List.length_drop]; omega), ← List.append_assoc,
        List.take_append_drop]
    rw [List.length_cons] at hlen
    by_cases hcur : cur = []
    · subst hcur
      cases body with
      | nil =>
        have hfill : ∀ fuel, (reading C [] [] rest).fill C (fuel + 1) =
            { stream := rest, done := true } := by
          intro fuel
          rw [fill, if_neg (by simp [reading]), reading, List.nil_append,
            readMsg_frame (Or.inr rfl)]
          rfl
        rw [List.map_cons, drain, read, hfill]
        rfl
      | cons f body =>
        have hf := hbody f List.mem_cons_self
        obtain ⟨d, rfl, hne, -⟩ := id hf
        have hfill : ∀ fuel, (reading C [] (.data d :: body) rest).fill C (fuel + 1) =
            reading C d body rest := by
          intro fuel
          rw [fill, if_neg (by simp [reading]), reading, List.cons_append,
            readMsg_frame (Or.inl hf)]
          exact fill_of_cur hne fuel
        exact hand d body hne (hfill _) (fun g hg => hbody g (List.mem_cons_of_mem _ hg))
          (Nat.le_of_lt_succ hlen)
    · exact hand cur body hcur (fill_of_cur hcur _) hbody (Nat.le_of_lt_succ hlen)

end PackReader

/-- **A pack comes through** in whatever pieces it is written and read: on the stream it is
chunks and one end frame, all of a size that is taken, and the reads return the bytes written
and then the end of the file, with the stream at what follows the end frame. -/
theorem pack_round_trip (C : MsgCodec) (ps : List Bytes) (rest : Bytes) (size : Nat → Nat) :
    (∃ body, packFrames ps = body ++ [.dataEnd] ∧ ∀ f ∈ body, f.IsChunk) ∧
    (∀ f ∈ packFrames ps, (C.encode f.item).length ≤ maxFrame) ∧
    ∃ k, PackReader.drain C ((List.range k).map fun i => size i + 1)
      { stream := writeFrames C (packFrames ps) ++ rest } = (ps.flatten, some (.eof, rest)) := by
  obtain ⟨body, hframes, hbody, hbytes⟩ := packFrames_eq ps
  refine ⟨⟨body, hframes, hbody⟩, fun f hf => ?_, ps.flatten.length + 1, ?_⟩
  · rw [hframes] at hf
    refine (decodePack_item ?_).1
    simpa using (List.mem_append.mp hf).imp_left (hbody f)
  · have h := PackReader.drain_reading (C := C) rest ((List.range (ps.flatten.length + 1)).map size)
      [] hbody (by simp [hbytes])
    rwa [List.map_map, hbytes, List.nil_append, PackReader.reading, ← hframes] at h

/-- With messages in CBOR: two writes, read byte by byte. -/
theorem pack_round_trip_cbor : ∃ k, PackReader.drain (Cbor.Item.codec _ _)
    (List.replicate k 1) { stream := writeFrames (Cbor.Item.codec _ _) (packFrames [[1, 2], [3]]) }
      = ([1, 2, 3], some (.eof, [])) := by
  obtain ⟨-, -, k, hk⟩ := pack_round_trip (Cbor.Item.codec _ _) [[1, 2], [3]] [] fun _ => 0
  exact ⟨k, by simpa [List.map_const'] using hk⟩

end JobsIroh
