/-
Packs in data frames (`amberiroh/pack.go`).

A pack travels as data frames of at most `chunkSize` bytes, ended by one end frame.
The writer fills a buffer and sends it when it is full; the reader concatenates what
the data frames carry and stops at the end frame, so the frames behind it stay on the
stream.  Any other frame, or the end of the stream, stops the reader with an error.
-/
import JobsIroh.Wire

namespace JobsIroh

/-- How many pack bytes ride in one data frame. -/
def chunkSize : Nat := 1048576

/-- A frame, as a pack reader tells frames apart. -/
inductive PackFrame where
  | data (bytes : Bytes)
  | dataEnd
  | err (code text : String)
  | other (type : Nat)
  deriving DecidableEq, Repr

/-- Why a pack could not be read to its end. -/
inductive PackError where
  | remote (code text : String)
  | protocol (type : Nat)
  | closed
  deriving DecidableEq, Repr

/-- The writer: the frames sent so far, and the bytes not sent yet. -/
structure ChunkWriter where
  sent : List PackFrame := []
  buf : Bytes := []
  deriving DecidableEq, Repr

namespace ChunkWriter

def flush (c : ChunkWriter) : ChunkWriter :=
  if c.buf = [] then c else { sent := c.sent ++ [.data c.buf], buf := [] }

/-- One byte into the buffer, which is sent when that fills it. -/
def writeByte (size : Nat) (c : ChunkWriter) (b : UInt8) : ChunkWriter :=
  let c := { c with buf := c.buf ++ [b] }
  if c.buf.length = size then c.flush else c

def write (size : Nat) (c : ChunkWriter) (p : Bytes) : ChunkWriter :=
  p.foldl (writeByte size) c

def finish (c : ChunkWriter) : List PackFrame := c.flush.sent ++ [.dataEnd]

end ChunkWriter

/-- Read to the end of a pack: its bytes, and the frames left on the stream or why not. -/
def readPack : List PackFrame → Bytes × Except PackError (List PackFrame)
  | [] => ([], .error .closed)
  | .data b :: rest => (b ++ (readPack rest).1, (readPack rest).2)
  | .dataEnd :: rest => ([], .ok rest)
  | .err code text :: _ => ([], .error (.remote code text))
  | .other t :: _ => ([], .error (.protocol t))

/-! ### What was written is read back -/

/-- The bytes of the data frames in a list. -/
def frameBytes (fs : List PackFrame) : Bytes :=
  fs.flatMap fun
    | .data b => b
    | _ => []

namespace ChunkWriter

/-- What a writer has been given: every frame sent is a data frame. -/
structure Holds (c : ChunkWriter) (bytes : Bytes) : Prop where
  data : ∀ f ∈ c.sent, ∃ b, f = .data b
  bytes : frameBytes c.sent ++ c.buf = bytes

theorem Holds.flush {c : ChunkWriter} {bytes : Bytes} (h : c.Holds bytes) :
    c.flush.Holds bytes ∧ c.flush.buf = [] := by
  unfold ChunkWriter.flush
  by_cases hbuf : c.buf = []
  · rw [if_pos hbuf]
    exact ⟨h, hbuf⟩
  · rw [if_neg hbuf]
    refine ⟨⟨?_, ?_⟩, by simp⟩
    · intro f hf
      rcases List.mem_append.mp hf with hf | hf
      · exact h.data f hf
      · exact ⟨c.buf, by simpa using hf⟩
    · have hb := h.bytes
      simp only [frameBytes, List.flatMap_append, List.flatMap_singleton, List.append_nil] at hb ⊢
      exact hb

theorem Holds.writeByte {c : ChunkWriter} {bytes : Bytes} (h : c.Holds bytes) (size : Nat)
    (b : UInt8) : (c.writeByte size b).Holds (bytes ++ [b]) := by
  have hin : ({ c with buf := c.buf ++ [b] } : ChunkWriter).Holds (bytes ++ [b]) := by
    refine ⟨h.data, ?_⟩
    show frameBytes c.sent ++ (c.buf ++ [b]) = bytes ++ [b]
    rw [← List.append_assoc, h.bytes]
  unfold ChunkWriter.writeByte
  dsimp only
  split
  · exact hin.flush.1
  · exact hin

theorem Holds.write (size : Nat) (p : Bytes) :
    ∀ {c : ChunkWriter} {bytes : Bytes}, c.Holds bytes → (c.write size p).Holds (bytes ++ p) := by
  induction p with
  | nil =>
    intro c bytes h
    simpa [ChunkWriter.write] using h
  | cons b p ih =>
    intro c bytes h
    have := ih (h.writeByte size b)
    simpa [ChunkWriter.write] using this

end ChunkWriter

theorem readPack_data {fs : List PackFrame} (h : ∀ f ∈ fs, ∃ b, f = .data b)
    (rest : List PackFrame) :
    readPack (fs ++ rest) = (frameBytes fs ++ (readPack rest).1, (readPack rest).2) := by
  induction fs with
  | nil => simp [frameBytes]
  | cons f fs ih =>
    obtain ⟨b, rfl⟩ := h f List.mem_cons_self
    have hfs := ih fun g hg => h g (List.mem_cons_of_mem _ hg)
    simp [readPack, hfs, frameBytes, List.append_assoc]

/-- **A finished pack reads back as the bytes written, and what follows it stays.** -/
theorem readPack_finish (size : Nat) (p : Bytes) (rest : List PackFrame) :
    readPack ((({} : ChunkWriter).write size p).finish ++ rest) = (p, .ok rest) := by
  have hempty : ({} : ChunkWriter).Holds [] := ⟨by simp, by simp [frameBytes]⟩
  obtain ⟨hheld, hbuf⟩ := (ChunkWriter.Holds.write size p hempty).flush
  have hbytes := hheld.bytes
  rw [hbuf, List.append_nil, List.nil_append] at hbytes
  rw [ChunkWriter.finish, List.append_assoc, readPack_data hheld.data, hbytes]
  simp [readPack]

end JobsIroh
