/-
The seekable layer stream, from `registryd/stream.go`.

The tar of a layer is generated from its start; a seek only moves the logical position, and
the next read restarts the generator or discards up to it.  The generator yields `content`;
`size` is what was recorded at assembly.  How it behaves during a read (how many bytes it
yields, whether it reports the end with the last of them or afterwards, where it fails) is
part of the call.
-/
import JobsIroh.Lib.Run

namespace JobsIroh.Registryd

inductive Err where
  | eof
  | unexpectedEOF
  | closed
  /-- An error of the generator's own. -/
  | other (text : String)
  deriving DecidableEq

inductive Whence where
  | start
  | current
  | fromEnd
  | other (n : Int)

structure LayerStream where
  pos : Nat := 0
  /-- The open generator, by the offset it is at. -/
  rc : Option Nat := none
  /-- Sticky. -/
  err : Option Err := none
  closed : Bool := false
  deriving DecidableEq

/-- What the generator does in the course of a read. -/
structure Gen where
  /-- A read of it yields so many bytes at most. -/
  k : Nat
  /-- It reports the end with the last bytes. -/
  eof : Bool := false
  openErr : Option String := none
  /-- Its failure before all that is to be discarded has come. -/
  skipErr : Option String := none
  readErr : Option String := none

/-- The generator does not fail. -/
def Gen.Healthy (gen : Gen) : Prop :=
  gen.openErr = none ∧ gen.skipErr = none ∧ gen.readErr = none

/-- The sum of an offset and a position, as an `int64`. -/
def add64 (pos : Nat) (offset : Int64) : Int := (pos + offset.toInt).bmod 18446744073709551616

section

variable (content : List UInt8) (size : Nat)

/-- `Seek`: the position, or the text of the error. -/
def seek (s : LayerStream) (offset : Int64) (whence : Whence) : Except String Nat × LayerStream :=
  let goTo (abs : Int) : Except String Nat × LayerStream :=
    if abs < 0 then (.error ("layer stream: negative position " ++ toString abs), s)
    else (.ok abs.toNat, { s with pos := abs.toNat })
  match whence with
  | .start => goTo offset.toInt
  | .current => goTo (add64 s.pos offset)
  | .fromEnd => goTo (add64 size offset)
  | .other n => (.error ("layer stream: invalid whence " ++ toString n), s)

/-- Bring the generator to `pos`: one that is past it is started again, and what comes before
is discarded. -/
def position (s : LayerStream) (gen : Gen) : Except Err Unit :=
  let discard (g : Nat) : Except Err Unit :=
    if g < s.pos then
      match gen.skipErr with
      | some e => .error (.other e)
      -- `io.CopyN` says with `io.EOF` that the generator ran dry
      | none => if content.length < s.pos then .error .eof else .ok ()
    else .ok ()
  match s.rc.filter (· ≤ s.pos) with
  | some g => discard g
  | none =>
    match gen.openErr with
    | some e => .error (.other e)
    | none => discard 0

/-- A read of the generator at `g`. -/
def generated (g n : Nat) (gen : Gen) : List UInt8 × Option Err :=
  let bytes := (content.drop g).take (min gen.k n)
  match gen.readErr with
  | some e => (bytes, some (.other e))
  | none =>
    (bytes, if g + bytes.length = content.length ∧ (gen.eof ∨ bytes = [] ∧ 0 < n) then some .eof
      else none)

/-- `fail`, with the bytes that came before the error. -/
def fail (s : LayerStream) (bytes : List UInt8) (e : Err) :
    (List UInt8 × Option Err) × LayerStream :=
  ((bytes, some e), { s with rc := none, err := some e })

/-- `Read` into a buffer of `n` bytes. -/
def read (s : LayerStream) (n : Nat) (gen : Gen) : (List UInt8 × Option Err) × LayerStream :=
  if s.closed then (([], some .closed), s)
  else
    match s.err with
    | some e => (([], some e), s)
    | none =>
      if size ≤ s.pos then (([], some .eof), s)
      else
        match position content s gen with
        | .error e => fail s [] e
        | .ok () =>
          let r := generated content s.pos (min n (size - s.pos)) gen
          let s := { s with pos := s.pos + r.1.length, rc := some (s.pos + r.1.length) }
          match r.2 with
          | none => (r, s)
          | some .eof => if s.pos < size then fail s r.1 .unexpectedEOF else (r, s)
          | some e => fail s r.1 e

inductive Call where
  | seek (offset : Int64) (whence : Whence)
  | read (n : Nat) (gen : Gen)
  | close

def step (s : LayerStream) : Call → Option LayerStream
  | .seek offset whence => some (seek size s offset whence).2
  | .read n gen => some (read content size s n gen).2
  | .close => some { s with rc := none, closed := true }

end

/-! ### A reader over a copy in memory -/

/-- Where a seek of such a reader leads. -/
def memSeek (len pos : Nat) (offset : Int64) (whence : Whence) : Option Nat :=
  let goTo (abs : Int) : Option Nat := if abs < 0 then none else some abs.toNat
  match whence with
  | .start => goTo offset.toInt
  | .current => goTo (add64 pos offset)
  | .fromEnd => goTo (add64 len offset)
  | .other _ => none

/-- What a read at `pos` may return: the bytes there, as many as the buffer takes or fewer but
not none, unless none are asked for or none come (`k`); and the end of the file at the end only. -/
inductive MemRead (content : List UInt8) (pos n k : Nat) : List UInt8 × Option Err → Prop
  | atEnd (h : content.length ≤ pos) : MemRead content pos n k ([], some .eof)
  | bytes (bs : List UInt8) (e : Option Err) (hpos : pos < content.length)
      (hbs : bs <+: content.drop pos) (hn : bs.length ≤ n) (hsome : 0 < n → 0 < k → bs ≠ [])
      (he : e = none ∨ e = some .eof ∧ pos + bs.length = content.length) :
    MemRead content pos n k (bs, e)

/-- The call answers as a reader in memory at the same position does. -/
def Faithful (content : List UInt8) (size : Nat) (s : LayerStream) : Call → Prop
  | .seek offset whence =>
      (seek size s offset whence).1.toOption = memSeek content.length s.pos offset whence ∧
        (seek size s offset whence).2.pos =
          (memSeek content.length s.pos offset whence).getD s.pos
  | .read n gen =>
      MemRead content s.pos n gen.k (read content size s n gen).1 ∧
        (read content size s n gen).2.pos =
          s.pos + (read content size s n gen).1.1.length
  | .close => True

/-- A seek, or a read in which the generator does not fail. -/
def Healthy : Call → Prop
  | .seek _ _ => True
  | .read _ gen => gen.Healthy
  | .close => False

/-- A read does not start between the end of what is generated and the recorded size. -/
def InReach (content : List UInt8) (size : Nat) (s : LayerStream) : Call → Prop
  | .read _ _ => s.pos ≤ content.length ∨ size ≤ s.pos
  | .seek _ _ | .close => True

variable {content : List UInt8} {size : Nat} {s : LayerStream}

theorem seek_keeps (size : Nat) (s : LayerStream) (offset : Int64) (whence : Whence) :
    ∃ pos, (seek size s offset whence).2 = { s with pos } := by
  unfold seek
  cases whence <;> dsimp only <;> first | exact ⟨_, rfl⟩ | (split <;> exact ⟨_, rfl⟩)

/-- Within reach only a failure keeps the generator from `pos`. -/
theorem position_error {gen : Gen} {e : Err} (hin : s.pos ≤ content.length)
    (h : position content s gen = .error e) : e ≠ .eof ∧ ¬gen.Healthy := by
  unfold position Gen.Healthy at *
  grind

theorem generated_cases {g n : Nat} {gen : Gen} {bs : List UInt8} {e : Option Err}
    (h : generated content g n gen = (bs, e)) :
    bs = (content.drop g).take (min gen.k n) ∧
      (e = none ∨ (∃ t, e = some (.other t) ∧ ¬gen.Healthy) ∨
        e = some .eof ∧ g + bs.length = content.length) := by
  unfold generated Gen.Healthy at *
  grind

/-- A read that gets as far as the generator, within reach: it fails as the generator does or
because that ran dry, or takes what the generator yields at `pos`. -/
theorem read_cases (hopen : s.closed = false) (herr : s.err = none) (hsize : s.pos < size)
    (hin : s.pos ≤ content.length) (n : Nat) (gen : Gen) :
    (∃ bs e, read content size s n gen = fail { s with pos := s.pos + bs.length } bs e ∧
      e ≠ .eof ∧ (gen.Healthy → content.length < size)) ∨
    ∃ bs e, read content size s n gen =
      ((bs, e), { s with pos := s.pos + bs.length, rc := some (s.pos + bs.length) }) ∧
        bs = (content.drop s.pos).take (min gen.k (min n (size - s.pos))) ∧
        (e = none ∨ e = some .eof ∧ s.pos + bs.length = content.length ∧
          size ≤ content.length) := by
  unfold read
  rw [if_neg (by simp [hopen]), herr]
  dsimp only
  rw [if_neg (by omega)]
  cases hpos : position content s gen with
  | error e =>
    obtain ⟨he, hgen⟩ := position_error hin hpos
    exact .inl ⟨[], e, rfl, he, fun hh => absurd hh hgen⟩
  | ok =>
    rcases hgen : generated content s.pos (min n (size - s.pos)) gen with ⟨bs, e⟩
    obtain ⟨hbs, rfl | ⟨t, rfl, hbad⟩ | ⟨rfl, hend⟩⟩ := generated_cases hgen
    · exact .inr ⟨bs, none, rfl, hbs, .inl rfl⟩
    · exact .inl ⟨bs, .other t, rfl, by simp, fun hh => absurd hh hbad⟩
    · dsimp only
      by_cases hcut : content.length < size
      · rw [if_pos (by omega)]
        exact .inl ⟨bs, .unexpectedEOF, rfl, by simp, fun _ => hcut⟩
      · rw [if_neg (by omega)]
        exact .inr ⟨bs, some .eof, rfl, hbs, .inr ⟨rfl, hend, by omega⟩⟩

/-- A read that does not get as far. -/
theorem read_stopped {n : Nat} {gen : Gen}
    (h : s.closed = true ∨ s.err ≠ none ∨ size ≤ s.pos) : (read content size s n gen).2 = s := by
  unfold read
  grind

/-- A stream that was read within reach: its generator is at an offset of the content, and
its sticky error is no end of file. -/
structure Sound (content : List UInt8) (s : LayerStream) : Prop where
  rc : ∀ g, s.rc = some g → g ≤ content.length
  err : s.err ≠ some .eof

theorem Sound.of_steps (h : Run.Steps (step content size) (InReach content size) {} s) :
    Sound content s := by
  refine h.inv ⟨by simp, by simp⟩ fun s a s' hs hin hstep => ?_
  cases a with
  | seek offset whence =>
    obtain ⟨pos, hseek⟩ := seek_keeps size s offset whence
    obtain rfl := Option.some.inj hstep
    rw [hseek]
    exact ⟨hs.rc, hs.err⟩
  | close =>
    obtain rfl := Option.some.inj hstep
    exact ⟨by simp, hs.err⟩
  | read n gen =>
    obtain rfl := Option.some.inj hstep
    by_cases hgo : s.closed = false ∧ s.err = none ∧ s.pos < size
    · obtain ⟨hopen, herr, hsize⟩ := hgo
      have hle := hin.resolve_right (by omega)
      obtain ⟨bs, e, heq, he, -⟩ | ⟨bs, e, heq, hbs, -⟩ := read_cases hopen herr hsize hle n gen
      · rw [heq]
        exact ⟨by simp [fail], by simpa [fail] using he⟩
      · rw [heq]
        refine ⟨fun g hg => ?_, hs.err⟩
        obtain rfl := Option.some.inj hg
        simp only [hbs, List.length_take, List.length_drop]
        omega
    · rw [read_stopped (by grind)]
      exact hs

/-- When all that was recorded is generated, no error is ever met. -/
theorem intact_of_steps (hlen : content.length = size)
    (h : Run.Steps (step content size) (fun _ => Healthy) {} s) :
    s.err = none ∧ s.closed = false := by
  refine h.inv (I := fun s => s.err = none ∧ s.closed = false) ⟨rfl, rfl⟩
    fun s a s' hs hgood hstep => ?_
  cases a with
  | seek offset whence =>
    obtain ⟨pos, hseek⟩ := seek_keeps size s offset whence
    obtain rfl := Option.some.inj hstep
    rw [hseek]
    exact hs
  | close => exact hgood.elim
  | read n gen =>
    obtain rfl := Option.some.inj hstep
    by_cases hsize : s.pos < size
    · have hin : s.pos ≤ content.length := by omega
      obtain ⟨bs, e, -, -, hcut⟩ | ⟨bs, e, heq, -⟩ := read_cases hs.2 hs.1 hsize hin n gen
      · have := hcut hgood
        omega
      · rw [heq]
        exact hs
    · rw [read_stopped (by omega)]
      exact hs

theorem faithful_seek (s : LayerStream) (offset : Int64) (whence : Whence) :
    Faithful content content.length s (.seek offset whence) := by
  unfold Faithful seek memSeek
  cases whence <;> dsimp only <;> first | exact ⟨rfl, rfl⟩ | (split <;> exact ⟨rfl, rfl⟩)

theorem faithful_read (herr : s.err = none) (hopen : s.closed = false) (n : Nat) {gen : Gen}
    (hgood : gen.Healthy) : Faithful content content.length s (.read n gen) := by
  dsimp only [Faithful]
  by_cases hsize : s.pos < content.length
  · obtain ⟨bs, e, -, -, hcut⟩ | ⟨bs, e, heq, hbs, hend⟩ :=
      read_cases hopen herr hsize (Nat.le_of_lt hsize) n gen
    · exact absurd (hcut hgood) (Nat.lt_irrefl _)
    · have hlen : bs.length = min gen.k (min n (content.length - s.pos)) := by
        rw [hbs, List.length_take, List.length_drop]
        omega
      rw [heq]
      refine ⟨.bytes bs e hsize (hbs ▸ List.take_prefix _ _) (by omega) (fun hn hk => ?_)
        (hend.imp_right fun h => ⟨h.1, h.2.1⟩), rfl⟩
      rw [← List.length_pos_iff]
      omega
  · have hread : read content content.length s n gen = (([], some .eof), s) := by
      unfold read
      rw [if_neg (by simp [hopen]), herr]
      exact if_pos (by omega)
    rw [hread]
    exact ⟨.atEnd (by omega), rfl⟩

/--
**The stream is a faithful reader of a complete layer, and does not pass off a truncated one
as complete.**  When the generator yields what was recorded and does not fail, every call of
every run answers as a reader over a copy in memory does.  When it yields less, and whether or
not it fails, no read ends cleanly below the recorded size, in every run that reads no position
between what the generator yields and that size.
-/
theorem layer_stream_faithful (content : List UInt8) (size : Nat) :
    (content.length = size →
      ∀ s, Run.Steps (step content size) (fun _ => Healthy) {} s →
        ∀ call, Healthy call → Faithful content size s call) ∧
    (content.length < size →
      ∀ s, Run.Steps (step content size) (InReach content size) {} s →
        ∀ n gen, InReach content size s (.read n gen) → s.pos < size →
          (read content size s n gen).1.2 ≠ some .eof) := by
  refine ⟨?_, ?_⟩
  · rintro rfl s h call hcall
    obtain ⟨herr, hopen⟩ := intact_of_steps rfl h
    cases call with
    | seek offset whence => exact faithful_seek s offset whence
    | read n gen => exact faithful_read herr hopen n hcall
    | close => trivial
  · intro hlen s h n gen hin hsize
    have hs := Sound.of_steps h
    cases hopen : s.closed with
    | true => simp [read, hopen]
    | false =>
      cases herr : s.err with
      | some e =>
        have he := hs.err
        rw [herr] at he
        simpa [read, hopen, herr] using he
      | none =>
        obtain ⟨bs, e, heq, he, -⟩ | ⟨bs, e, heq, -, hend⟩ :=
          read_cases hopen herr hsize (hin.resolve_right (by omega)) n gen
        · rw [heq]
          simpa [fail] using he
        · rw [heq]
          rcases hend with rfl | ⟨-, -, hle⟩
          · simp
          · omega

/-- A seek forward, a short read, and one from the start again. -/
theorem layer_stream_three :
    ∃ s, Run.Steps (step [1, 2, 3] 3) (fun _ => Healthy) {} s ∧ s.pos = 1 ∧
      ∀ call, Healthy call → Faithful [1, 2, 3] 3 s call := by
  have hgood : Gen.Healthy { k := 1 } := ⟨rfl, rfl, rfl⟩
  have hsteps : Run.Steps (step [1, 2, 3] 3) (fun _ => Healthy) {} { pos := 1, rc := some 1 } :=
    (((Run.Steps.refl.tail (a := .seek 2 .start) trivial rfl).tail (a := .read 4 { k := 1 })
      hgood rfl).tail (a := .seek (-3) .fromEnd) trivial rfl).tail
      (a := .read 1 { k := 1 }) hgood rfl
  exact ⟨_, hsteps, rfl, (layer_stream_faithful [1, 2, 3] 3).1 rfl _ hsteps⟩

/-- One byte is generated of the four recorded; a read at 2 ends cleanly. -/
theorem layer_stream_truncated :
    (seek 4 {} 2 .start).2.pos = 2 ∧ (read [7] 4 (seek 4 {} 2 .start).2 1 { k := 1 }).1 =
      ([], some .eof) := by
  decide

end JobsIroh.Registryd
