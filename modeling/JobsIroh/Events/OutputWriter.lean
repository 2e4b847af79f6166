/-
The capture of a process's output, from `events/outputwriter.go`.

A call of the writer returns the writer it leaves and the events it emits; the flush timer
may fire between any two calls.  `int64` is `Nat`: the sums stay below the cap and the bytes
a process writes.
-/
import JobsIroh.Wire

namespace JobsIroh.Events

def outputChunkMax : Nat := 32 <<< 10

def outputFlushBytes : Nat := 64 <<< 10

/-- Past the cap the writer emits one `exec.output-truncated` and goes silent. -/
def defaultOutputCap : Nat := 16 <<< 20

inductive Event
  | output (stream phase : String) (chunk : Bytes) (offset : Nat)
  | truncated (stream : String) (cap written : Nat)

structure OutputWriter where
  stream : String
  phase : String
  cap : Nat
  buf : Bytes := []
  /-- The bytes emitted so far. -/
  offset : Nat := 0
  /-- The bytes accepted, those in the buffer and those discarded among them. -/
  written : Nat := 0
  truncated : Bool := false
  closed : Bool := false
  timer : Bool := false

def newOutputWriter (stream phase : String) : OutputWriter :=
  { stream, phase, cap := defaultOutputCap }

/-- One round of the loop for each chunk. -/
def flushLocked (o : OutputWriter) : OutputWriter × List Event :=
  if _h : o.buf = [] then (o, [])
  else
    let n := min o.buf.length outputChunkMax
    let r := flushLocked { o with buf := o.buf.drop n, offset := o.offset + n }
    (r.1, .output o.stream o.phase (o.buf.take n) o.offset :: r.2)
termination_by o.buf.length
decreasing_by
  have hpos := List.length_pos_iff.mpr _h
  simp only [List.length_drop, outputChunkMax]
  omega

def write (o : OutputWriter) (p : Bytes) : OutputWriter × List Event :=
  let o := { o with written := o.written + p.length }
  if o.truncated || o.closed then (o, [])
  else
    let room := o.cap - o.offset - o.buf.length
    if room ≤ p.length then
      let r := flushLocked { o with buf := o.buf ++ p.take room }
      ({ r.1 with truncated := true, timer := false },
        r.2 ++ [.truncated o.stream o.cap o.written])
    else
      let o := { o with buf := o.buf ++ p }
      if outputFlushBytes ≤ o.buf.length then
        let r := flushLocked o
        ({ r.1 with timer := false }, r.2)
      else ({ o with timer := true }, [])

def timedFlush (o : OutputWriter) : OutputWriter × List Event :=
  let o := { o with timer := false }
  if !o.closed && !o.truncated then flushLocked o else (o, [])

def close (o : OutputWriter) : OutputWriter × List Event :=
  if o.closed then (o, [])
  else
    let o := { o with closed := true, timer := false }
    if !o.truncated then flushLocked o else (o, [])

inductive Call
  | write (p : Bytes)
  | timedFlush
  | close

def call (o : OutputWriter) : Call → OutputWriter × List Event
  | .write p => write o p
  | .timedFlush => timedFlush o
  | .close => close o

/-- The events of a sequence of calls. -/
def capture (o : OutputWriter) : List Call → List Event
  | [] => []
  | c :: cs => (call o c).2 ++ capture (call o c).1 cs

/-- What is written before the first close. -/
def accepted : List Call → Bytes
  | [] => []
  | .write p :: cs => p ++ accepted cs
  | .timedFlush :: cs => accepted cs
  | .close :: _ => []

def closes : List Call → Bool
  | [] => false
  | .close :: _ => true
  | _ :: cs => closes cs

/-! ### What is emitted -/

/-- The events of these chunks, one after the other from `off` on. -/
def chunkEvents (stream phase : String) : Nat → List Bytes → List Event
  | _, [] => []
  | off, c :: cs => .output stream phase c off :: chunkEvents stream phase (off + c.length) cs

def Bounded (cs : List Bytes) : Prop :=
  ∀ c ∈ cs, c ≠ [] ∧ c.length ≤ outputChunkMax

/-- The capture of `bytes` from the offset `off` on: chunks of bounded size, numbered without
a gap, that make up the beginning of what there is room for, and all of it once the writer
is closed; then one truncation event if it is due. -/
def Faithful (stream phase : String) (cap off : Nat) (bytes : Bytes) (closed : Bool)
    (due : Prop) [Decidable due] (evs : List Event) : Prop :=
  ∃ cs w, Bounded cs ∧ cs.flatten <+: bytes.take (cap - off) ∧
    (closed = true → cs.flatten = bytes.take (cap - off)) ∧
    evs = chunkEvents stream phase off cs ++ if due then [.truncated stream cap w] else []

variable {stream phase : String}

theorem chunkEvents_append (cs ds : List Bytes) (off : Nat) :
    chunkEvents stream phase off (cs ++ ds) = chunkEvents stream phase off cs ++
      chunkEvents stream phase (off + cs.flatten.length) ds := by
  induction cs generalizing off with
  | nil => rfl
  | cons c cs ih => simp [chunkEvents, ih, Nat.add_assoc]

theorem truncated_not_mem {s : String} {cap w : Nat} (cs : List Bytes) (off : Nat) :
    .truncated s cap w ∉ chunkEvents stream phase off cs := by
  induction cs generalizing off with
  | nil => simp [chunkEvents]
  | cons c cs ih => simp [chunkEvents, ih]

/-- A flush emits the buffer. -/
theorem flushLocked_eq (o : OutputWriter) : ∃ cs, Bounded cs ∧ cs.flatten = o.buf ∧
    flushLocked o = ({ o with buf := [], offset := o.offset + o.buf.length },
      chunkEvents o.stream o.phase o.offset cs) := by
  fun_induction flushLocked o with
  | case1 o h => exact ⟨[], by simp [Bounded], h.symm, by cases o; simp_all [chunkEvents]⟩
  | case2 o h n r ih =>
    obtain ⟨cs, hcs, hflat, heq⟩ := ih
    have hpos := List.length_pos_iff.mpr h
    have hn : n ≤ o.buf.length := Nat.min_le_left _ _
    have hlen : (o.buf.take n).length = n := List.length_take_of_le hn
    refine ⟨o.buf.take n :: cs, ?_, by rw [List.flatten_cons, hflat, List.take_append_drop], ?_⟩
    · intro c hc
      rcases List.mem_cons.mp hc with rfl | hc
      · rw [← List.length_pos_iff, hlen]
        exact ⟨Nat.lt_min.mpr ⟨hpos, by decide⟩, Nat.min_le_right _ _⟩
      · exact hcs c hc
    · rw [show r = _ from heq, chunkEvents, hlen]
      simp only [List.length_drop]
      rw [Nat.add_assoc, Nat.add_sub_cancel' hn]

/-- After the truncation and after the close nothing is emitted. -/
theorem capture_silent (calls : List Call) : ∀ {o : OutputWriter},
    o.truncated = true ∨ o.closed = true → capture o calls = [] := by
  induction calls with
  | nil => exact fun _ => rfl
  | cons c cs ih =>
    intro o h
    have hcall : (call o c).2 = [] ∧
        ((call o c).1.truncated = true ∨ (call o c).1.closed = true) := by
      cases c with
      | write p => rcases h with h | h <;> simp [call, write, h]
      | timedFlush => rcases h with h | h <;> simp [call, timedFlush, h]
      | close =>
        cases hc : o.closed with
        | true => simp [call, close, hc]
        | false => simp [call, close, hc, h.resolve_right (by simp [hc])]
    rw [capture, hcall.1, ih hcall.2]
    rfl

/-- Chunks emitted before the rest of a capture. -/
theorem Faithful.after {cap off : Nat} {bytes : Bytes} {closed : Bool} {due due' : Prop}
    [Decidable due] [Decidable due'] {evs : List Event} {cs : List Bytes} (hcs : Bounded cs)
    (hroom : cs.flatten.length ≤ cap - off) (hdue : due' ↔ due)
    (h : Faithful stream phase cap (off + cs.flatten.length) bytes closed due' evs) :
    Faithful stream phase cap off (cs.flatten ++ bytes) closed due
      (chunkEvents stream phase off cs ++ evs) := by
  obtain ⟨ds, w, hds, hpre, hall, rfl⟩ := h
  have htake : (cs.flatten ++ bytes).take (cap - off) =
      cs.flatten ++ bytes.take (cap - (off + cs.flatten.length)) := by
    rw [List.take_append, List.take_of_length_le hroom, Nat.sub_add_eq]
  refine ⟨cs ++ ds, w, ?_, ?_, ?_, ?_⟩
  · intro c hc
    exact (List.mem_append.mp hc).elim (hcs c) (hds c)
  · rw [htake, List.flatten_append]
    exact (List.prefix_append_right_inj _).mpr hpre
  · intro hclosed
    rw [htake, List.flatten_append, hall hclosed]
  · rw [chunkEvents_append, List.append_assoc]
    simp only [hdue]

/-- **A writer with room left captures what it holds and what comes.** -/
theorem capture_faithful (calls : List Call) : ∀ {o : OutputWriter}, o.truncated = false →
    o.closed = false → o.offset + o.buf.length < o.cap →
      Faithful o.stream o.phase o.cap o.offset (o.buf ++ accepted calls) (closes calls)
        (o.cap - o.offset ≤ (o.buf ++ accepted calls).length) (capture o calls) := by
  induction calls with
  | nil =>
    intro o _ _ hroom
    refine ⟨[], 0, by simp [Bounded], List.nil_prefix, nofun, ?_⟩
    rw [if_neg (by simp only [accepted, List.append_nil]; omega)]
    rfl
  | cons c calls ih =>
    intro o ht hc hroom
    -- the buffer is emitted, and the rest follows
    have emptied : ∀ {b : Bytes} {cs : List Bytes} {w : Nat} {t : Bool}, Bounded cs →
        cs.flatten = b → o.offset + b.length < o.cap →
        Faithful o.stream o.phase o.cap o.offset (b ++ accepted calls) (closes calls)
          (o.cap - o.offset ≤ (b ++ accepted calls).length)
          (chunkEvents o.stream o.phase o.offset cs ++ capture { o with
            buf := [], offset := o.offset + b.length, written := w, timer := t } calls) := by
      rintro _ cs w t hcs rfl hroom
      have hrest := ih (o := { o with
        buf := [], offset := o.offset + cs.flatten.length, written := w, timer := t }) ht hc hroom
      refine hrest.after hcs (by omega) ?_
      simp only [List.length_append, List.nil_append]
      omega
    cases c with
    | timedFlush =>
      obtain ⟨cs, hcs, hflat, heq⟩ := flushLocked_eq { o with timer := false }
      rw [capture, call, timedFlush, if_pos (by simp [ht, hc]), heq]
      exact emptied hcs hflat hroom
    | close =>
      obtain ⟨cs, hcs, hflat, heq⟩ := flushLocked_eq { o with closed := true, timer := false }
      rw [capture, call, close, if_neg (by simp [hc]), if_pos (by simp [ht]), heq,
        capture_silent calls (Or.inr rfl)]
      have htake : (o.buf ++ []).take (o.cap - o.offset) = cs.flatten := by
        rw [hflat, List.append_nil, List.take_of_length_le (by omega)]
      refine ⟨cs, 0, hcs, htake ▸ List.prefix_rfl, fun _ => htake.symm, ?_⟩
      rw [if_neg (by simp only [accepted, List.append_nil]; omega)]
    | write p =>
      by_cases hfull : o.cap - o.offset - o.buf.length ≤ p.length
      · obtain ⟨cs, hcs, hflat, heq⟩ := flushLocked_eq { o with
          written := o.written + p.length
          buf := o.buf ++ p.take (o.cap - o.offset - o.buf.length) }
        rw [capture, call, write, if_neg (by simp [ht, hc]), if_pos hfull, heq,
          capture_silent calls (Or.inl rfl), List.append_nil]
        have htake : (o.buf ++ accepted (.write p :: calls)).take (o.cap - o.offset) =
            cs.flatten := by
          rw [hflat, accepted, List.take_append, List.take_of_length_le (by omega),
            List.take_append_of_le_length hfull]
        refine ⟨cs, o.written + p.length, hcs, htake ▸ List.prefix_rfl, fun _ => htake.symm, ?_⟩
        rw [if_pos (by simp only [accepted, List.length_append]; omega)]
      · have hroom' : o.offset + (o.buf ++ p).length < o.cap := by
          rw [List.length_append]
          omega
        rw [accepted, ← List.append_assoc]
        by_cases hflush : outputFlushBytes ≤ (o.buf ++ p).length
        · obtain ⟨cs, hcs, hflat, heq⟩ := flushLocked_eq
            { o with written := o.written + p.length, buf := o.buf ++ p }
          rw [capture, call, write, if_neg (by simp [ht, hc]), if_neg hfull, if_pos hflush, heq]
          exact emptied hcs hflat hroom'
        · rw [capture, call, write, if_neg (by simp [ht, hc]), if_neg hfull, if_neg hflush]
          exact ih (o := { o with
            written := o.written + p.length, buf := o.buf ++ p, timer := true }) ht hc hroom'

theorem capture_new (stream phase : String) (calls : List Call) :
    Faithful stream phase defaultOutputCap 0 (accepted calls) (closes calls)
      (defaultOutputCap ≤ (accepted calls).length)
      (capture (newOutputWriter stream phase) calls) :=
  capture_faithful calls (o := newOutputWriter stream phase) rfl rfl
    (by simp [newOutputWriter, defaultOutputCap])

/-- As many bytes as the cap are reported as truncated. -/
theorem not_faithful_at_cap {calls : List Call}
    (hlen : (accepted calls).length = defaultOutputCap) :
    ¬ Faithful stream phase defaultOutputCap 0 (accepted calls) (closes calls)
      (defaultOutputCap < (accepted calls).length)
      (capture (newOutputWriter stream phase) calls) := by
  rintro ⟨ds, _, -, -, -, hnone⟩
  obtain ⟨cs, w, -, -, -, hevs⟩ := capture_new stream phase calls
  rw [hevs, if_pos (by omega), if_neg (by omega), List.append_nil] at hnone
  have hmem : .truncated stream defaultOutputCap w ∈ chunkEvents stream phase 0 ds := by
    simp [← hnone]
  exact truncated_not_mem ds 0 hmem

/-- **The capture is faithful unless the bytes written are as many as the cap.**  Then
nothing is lost, and the truncation is reported all the same. -/
theorem output_capture_faithful_iff (stream phase : String) (calls : List Call) :
    Faithful stream phase defaultOutputCap 0 (accepted calls) (closes calls)
      (defaultOutputCap < (accepted calls).length)
      (capture (newOutputWriter stream phase) calls) ↔
    (accepted calls).length ≠ defaultOutputCap := by
  constructor
  · intro h hlen
    exact not_faithful_at_cap hlen h
  · intro hlen
    obtain ⟨cs, w, hcs, hpre, hclosed, hevs⟩ := capture_new stream phase calls
    refine ⟨cs, w, hcs, hpre, hclosed, hevs.trans ?_⟩
    congr 1
    exact if_congr (by omega) rfl rfl

/-- A process that writes exactly what is kept. -/
def full : List Call := [.write (List.replicate defaultOutputCap 0), .close]

theorem truncation_without_loss :
    ¬ Faithful "stdout" "run" defaultOutputCap 0 (accepted full) (closes full)
      (defaultOutputCap < (accepted full).length)
      (capture (newOutputWriter "stdout" "run") full) := by
  apply not_faithful_at_cap
  simp [full, accepted]

end JobsIroh.Events
