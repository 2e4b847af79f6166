/-
Frames on a byte stream: a length of four bytes, most significant first, then the payload.

Neither side lets a frame through whose payload is longer than a cap.  A writer stops at the
first payload it refuses and leaves the frames before it.
-/
import JobsIroh.Lib.Cbor

namespace Framing

open Cbor (Bytes bigEndian value takeBytes)

variable {α : Type} (cap : Nat)

/-- Nothing when the payload is too long. -/
def write (payload : Bytes) : Option Bytes :=
  if payload.length > cap then none else some (bigEndian 4 payload.length ++ payload)

/-- One payload after the other, up to the first that is refused. -/
def writeAll : List Bytes → Bytes
  | [] => []
  | p :: ps =>
    match write cap p with
    | none => []
    | some f => f ++ writeAll ps

/-- One frame, its payload accepted by `accept`. -/
def read (accept : Bytes → Option α) (bs : Bytes) : Option (α × Bytes) :=
  match takeBytes 4 bs with
  | none => none
  | some (header, rest) =>
    if value header > cap then none
    else match takeBytes (value header) rest with
      | none => none
      | some (payload, rest) => (accept payload).map fun x => (x, rest)

variable {cap} {accept : Bytes → Option α}

theorem writeAll_cons {p : Bytes} (hp : p.length ≤ cap) (ps : List Bytes) :
    writeAll cap (p :: ps) = bigEndian 4 p.length ++ p ++ writeAll cap ps := by
  rw [writeAll, write, if_neg (by omega)]

/-- A frame is read back as far as its payload is accepted. -/
theorem read_frame (hcap : cap < 256 ^ 4) {p : Bytes} (hp : p.length ≤ cap) (t : Bytes) :
    read cap accept (bigEndian 4 p.length ++ p ++ t) = (accept p).map fun x => (x, t) := by
  have hheader : takeBytes 4 (bigEndian 4 p.length ++ (p ++ t)) =
      some (bigEndian 4 p.length, p ++ t) := by
    have h := Cbor.takeBytes_append (bigEndian 4 p.length) (p ++ t)
    rwa [Cbor.length_bigEndian] at h
  have hval : value (bigEndian 4 p.length) = p.length := Cbor.value_bigEndian (by omega)
  unfold read
  rw [List.append_assoc, hheader]
  dsimp only
  rw [hval, if_neg (by omega), Cbor.takeBytes_append]

end Framing
