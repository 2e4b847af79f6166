/-
The want loop (`amberiroh/wantsync.go`).

`Receive` asks for the keys it lacks below a root, round after round, over any number
of channels; `Send` answers each request with a pack of exactly those objects.  What
the code takes from elsewhere is a `Codec` (hashing, the children an object names, and
the pack format) and a `Core` (the completeness walk and the verified write).  The store
is the list of the objects it holds, and what the receiver cannot choose is an `Env`: the
frames that arrive on each channel, the throughput it has measured, and the order in which
the packs of a round are merged.

A failed write to a channel ends `Receive` with that error and is left out, and so is
the accounting of wire bytes, whose only other use is as the weights.
-/
import JobsIroh.Amberiroh.Pack
import JobsIroh.Lib.ObjectGraph
import JobsIroh.Lib.Assoc
import Mathlib.Data.List.Dedup

namespace JobsIroh

/-- Hashing, children and packs, as the packages below the transport define them. -/
structure Codec (κ : Type) where
  /-- The object hashes to the key. -/
  hashes : κ → Bytes → Bool
  /-- `fstree.ChildKeys`: nothing for an object that does not decode. -/
  childKeys : κ → Bytes → Option (List κ)
  /-- The logical length a key carries. -/
  length : κ → Nat
  /-- The text of the error for an object that cannot be read. -/
  unreadable : κ → String
  packHead : Bytes
  record : κ × Bytes → Bytes
  packEnd : Bytes
  /-- The objects a pack reader yields, and whether it reaches the pack's end marker. -/
  decodePack : Bytes → List (κ × Bytes) × Bool
  /-- Content keys do not collide. -/
  hashes_inj : ∀ {k a b}, hashes k a = true → hashes k b = true → a = b
  /-- A pack of objects that hash to their keys decodes to them. -/
  decodePack_records : ∀ objs, (∀ o ∈ objs, hashes o.1 o.2 = true) →
    decodePack (packHead ++ objs.flatMap record ++ packEnd) = (objs, true)

namespace WantSync

open Search ObjectGraph

variable {κ φ : Type}

/-- The objects a store holds. -/
abbrev Objects (κ : Type) := List (κ × Bytes)

/-! ### The store -/

structure Item (κ : Type) where
  key : κ
  data : Bytes
  kids : List κ
  deriving DecidableEq, Repr

section Store

variable [DecidableEq κ] (C : Codec κ) (st st' : Objects κ)

/-- The children of a held object, as its bytes name them. -/
def kids (k : κ) : List κ :=
  match st.lookup k with
  | none => []
  | some d => (C.childKeys k d).getD []

def absent (k : κ) : Bool := (st.lookup k).isNone

/-- The object is held and decodes. -/
def Held (k : κ) : Prop := ∃ d cs, st.lookup k = some d ∧ C.childKeys k d = some cs

/-- The object is held and does not decode. -/
def Malformed (k : κ) : Prop := ∃ d, st.lookup k = some d ∧ C.childKeys k d = none

/-- The object of `k` and everything below it is held. -/
abbrev Complete : κ → Prop := Whole (kids C st) (Held C st)

/-- Nothing is lost, and what is new hashes to its key. -/
structure Grown : Prop where
  kept : ∀ k d, st.lookup k = some d → st'.lookup k = some d
  new : ∀ k d, st'.lookup k = some d → st.lookup k = some d ∨ C.hashes k d = true

end Store

inductive Check where
  | complete
  | missing
  | fault
  deriving DecidableEq, Repr

/-- What `Receive` takes from `amber-store-core`, and what it relies on there. -/
structure Core [DecidableEq κ] (C : Codec κ) where
  /-- `fstree.CheckComplete`. -/
  checkComplete : Objects κ → κ → Check
  /-- The verified write of a stream: the store, the objects taken, and whether all were. -/
  writeParallel : Objects κ → List (Item κ) → Objects κ × List (Item κ) × Bool
  complete_iff : ∀ st k, checkComplete st k = .complete ↔ Complete C st k
  /-- The walk fails only where something below the key does not decode. -/
  fault : ∀ st k, checkComplete st k = .fault → ∃ m, Malformed C st m ∧ Reach (kids C st) k m
  grown : ∀ st items, Grown C st (writeParallel st items).1
  /-- A stream that was taken to its end is stored, object by object. -/
  stored : ∀ st items, (writeParallel st items).2.2 = true →
    (writeParallel st items).2.1 = items ∧ ∀ it ∈ items, C.hashes it.key it.data = true ∧
      absent (writeParallel st items).1 it.key = false
  /-- It is, if the objects hash to their keys. -/
  taken : ∀ st items, (∀ it ∈ items, C.hashes it.key it.data = true) →
    (writeParallel st items).2.2 = true

section Wants

variable [DecidableEq κ] {C : Codec κ} (M : Core C) (st : Objects κ)

/-- `Wants`, with the keys seen so far; nothing when the walk fails. -/
def wantsFrom : List κ → List κ → Option (List κ)
  | _, [] => some []
  | seen, k :: frontier =>
    if k ∈ seen then wantsFrom seen frontier
    else
      match (if absent st k then Check.missing else M.checkComplete st k) with
      | .complete => wantsFrom (k :: seen) frontier
      | .missing => (wantsFrom (k :: seen) frontier).map (k :: ·)
      | .fault => none

def wants (frontier : List κ) : Option (List κ) := wantsFrom M st [] frontier

end Wants

/-! ### Dealing a round -/

/-- The most keys one request may carry. -/
def maxWantsPerRound : Nat := 32768

/-- The keys to request now, and those to put off. -/
def splitWants (wants : List κ) (max : Nat) : List κ × List κ :=
  if wants.length ≤ max then (wants, []) else (wants.take max, wants.drop max)

/-- The arithmetic of the weights: floating point in the code, any other here as well. -/
structure Arith (φ : Type) where
  ofNat : Nat → φ
  add : φ → φ → φ
  div : φ → φ → φ
  lt : φ → φ → Bool

section Deal

variable (C : Codec κ) (A : Arith φ)

/-- The channel with the lowest ratio of assigned bytes to weight, the first of those. -/
def lightest (w assigned : List φ) : Nat :=
  let ratio i := A.div (assigned.getD i (A.ofNat 0)) (w.getD i (A.ofNat 1))
  (List.range' 1 (w.length - 1)).foldl
    (fun best i => if A.lt (ratio i) (ratio best) then i else best) 0

def dealFrom (w : List φ) : List κ → List φ → List (List κ) → List (List κ)
  | [], _, shards => shards
  | k :: wants, assigned, shards =>
    let best := lightest A w assigned
    let bytes := A.ofNat (C.length k)
    let bytes := if A.lt bytes (A.ofNat 1) then A.ofNat 1 else bytes
    dealFrom w wants (assigned.modify best (A.add · bytes)) (shards.modify best (· ++ [k]))

def dealWants (wants : List κ) (weights : List Int) : List (List κ) :=
  if weights.length = 1 then [wants]
  else
    let w := weights.map fun wt => A.ofNat (if wt < 1 then 1 else wt.toNat)
    dealFrom C A w wants (List.replicate weights.length (A.ofNat 0))
      (List.replicate weights.length [])

end Deal

/-! ### Reading a round -/

inductive ReceiveError (κ : Type) where
  /-- The completeness walk met an object that does not decode. -/
  | store
  | remote (code text : String)
  | decode
  /-- An object does not hash to its key. -/
  | write
  | omitted (missing total : Nat) (e : κ)
  deriving DecidableEq, Repr

/-- What one channel yields in a round: objects, and the frames left or the failure. -/
structure ChannelRead (κ : Type) where
  items : List (Item κ)
  rest : Except (ReceiveError κ) (List PackFrame)

/-- The children of the objects of a pack, up to the first that does not decode. -/
def childItems (C : Codec κ) : List (κ × Bytes) → List (Item κ) × Bool
  | [] => ([], true)
  | (k, d) :: objs =>
    match C.childKeys k d with
    | none => ([], false)
    | some cs => (⟨k, d, cs⟩ :: (childItems C objs).1, (childItems C objs).2)

def readChannel (C : Codec κ) (frames : List PackFrame) : ChannelRead κ :=
  let (bytes, rest) := readPack frames
  let (objs, ended) := C.decodePack bytes
  let (items, decoded) := childItems C objs
  { items
    rest :=
      if decoded then
        match rest with
        | .error (.remote code text) => .error (.remote code text)
        | .error _ => .error .decode
        | .ok rest => if ended then .ok rest else .error .decode
      else .error .decode }

def ChannelRead.failure (r : ChannelRead κ) : Option (ReceiveError κ) :=
  match r.rest with
  | .error e => some e
  | .ok _ => none

/-- A remote error of any channel, else that some channel failed. -/
def readError (reads : List (ChannelRead κ)) : Option (ReceiveError κ) :=
  let failed := reads.filterMap ChannelRead.failure
  match failed.find? (fun | .remote .. => true | _ => false) with
  | some e => some e
  | none => failed.head?

def checkDelivered [DecidableEq κ] (received wants : List κ) : Option (ReceiveError κ) :=
  match wants.filter (· ∉ received) with
  | [] => none
  | k :: missing => some (.omitted (missing.length + 1) wants.length k)

/-! ### The receiving half -/

structure Stats where
  rounds : Nat := 0
  requested : Nat := 0
  received : Nat := 0
  deriving DecidableEq, Repr

/-- What the receiver finds: any of it may depend on the requests made so far. -/
structure Env (κ : Type) where
  /-- The frames that arrive on a channel once the round's requests are out. -/
  arrives : List (List (List κ)) → Nat → List PackFrame
  weights : List (List (List κ)) → Nat → Int
  merge : List (List (List κ)) → List (List (Item κ)) → List (Item κ)
  merge_perm : ∀ rounds packs, (merge rounds packs).Perm packs.flatten

/-- `Receive` between two rounds. -/
structure Recv (κ : Type) where
  store : Objects κ
  frontier : List κ
  /-- The frames that are on each channel and not read. -/
  unread : List (List PackFrame)
  /-- The requests written to each channel; an empty one ends its sender. -/
  written : List (List (List κ))
  /-- The shards of each round. -/
  rounds : List (List (List κ)) := []
  stats : Stats := {}

/-- Nothing asked and nothing read, with the root to be looked at. -/
def Recv.start (n : Nat) (st : Objects κ) (root : κ) : Recv κ :=
  { store := st, frontier := [root], unread := List.replicate n []
    written := List.replicate n [] }

inductive Turn (κ : Type) where
  | done (s : Recv κ) (err : Option (ReceiveError κ))
  | next (s : Recv κ)

section Receive

variable [DecidableEq κ] {C : Codec κ} (M : Core C) (A : Arith φ) (max : Nat) (env : Env κ)

/-- A channel whose shard is empty gets no request. -/
def request (written : List (List (List κ))) (shards : List (List κ)) : List (List (List κ)) :=
  List.zipWith (fun reqs shard => if shard.isEmpty then reqs else reqs ++ [shard]) written shards

/-- The pack for a shard, from its channel; one that was not asked stays as it is. -/
def readShard (C : Codec κ) (rounds : List (List (List κ))) (unread : List (List PackFrame))
    (p : List κ × Nat) : ChannelRead κ :=
  if p.1.isEmpty then ⟨[], .ok (unread.getD p.2 [])⟩
  else readChannel C (unread.getD p.2 [] ++ env.arrives rounds p.2)

def readRound (C : Codec κ) (rounds : List (List (List κ))) (unread : List (List PackFrame))
    (shards : List (List κ)) : List (ChannelRead κ) :=
  shards.zipIdx.map (readShard env C rounds unread)

def leftover (reads : List (ChannelRead κ)) : List (List PackFrame) :=
  reads.map fun r =>
    match r.rest with
    | .ok frames => frames
    | .error _ => []

/-- From the requests of a round to the next frontier. -/
def finishRound (s : Recv κ) (send carry : List κ) (shards : List (List κ)) : Turn κ :=
  let rounds := s.rounds ++ [shards]
  let reads := readRound env C rounds s.unread shards
  let (store, taken, ok) := M.writeParallel s.store (env.merge rounds (reads.map (·.items)))
  let received := (taken.map (·.key)).dedup
  let s := { store
             frontier := taken.flatMap (·.kids) ++ carry
             unread := leftover reads
             written := request s.written shards
             rounds
             stats := { s.stats with received := s.stats.received + received.length } }
  match readError reads with
  | some e => .done s (some e)
  | none =>
    if ok then
      match checkDelivered received send with
      | some e => .done s (some e)
      | none => .next s
    else .done s (some .write)

/-- One round of `Receive`; with nothing to ask for, every channel gets the empty request. -/
def turn (s : Recv κ) : Turn κ :=
  match wants M s.store s.frontier with
  | none => .done s (some .store)
  | some ws =>
    let (send, carry) := splitWants ws max
    let s := { s with stats := { s.stats with
      rounds := s.stats.rounds + 1
      requested := s.stats.requested + send.length } }
    if send.isEmpty then .done { s with written := s.written.map (· ++ [[]]) } none
    else
      let weights := (List.range s.written.length).map (env.weights s.rounds)
      finishRound M env s send carry (dealWants C A send weights)

def receiveFrom : Nat → Recv κ → Option (Recv κ × Option (ReceiveError κ))
  | 0, _ => none
  | fuel + 1, s =>
    match turn M A max env s with
    | .done s err => some (s, err)
    | .next s => receiveFrom fuel s

/-- `Receive` over `n` channels: the final state, and the error it returns if any. -/
def receive (n : Nat) (st : Objects κ) (root : κ) (fuel : Nat) :
    Option (Recv κ × Option (ReceiveError κ)) :=
  receiveFrom M A max env fuel (Recv.start n st root)

end Receive

/-! ### The sending half -/

/-- A sender: its store, and the order in which that reads a set of keys. -/
structure Sender (κ : Type) where
  store : Objects κ
  sortByLocation : List κ → List κ
  sort_perm : ∀ keys, (sortByLocation keys).Perm keys

section Send

variable [DecidableEq κ] (C : Codec κ) (S : Sender κ)

/-- Repeats dropped, in first-seen order. -/
def dedupeKeys : List κ → List κ → List κ
  | _, [] => []
  | seen, k :: keys =>
    if k ∈ seen then dedupeKeys seen keys else k :: dedupeKeys (k :: seen) keys

/-- The objects of the keys, up to the first that is not held. -/
def getRecords (st : Objects κ) : List κ → List (κ × Bytes) × Option κ
  | [] => ([], none)
  | k :: keys =>
    match st.lookup k with
    | none => ([], some k)
    | some d => ((k, d) :: (getRecords st keys).1, (getRecords st keys).2)

/-- The frames that answer one request, and whether the pack got to its end. -/
def sendReply (keys : List κ) : List PackFrame × Bool :=
  let (objs, missing) := getRecords S.store (S.sortByLocation (dedupeKeys [] keys))
  let cw := ({} : ChunkWriter).write chunkSize (C.packHead ++ objs.flatMap C.record)
  match missing with
  | none => ((cw.write chunkSize C.packEnd).finish, true)
  | some k => (cw.sent ++ [.err "internal" (C.unreadable k)], false)

inductive SendEnd where
  | returned
  | failed
  /-- Every request so far is answered and the stream is open. -/
  | waiting
  deriving DecidableEq, Repr

/-- `Send` on the requests of its channel: the answers, and how it ends. -/
def send : List (List κ) → List (List PackFrame) × SendEnd
  | [] => ([], .waiting)
  | keys :: reqs =>
    if keys.isEmpty then ([], .returned)
    else
      match sendReply C S keys with
      | (frames, true) => (frames :: (send reqs).1, (send reqs).2)
      | (frames, false) => ([frames], .failed)

end Send

end WantSync

end JobsIroh
