/-
The log fold and its followers, from `sched/logfold.go` and `clientcli/logtracker.go`.

The fold keeps the newest attempt's output of a bounded number of nodes; a follower prints
what is stored and then the chunks as they come in.  A Go map is a list of pairs here, and
`order` is the order a `range` over it takes.  The zero time is `none`.
-/
import Mathlib
import JobsIroh.Lib.Assoc
import JobsIroh.Lib.Run
import JobsIroh.Sched.Capture

namespace JobsIroh.Logs

open Api

/-! ### The fold -/

def maxLogNodes : Nat := 512

/-- The entry a chunk goes to: a later attempt resets the buffer. -/
def current (lb : Option NodeLog) (c : LogChunk) : NodeLog :=
  match lb with
  | none => ⟨c.gen.toNat, newLogBuffer logHeadCap logTailCap⟩
  | some lb =>
    if lb.gen < c.gen.toNat then ⟨c.gen.toNat, newLogBuffer logHeadCap logTailCap⟩ else lb

/-- A chunk of the entry's own attempt is written, an older one is not. -/
def written (lb : NodeLog) (c : LogChunk) : NodeLog :=
  if c.gen.toNat = lb.gen then { lb with buf := lb.buf.write c.stream c.seq c.data } else lb

structure Held where
  log : NodeLog
  updated : Option Nat := none

abbrev Fold := List (String × Held)

/-- `time.Time.Before`. -/
def before : Option Nat → Option Nat → Bool
  | none, some _ => true
  | some a, some b => a < b
  | _, none => false

/-- The scan for the least recently updated entry: the first of several stays. -/
def oldest : Fold → Option (String × Held)
  | [] => none
  | e :: l =>
    match oldest l with
    | none => some e
    | some b => if before b.2.updated e.2.updated then some b else some e

section

variable (order : Fold → Fold)

/-- `evictLogsLocked`; every round deletes an entry. -/
def evictLogsLocked : Nat → Fold → Fold
  | 0, l => l
  | k + 1, l =>
    if maxLogNodes < l.length then
      match oldest (order l) with
      | some v => evictLogsLocked k (l.filter fun e => e.1 ≠ v.1)
      | none => l
    else l

/-- The entry the fold has for a node. -/
def entry (l : Fold) (name : String) : Option NodeLog := (l.lookup name).map (·.log)

/-- Put an entry in the place of the node's older one. -/
def put (l : Fold) (name : String) (h : Held) : Fold :=
  (name, h) :: l.filter fun e => e.1 ≠ name

/-- `onLogChunk`, the fold; what is written to an entry that has just been evicted is lost. -/
def onLogChunk (l : Fold) (name : String) (c : LogChunk) (now : Nat) : Fold :=
  let cur := current (entry l name) c
  let l := if (entry l name).all (·.gen < c.gen.toNat) then
      evictLogsLocked order (l.length + 1) (put l name ⟨cur, none⟩)
    else l
  if c.gen.toNat = cur.gen ∧ name ∈ l.map (·.1) then put l name ⟨written cur c, some now⟩ else l

inductive Event where
  | chunk (name : String) (c : LogChunk) (now : Nat)
  /-- `dropNodeLogLocked`. -/
  | drop (name : String)

def step (l : Fold) : Event → Option Fold
  | .chunk name c now => some (onLogChunk order l name c now)
  | .drop name => some (l.filter fun e => e.1 ≠ name)

end

/-! ### What the fold keeps -/

/-- Between two chunks: one entry for a node, each of them stamped, no more than the cap. -/
structure Bounded (l : Fold) : Prop where
  nodup : (l.map (·.1)).Nodup
  stamped : ∀ e ∈ l, e.2.updated.isSome = true
  le : l.length ≤ maxLogNodes

variable {order : Fold → Fold} {l : Fold} {name : String} {c : LogChunk} {now : Nat}

theorem Bounded.filter (h : Bounded l) (q : String × Held → Bool) : Bounded (l.filter q) where
  nodup := h.nodup.sublist (List.filter_sublist.map _)
  stamped e he := h.stamped e (List.mem_filter.mp he).1
  le := (List.length_filter_le _ _).trans h.le

theorem evict_of_le (k : Nat) (h : l.length ≤ maxLogNodes) : evictLogsLocked order k l = l := by
  cases k with
  | zero => rfl
  | succ k => rw [evictLogsLocked, if_neg (by omega)]

theorem not_mem_of_entry (h : entry l name = none) : ∀ e ∈ l, e.1 ≠ name := by
  intro e he heq
  rw [entry, Option.map_eq_none_iff, List.lookup_eq_none_iff] at h
  simpa [heq] using h e he

theorem mem_of_entry {lb : NodeLog} (h : entry l name = some lb) : name ∈ l.map (·.1) := by
  obtain ⟨held, hheld, -⟩ := Option.map_eq_some_iff.mp h
  exact Assoc.mem_keys_of_lookup hheld

theorem filter_of_entry (h : entry l name = none) : (l.filter fun e => e.1 ≠ name) = l :=
  List.filter_eq_self.mpr fun e he => by simpa using not_mem_of_entry h e he

theorem put_put (h h' : Held) : put (put l name h) name h' = put l name h' := by
  simp [put]

theorem length_put_le {h : Held} (hroom : (entry l name).isSome = true ∨ l.length < maxLogNodes)
    (hl : Bounded l) : (put l name h).length ≤ maxLogNodes := by
  rw [put, List.length_cons]
  rcases hroom with hheld | hroom
  · obtain ⟨lb, hlb⟩ := Option.isSome_iff_exists.mp hheld
    obtain ⟨e, he, heq⟩ := List.mem_map.mp (mem_of_entry hlb)
    have hlt : (l.filter fun e => e.1 ≠ name).length < l.length :=
      List.length_filter_lt_length_iff_exists.mpr ⟨e, he, by simpa using heq⟩
    have := hl.le
    omega
  · have := List.length_filter_le (fun e : String × Held => decide (e.1 ≠ name)) l
    omega

/-- With room for the node, a chunk that is not older than what is stored is put in. -/
theorem onLogChunk_put (hl : Bounded l)
    (hroom : (entry l name).isSome = true ∨ l.length < maxLogNodes)
    (hgen : c.gen.toNat = (current (entry l name) c).gen) :
    onLogChunk order l name c now =
      put l name ⟨written (current (entry l name) c) c, some now⟩ := by
  unfold onLogChunk
  dsimp only
  split
  · rw [evict_of_le _ (length_put_le hroom hl), if_pos ⟨hgen, by simp [put]⟩, put_put]
  · rename_i hkeep
    refine if_pos ⟨hgen, ?_⟩
    cases h : entry l name with
    | none => simp [h] at hkeep
    | some lb => exact mem_of_entry h

/-- An older chunk changes nothing. -/
theorem onLogChunk_older (hgen : c.gen.toNat ≠ (current (entry l name) c).gen) :
    onLogChunk order l name c now = l := by
  unfold onLogChunk
  rw [if_neg (fun h => hgen h.1), if_neg]
  intro hall
  refine hgen ?_
  unfold current
  cases h : entry l name with
  | none => rfl
  | some lb => rw [h] at hall; simp_all

/-- An entry without a stamp is the one the scan finds. -/
theorem oldest_unstamped {v : String × Held} (hv : v.2.updated = none) (hmem : v ∈ l)
    (hothers : ∀ e ∈ l, e ≠ v → e.2.updated.isSome = true) : oldest l = some v := by
  induction l with
  | nil => cases hmem
  | cons e l ih =>
    rw [oldest]
    by_cases hev : e = v
    · rw [hev]
      cases oldest l with
      | none => rfl
      | some b => simp [hv, before]
    · have hl := ih ((List.mem_cons.mp hmem).resolve_left (Ne.symm hev))
        fun e he => hothers e (List.mem_cons_of_mem _ he)
      obtain ⟨t, ht⟩ := Option.isSome_iff_exists.mp (hothers e List.mem_cons_self hev)
      simp [hl, hv, ht, before]

/-- A node beyond the cap is let go in the handler that took it in. -/
theorem onLogChunk_beyond (horder : ∀ l, (order l).Perm l) (hl : Bounded l)
    (hnew : entry l name = none) (hfull : l.length = maxLogNodes) :
    onLogChunk order l name c now = l := by
  have hput : ∀ h, put l name h = (name, h) :: l := by
    intro h
    rw [put, filter_of_entry hnew]
  have hround : ∀ cur, evictLogsLocked order (l.length + 1) (put l name ⟨cur, none⟩) = l := by
    intro cur
    rw [hput, evictLogsLocked, if_pos (by rw [List.length_cons]; omega),
      oldest_unstamped (v := (name, ⟨cur, none⟩)) rfl
        ((horder _).mem_iff.mpr List.mem_cons_self)]
    · dsimp only
      rw [List.filter_cons, if_neg (by simp), filter_of_entry hnew, evict_of_le _ hl.le]
    · intro e he hev
      rw [(horder _).mem_iff] at he
      exact hl.stamped e ((List.mem_cons.mp he).resolve_left hev)
  unfold onLogChunk
  dsimp only
  rw [hnew, Option.all_none, if_pos rfl, hround, if_neg]
  rintro ⟨-, hmem⟩
  obtain ⟨e, he, heq⟩ := List.mem_map.mp hmem
  exact not_mem_of_entry hnew e he heq

/-- A new node is taken in as long as the cap is not reached. -/
def room (l : Fold) (name : String) : Bool := (entry l name).isSome || l.length < maxLogNodes

theorem Bounded.onLogChunk (horder : ∀ l, (order l).Perm l) (hl : Bounded l) :
    Bounded (onLogChunk order l name c now) := by
  by_cases hroom : (entry l name).isSome = true ∨ l.length < maxLogNodes
  · by_cases hgen : c.gen.toNat = (current (entry l name) c).gen
    · rw [onLogChunk_put hl hroom hgen]
      have hrest := hl.filter fun e => e.1 ≠ name
      refine ⟨?_, ?_, length_put_le hroom hl⟩
      · rw [put, List.map_cons, List.nodup_cons]
        exact ⟨by simp, hrest.nodup⟩
      · intro e he
        rcases List.mem_cons.mp he with rfl | he
        · rfl
        · exact hrest.stamped e he
    · rwa [onLogChunk_older hgen]
  · obtain ⟨hnew, hfull⟩ := not_or.mp hroom
    rwa [onLogChunk_beyond horder hl (by simpa using hnew) (by have := hl.le; omega)]

theorem Bounded.of_steps (horder : ∀ l, (order l).Perm l)
    (h : Run.Steps (step order) Run.Always [] l) : Bounded l := by
  refine h.inv ⟨by simp, by simp, by simp⟩ ?_
  intro l a l' hl _ hstep
  cases a with
  | chunk name c now =>
    obtain rfl := Option.some.inj hstep
    exact hl.onLogChunk horder
  | drop name =>
    obtain rfl := Option.some.inj hstep
    exact hl.filter _

/-- What the fold is held to when a chunk arrives. -/
structure Kept (l : Fold) (name : String) (c : LogChunk) (l' : Fold) : Prop where
  /-- No more nodes than the cap. -/
  bound : l'.length ≤ maxLogNodes
  /-- A chunk that is not older than what is stored for its node is in the fold. -/
  stored : (∀ lb, entry l name = some lb → lb.gen ≤ c.gen.toNat) →
    ∃ h, (name, h) ∈ l' ∧ h.log.gen = c.gen.toNat ∧
      h.log.buf = (current (entry l name) c).buf.write c.stream c.seq c.data
  /-- Who goes was updated no later than any other. -/
  oldest : ∀ e ∈ l, e.1 ∉ l'.map (·.1) → ∀ e' ∈ l, before e'.2.updated e.2.updated = false

theorem gen_current (h : ∀ lb, entry l name = some lb → lb.gen ≤ c.gen.toNat) :
    c.gen.toNat = (current (entry l name) c).gen := by
  unfold current
  cases hlb : entry l name with
  | none => rfl
  | some lb =>
    have hle := h lb hlb
    dsimp only
    split
    · rfl
    · omega

/--
**The fold keeps the newest output exactly while it has room for the node.**  A new entry
is inserted without a stamp, so at the cap it is itself the least recently updated one.
-/
theorem fold_keeps_newest (horder : ∀ l, (order l).Perm l)
    (h : Run.Steps (step order) Run.Always [] l) (name : String) (c : LogChunk) (now : Nat) :
    Kept l name c (onLogChunk order l name c now) ↔ room l name = true := by
  have hl := Bounded.of_steps horder h
  rw [room, Bool.or_eq_true, decide_eq_true_iff]
  constructor
  · intro hkept
    by_contra hroom
    obtain ⟨hnew, hfull⟩ := not_or.mp hroom
    have hnone : entry l name = none := by simpa using hnew
    obtain ⟨h, hmem, -⟩ := hkept.stored (by simp [hnone])
    rw [onLogChunk_beyond horder hl hnone (by have := hl.le; omega)] at hmem
    exact not_mem_of_entry hnone _ hmem rfl
  · intro hroom
    refine ⟨(hl.onLogChunk horder).le, fun hnewer => ?_, fun e he hgone => ?_⟩
    · have hgen := gen_current hnewer
      rw [onLogChunk_put hl hroom hgen]
      exact ⟨_, List.mem_cons_self, by rw [written, if_pos hgen]; exact hgen.symm,
        by rw [written, if_pos hgen]⟩
    · -- Nothing leaves the fold.
      refine absurd ?_ hgone
      by_cases hgen : c.gen.toNat = (current (entry l name) c).gen
      · rw [onLogChunk_put hl hroom hgen]
        by_cases heq : e.1 = name
        · exact List.mem_map.mpr ⟨_, List.mem_cons_self, heq.symm⟩
        · exact List.mem_map.mpr
            ⟨e, List.mem_cons_of_mem _ (List.mem_filter.mpr ⟨he, by simpa using heq⟩), rfl⟩
      · rw [onLogChunk_older hgen]
        exact List.mem_map.mpr ⟨e, he, rfl⟩

theorem fold_keeps_first :
    Kept [] "build-x" ⟨1, "stdout", 0, [104, 105]⟩
      (onLogChunk id [] "build-x" ⟨1, "stdout", 0, [104, 105]⟩ 7) :=
  (fold_keeps_newest (fun _ => .refl _) .refl _ _ _).mpr rfl

/-- There is always a node the fold does not hold. -/
theorem exists_new (l : Fold) : ∃ name, entry l name = none := by
  obtain ⟨name, hname⟩ := Infinite.exists_notMem_finset (l.map (·.1)).toFinset
  refine ⟨name, ?_⟩
  cases h : entry l name with
  | none => rfl
  | some lb => exact absurd (List.mem_toFinset.mpr (mem_of_entry h)) hname

/-- As many nodes as the cap allows can be held. -/
theorem fold_fills (k : Nat) (hk : k ≤ maxLogNodes) :
    ∃ l, Run.Steps (step id) Run.Always [] l ∧ l.length = k := by
  induction k with
  | zero => exact ⟨[], .refl, rfl⟩
  | succ k ih =>
    obtain ⟨l, hsteps, hlen⟩ := ih (by omega)
    obtain ⟨name, hnew⟩ := exists_new l
    have hput : onLogChunk id l name ⟨1, "stdout", 0, []⟩ 0 = _ :=
      onLogChunk_put (Bounded.of_steps (fun _ => .refl _) hsteps) (.inr (by omega))
        (gen_current (by simp [hnew]))
    refine ⟨_, hsteps.tail trivial (a := .chunk name _ _) (congrArg some hput), ?_⟩
    rw [put, filter_of_entry hnew, List.length_cons, hlen]

/-- A fold at the cap does not take in a new node's output. -/
theorem fold_full_loses :
    ∃ l name c, Run.Steps (step id) Run.Always [] l ∧ l.length = maxLogNodes ∧
      entry l name = none ∧ onLogChunk id l name c 7 = l ∧
      ¬Kept l name c (onLogChunk id l name c 7) := by
  obtain ⟨l, hsteps, hlen⟩ := fold_fills maxLogNodes le_rfl
  obtain ⟨name, hnew⟩ := exists_new l
  have hsame : onLogChunk id l name ⟨1, "stdout", 0, [104]⟩ 7 = l :=
    onLogChunk_beyond (fun _ => .refl _) (Bounded.of_steps (fun _ => .refl _) hsteps) hnew hlen
  refine ⟨l, name, _, hsteps, hlen, hnew, hsame, fun hkept => ?_⟩
  obtain ⟨h, hmem, -⟩ := hkept.stored (by simp [hnew])
  rw [hsame] at hmem
  exact not_mem_of_entry hnew _ hmem rfl

/-! ### Following one node -/

/-- `Logs`: the stored view, which is empty at generation 0 for an unknown node. -/
def view (l : Fold) (name : String) : NodeLog :=
  (entry l name).getD ⟨0, newLogBuffer logHeadCap logTailCap⟩

/-- `runFollower`, the loop: the live data it prints, each under its generation. -/
def follow : Nat → List LogChunk → List (Nat × Bytes)
  | _, [] => []
  | gen, c :: cs =>
    if c.gen.toNat < gen then follow gen cs else (c.gen.toNat, c.data) :: follow c.gen.toNat cs

/-- Everything printed for generation `g` when the follow request finds a view and `live`
comes in after it. -/
def printed (g : Nat) (v : NodeLog) (live : List LogChunk) : Bytes :=
  ((v.gen, v.buf.head ++ v.buf.tail) :: follow v.gen live).flatMap fun p =>
    if p.1 = g then p.2 else []

/-- The chunks of a node among the events. -/
def chunksOf (name : String) (es : List Event) : List LogChunk :=
  es.filterMap fun
    | .chunk n c _ => if n = name then some c else none
    | .drop _ => none

/-- The event leaves the node's log to be found: a chunk of the node finds room, and its log
is not dropped. -/
def stays (name : String) (l : Fold) : Event → Bool
  | .chunk n _ _ => n ≠ name || room l name
  | .drop n => n ≠ name

def newest (cs : List LogChunk) : Nat := (cs.map (·.gen.toNat)).foldl max 0

def ofGen (g : Nat) (cs : List LogChunk) : List LogChunk := cs.filter fun c => c.gen.toNat = g

def key (c : LogChunk) : String × UInt64 := (c.stream, c.seq)

instance lawfulKey : LawfulBEq (String × UInt64) := inferInstance

/-- Add the chunks that are not there yet, in order of first arrival. -/
def distinct (acc cs : List LogChunk) : List LogChunk :=
  cs.foldl (fun acc c => if key c ∈ acc.map key then acc else acc ++ [c]) acc

def datas (cs : List LogChunk) : Bytes := cs.flatMap (·.data)

/-- The repeated ones among the chunks carry no data. -/
def silent : List LogChunk → List LogChunk → Bool
  | _, [] => true
  | acc, c :: cs =>
    if key c ∈ acc.map key then c.data = [] && silent acc cs else silent (acc ++ [c]) cs

theorem length_datas_distinct (cs : List LogChunk) :
    ∀ acc, (datas (distinct acc cs)).length ≤ (datas acc).length + (datas cs).length := by
  induction cs with
  | nil => intro acc; simp [distinct, datas]
  | cons c cs ih =>
    intro acc
    rw [distinct, List.foldl_cons, ← distinct]
    have hc : (datas (c :: cs)).length = c.data.length + (datas cs).length := by simp [datas]
    split
    · have := ih acc
      omega
    · have hle := ih (acc ++ [c])
      have ha : (datas (acc ++ [c])).length = (datas acc).length + c.data.length := by
        simp [datas]
      omega

/-- All the data is that of the distinct chunks when the repeated ones are silent. -/
theorem datas_distinct_iff (cs : List LogChunk) :
    ∀ acc, datas acc ++ datas cs = datas (distinct acc cs) ↔ silent acc cs = true := by
  induction cs with
  | nil => intro acc; simp [distinct, silent, datas]
  | cons c cs ih =>
    intro acc
    have hc : datas (c :: cs) = c.data ++ datas cs := by simp [datas]
    rw [distinct, List.foldl_cons, ← distinct, silent]
    split
    · rw [Bool.and_eq_true, ← ih acc, decide_eq_true_iff, hc]
      constructor
      · intro h
        have hlen := congrArg List.length h
        have hle := length_datas_distinct cs acc
        simp only [List.length_append] at hlen
        have hnil : c.data = [] := List.length_eq_zero_iff.mp (by omega)
        rw [hnil] at h
        exact ⟨hnil, h⟩
      · rintro ⟨hnil, h⟩
        rw [hnil]
        exact h
    · rw [← ih, hc]
      simp [datas]

variable {headCap tailCap : Nat}

/-- Which chunks a buffer has seen, and what it holds of their data: the start, the end, and
how much lies between. -/
structure Captured (b : LogBuffer headCap tailCap) (cs : List LogChunk) : Prop where
  seen : ∀ k, k ∈ b.seen ↔ k ∈ cs.map key
  head : b.head = (datas cs).take headCap
  gap : b.gap = (datas cs).length - headCap - tailCap
  tail : b.tail = (datas cs).drop (headCap + b.gap)

theorem Captured.new : Captured (newLogBuffer headCap tailCap) [] :=
  ⟨by simp [newLogBuffer], by simp [newLogBuffer, datas], by simp [newLogBuffer, datas],
    by simp [newLogBuffer, datas]⟩

theorem Captured.write {b : LogBuffer headCap tailCap} {cs : List LogChunk}
    (h : Captured b cs) (c : LogChunk) :
    Captured (b.write c.stream c.seq c.data) (distinct cs [c]) := by
  have hseen : (c.stream, c.seq) ∈ b.seen ↔ key c ∈ cs.map key := h.seen _
  unfold LogBuffer.write
  rw [distinct, List.foldl_cons, List.foldl_nil]
  by_cases hmem : (c.stream, c.seq) ∈ b.seen
  · rwa [if_pos hmem, if_pos (hseen.mp hmem)]
  rw [if_neg hmem, if_neg (fun hk => hmem (hseen.mpr hk))]
  have hdata : datas (cs ++ [c]) = datas cs ++ c.data := by simp [datas]
  have hgap := h.gap
  have htake : headCap - b.head.length = headCap - (datas cs).length := by
    rw [h.head, List.length_take]
    omega
  -- what the tail is cut from is a tail of the whole
  have htail : b.tail ++ c.data.drop (headCap - (datas cs).length) =
      (datas cs ++ c.data).drop (headCap + b.gap) := by
    rw [h.tail, List.drop_append]
    congr 2
    omega
  refine ⟨fun k => ?_, ?_, ?_, ?_⟩ <;> dsimp only
  · simp [h.seen k, key, or_comm]
  · rw [hdata, htake, h.head, List.take_append]
  · rw [hdata, htake, htail, List.length_drop, List.length_append]
    omega
  · rw [hdata, htake, htail, List.drop_drop, Nat.add_assoc]

theorem Captured.whole {b : LogBuffer headCap tailCap} {cs : List LogChunk} (h : Captured b cs)
    (hgap : b.gap = 0) : b.head ++ b.tail = datas cs := by
  rw [h.head, h.tail, hgap, Nat.add_zero, List.take_append_drop]

theorem newest_snoc (cs : List LogChunk) (c : LogChunk) :
    newest (cs ++ [c]) = max (newest cs) c.gen.toNat := by
  simp [newest]

theorem le_newest {cs : List LogChunk} (h : c ∈ cs) : c.gen.toNat ≤ newest cs := by
  induction cs using List.reverseRecOn with
  | nil => cases h
  | append_singleton cs d ih =>
    rw [newest_snoc]
    rcases List.mem_append.mp h with h | h
    · exact (ih h).trans (le_max_left _ _)
    · rw [List.mem_singleton.mp h]
      exact le_max_right _ _

theorem newest_le_append (cs ds : List LogChunk) : newest cs ≤ newest (cs ++ ds) := by
  induction ds using List.reverseRecOn with
  | nil => rw [List.append_nil]
  | append_singleton ds d ih =>
    rw [← List.append_assoc, newest_snoc]
    exact ih.trans (le_max_left _ _)

theorem ofGen_eq_nil {g : Nat} {cs : List LogChunk} (h : newest cs < g) : ofGen g cs = [] := by
  refine List.filter_eq_nil_iff.mpr fun c hc => ?_
  have := le_newest hc
  simp only [decide_eq_true_iff]
  omega

theorem ofGen_append (g : Nat) (cs ds : List LogChunk) :
    ofGen g (cs ++ ds) = ofGen g cs ++ ofGen g ds :=
  List.filter_append ..

theorem distinct_append (acc cs ds : List LogChunk) :
    distinct acc (cs ++ ds) = distinct (distinct acc cs) ds :=
  List.foldl_append

/-- A view of the distinct chunks of the newest generation. -/
def Shows (v : NodeLog) (cs : List LogChunk) : Prop :=
  v.gen = newest cs ∧ Captured v.buf (distinct [] (ofGen (newest cs) cs))

theorem Shows.arrive {v : NodeLog} {cs : List LogChunk} (h : Shows v cs) (c : LogChunk) :
    Shows (written (current (some v) c) c) (cs ++ [c]) := by
  obtain ⟨hgen, hholds⟩ := h
  rw [Shows, newest_snoc, current, hgen, ofGen_append, distinct_append]
  rcases Nat.lt_trichotomy (newest cs) c.gen.toNat with hlt | heq | hgt
  · rw [if_pos hlt, max_eq_right hlt.le, ofGen_eq_nil hlt, written, if_pos rfl]
    exact ⟨rfl, by simpa [ofGen, distinct] using Captured.new.write c⟩
  · rw [if_neg (by omega), max_eq_left heq.ge, written, if_pos (by omega)]
    exact ⟨hgen, by simpa [ofGen, heq] using hholds.write c⟩
  · rw [if_neg (by omega), max_eq_left hgt.le, written, if_neg (by omega)]
    exact ⟨hgen, by simpa [ofGen, hgt.ne, distinct] using hholds⟩

/-- A node without an entry is taken in as if it had an empty one. -/
theorem current_view : current (entry l name) c = current (some (view l name)) c := by
  unfold view
  cases entry l name with
  | some lb => rfl
  | none =>
    unfold current
    dsimp only [Option.getD_none]
    split
    · rfl
    · rw [show c.gen.toNat = 0 by omega]

theorem entry_put (l : Fold) (n name : String) (h : Held) :
    entry (put l n h) name = if name = n then some h.log else entry l name := by
  rw [entry, put, Assoc.lookup_put]
  split <;> rfl

theorem view_chunk (hl : Bounded l) (hroom : room l name = true) :
    view (onLogChunk order l name c now) name = written (current (some (view l name)) c) c := by
  rw [← current_view]
  by_cases hgen : c.gen.toNat = (current (entry l name) c).gen
  · rw [onLogChunk_put hl (by simpa [room] using hroom) hgen, view, entry_put, if_pos rfl,
      Option.getD_some]
  · rw [onLogChunk_older hgen, written, if_neg hgen, current_view]
    rw [current_view] at hgen
    unfold current at hgen ⊢
    dsimp only at hgen ⊢
    split
    · rename_i hlt
      exact absurd rfl (by rwa [if_pos hlt] at hgen)
    · rfl

theorem entry_other {n : String} (horder : ∀ l, (order l).Perm l) (hl : Bounded l)
    (hn : n ≠ name) : entry (onLogChunk order l n c now) name = entry l name := by
  by_cases hroom : (entry l n).isSome = true ∨ l.length < maxLogNodes
  · by_cases hgen : c.gen.toNat = (current (entry l n) c).gen
    · rw [onLogChunk_put hl hroom hgen, entry_put, if_neg hn.symm]
    · rw [onLogChunk_older hgen]
  · obtain ⟨hnew, hfull⟩ := not_or.mp hroom
    rw [onLogChunk_beyond horder hl (by simpa using hnew) (by have := hl.le; omega)]

/-- **The fold shows the chunks of a node** that have come in while the node's log stays. -/
theorem view_shows (horder : ∀ l, (order l).Perm l) (es : List Event) :
    ∀ {l l' : Fold} (cs : List LogChunk), Bounded l → Shows (view l name) cs →
      Run.runIf (step order) (stays name) l es = some l' →
      Shows (view l' name) (cs ++ chunksOf name es) := by
  induction es with
  | nil =>
    intro l l' cs _ hcs h
    obtain rfl := Option.some.inj h
    simpa [chunksOf] using hcs
  | cons e es ih =>
    intro l l' cs hl hcs h
    rw [Run.runIf] at h
    split at h
    · rename_i hstays
      cases e with
      | chunk n c now =>
        have hrest := fun ds hds => ih ds (hl.onLogChunk horder) hds h
        by_cases hn : n = name
        · subst hn
          have hroom : room l n = true := by simpa [stays] using hstays
          have := hrest (cs ++ [c]) (by rw [view_chunk hl hroom]; exact hcs.arrive c)
          simpa [chunksOf] using this
        · have := hrest cs (by rw [view, entry_other horder hl hn]; exact hcs)
          simpa [chunksOf, hn] using this
      | drop n =>
        have hn : n ≠ name := by simpa [stays] using hstays
        refine ih cs (hl.filter _) ?_ h
        rw [view, entry, Assoc.lookup_filter l (fun k => decide (k ≠ n)),
          if_pos (by simpa using hn.symm)]
        exact hcs
    · cases h

/-- The loop prints what comes in for the newest generation, once for each delivery. -/
theorem follow_prints (g : Nat) (cs : List LogChunk) :
    ∀ gen, gen ≤ g → (∀ c ∈ cs, c.gen.toNat ≤ g) →
      (follow gen cs).flatMap (fun p => if p.1 = g then p.2 else []) = datas (ofGen g cs) := by
  induction cs with
  | nil => intro gen _ _; rfl
  | cons c cs ih =>
    intro gen hgen hcs
    have hrest : ∀ c ∈ cs, c.gen.toNat ≤ g := fun c hc => hcs c (List.mem_cons_of_mem _ hc)
    have hc := hcs c List.mem_cons_self
    rw [follow, ofGen, List.filter_cons]
    split
    · rw [if_neg (by simp only [decide_eq_true_iff]; omega)]
      exact ih gen hgen hrest
    · rw [List.flatMap_cons, ih _ hc hrest]
      by_cases heq : c.gen.toNat = g <;> simp [heq, datas, ofGen]

/--
**A follower prints the newest attempt's chunks once each, unless one is delivered again
while it follows.**  The stored view has dropped repeats; the live chunks are passed on as
they come, and the client compares generations only.  The events before the request are
those of all nodes; the node's own chunks must find room in the fold, and its log must not
be dropped.
-/
theorem follow_exactly_once (horder : ∀ l, (order l).Perm l) (es : List Event)
    (live : List LogChunk) (hrun : Run.runIf (step order) (stays name) [] es = some l)
    (hgap : (view l name).buf.gap = 0) :
    let seen := chunksOf name es
    let g := newest (seen ++ live)
    printed g (view l name) live = datas (distinct [] (ofGen g (seen ++ live))) ↔
      silent (distinct [] (ofGen g seen)) (ofGen g live) = true := by
  intro seen g
  have hnew : Shows (view [] name) [] := ⟨rfl, Captured.new⟩
  obtain ⟨hgen, hholds⟩ : Shows (view l name) seen :=
    view_shows horder es [] ⟨by simp, by simp, by simp⟩ hnew hrun
  have hlive : (follow (view l name).gen live).flatMap (fun p => if p.1 = g then p.2 else []) =
      datas (ofGen g live) :=
    follow_prints g live _ (hgen ▸ newest_le_append seen live)
      fun c hc => le_newest (List.mem_append_right _ hc)
  rw [printed, List.flatMap_cons, hlive, ofGen_append, distinct_append, ← datas_distinct_iff]
  -- The stored bytes count when the request already found the newest attempt.
  rcases (newest_le_append seen live).lt_or_eq with hlt | heq
  · have hnil : ofGen g seen = [] := ofGen_eq_nil hlt
    rw [if_neg (by rw [hgen]; exact hlt.ne), hnil]
    rfl
  · have hg : newest seen = g := heq
    rw [hg] at hgen hholds
    rw [if_pos hgen, hholds.whole hgap]

/-- A node's first attempt and its second, another node's output, and a request. -/
def retried : List Event :=
  [.chunk "build-x" ⟨1, "stdout", 0, [97]⟩ 1, .chunk "build-y" ⟨1, "stdout", 0, [120]⟩ 2,
   .chunk "build-x" ⟨2, "stdout", 0, [98]⟩ 3, .drop "build-y"]

theorem follow_once_retried : ∃ l, Run.runIf (step id) (stays "build-x") [] retried = some l ∧
    printed 2 (view l "build-x") [⟨2, "stdout", 1, [99]⟩] = [98, 99] := by
  refine ⟨_, rfl, ?_⟩
  exact (follow_exactly_once (fun _ => .refl _) retried [⟨2, "stdout", 1, [99]⟩] rfl
    (by decide)).mpr (by decide)

/-- A chunk that is stored and then delivered again is printed twice. -/
theorem follow_repeats :
    let c : LogChunk := ⟨1, "stdout", 0, [97]⟩
    let l := onLogChunk id [] "build-x" c 1
    (view l "build-x").buf.gap = 0 ∧ newest ([c] ++ [c]) = 1 ∧
      printed 1 (view l "build-x") [c] = [97, 97] ∧
      datas (distinct [] (ofGen 1 ([c] ++ [c]))) = [97] := by
  decide

/-! ### Trimming -/

/-- A start and an end of the output, and the number of bytes between them. -/
structure Accounts (whole head : Bytes) (gap : Nat) (tail : Bytes) : Prop where
  starts : head <+: whole
  ends : tail <:+ whole
  total : head.length + gap + tail.length = whole.length

variable {whole head tail : Bytes} {gap : Nat}

/-- Cutting the head at its end and the tail at its start. -/
theorem Accounts.trim (h : Accounts whole head gap tail) (n m : Nat) :
    Accounts whole (head.take n) (gap + min m tail.length + (head.length - n)) (tail.drop m) where
  starts := (List.take_prefix n head).trans h.starts
  ends := (List.drop_suffix m tail).trans h.ends
  total := by
    have := h.total
    rw [List.length_take, List.length_drop]
    omega

theorem Accounts.trimAttempt {rec : FailureRecord} (h : Accounts whole rec.logHead gap rec.logTail)
    (hgap : rec.logGap = Int64.ofNat gap) (budget : Int64) :
    let a := JobsIroh.trimAttempt rec budget
    (∃ gap, a.logGap = Int64.ofNat gap ∧ Accounts whole a.logHead gap a.logTail) ∧
      (0 < budget → a.logHead.length + a.logTail.length ≤ budget.toInt) := by
  unfold JobsIroh.trimAttempt
  have hpos : 0 < budget → 0 < budget.toInt := Int64.lt_iff_toInt_lt.mp
  dsimp only
  split
  · rename_i hfits
    refine ⟨⟨gap, hgap, h⟩, fun hb => ?_⟩
    have := hpos hb
    have := hfits.resolve_left (Int64.not_le.mpr hb)
    dsimp only
    omega
  · have htrim := h.trim
      (budget.toInt.toNat - (rec.logTail.drop (rec.logTail.length - budget.toInt.toNat)).length)
      (rec.logTail.length - budget.toInt.toNat)
    refine ⟨⟨_, ?_, htrim⟩, fun hb => ?_⟩
    · dsimp only
      rw [hgap, ← Int64.ofNat_add, ← Int64.ofNat_add, List.length_take]
      congr 1
      omega
    · have := hpos hb
      simp only [List.length_take, List.length_drop]
      omega

theorem Captured.accounts {b : LogBuffer headCap tailCap} {cs : List LogChunk} (h : Captured b cs) :
    Accounts (datas cs) b.head b.gap b.tail := by
  refine ⟨h.head ▸ List.take_prefix _ _, h.tail ▸ List.drop_suffix _ _, ?_⟩
  have := h.gap
  rw [h.head, h.tail, List.length_take, List.length_drop]
  omega

/-- The buffer after the chunks have been written to it. -/
def capture (headCap tailCap : Nat) (cs : List LogChunk) : LogBuffer headCap tailCap :=
  cs.foldl (fun b c => b.write c.stream c.seq c.data) (newLogBuffer headCap tailCap)

theorem capture_captured (cs : List LogChunk) :
    Captured (capture headCap tailCap cs) (distinct [] cs) := by
  induction cs using List.reverseRecOn with
  | nil => exact Captured.new
  | append_singleton cs c ih =>
    rw [capture, List.foldl_append, distinct_append]
    exact ih.write c

/-- **Captured output is accounted for.**  Whatever chunks are written, and however often, a
buffer holds as much of the start of the output as fits its head and as much of the end of the
rest as fits its tail.  What the failure record and the report of an attempt keep of it is a
start and an end of the output, within their bounds, with the number of bytes left out. -/
theorem capture_accounts (headCap tailCap : Nat) (cs : List LogChunk) :
    let b := capture headCap tailCap cs
    let whole := datas (distinct [] cs)
    let rest := whole.drop headCap
    b.head = whole.take headCap ∧ b.tail = rest.drop (rest.length - tailCap) ∧
    Accounts whole b.head b.gap b.tail ∧
    ∀ headMax tailMax, let (head, gap, tail) := trimLogSnapshot b headMax tailMax
      Accounts whole head gap tail ∧ head.length ≤ headMax ∧ tail.length ≤ tailMax ∧
      ∀ (rec : FailureRecord) (budget : Int64),
        let a := trimAttempt { rec with
          logHead := head, logGap := Int64.ofNat gap, logTail := tail } budget
        (∃ gap, a.logGap = Int64.ofNat gap ∧ Accounts whole a.logHead gap a.logTail) ∧
          (0 < budget → a.logHead.length + a.logTail.length ≤ budget.toInt) := by
  intro b whole rest
  have h : Captured b (distinct [] cs) := capture_captured cs
  refine ⟨h.head, ?_, h.accounts, fun headMax tailMax => ?_⟩
  · rw [h.tail, h.gap, List.drop_drop, List.length_drop]
  · have htrim : Accounts whole (b.head.take headMax) (b.gap + (b.head.length - headMax) +
        (b.tail.length - tailMax)) (b.tail.drop (b.tail.length - tailMax)) := by
      convert h.accounts.trim headMax (b.tail.length - tailMax) using 1
      omega
    refine ⟨htrim, List.length_take_le _ _, ?_, fun rec budget => htrim.trimAttempt rfl budget⟩
    rw [List.length_drop]
    omega

end JobsIroh.Logs
