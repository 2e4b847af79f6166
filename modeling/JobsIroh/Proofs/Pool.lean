/-
The accounting of the shard pool, over every interleaving of its critical sections.

A connection that was dialed is in the pool, or is due to be closed, or has been closed,
and it is that once (`Accounted.once`): every operation that takes an entry out of the pool
passes it on to one of the other two lists.  The number of dials an acquire starts is
bounded by what is left under the maximum, and a dial that settles turns into an entry at
most.
-/
import JobsIroh.Amberclient.Pool
import Mathlib.Data.List.Perm.Basic
import Mathlib.Data.List.Nodup

namespace JobsIroh.Amberclient

variable {ι : Type} {cfg : Config} {p : Pool ι}

/-- How many acquisitions that were not released have picked a connection. -/
def Pool.pickers (p : Pool ι) (c : Nat) : Nat := p.holding.countP fun a => c ∈ a.picked

structure Accounted (cfg : Config) (p : Pool ι) : Prop where
  room : (p.entries.length : Int) + p.dialing ≤ cfg.max
  flights : p.dialing = p.flights.length
  active : p.active = p.waiting.length + p.holding.length
  streams : ∀ c, (p.entry c).streams = p.pickers c
  /-- A drained pool stays empty. -/
  drained : p.closed = true → p.entries = []
  /-- Each connection that was dialed is pooled, due to be closed, or closed. -/
  once : (p.entries ++ (p.closing ++ p.closes)).Perm (List.range p.dialed)
  picked : ∀ a ∈ p.holding, a.picked.Nodup ∧ ∀ c ∈ a.picked, c < p.dialed

theorem accounted_new : Accounted cfg (newPool : Pool ι) where
  room := by simp [newPool]
  flights := by simp [newPool]
  active := by simp [newPool]
  streams := by simp [newPool, Pool.pickers]
  drained := by simp [newPool]
  once := by simp [newPool]
  picked := by simp [newPool]

theorem Accounted.entries_nodup (ha : Accounted cfg p) : p.entries.Nodup :=
  (ha.once.nodup_iff.mpr List.nodup_range).of_append_left

/-! ### Passing entries on -/

theorem filter_split (q : Nat → Bool) (l : List Nat) :
    ((l.filter fun c => !q c) ++ l.filter q).Perm l :=
  List.perm_append_comm.trans (List.filter_append_perm q l)

/-- What is taken out of the pool is closed, or is due to be. -/
theorem Accounted.leave (ha : Accounted cfg p) {keep gone closing closes : List Nat}
    (hkeep : (keep ++ gone).Perm p.entries)
    (hgone : (closing ++ closes).Perm (gone ++ (p.closing ++ p.closes))) :
    Accounted cfg { p with entries := keep, closing, closes } := by
  refine { ha with room := ?_, drained := ?_, once := ?_ }
  · have hlen := hkeep.length_eq
    have hroom := ha.room
    rw [List.length_append] at hlen
    dsimp only
    omega
  · intro hclosed
    rw [ha.drained hclosed] at hkeep
    exact (List.append_eq_nil_iff.mp hkeep.eq_nil).1
  · have hall := hkeep.append_right (p.closing ++ p.closes)
    rw [List.append_assoc] at hall
    exact ((hgone.append_left keep).trans hall).trans ha.once

theorem Accounted.leave_closed (ha : Accounted cfg p) {keep gone : List Nat}
    (hkeep : (keep ++ gone).Perm p.entries) :
    Accounted cfg { p with entries := keep, closes := p.closes ++ gone } := by
  refine ha.leave hkeep ?_
  rw [← List.append_assoc]
  exact List.perm_append_comm

/-! ### Acquiring -/

section Acquire

variable [DecidableEq ι]

theorem length_slots (eps : List (Option ι)) (n : Nat) : (slots p eps n).length = n := by
  unfold slots
  split <;> simp

theorem Accounted.evict (ha : Accounted cfg p) (view : View) (eps : List (Option ι)) :
    Accounted cfg (evict p view eps) :=
  ha.leave_closed (filter_split (stale p view eps) p.entries)

theorem Accounted.grow (ha : Accounted cfg p) (active : Int) (k : Nat)
    (eps : List (Option ι)) : Accounted cfg (grow cfg p active k eps) where
  room := by
    have hroom := ha.room
    simp only [Amberclient.grow, length_slots, need]
    omega
  flights := by
    have hflights := ha.flights
    simp only [Amberclient.grow, List.length_append]
    omega
  active := ha.active
  streams := ha.streams
  drained := ha.drained
  once := ha.once
  picked := ha.picked

theorem Accounted.reserve (ha : Accounted cfg p) (view : View) (k : Nat) (directOnly : Bool)
    (eps : List (Option ι)) : Accounted cfg (reserve cfg p view k directOnly eps) := by
  have hg := (ha.evict view eps).grow (p.active + 1) k eps
  refine { hg with active := ?_ }
  have hactive := ha.active
  show p.active + 1 = ((p.waiting.length + 1 : Nat) : Int) + p.holding.length
  omega

end Acquire

/-- What an acquire picks. -/
abbrev chosen (p : Pool ι) (view : View) (w : Waiting) : List Nat :=
  ((p.entries.mergeSort (lighter p)).filter (usable view w.directOnly)).take w.k

theorem Accounted.chosen (ha : Accounted cfg p) (view : View) (w : Waiting) :
    (chosen p view w).Nodup ∧ ∀ c ∈ chosen p view w, c ∈ p.entries := by
  have hperm : (p.entries.mergeSort (lighter p)).Perm p.entries := List.mergeSort_perm _ _
  have hsub : (Amberclient.chosen p view w).Sublist (p.entries.mergeSort (lighter p)) :=
    (List.take_sublist _ _).trans List.filter_sublist
  exact ⟨(hperm.nodup_iff.mpr ha.entries_nodup).sublist hsub,
    fun c hc => hperm.mem_iff.mp (hsub.subset hc)⟩

/-- A drained pool gives out nothing that is not in it. -/
theorem Accounted.pick (ha : Accounted cfg p) (view : View) {w : Waiting} (hw : w ∈ p.waiting) :
    Accounted cfg (pick p view w) := by
  have hperm : (p.entries.mergeSort (lighter p)).Perm p.entries := List.mergeSort_perm _ _
  obtain ⟨hnodup, hin⟩ := ha.chosen view w
  exact {
    room := by
      show ((p.entries.mergeSort (lighter p)).length : Int) + p.dialing ≤ cfg.max
      rw [hperm.length_eq]
      exact ha.room
    flights := ha.flights
    active := by
      have hlen := List.length_erase_of_mem hw
      have hpos := List.length_pos_of_mem hw
      have hactive := ha.active
      show p.active = ((p.waiting.erase w).length : Int) + ((p.holding.length + 1 : Nat) : Int)
      omega
    streams := by
      intro c
      have hc := ha.streams c
      show (p.entry c).streams + ((Amberclient.chosen p view w).count c : Int) = _
      rw [hc, Pool.pickers, Pool.pickers]
      show _ = ((List.countP _ (_ :: p.holding) : Nat) : Int)
      rw [List.countP_cons]
      by_cases hmem : c ∈ Amberclient.chosen p view w
      · rw [List.count_eq_one_of_mem hnodup hmem, if_pos (by simpa using hmem)]
        rfl
      · rw [List.count_eq_zero_of_not_mem hmem, if_neg (by simpa using hmem)]
        rfl
    drained := by
      intro hclosed
      show p.entries.mergeSort (lighter p) = []
      rw [ha.drained hclosed, List.mergeSort_nil]
    once := (hperm.append_right _).trans ha.once
    picked := by
      intro a hmem
      rcases List.mem_cons.mp hmem with rfl | hold
      · refine ⟨hnodup, fun c hc => List.mem_range.mp ?_⟩
        exact ha.once.mem_iff.mp (List.mem_append_left _ (hin c hc))
      · exact ha.picked a hold }

theorem Accounted.releaseOne (ha : Accounted cfg p) {a : Acquired} (h : a ∈ p.holding)
    (now : Nat) : Accounted cfg (releaseOne p a now) where
  room := ha.room
  flights := ha.flights
  active := by
    have hlen := List.length_erase_of_mem h
    have hpos := List.length_pos_of_mem h
    have hactive := ha.active
    show p.active - 1 = (p.waiting.length : Int) + ((p.holding.erase a).length : Int)
    omega
  streams := by
    intro c
    have hc := ha.streams c
    have hnodup := (ha.picked a h).1
    have hcount : p.pickers c
        = (p.holding.erase a).countP (fun a => c ∈ a.picked) + if c ∈ a.picked then 1 else 0 := by
      rw [Pool.pickers, (List.perm_cons_erase h).countP_eq, List.countP_cons]
      simp
    show (p.entry c).streams - (a.picked.count c : Int)
      = ((p.holding.erase a).countP (fun a => c ∈ a.picked) : Nat)
    rw [hc, hcount]
    by_cases hmem : c ∈ a.picked
    · rw [List.count_eq_one_of_mem hnodup hmem, if_pos hmem]
      push_cast
      omega
    · rw [List.count_eq_zero_of_not_mem hmem, if_neg hmem]
      push_cast
      omega
  drained := ha.drained
  once := ha.once
  picked := fun b hb => ha.picked b (List.mem_of_mem_erase hb)

/-! ### Shrinking, and dials that settle -/

section Shrink

variable [DecidableEq ι]

theorem firstPass_perm (cs : List Nat) : ∀ (seen : List (Option ι)) (n : Nat),
    ((firstPass cfg p seen n cs).1 ++ (firstPass cfg p seen n cs).2).Perm cs := by
  induction cs with
  | nil => intro seen n; simp [firstPass]
  | cons c cs ih =>
    intro seen n
    rw [firstPass]
    split
    · exact (ih _ _).cons c
    · exact List.perm_middle.trans ((ih _ _).cons c)

/-- What is kept, and what of the pool is not kept. -/
theorem keep_split {keep rest cs : List Nat} (hperm : (keep ++ rest).Perm cs) (hcs : cs.Nodup)
    (m : Nat) :
    ((keep ++ rest.take m) ++ cs.filter fun c => c ∉ keep ++ rest.take m).Perm cs := by
  have hsub : (keep ++ rest.take m).Sublist (keep ++ rest) :=
    (List.take_sublist m rest).append_left keep
  have hnodup : (keep ++ rest.take m).Nodup := (hperm.nodup_iff.mpr hcs).sublist hsub
  have hkept : (keep ++ rest.take m).Perm (cs.filter fun c => c ∈ keep ++ rest.take m) := by
    refine (List.perm_ext_iff_of_nodup hnodup (hcs.filter _)).mpr fun c => ?_
    rw [List.mem_filter, decide_eq_true_iff]
    exact ⟨fun hc => ⟨hperm.mem_iff.mp (hsub.subset hc), hc⟩, fun hc => hc.2⟩
  refine (hkept.append_right _).trans ?_
  have hsplit := List.filter_append_perm (fun c => decide (c ∈ keep ++ rest.take m)) cs
  simpa using hsplit

theorem scaleDown_leaves (hn : p.entries.Nodup) (view : View) :
    scaleDown cfg p view = p ∨ ∃ keep gone, (keep ++ gone).Perm p.entries ∧
      scaleDown cfg p view = { p with entries := keep, closes := p.closes ++ gone } := by
  unfold scaleDown
  split
  · exact Or.inl rfl
  have hsorted : (p.entries.mergeSort (fresher p view)).Perm p.entries := List.mergeSort_perm _ _
  have hparts : ((firstPass cfg p [] 0 (p.entries.mergeSort (fresher p view))).1 ++ _).Perm _ :=
    firstPass_perm (p.entries.mergeSort (fresher p view)) [] 0
  have hsplit := keep_split hparts (hsorted.nodup_iff.mpr hn)
    (cfg.baseline - (firstPass cfg p [] 0 (p.entries.mergeSort (fresher p view))).1.length)
  exact Or.inr ⟨_, _, hsplit.trans hsorted, rfl⟩

end Shrink

section

variable (ha : Accounted cfg p)
include ha

theorem Accounted.settleDial {slot : Nat} (h : slot ∈ p.flights)
    (result : Option (Option ι)) (now : Nat) :
    Accounted cfg (settleDial p slot result now) := by
  have hlen := List.length_erase_of_mem h
  have hpos := List.length_pos_of_mem h
  have hroom := ha.room
  have hflights := ha.flights
  have hdone : p.dialing - 1 = ((p.flights.erase slot).length : Int) := by omega
  unfold Amberclient.settleDial
  cases result with
  | none =>
    refine { ha with room := ?_, flights := hdone }
    dsimp only
    omega
  | some =>
    dsimp only
    have hknown : ∀ a ∈ p.holding, a.picked.Nodup ∧ ∀ c ∈ a.picked, c < p.dialed + 1 :=
      fun a hmem => ⟨(ha.picked a hmem).1,
        fun c hc => Nat.lt_succ_of_lt ((ha.picked a hmem).2 c hc)⟩
    have hnew : ∀ {x : List Nat}, x.Perm (p.dialed :: (p.entries ++ (p.closing ++ p.closes))) →
        x.Perm (List.range (p.dialed + 1)) := by
      intro x hx
      rw [List.range_succ]
      exact hx.trans ((ha.once.cons p.dialed).trans (List.perm_append_singleton _ _).symm)
    cases hclosed : p.closed with
    | true =>
      rw [if_pos rfl]
      refine { ha with room := ?_, flights := hdone, once := ?_, picked := hknown,
                       drained := fun _ => ha.drained hclosed }
      · dsimp only
        omega
      · refine hnew (List.perm_iff_count.mpr fun c => ?_)
        simp only [List.count_append, List.count_cons, List.count_nil]
        omega
    | false =>
      rw [if_neg (by simp)]
      refine { ha with room := ?_, flights := hdone, once := ?_, picked := hknown,
                       drained := ?_, streams := ?_ }
      · simp only [List.length_append, List.length_singleton]
        omega
      · intro c
        -- Nobody has picked the new connection yet.
        by_cases hc : c = p.dialed
        · subst hc
          have hzero : p.pickers p.dialed = 0 := by
            refine List.countP_eq_zero.mpr fun a hmem => ?_
            simp only [decide_eq_true_eq]
            intro hpick
            exact absurd ((ha.picked a hmem).2 _ hpick) (Nat.lt_irrefl _)
          show (Function.update p.entry p.dialed _ p.dialed).streams = (p.pickers p.dialed : Int)
          rw [Function.update_self, hzero]
          rfl
        · show (Function.update p.entry p.dialed _ c).streams = (p.pickers c : Int)
          rw [Function.update_of_ne hc]
          exact ha.streams c
      · intro htrue
        simp at htrue
      · refine hnew (List.perm_iff_count.mpr fun c => ?_)
        simp only [List.count_append, List.count_cons, List.count_nil]
        omega

theorem Accounted.discard (es : List Nat) :
    Accounted cfg (discard p es) := by
  have hsplit := filter_split (fun c => decide (c ∈ es)) p.entries
  simp only [← decide_not] at hsplit
  refine ha.leave hsplit ?_
  rw [← List.append_assoc]
  exact List.perm_append_comm.append_right p.closes

theorem Accounted.drain : Accounted cfg (drain p) := by
  have hl : Accounted cfg { p with entries := [], closes := p.closes ++ p.entries } :=
    ha.leave_closed (List.Perm.refl _)
  exact { hl with drained := fun _ => rfl }

theorem Accounted.close {c : Nat} (hc : c ∈ p.closing) :
    Accounted cfg { p with closing := p.closing.erase c, closes := p.closes ++ [c] } := by
  refine { ha with once := ?_ }
  have hperm : (p.closing.erase c ++ (p.closes ++ [c])).Perm (p.closing ++ p.closes) := by
    refine List.Perm.trans ?_ ((List.perm_cons_erase hc).symm.append_right p.closes)
    refine List.perm_iff_count.mpr fun x => ?_
    simp only [List.count_append, List.count_cons, List.count_nil]
    omega
  exact (hperm.append_left p.entries).trans ha.once

/-! ### Whole runs -/

theorem Accounted.count (c : Nat) :
    p.entries.count c + (p.closing.count c + p.closes.count c) = (List.range p.dialed).count c := by
  rw [← ha.once.count_eq, List.count_append, List.count_append]

end

variable [DecidableEq ι]

/-- What an event is about, and what becomes of the pool. -/
theorem step_eq {p' : Pool ι} {ev : Event ι} (h : step cfg p ev = some p') :
    match ev with
    | .acquire k directOnly eps view =>
      p' = if p.closed then p else reserve cfg p view k directOnly eps
    | .pick w _ view => w ∈ p.waiting ∧ p' = pick p view w
    | .release a now => a ∈ p.holding ∧ p' = releaseOne p a now
    | .settle slot result now => slot ∈ p.flights ∧ p' = settleDial p slot result now
    | .discard es => p' = discard p es
    | .close c =>
      c ∈ p.closing ∧ p' = { p with closing := p.closing.erase c, closes := p.closes ++ [c] }
    | .scaleDown view => p' = scaleDown cfg p view
    | .drain => p' = drain p := by
  cases ev with
  | acquire | discard | scaleDown | drain => exact (Option.some.inj h).symm
  | pick =>
    obtain ⟨hw, heq⟩ := Option.ite_none_right_eq_some.mp h
    exact ⟨hw.1, (Option.some.inj heq).symm⟩
  | release | settle | close =>
    obtain ⟨hmem, heq⟩ := Option.ite_none_right_eq_some.mp h
    exact ⟨hmem, (Option.some.inj heq).symm⟩

theorem step_accounted {p' : Pool ι} {ev : Event ι} (ha : Accounted cfg p)
    (h : step cfg p ev = some p') : Accounted cfg p' := by
  have heq := step_eq h
  cases ev with
  | acquire k directOnly eps view =>
    rw [heq]
    split
    · exact ha
    · exact ha.reserve view k directOnly eps
  | pick w expired view =>
    rw [heq.2]
    exact ha.pick view heq.1
  | release a now =>
    rw [heq.2]
    exact ha.releaseOne heq.1 now
  | settle slot result now =>
    rw [heq.2]
    exact ha.settleDial heq.1 result now
  | discard es =>
    rw [heq]
    exact ha.discard es
  | close =>
    rw [heq.2]
    exact ha.close heq.1
  | scaleDown view =>
    rw [heq]
    rcases scaleDown_leaves ha.entries_nodup view with hsame | ⟨_, _, hkeep, hleft⟩
    · rwa [hsame]
    · rw [hleft]
      exact ha.leave_closed hkeep
  | drain =>
    rw [heq]
    exact ha.drain

/-- What holds of a pool at every moment. -/
structure PoolBooks (cfg : Config) (p : Pool ι) : Prop where
  room : p.entries.length + p.flights.length ≤ cfg.max
  streams : ∀ c, (p.entry c).streams = p.pickers c ∧ 0 ≤ (p.entry c).streams
  active : p.active = p.waiting.length + p.holding.length
  atMostOnce : ∀ c, p.closes.count c ≤ 1
  /-- Once drained, with no dial left, every connection is closed, or is about to be by the
  call that took it out of the pool. -/
  drained : p.closed = true → p.flights = [] →
    ∀ c, c < p.dialed → p.closes.count c + p.closing.count c = 1
  settled : p.closed = true → p.flights = [] → p.closing = [] →
    ∀ c, c < p.dialed → p.closes.count c = 1

/-- **The accounting of the pool**, for every interleaving of its critical sections. -/
theorem pool_accounting (cfg : Config) {p : Pool ι}
    (h : Run.Steps (step cfg) Run.Always newPool p) : PoolBooks cfg p := by
  have ha : Accounted cfg p :=
    h.inv accounted_new fun p ev p' hp _ hstep => step_accounted hp hstep
  have hdrained : p.closed = true → ∀ c, c < p.dialed →
      p.closes.count c + p.closing.count c = 1 := by
    intro hclosed c hc
    have hcount := ha.count c
    rw [List.count_eq_one_of_mem List.nodup_range (List.mem_range.mpr hc), ha.drained hclosed,
      List.count_nil] at hcount
    omega
  exact {
    room := by
      have hroom := ha.room
      have hflights := ha.flights
      omega
    streams := by
      intro c
      have hc := ha.streams c
      omega
    active := ha.active
    atMostOnce := by
      intro c
      have hcount := ha.count c
      have hone := List.nodup_iff_count_le_one.mp (List.nodup_range (n := p.dialed)) c
      omega
    drained := fun hclosed _ => hdrained hclosed
    settled := by
      intro hclosed _ hclosing c hc
      have hone := hdrained hclosed c hc
      rwa [hclosing, List.count_nil] at hone }

/-- Two transfers, a dial that settles after the drain, and a discard. -/
def drainedRun : List (Event Nat) :=
  [.acquire 2 false [some 7] {}, .acquire 1 true [some 7] {}, .settle 0 (some (some 7)) 1,
    .pick { k := 1, directOnly := true, cold := true } false {}, .discard [0], .drain,
    .settle 0 (some (some 7)) 2, .close 1, .close 0]

theorem pool_accounting_drained :
    ∃ p : Pool Nat, p.closed = true ∧ p.dialed = 2 ∧ p.closes = [1, 0] ∧
      p.holding.length = 1 ∧ PoolBooks (newConfig 1 3) p := by
  have hrun : ∃ p ∈ Run.run (step (newConfig 1 3)) newPool drainedRun,
      p.closed = true ∧ p.dialed = 2 ∧ p.closes = [1, 0] ∧ p.holding.length = 1 := by
    decide +kernel
  obtain ⟨p, hp, hclosed, hdialed, hcloses, hholding⟩ := hrun
  exact ⟨p, hclosed, hdialed, hcloses, hholding,
    pool_accounting (newConfig 1 3) (Run.Steps.of_run _ hp)⟩

/-! ### The stream budget

A connection is rotated by an acquire that finds it idle after ninety uses.  An acquire that
finds it busy, or that has passed the check and not picked yet, uses it beyond that.
-/

/-- No acquire begins while a connection past the limit is in use, nor while more than ten
others have begun and not picked. -/
def rotates (p : Pool ι) : Event ι → Bool
  | .acquire _ _ _ _ => p.waiting.length ≤ 10 &&
    p.entries.all fun c => (p.entry c).uses < poolEntryMaxUses || (p.entry c).streams = 0
  | _ => true

/-- Every acquire that has begun may still use every connection. -/
structure Budget (p : Pool ι) : Prop where
  waiting : p.waiting.length ≤ 11
  left : ∀ c ∈ p.entries, (p.entry c).uses + p.waiting.length ≤ 100
  uses : ∀ c, (p.entry c).uses ≤ 100

omit [DecidableEq ι] in
theorem Budget.shrink {p' : Pool ι} (hb : Budget p) (hsub : ∀ c ∈ p'.entries, c ∈ p.entries)
    (hentry : ∀ c, (p'.entry c).uses = (p.entry c).uses) (hw : p'.waiting = p.waiting) :
    Budget p' := by
  refine ⟨hw ▸ hb.waiting, fun c hc => ?_, fun c => hentry c ▸ hb.uses c⟩
  rw [hentry, hw]
  exact hb.left c (hsub c hc)

theorem Budget.reserve (hb : Budget p) {view : View} {k : Nat} {directOnly : Bool}
    {eps : List (Option ι)} (hr : rotates p (.acquire k directOnly eps view) = true) :
    Budget (reserve cfg p view k directOnly eps) := by
  simp only [rotates, Bool.and_eq_true, Bool.or_eq_true, decide_eq_true_eq,
    List.all_eq_true] at hr
  obtain ⟨hwait, hidle⟩ := hr
  refine ⟨Nat.succ_le_succ hwait, fun c hc => ?_, hb.uses⟩
  obtain ⟨hc, hfresh⟩ := List.mem_filter.mp hc
  have hlt : (p.entry c).uses < poolEntryMaxUses := by
    by_contra hmax
    have hzero := (hidle c hc).resolve_left hmax
    simp [stale, hzero, Nat.le_of_not_lt hmax] at hfresh
  show (p.entry c).uses + (p.waiting.length + 1) ≤ 100
  unfold poolEntryMaxUses at hlt
  omega

omit [DecidableEq ι] in
theorem Budget.pick (hb : Budget p) (ha : Accounted cfg p) (view : View) {w : Waiting}
    (hw : w ∈ p.waiting) : Budget (pick p view w) := by
  obtain ⟨hnodup, hin⟩ := ha.chosen view w
  have hlen := List.length_erase_of_mem hw
  have hpos := List.length_pos_of_mem hw
  have hone := List.nodup_iff_count_le_one.mp hnodup
  refine ⟨?_, fun c hc => ?_, fun c => ?_⟩
  · show (p.waiting.erase w).length ≤ 11
    have := hb.waiting
    omega
  · have hleft := hb.left c ((List.mergeSort_perm p.entries _).mem_iff.mp hc)
    have := hone c
    show (p.entry c).uses + (chosen p view w).count c + (p.waiting.erase w).length ≤ 100
    omega
  · show (p.entry c).uses + (chosen p view w).count c ≤ 100
    by_cases hmem : c ∈ chosen p view w
    · have hleft := hb.left c (hin c hmem)
      have := hone c
      omega
    · rw [List.count_eq_zero_of_not_mem hmem]
      exact hb.uses c

theorem Budget.step {p' : Pool ι} {ev : Event ι} (hb : Budget p) (ha : Accounted cfg p)
    (hr : rotates p ev = true) (h : step cfg p ev = some p') : Budget p' := by
  have heq := step_eq h
  cases ev with
  | acquire =>
    rw [heq]
    split
    · exact hb
    · exact hb.reserve hr
  | pick w expired view =>
    rw [heq.2]
    exact hb.pick ha view heq.1
  | release =>
    rw [heq.2]
    exact hb.shrink (fun _ hc => hc) (fun _ => rfl) rfl
  | settle slot result now =>
    rw [heq.2]
    unfold settleDial
    dsimp only
    split
    · exact hb.shrink (fun _ hc => hc) (fun _ => rfl) rfl
    split
    · exact hb.shrink (fun _ hc => hc) (fun _ => rfl) rfl
    have hwait := hb.waiting
    refine ⟨hwait, fun c hc => ?_, fun c => ?_⟩
    · by_cases hnew : c = p.dialed
      · simp only [hnew, Function.update_self]
        omega
      · simp only [Function.update_of_ne hnew]
        exact hb.left c ((List.mem_append.mp hc).resolve_right (by simpa using hnew))
    · by_cases hnew : c = p.dialed
      · simp [hnew]
      · simp only [Function.update_of_ne hnew]
        exact hb.uses c
  | discard =>
    rw [heq]
    exact hb.shrink (fun _ hc => (List.mem_filter.mp hc).1) (fun _ => rfl) rfl
  | close =>
    rw [heq.2]
    exact hb.shrink (fun _ hc => hc) (fun _ => rfl) rfl
  | scaleDown view =>
    rw [heq]
    rcases scaleDown_leaves ha.entries_nodup view with hsame | ⟨_, _, hkeep, hleft⟩
    · rwa [hsame]
    · rw [hleft]
      exact hb.shrink (fun _ hc => hkeep.subset (List.mem_append_left _ hc)) (fun _ => rfl) rfl
  | drain =>
    rw [heq]
    exact hb.shrink (by simp [drain]) (fun _ => rfl) rfl

/-- **The stream budget**: no connection serves more than a hundred transfers, whatever the
schedule, as long as acquires find those past the limit idle. -/
theorem pool_stream_budget (cfg : Config) {p : Pool ι}
    (h : Run.Steps (step cfg) (fun p ev => rotates p ev = true) newPool p) (c : Nat) :
    (p.entry c).uses ≤ 100 := by
  have hall : Accounted cfg p ∧ Budget p := by
    refine h.inv (I := fun p => Accounted cfg p ∧ Budget p) ?_ ?_
    · exact ⟨accounted_new, by simp [newPool], by simp [newPool], by simp [newPool]⟩
    · intro p ev p' hp hr hstep
      exact ⟨step_accounted hp.1 hstep, hp.2.step hp.1 hr hstep⟩
  exact hall.2.uses c

/-- Transfers on one connection, each of them begun before the one before it ends. -/
def overlapping (n : Nat) : List (Event Nat) :=
  [.acquire 1 false [] {}, .settle 0 (some none) 0, .pick ⟨1, false, true⟩ false {}] ++
    (List.replicate n [.acquire 1 false [] {}, .pick ⟨1, false, false⟩ false {},
      .release ⟨[0], [], 0⟩ 0]).flatten

theorem pool_stream_budget_three : ∃ p : Pool Nat, p.holding.length = 1 ∧
    (p.entry 0).uses = 3 ∧ ∀ c, (p.entry c).uses ≤ 100 := by
  have hrun : ∃ p ∈ Run.runIf (step (newConfig 1 1)) rotates newPool (overlapping 2),
      p.holding.length = 1 ∧ (p.entry 0).uses = 3 := by
    decide +kernel
  obtain ⟨p, hp, hholding, huses⟩ := hrun
  exact ⟨p, hholding, huses, pool_stream_budget (newConfig 1 1) (Run.Steps.of_checked hp)⟩

/-- The connection is never idle when an acquire begins: it serves one transfer too many. -/
theorem pool_stream_exhausted : ∃ p : Pool Nat,
    Run.run (step (newConfig 1 1)) newPool (overlapping 100) = some p ∧
      (p.entry 0).uses = 101 := by
  decide +kernel

end JobsIroh.Amberclient
