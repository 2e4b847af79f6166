/-
Where an attached stream is.

Two counts hold in every run.  Each stream that has arrived was attached, was refused
or is being asked for, once; and each attached stream is in one buffer, in the hands of
one `gather`, returned by one, or closed by one `drop`.  What can go wrong is that a
buffer is never emptied: `attach` sends after it has released the lock, and by then the
`drop` of its channel may have come and gone.  When every send is in time, a buffer
that holds a stream is one that a `drop` will still go through.
-/
import JobsIroh.Amberiroh.Transfers
import JobsIroh.Lib.Assoc
import Mathlib.Data.List.Nodup
import Mathlib.Data.List.Perm.Basic

namespace JobsIroh

namespace Transfers

/-! ### Counting through an update -/

section

variable {α : Type} [DecidableEq α]

theorem count_flatten_eraseIdx {l : List (List α)} {i : Nat} {x : List α} (h : l[i]? = some x)
    (a : α) : (l.eraseIdx i).flatten.count a + x.count a = l.flatten.count a := by
  obtain ⟨hlt, rfl⟩ := List.getElem?_eq_some_iff.mp h
  have hperm := (List.getElem_cons_eraseIdx_perm hlt).flatten.count_eq a
  rw [List.flatten_cons, List.count_append] at hperm
  omega

theorem count_flatten_set {l : List (List α)} {i : Nat} {x : List α} (h : l[i]? = some x)
    (y : List α) (a : α) :
    (l.set i y).flatten.count a + x.count a = l.flatten.count a + y.count a := by
  have hlt := (List.getElem?_eq_some_iff.mp h).1
  have hperm := (List.set_perm_cons_eraseIdx hlt y).flatten.count_eq a
  have herase := count_flatten_eraseIdx h a
  rw [List.flatten_cons, List.count_append] at hperm
  omega

theorem count_cons_eq (x a : α) (l : List α) : (x :: l).count a = l.count a + [x].count a := by
  rw [List.count_cons, ← List.count_singleton]

end

variable {t t' : Transfers} {a : Label} {calls : List TransferCall} {i : Nat} {c : TransferCall}

/-- How often a stream is in what `f` tells of the calls. -/
def tally (f : TransferCall → List Nat) (calls : List TransferCall) (rw : Nat) : Nat :=
  (calls.map f).flatten.count rw

theorem tally_append (f : TransferCall → List Nat) (calls : List TransferCall) (c : TransferCall)
    (rw : Nat) : tally f (calls ++ [c]) rw = tally f calls rw + (f c).count rw := by
  simp [tally, List.count_append]

theorem tally_eraseIdx (h : calls[i]? = some c) (f : TransferCall → List Nat) (rw : Nat) :
    tally f (calls.eraseIdx i) rw + (f c).count rw = tally f calls rw := by
  have hc : (calls.map f)[i]? = some (f c) := by rw [List.getElem?_map, h]; rfl
  rw [tally, tally, ← count_flatten_eraseIdx hc rw]
  simp only [List.eraseIdx_eq_take_drop_succ, List.map_append, List.map_take, List.map_drop]

theorem tally_set (h : calls[i]? = some c) (f : TransferCall → List Nat) (d : TransferCall)
    (rw : Nat) : tally f (calls.set i d) rw + (f c).count rw =
      tally f calls rw + (f d).count rw := by
  have hc : (calls.map f)[i]? = some (f c) := by rw [List.getElem?_map, h]; rfl
  rw [tally, tally, ← count_flatten_set hc (f d) rw, List.map_set]

theorem chans_getElem? {ch : Nat} (h : ch < t.chans.length) : t.chans[ch]? = some (t.chan ch) := by
  simp [chan, List.getD_eq_getElem?_getD, h]

/-! ### Each stream is in one place -/

structure Placed (t : Transfers) : Prop where
  /-- The table is a map. -/
  tokens : (t.pending.map (·.1)).Nodup
  /-- Every channel somebody can name has been made. -/
  registered : ∀ p ∈ t.pending, p.2 < t.chans.length
  called : ∀ c ∈ t.calls, c.ch < t.chans.length
  /-- An attached stream is in one buffer or one call, or one call has disposed of it. -/
  attached : ∀ rw, t.attached.count rw = t.chans.flatten.count rw +
    tally TransferCall.taken t.calls rw + t.gathered.count rw + t.closed.count rw
  /-- A stream that has arrived has one answer, or is still waiting for it. -/
  once : ∀ rw, t.attached.count rw + t.refused.count rw + tally TransferCall.asking t.calls rw =
    if rw < t.streams then 1 else 0

section

variable (h : Placed t)
include h

/-- A call that starts on the channel of a token works on a channel that has been made. -/
theorem Placed.called_append {token : Bytes} (hl : t.pending.lookup token = some c.ch) :
    ∀ d ∈ t.calls ++ [c], d.ch < t.chans.length := by
  intro d hd
  rcases List.mem_append.mp hd with hd | hd
  · exact h.called d hd
  · rw [List.mem_singleton.mp hd]
    exact h.registered _ (Assoc.mem_of_lookup hl)

theorem Placed.called_eraseIdx : ∀ d ∈ t.calls.eraseIdx i, d.ch < t.chans.length :=
  fun d hd => h.called d (List.mem_of_mem_eraseIdx hd)

/-- A call starts that has no stream yet. -/
theorem Placed.start {token : Bytes} {pending : List (Bytes × Nat)}
    (hl : t.pending.lookup token = some c.ch) (hc : c.taken = [] ∧ c.asking = [])
    (hsub : pending.Sublist t.pending) :
    Placed { t with pending := pending, calls := t.calls ++ [c] } := by
  refine ⟨h.tokens.sublist (hsub.map _), fun p hp => h.registered p (hsub.subset hp),
    h.called_append hl, fun rw => ?_, fun rw => ?_⟩
  · rw [tally_append, hc.1]
    exact h.attached rw
  · rw [tally_append, hc.2]
    exact h.once rw

theorem Placed.step_create (token : Bytes) : Placed (t.create token) := by
  unfold create
  refine ⟨?_, fun p hp => ?_, fun c hc => ?_, fun rw => ?_, h.once⟩
  · rw [List.map_cons, List.nodup_cons]
    refine ⟨fun hmem => ?_, h.tokens.sublist (List.filter_sublist.map _)⟩
    obtain ⟨p, hp, heq⟩ := List.mem_map.mp hmem
    simp [heq] at hp
  · simp only [List.length_append, List.length_singleton]
    rcases List.mem_cons.mp hp with rfl | hp
    · exact Nat.lt_succ_self _
    · exact Nat.lt_succ_of_lt (h.registered p (List.mem_of_mem_filter hp))
  · simp only [List.length_append, List.length_singleton]
    exact Nat.lt_succ_of_lt (h.called c hc)
  · simpa using h.attached rw

theorem Placed.step_attach (token : Bytes) : Placed (t.attach token) := by
  have hone : ∀ rw, [t.streams].count rw + (if rw < t.streams then 1 else 0) =
      if rw < t.streams + 1 then 1 else 0 := by
    intro rw
    rw [List.count_singleton]
    simp only [beq_iff_eq]
    split <;> split <;> split <;> omega
  unfold attach
  cases hl : t.pending.lookup token with
  | none =>
    refine ⟨h.tokens, h.registered, h.called, h.attached, fun rw => ?_⟩
    have hold := h.once rw
    have hnew := hone rw
    rw [count_cons_eq]
    dsimp only
    omega
  | some =>
    refine ⟨h.tokens, h.registered, h.called_append hl, fun rw => ?_, fun rw => ?_⟩
    · rw [tally_append]
      exact h.attached rw
    · have hold := h.once rw
      have hnew := hone rw
      rw [tally_append]
      dsimp only [TransferCall.asking]
      omega

theorem Placed.step_send {rw ch : Nat} (hc : t.calls[i]? = some (.attaching rw ch)) :
    Placed (t.send i rw ch) := by
  have hch : ch < t.chans.length := h.called _ (List.mem_of_getElem? hc)
  have htaken := tally_eraseIdx hc TransferCall.taken
  have hasking := tally_eraseIdx hc TransferCall.asking
  simp only [TransferCall.taken, TransferCall.asking, List.count_nil, Nat.add_zero]
    at htaken hasking
  unfold send
  by_cases hroom : (t.chan ch).length < maxDataConns
  · simp only [hroom, if_true]
    refine ⟨h.tokens, ?_, ?_, fun r => ?_, fun r => ?_⟩
    · simpa using h.registered
    · simpa using h.called_eraseIdx
    · have hset := count_flatten_set (chans_getElem? hch) (t.chan ch ++ [rw]) r
      have hold := h.attached r
      have htk := htaken r
      rw [List.count_append] at hset
      rw [count_cons_eq]
      dsimp only
      omega
    · have hold := h.once r
      have hask := hasking r
      rw [count_cons_eq]
      dsimp only
      omega
  · simp only [hroom, if_false]
    refine ⟨h.tokens, h.registered, h.called_eraseIdx, fun r => ?_, fun r => ?_⟩
    · rw [htaken]
      exact h.attached r
    · have hold := h.once r
      have hask := hasking r
      rw [count_cons_eq]
      dsimp only
      omega

theorem Placed.step_gather (token : Bytes) (n : Nat) :
    Placed (t.gather token n) := by
  unfold gather
  cases hl : t.pending.lookup token with
  | none => exact h
  | some => exact h.start hl ⟨rfl, rfl⟩ (List.Sublist.refl _)

theorem Placed.step_recv {ch n : Nat} {out : List Nat}
    (hc : t.calls[i]? = some (.gathering ch n out)) (hs : t.recv i ch n out = some t') :
    Placed t' := by
  have hch : ch < t.chans.length := h.called _ (List.mem_of_getElem? hc)
  unfold recv at hs
  split at hs
  · split at hs
    · cases hs
    · rename_i rw rest hbuf
      obtain rfl := Option.some.inj hs
      have hset := count_flatten_set (chans_getElem? hch) rest
      have htaken := tally_set hc TransferCall.taken (.gathering ch n (out ++ [rw]))
      have hasking := tally_set hc TransferCall.asking (.gathering ch n (out ++ [rw]))
      simp only [TransferCall.taken, TransferCall.asking, List.count_nil, Nat.add_zero]
        at htaken hasking
      refine ⟨h.tokens, ?_, fun c hmem => ?_, fun r => ?_, fun r => ?_⟩
      · simpa using h.registered
      · rw [List.length_set]
        rcases List.mem_or_eq_of_mem_set hmem with hold | rfl
        · exact h.called c hold
        · exact hch
      · have hold := h.attached r
        have htk := htaken r
        have hbuffer := hset r
        rw [hbuf, count_cons_eq] at hbuffer
        rw [List.count_append] at htk
        dsimp only
        omega
      · rw [hasking]
        exact h.once r
  · cases hs

theorem Placed.step_gathered {ch n : Nat} {out : List Nat}
    (hc : t.calls[i]? = some (.gathering ch n out)) :
    Placed { t with calls := t.calls.eraseIdx i, gathered := out ++ t.gathered } := by
  have htaken := tally_eraseIdx hc TransferCall.taken
  have hasking := tally_eraseIdx hc TransferCall.asking
  simp only [TransferCall.taken, TransferCall.asking, List.count_nil, Nat.add_zero]
    at htaken hasking
  refine ⟨h.tokens, h.registered, h.called_eraseIdx, fun rw => ?_, fun rw => ?_⟩
  · have hold := h.attached rw
    have htk := htaken rw
    rw [List.count_append]
    dsimp only
    omega
  · rw [hasking]
    exact h.once rw

theorem Placed.step_drop (token : Bytes) : Placed (t.drop token) := by
  unfold drop
  cases hl : t.pending.lookup token with
  | none => exact h
  | some => exact h.start hl ⟨rfl, rfl⟩ List.filter_sublist

theorem Placed.step_drain {ch : Nat} (hc : t.calls[i]? = some (.dropping ch)) :
    Placed (t.drain i ch) := by
  have hch : ch < t.chans.length := h.called _ (List.mem_of_getElem? hc)
  unfold drain
  cases hbuf : t.chan ch with
  | nil =>
    refine ⟨h.tokens, h.registered, h.called_eraseIdx, fun rw => ?_, fun rw => ?_⟩
    · have htk := tally_eraseIdx hc TransferCall.taken rw
      have hold := h.attached rw
      simp only [TransferCall.taken, List.count_nil, Nat.add_zero] at htk
      dsimp only
      omega
    · have hask := tally_eraseIdx hc TransferCall.asking rw
      have hold := h.once rw
      simp only [TransferCall.asking, List.count_nil, Nat.add_zero] at hask
      dsimp only
      omega
  | cons rw rest =>
    refine ⟨h.tokens, ?_, ?_, fun r => ?_, h.once⟩
    · simpa using h.registered
    · simpa using h.called
    · have hset := count_flatten_set (chans_getElem? hch) rest r
      have hold := h.attached r
      rw [hbuf, count_cons_eq] at hset
      rw [count_cons_eq]
      dsimp only
      omega

theorem Placed.step (hs : t.step a = some t') : Placed t' := by
  cases a with
  | create token =>
    obtain rfl := Option.some.inj hs
    exact h.step_create token
  | attach token =>
    obtain rfl := Option.some.inj hs
    exact h.step_attach token
  | gather token n =>
    obtain rfl := Option.some.inj hs
    exact h.step_gather token n
  | drop token =>
    obtain rfl := Option.some.inj hs
    exact h.step_drop token
  | send =>
    simp only [Transfers.step] at hs
    split at hs
    · rename_i hc
      obtain rfl := Option.some.inj hs
      exact h.step_send hc
    · cases hs
  | recv =>
    simp only [Transfers.step] at hs
    split at hs
    · rename_i hc
      exact h.step_recv hc hs
    · cases hs
  | gathered =>
    simp only [Transfers.step] at hs
    split at hs
    · rename_i hc
      obtain rfl := Option.some.inj hs
      exact h.step_gathered hc
    · cases hs
  | drain =>
    simp only [Transfers.step] at hs
    split at hs
    · rename_i hc
      obtain rfl := Option.some.inj hs
      exact h.step_drain hc
    · cases hs

end

/-! ### Nothing is left in a buffer nobody will empty -/

/-- Every buffer that holds a stream is one a `drop` will go through. -/
def Kept (t : Transfers) : Prop := ∀ ch, t.chan ch ≠ [] → t.live ch = true

def InTime (t : Transfers) (a : Label) : Prop := t.inTime a = true

theorem chan_set {ch : Nat} (h : ch < t.chans.length) (x : List Nat) (ch' : Nat) :
    (t.chans.set ch x).getD ch' [] = if ch' = ch then x else t.chan ch' := by
  by_cases heq : ch' = ch
  · subst heq
    simp [List.getD_eq_getElem?_getD, h]
  · simp [chan, List.getD_eq_getElem?_getD, heq, List.getElem?_set_ne (Ne.symm heq)]

/-- Taking the first stream out of a buffer leaves no buffer with more than it had. -/
theorem chan_of_tail {ch ch' rw : Nat} {rest : List Nat} (h : ch < t.chans.length)
    (hbuf : t.chan ch = rw :: rest) (hne : (t.chans.set ch rest).getD ch' [] ≠ []) :
    t.chan ch' ≠ [] := by
  rw [chan_set h] at hne
  by_cases heq : ch' = ch
  · rw [heq, hbuf]
    simp
  · rwa [if_neg heq] at hne

theorem mem_set_of_ne {d e : TransferCall} (hc : calls[i]? = some c) (hd : d ∈ calls)
    (hne : d ≠ c) : d ∈ calls.set i e := by
  obtain ⟨j, hj⟩ := List.mem_iff_getElem?.mp hd
  refine List.mem_iff_getElem?.mpr ⟨j, ?_⟩
  rw [List.getElem?_set_ne, hj]
  intro hij
  rw [← hij, hc] at hj
  exact hne (Option.some.inj hj).symm

theorem live_iff {ch : Nat} :
    t.live ch = true ↔ (∃ token, (token, ch) ∈ t.pending) ∨ .dropping ch ∈ t.calls := by
  simp [live]

section

variable (h : Kept t)
include h

/-- A step after which nothing is in a buffer that was not there, and every `drop` and every
token is still there. -/
theorem Kept.mono (hchan : ∀ ch, t'.chan ch ≠ [] → t.chan ch ≠ [])
    (hpend : t'.pending = t.pending)
    (hdrop : ∀ ch, t'.chan ch ≠ [] → .dropping ch ∈ t.calls → .dropping ch ∈ t'.calls) :
    Kept t' := by
  intro ch hne
  rw [live_iff, hpend]
  exact (live_iff.mp (h ch (hchan ch hne))).imp_right (hdrop ch hne)

theorem Kept.step_create {token : Bytes} (hnew : t.pending.lookup token = none) :
    Kept (t.create token) := by
  intro ch hne
  have hold : t.chan ch ≠ [] := by
    intro hnil
    refine hne ?_
    show (((t.chans ++ [[]])[ch]?).getD [] : List Nat) = []
    rcases Nat.lt_trichotomy ch t.chans.length with hlt | heq | hgt
    · rw [List.getElem?_append_left hlt]
      exact hnil
    · subst heq
      simp
    · rw [List.getElem?_eq_none (by simp; omega)]
      rfl
  rcases live_iff.mp (h ch hold) with ⟨tok, htok⟩ | hdrop
  · refine live_iff.mpr (Or.inl ⟨tok, List.mem_cons_of_mem _ (List.mem_filter.mpr ⟨htok, ?_⟩)⟩)
    refine decide_eq_true fun heq => ?_
    rw [List.lookup_eq_none_iff] at hnew
    exact absurd (hnew _ htok) (by simp [← heq])
  · exact live_iff.mpr (Or.inr hdrop)

theorem Kept.step_drop (hp : Placed t) (token : Bytes) : Kept (t.drop token) := by
  unfold drop
  cases hl : t.pending.lookup token with
  | none => exact h
  | some ch =>
    intro ch' hne
    rcases live_iff.mp (h ch' hne) with ⟨tok, htok⟩ | hdrop
    · by_cases heq : tok = token
      · -- the token's channel moves from the table to the new call
        subst heq
        have hch : ch = ch' := by
          have := List.inj_on_of_nodup_map hp.tokens (Assoc.mem_of_lookup hl) htok rfl
          exact congrArg Prod.snd this
        rw [hch]
        exact live_iff.mpr (Or.inr (List.mem_append_right _ (List.mem_singleton_self _)))
      · exact live_iff.mpr (Or.inl ⟨tok, List.mem_filter.mpr ⟨htok, decide_eq_true heq⟩⟩)
    · exact live_iff.mpr (Or.inr (List.mem_append_left _ hdrop))

theorem Kept.step_send (hp : Placed t) {rw ch : Nat}
    (hc : t.calls[i]? = some (.attaching rw ch)) (hlive : t.live ch = true) :
    Kept (t.send i rw ch) := by
  have hch : ch < t.chans.length := hp.called _ (List.mem_of_getElem? hc)
  have hcalls : ∀ ch', .dropping ch' ∈ t.calls → .dropping ch' ∈ t.calls.eraseIdx i :=
    fun ch' hmem => Run.mem_eraseIdx_of_ne hc hmem (by simp)
  unfold send
  by_cases hroom : (t.chan ch).length < maxDataConns
  · simp only [hroom, if_true]
    intro ch' hne
    have hold : t.live ch' = true := by
      by_cases heq : ch' = ch
      · exact heq ▸ hlive
      · refine h ch' fun hnil => hne ?_
        show (t.chans.set ch _).getD ch' [] = []
        rw [chan_set hch, if_neg heq, hnil]
    exact live_iff.mpr ((live_iff.mp hold).imp_right (hcalls ch'))
  · simp only [hroom, if_false]
    exact h.mono (fun _ hne => hne) rfl (fun ch' _ hmem => hcalls ch' hmem)

theorem Kept.step_recv (hp : Placed t) {ch n : Nat} {out : List Nat}
    (hc : t.calls[i]? = some (.gathering ch n out)) (hs : t.recv i ch n out = some t') :
    Kept t' := by
  have hch : ch < t.chans.length := hp.called _ (List.mem_of_getElem? hc)
  unfold recv at hs
  split at hs
  · split at hs
    · cases hs
    · rename_i rw rest hbuf
      obtain rfl := Option.some.inj hs
      exact h.mono (fun ch' hne => chan_of_tail hch hbuf hne) rfl
        (fun ch' _ hmem => mem_set_of_ne hc hmem (by simp))
  · cases hs

theorem Kept.step_drain (hp : Placed t) {ch : Nat}
    (hc : t.calls[i]? = some (.dropping ch)) : Kept (t.drain i ch) := by
  have hch : ch < t.chans.length := hp.called _ (List.mem_of_getElem? hc)
  unfold drain
  cases hbuf : t.chan ch with
  | nil =>
    -- the call returns: its own channel is empty, and the other calls stay
    refine h.mono (fun _ hne => hne) rfl (fun ch' hne hmem => Run.mem_eraseIdx_of_ne hc hmem ?_)
    intro heq
    obtain rfl : ch' = ch := TransferCall.dropping.inj heq
    exact hne hbuf
  | cons rw rest =>
    exact h.mono (fun ch' hne => chan_of_tail hch hbuf hne) rfl (fun _ _ hmem => hmem)

theorem Kept.step (hp : Placed t) (hin : InTime t a) (hs : t.step a = some t') :
    Kept t' := by
  cases a with
  | create =>
    obtain rfl := Option.some.inj hs
    exact h.step_create (of_decide_eq_true hin)
  | attach token =>
    obtain rfl := Option.some.inj hs
    unfold attach
    cases t.pending.lookup token with
    | none => exact h
    | some =>
      exact h.mono (fun _ hne => hne) rfl (fun _ _ hmem => List.mem_append_left _ hmem)
  | gather token =>
    obtain rfl := Option.some.inj hs
    unfold gather
    cases t.pending.lookup token with
    | none => exact h
    | some =>
      exact h.mono (fun _ hne => hne) rfl (fun _ _ hmem => List.mem_append_left _ hmem)
  | drop token =>
    obtain rfl := Option.some.inj hs
    exact h.step_drop hp token
  | send =>
    simp only [Transfers.step] at hs
    split at hs
    · rename_i hc
      obtain rfl := Option.some.inj hs
      simp only [InTime, inTime, hc] at hin
      exact h.step_send hp hc hin
    · cases hs
  | recv =>
    simp only [Transfers.step] at hs
    split at hs
    · rename_i hc
      exact h.step_recv hp hc hs
    · cases hs
  | gathered =>
    simp only [Transfers.step] at hs
    split at hs
    · rename_i hc
      obtain rfl := Option.some.inj hs
      exact h.mono (fun _ hne => hne) rfl (fun _ _ hmem => Run.mem_eraseIdx_of_ne hc hmem (by simp))
    · cases hs
  | drain =>
    simp only [Transfers.step] at hs
    split at hs
    · rename_i hc
      obtain rfl := Option.some.inj hs
      exact h.step_drain hp hc
    · cases hs

end

theorem Placed.init : Placed {} :=
  ⟨List.nodup_nil, by simp, by simp, by simp [tally], by simp [tally]⟩

theorem Reached.kept (h : Reached InTime t) : Placed t ∧ Kept t := by
  refine Run.Steps.inv (I := fun t => Placed t ∧ Kept t) h ⟨Placed.init, ?_⟩ ?_
  · intro ch hne
    exact absurd rfl hne
  · intro t a t' hi hin hs
    exact ⟨hi.1.step hs, hi.2.step hi.1 hin hs⟩

/-! ### The result -/

/-- The stream is in a buffer a `drop` will go through, or in the hands of a `gather`. -/
def Held (t : Transfers) (rw : Nat) : Prop :=
  (∃ ch, rw ∈ t.chan ch ∧ t.live ch = true) ∨ ∃ c ∈ t.calls, rw ∈ c.taken

/-- No transfer is registered and no call is running. -/
def idle (t : Transfers) : Bool := t.pending.isEmpty && t.calls.isEmpty

theorem not_held_of_idle (h : t.idle = true) (rw : Nat) : ¬ Held t rw := by
  simp only [idle, Bool.and_eq_true, List.isEmpty_iff] at h
  rintro (⟨ch, -, hlive⟩ | ⟨c, hc, -⟩)
  · simp [live, h] at hlive
  · simp [h] at hc

/-- A stream in a buffer or in a call is held, when the buffers are kept. -/
theorem Kept.held_iff (h : Kept t) {rw : Nat} :
    rw ∈ t.chans.flatten ∨ rw ∈ (t.calls.map TransferCall.taken).flatten ↔ Held t rw := by
  refine or_congr ⟨fun hmem => ?_, fun ⟨ch, hmem, _⟩ => ?_⟩ ?_
  · obtain ⟨buf, hbuf, hrw⟩ := List.mem_flatten.mp hmem
    obtain ⟨ch, hch⟩ := List.mem_iff_getElem?.mp hbuf
    have hchan : t.chan ch = buf := by
      rw [chan, List.getD_eq_getElem?_getD, hch]
      rfl
    exact ⟨ch, hchan ▸ hrw, h ch (hchan ▸ List.ne_nil_of_mem hrw)⟩
  · rw [chan, List.getD_eq_getElem?_getD] at hmem
    cases hch : t.chans[ch]? with
    | none => simp [hch] at hmem
    | some buf =>
      rw [hch] at hmem
      exact List.mem_flatten.mpr ⟨buf, List.mem_of_getElem? hch, hmem⟩
  · simp only [List.mem_flatten, List.mem_map, exists_exists_and_eq_and]

/-- **Attached streams are never orphaned**, in every run in which each send is in time: a
stream that was attached has been returned by one `gather`, or closed by one `drop`, or is
where one of them will take it; a stream that was refused is nowhere in the registry. -/
theorem attached_streams_never_orphaned (h : Reached InTime t) :
    (∀ rw ∈ t.attached, rw ∈ t.gathered ∨ rw ∈ t.closed ∨ Held t rw) ∧
    (∀ rw ∈ t.attached, t.idle = true → Xor (rw ∈ t.gathered) (rw ∈ t.closed)) ∧
    ∀ rw ∈ t.refused, rw ∉ t.attached ∧ rw ∉ t.gathered ∧ rw ∉ t.closed ∧ ¬ Held t rw := by
  obtain ⟨hp, hk⟩ := Reached.kept h
  have hplace : ∀ rw ∈ t.attached, rw ∈ t.gathered ∨ rw ∈ t.closed ∨ Held t rw := by
    intro rw hmem
    have hcount := hp.attached rw
    have hpos := List.count_pos_iff.mpr hmem
    by_cases hg : rw ∈ t.gathered
    · exact Or.inl hg
    by_cases hc : rw ∈ t.closed
    · exact Or.inr (Or.inl hc)
    rw [List.count_eq_zero.mpr hg, List.count_eq_zero.mpr hc] at hcount
    refine Or.inr (Or.inr (hk.held_iff.mp ?_))
    by_contra hno
    rw [not_or] at hno
    rw [List.count_eq_zero.mpr hno.1, tally, List.count_eq_zero.mpr hno.2] at hcount
    omega
  refine ⟨hplace, fun rw hmem hidle => ?_, fun rw hmem => ?_⟩
  · have hone := hp.once rw
    have hcount := hp.attached rw
    have hle : t.attached.count rw ≤ 1 := by
      split at hone <;> omega
    rcases hplace rw hmem with hg | hc | hheld
    · refine Or.inl ⟨hg, fun hc => ?_⟩
      have := List.count_pos_iff.mpr hg
      have := List.count_pos_iff.mpr hc
      omega
    · refine Or.inr ⟨hc, fun hg => ?_⟩
      have := List.count_pos_iff.mpr hg
      have := List.count_pos_iff.mpr hc
      omega
    · exact absurd hheld (not_held_of_idle hidle rw)
  · have hone := hp.once rw
    have hcount := hp.attached rw
    have hpos := List.count_pos_iff.mpr hmem
    have hzero : t.attached.count rw = 0 := by
      split at hone <;> omega
    refine ⟨List.count_eq_zero.mp hzero, ?_, ?_, fun hheld => ?_⟩
    · exact List.count_eq_zero.mp (by omega)
    · exact List.count_eq_zero.mp (by omega)
    · rcases hk.held_iff.mpr hheld with hbuf | htaken
      · have := List.count_pos_iff.mpr hbuf
        omega
      · have : 0 < tally TransferCall.taken t.calls rw := List.count_pos_iff.mpr htaken
        omega

/-- Two streams attach, one is gathered before the deadline and one is closed by `drop`; a third
comes too late. -/
theorem attached_streams_never_orphaned_two : ∃ t : Transfers, Reached InTime t ∧
    t.idle = true ∧ t.attached = [1, 0] ∧ t.refused = [2] ∧
    (∀ rw ∈ t.attached, Xor (rw ∈ t.gathered) (rw ∈ t.closed)) ∧ t.gathered = [0] := by
  have hrun : ∃ t ∈ Run.runIf step inTime {} [.create [1], .attach [1], .gather [1] 2, .attach [1],
      .send 0, .recv 0, .gathered 0, .send 0, .drop [1], .drain 0, .drain 0, .attach [1]],
      t.idle = true ∧ t.attached = [1, 0] ∧ t.refused = [2] ∧ t.gathered = [0] := by
    decide +kernel
  obtain ⟨t, ht, hidle, hatt, href, hgat⟩ := hrun
  have hreach := Run.Steps.of_checked ht
  exact ⟨t, hreach, hidle, hatt, href,
    fun rw hmem => (attached_streams_never_orphaned hreach).2.1 rw hmem hidle, hgat⟩

/-- `attach` looks the channel up, the transfer is dropped, and `attach` sends and answers true:
nobody will take the stream or close it. -/
theorem attached_after_drop : ∃ t : Transfers, Reached Run.Always t ∧ t.idle = true ∧
    0 ∈ t.attached ∧ 0 ∉ t.gathered ∧ 0 ∉ t.closed := by
  have hrun : ∃ t ∈ Run.run step {} [.create [1], .attach [1], .drop [1], .drain 1, .send 0],
      t.idle = true ∧ 0 ∈ t.attached ∧ 0 ∉ t.gathered ∧ 0 ∉ t.closed := by
    decide +kernel
  obtain ⟨t, ht, hend⟩ := hrun
  exact ⟨t, Run.Steps.of_run _ ht, hend⟩

end Transfers

end JobsIroh
