/-
The runner's connection to the store (`runnerd/sync.go`).

All pulls and pushes of a runner share one connection.  An operation that fails without an
answer of the server forgets the connection, closes it and tries once more.  It does so for
every such error, also for one of its own that says nothing about the connection: a local
store error, a name that is not valid, a context that has ended.  The operations of other
jobs that use the connection at that time then fail with it.

The steps of a call are its accesses to what is shared: `client` under the lock, the
operation, `drop` under the lock, and `Close` after it.  `past` records how its attempts
have failed.
-/
import JobsIroh.Lib.Run
import Mathlib.Logic.Function.Basic

namespace JobsIroh.Runnerd.Sync

inductive Fate where
  | up
  /-- It failed by itself. -/
  | broken
  /-- A call closed it while it was up. -/
  | closed
  deriving DecidableEq

/-- How an attempt fails. -/
inductive Ending where
  /-- The server's answer. -/
  | verdict
  /-- A local error, or the context's. -/
  | own
  /-- There was no connection to be had. -/
  | dial
  | broken
  | closed
  deriving DecidableEq

inductive Pc where
  | asking
  | running (c : Nat)
  | dropping (c : Nat)
  | closing (c : Nat)
  | returned (err : Option Ending)
  deriving DecidableEq

structure Call where
  pc : Pc := .asking
  past : List Ending := []

/-- Calls and connections are numbered; a call that nobody has made yet is `asking`. -/
structure State where
  cur : Option Nat := none
  dialled : Nat := 0
  fate : Nat → Fate := fun _ => .up
  calls : Nat → Call := fun _ => {}

inductive Act where
  | client
  | dialFails
  | succeeds
  | refused
  /-- The operation fails for a reason of its own. -/
  | fails
  /-- The operation fails with its connection. -/
  | loses
  | drop
  /-- `Close`, and the end of the loop of `do`. -/
  | close (ctxEnded : Bool)

inductive Label where
  | act (i : Nat) (a : Act)
  | breaks (c : Nat)

def State.set (s : State) (i : Nat) (pc : Pc) (past : List Ending) : State :=
  { s with calls := Function.update s.calls i ⟨pc, past⟩ }

theorem set_calls (s : State) (i : Nat) (pc : Pc) (past : List Ending) (j : Nat) :
    (s.set i pc past).calls j = if j = i then ⟨pc, past⟩ else s.calls j :=
  Function.update_apply ..

def act (s : State) (i : Nat) (past : List Ending) : Pc → Act → Option State
  | .asking, .client =>
    match s.cur with
    | some c => some (s.set i (.running c) past)
    | none =>
      some { s.set i (.running s.dialled) past with
        cur := some s.dialled, dialled := s.dialled + 1,
        fate := Function.update s.fate s.dialled .up }
  | .asking, .dialFails =>
    if s.cur = none then some (s.set i (.returned (some .dial)) (.dial :: past)) else none
  | .running _, .succeeds => some (s.set i (.returned none) past)
  | .running _, .refused => some (s.set i (.returned (some .verdict)) (.verdict :: past))
  | .running c, .fails => some (s.set i (.dropping c) (.own :: past))
  | .running c, .loses =>
    match s.fate c with
    | .up => none
    | .broken => some (s.set i (.dropping c) (.broken :: past))
    | .closed => some (s.set i (.dropping c) (.closed :: past))
  | .dropping c, .drop =>
    some { s.set i (.closing c) past with cur := if s.cur = some c then none else s.cur }
  | .closing c, .close ctxEnded =>
    let pc := if 2 ≤ past.length ∨ ctxEnded = true then .returned past.head? else .asking
    some { s.set i pc past with
      fate := if s.fate c = .up then Function.update s.fate c .closed else s.fate }
  | _, _ => none

def step (s : State) : Label → Option State
  | .act i a => act s i (s.calls i).past (s.calls i).pc a
  | .breaks c =>
    if c < s.dialled ∧ s.fate c = .up then
      some { s with fate := Function.update s.fate c .broken }
    else none

/-! ### Isolation -/

/-- An error that is neither the server's nor the call's own comes from connections that
failed by themselves, in all its attempts. -/
def Isolated (k : Call) : Prop :=
  ∀ e, k.pc = .returned (some e) → e ≠ .verdict → e ≠ .own →
    ∀ x ∈ k.past, x = .broken ∨ x = .dial

/-- A call fails for a reason of its own only while it has the connection to itself, nobody
takes up a connection that is given up for such a reason, and a call does not meet such a
reason first and a failure of the connection then. -/
def Apart (s : State) : Label → Prop
  | .act i .fails => ∀ j, j ≠ i → ∀ c, (s.calls i).pc = .running c → (s.calls j).pc ≠ .running c
  | .act _ .client => ∀ j c, s.cur = some c → (s.calls j).pc = .dropping c →
      (s.calls j).past.head? ≠ some .own
  | .act i .loses | .act i .dialFails => .own ∉ (s.calls i).past
  | _ => True

def Pc.live : Pc → Bool
  | .returned _ => false
  | _ => true

/-- A connection that the call `i` gives up is used by nobody else, or has failed. -/
def Left (s : State) (i : Nat) (k : Call) (c : Nat) : Prop :=
  k.past.head? = some .own ∧ (∀ j, j ≠ i → (s.calls j).pc ≠ .running c) ∨
    s.fate c = .broken ∧ ∀ x ∈ k.past, x = .broken

/-- What holds of the call `i`, which is as `k` says. -/
structure CallInv (s : State) (i : Nat) (k : Call) : Prop where
  past : k.pc.live = true → ∀ x ∈ k.past, x = .own ∨ x = .broken
  running : ∀ c, k.pc = .running c → c < s.dialled ∧ s.fate c ≠ .closed
  leaving : ∀ c, k.pc = .dropping c ∨ k.pc = .closing c → c < s.dialled ∧ Left s i k c
  gone : ∀ c, k.pc = .closing c → s.cur ≠ some c
  isolated : Isolated k

/-- The connection at hand is not closed. -/
structure Inv (s : State) : Prop where
  cur : ∀ c, s.cur = some c → c < s.dialled ∧ s.fate c ≠ .closed
  calls : ∀ i, CallInv s i (s.calls i)

variable {s s' : State} {i j : Nat} {k : Call}

/-- A call keeps what holds of it as long as its connection is not closed under it, a failed one
stays failed, and nobody takes up one that it gives up. -/
theorem CallInv.frame (h : CallInv s j k) (hdialled : s.dialled ≤ s'.dialled)
    (hopen : ∀ c, k.pc = .running c → s'.fate c ≠ .closed)
    (hbroken : ∀ c, c < s.dialled → s.fate c = .broken → s'.fate c = .broken)
    (htaken : ∀ c, k.pc = .dropping c ∨ k.pc = .closing c → k.past.head? = some .own →
      ∀ l, l ≠ j → (s'.calls l).pc = .running c → (s.calls l).pc = .running c)
    (hcur : ∀ c, k.pc = .closing c → s'.cur ≠ some c) : CallInv s' j k where
  past := h.past
  running c hc := ⟨Nat.lt_of_lt_of_le (h.running c hc).1 hdialled, hopen c hc⟩
  leaving c hc := by
    obtain ⟨hlt, ⟨hown, halone⟩ | ⟨hfailed, hall⟩⟩ := h.leaving c hc
    · refine ⟨Nat.lt_of_lt_of_le hlt hdialled, .inl ⟨hown, fun l hl hrun => ?_⟩⟩
      exact halone l hl (htaken c hc hown l hl hrun)
    · exact ⟨Nat.lt_of_lt_of_le hlt hdialled, .inr ⟨hbroken c hlt hfailed, hall⟩⟩
  gone := hcur
  isolated := h.isolated

/-- What is left to show of a step of the call `i`: its own part, that nobody is using a
connection it closes, and that nobody is giving up one that it takes. -/
theorem Inv.moved (h : Inv s) (hcalls : s'.calls = Function.update s.calls i k)
    (hk : CallInv s' i k) (hdialled : s.dialled ≤ s'.dialled)
    (hfate : ∀ c, c < s.dialled → s'.fate c = s.fate c ∨
      s.fate c = .up ∧ ∀ j, j ≠ i → (s.calls j).pc ≠ .running c)
    (hcur : ∀ c, s'.cur = some c → c < s'.dialled ∧ s'.fate c ≠ .closed ∧
      (s.cur = some c ∨ s.dialled ≤ c))
    (htaken : ∀ c, k.pc = .running c → ∀ j, j ≠ i →
      (s.calls j).pc = .dropping c ∨ (s.calls j).pc = .closing c →
      (s.calls j).past.head? ≠ some .own) : Inv s' where
  cur c hc := ⟨(hcur c hc).1, (hcur c hc).2.1⟩
  calls j := by
    by_cases hj : j = i
    · subst hj
      rwa [hcalls, Function.update_self]
    have hcall := h.calls j
    rw [hcalls, Function.update_of_ne hj]
    refine hcall.frame hdialled (fun c hc => ?_) (fun c hlt hb => ?_) ?_ ?_
    · obtain ⟨hlt, hopen⟩ := hcall.running c hc
      rcases hfate c hlt with heq | ⟨-, halone⟩
      · rwa [heq]
      · exact absurd hc (halone j hj)
    · rcases hfate c hlt with heq | ⟨hup, -⟩
      · rwa [heq]
      · rw [hup] at hb
        cases hb
    · intro c hc hown l _ hrun
      rw [hcalls] at hrun
      by_cases hl : l = i
      · subst hl
        rw [Function.update_self] at hrun
        exact absurd hown (htaken c hrun j hj hc)
      · rwa [Function.update_of_ne hl] at hrun
    · intro c hc hs'
      rcases (hcur c hs').2.2 with hs | hle
      · exact hcall.gone c hc hs
      · have := (hcall.leaving c (.inr hc)).1
        omega

/-- A step that only moves the call `i` to another place of its own. -/
theorem Inv.set {pc : Pc} {past : List Ending} (h : Inv s)
    (hk : CallInv (s.set i pc past) i ⟨pc, past⟩)
    (htaken : ∀ c, pc = .running c → ∀ j, j ≠ i →
      (s.calls j).pc = .dropping c ∨ (s.calls j).pc = .closing c →
      (s.calls j).past.head? ≠ some .own) : Inv (s.set i pc past) :=
  h.moved rfl hk (Nat.le_refl _) (fun _ _ => .inl rfl)
    (fun c hc => ⟨(h.cur c hc).1, (h.cur c hc).2, .inl hc⟩) htaken

/-- A call that has returned uses no connection any more. -/
theorem callInv_returned {e : Option Ending} {past : List Ending}
    (h : Isolated ⟨.returned e, past⟩) : CallInv s i ⟨.returned e, past⟩ :=
  ⟨by simp [Pc.live], by simp, by simp, by simp, h⟩

theorem isolated_of_ne {pc : Pc} {past : List Ending} (h : ∀ e, pc ≠ .returned e) :
    Isolated ⟨pc, past⟩ :=
  fun e he => absurd he (h (some e))

theorem Inv.client (h : Inv s) (ha : Apart s (.act i .client)) (hpc : (s.calls i).pc = .asking)
    (hs : act s i (s.calls i).past .asking .client = some s') : Inv s' := by
  have hpast := (h.calls i).past (by rw [hpc]; rfl)
  simp only [act] at hs
  split at hs <;> rename_i hcur <;> obtain rfl := Option.some.inj hs
  · rename_i c
    refine h.set ⟨fun _ => hpast, ?_, by simp, by simp, isolated_of_ne (by simp)⟩ ?_
    · rintro _ ⟨⟩
      exact h.cur c hcur
    · rintro _ ⟨⟩ j hj (hdrop | hclose)
      · exact ha j c hcur hdrop
      · exact absurd hcur ((h.calls j).gone c hclose)
  · refine h.moved rfl ⟨fun _ => hpast, ?_, by simp, by simp, isolated_of_ne (by simp)⟩
      (Nat.le_succ _) (fun c hc => .inl (Function.update_of_ne (Nat.ne_of_lt hc) _ _)) ?_ ?_
    · rintro _ ⟨⟩
      exact ⟨Nat.lt_succ_self _, by simp⟩
    · rintro _ ⟨⟩
      exact ⟨Nat.lt_succ_self _, by simp, .inr (Nat.le_refl _)⟩
    · -- what others give up was dialled before
      rintro _ ⟨⟩ j hj hleft
      have := ((h.calls j).leaving _ hleft).1
      omega

theorem Inv.drop (h : Inv s) {c : Nat} (hpc : (s.calls i).pc = .dropping c) :
    Inv { s.set i (.closing c) (s.calls i).past with
      cur := if s.cur = some c then none else s.cur } := by
  have hcall := h.calls i
  obtain ⟨hlt, hleft⟩ := hcall.leaving c (.inl hpc)
  have hkept : ∀ d, (if s.cur = some c then none else s.cur) = some d →
      s.cur = some d ∧ s.cur ≠ some c := by
    intro d hd
    split at hd
    · cases hd
    · exact ⟨hd, ‹_›⟩
  refine h.moved rfl ⟨fun _ => hcall.past (by rw [hpc]; rfl), by simp, ?_, ?_,
    isolated_of_ne (by simp)⟩ (Nat.le_refl _) (fun _ _ => .inl rfl) ?_ (by simp)
  · intro d hd
    obtain rfl : c = d := by simpa using hd
    refine ⟨hlt, hleft.imp_left fun ⟨hown, halone⟩ => ⟨hown, fun j hj => ?_⟩⟩
    rw [set_calls, if_neg hj]
    exact halone j hj
  · intro d hd hcur
    obtain rfl : c = d := by simpa using hd
    exact (hkept c hcur).2 (hkept c hcur).1
  · intro d hd
    exact ⟨(h.cur d (hkept d hd).1).1, (h.cur d (hkept d hd).1).2, .inl (hkept d hd).1⟩

/-- The call is the only one that may be using a connection it finds up. -/
theorem Inv.close (h : Inv s) {c : Nat} (hpc : (s.calls i).pc = .closing c) (ctxEnded : Bool) :
    Inv { s.set i (if 2 ≤ (s.calls i).past.length ∨ ctxEnded = true then
        .returned (s.calls i).past.head? else .asking) (s.calls i).past with
      fate := if s.fate c = .up then Function.update s.fate c .closed else s.fate } := by
  have hcall := h.calls i
  have hpast := hcall.past (by rw [hpc]; rfl)
  obtain ⟨-, hleft⟩ := hcall.leaving c (.inr hpc)
  have hgone := hcall.gone c hpc
  have hisolated : Isolated ⟨.returned (s.calls i).past.head?, (s.calls i).past⟩ := by
    intro e he hv ho x hx
    injection he with he
    rcases hleft with ⟨hown, -⟩ | ⟨-, hall⟩
    · rw [hown] at he
      exact absurd (Option.some.inj he).symm ho
    · exact .inl (hall x hx)
  have hfate : ∀ d, d ≠ c →
      (if s.fate c = .up then Function.update s.fate c .closed else s.fate) d = s.fate d := by
    intro d hd
    split
    · exact Function.update_of_ne hd _ _
    · rfl
  refine h.moved rfl ?_ (Nat.le_refl _) (fun d _ => ?_) (fun d hd => ?_) ?_
  · split
    · exact callInv_returned hisolated
    · exact ⟨fun _ => hpast, by simp, by simp, by simp, isolated_of_ne (by simp)⟩
  · by_cases hd : d = c
    · subst hd
      by_cases hup : s.fate d = .up
      · rcases hleft with ⟨-, halone⟩ | ⟨hb, -⟩
        · exact .inr ⟨hup, halone⟩
        · rw [hup] at hb
          cases hb
      · exact .inl (by rw [if_neg hup])
    · exact .inl (hfate d hd)
  · have hne : d ≠ c := fun he => hgone (he ▸ hd)
    refine ⟨(h.cur d hd).1, ?_, .inl hd⟩
    dsimp only
    rw [hfate d hne]
    exact (h.cur d hd).2
  · intro d hd
    split at hd <;> cases hd

/-- One step keeps the invariant. -/
theorem step_inv {a : Label} (h : Inv s) (ha : Apart s a) (hs : step s a = some s') : Inv s' := by
  cases a with
  | breaks c =>
    simp only [step] at hs
    split at hs
    · rename_i hup
      obtain rfl := Option.some.inj hs
      have hopen : ∀ d, s.fate d ≠ .closed → Function.update s.fate c .broken d ≠ .closed := by
        intro d hd
        rw [Function.update_apply]
        split
        · simp
        · exact hd
      refine ⟨fun d hd => ⟨(h.cur d hd).1, hopen d (h.cur d hd).2⟩, fun j => ?_⟩
      refine (h.calls j).frame (Nat.le_refl _) (fun d hd => hopen d ((h.calls j).running d hd).2)
        (fun d _ hd => ?_) (fun _ _ _ _ _ hrun => hrun) (h.calls j).gone
      dsimp only
      rw [Function.update_apply]
      split
      · rfl
      · exact hd
    · cases hs
  | act i a =>
    simp only [step] at hs
    have hcall := h.calls i
    cases hpc : (s.calls i).pc <;> simp only [hpc] at hs <;> cases a <;>
      simp only [act, reduceCtorEq, Option.some.injEq] at hs
    case asking.client => exact h.client ha hpc hs
    case asking.dialFails =>
      split at hs
      · obtain rfl := Option.some.inj hs
        have hpast := hcall.past (by rw [hpc]; rfl)
        refine h.set (callInv_returned fun e _ _ _ x hx => ?_) (by simp)
        rcases List.mem_cons.mp hx with rfl | hx
        · exact .inr rfl
        · exact .inl ((hpast x hx).resolve_left fun ho => ha (ho ▸ hx))
      · cases hs
    case running.succeeds =>
      subst hs
      exact h.set (callInv_returned (by simp [Isolated])) (by simp)
    case running.refused =>
      subst hs
      exact h.set (callInv_returned (by simp [Isolated])) (by simp)
    case running.fails c =>
      subst hs
      have hpast := hcall.past (by rw [hpc]; rfl)
      refine h.set ⟨fun _ => ?_, by simp, ?_, by simp, isolated_of_ne (by simp)⟩ (by simp)
      · exact List.forall_mem_cons.mpr ⟨.inl rfl, hpast⟩
      · intro d hd
        obtain rfl : c = d := by simpa using hd
        refine ⟨(hcall.running c hpc).1, .inl ⟨rfl, fun j hj => ?_⟩⟩
        rw [set_calls, if_neg hj]
        exact ha j hj c hpc
    case running.loses c =>
      split at hs
      · cases hs
      · rename_i hbroken
        obtain rfl := Option.some.inj hs
        -- its failures so far are the connection's, too
        have hall : ∀ x ∈ Ending.broken :: (s.calls i).past, x = .broken :=
          List.forall_mem_cons.mpr ⟨rfl, fun x hx =>
            (hcall.past (by rw [hpc]; rfl) x hx).resolve_left fun ho => ha (ho ▸ hx)⟩
        refine h.set ⟨fun _ x hx => .inr (hall x hx), by simp, ?_, by simp,
          isolated_of_ne (by simp)⟩ (by simp)
        intro d hd
        obtain rfl : c = d := by simpa using hd
        exact ⟨(hcall.running c hpc).1, .inr ⟨hbroken, hall⟩⟩
      · exact absurd ‹_› (hcall.running c hpc).2
    case dropping.drop c =>
      subst hs
      exact h.drop hpc
    case closing.close c ctxEnded =>
      subst hs
      exact h.close hpc ctxEnded

/-- **Calls are isolated while their own errors are.**  In every run that keeps apart, a call
that returns neither an answer of the server nor an error of its own had, in every attempt,
a connection that failed by itself. -/
theorem calls_isolated {s : State} (h : Run.Steps step Apart {} s) (i : Nat) :
    Isolated (s.calls i) := by
  have hinv : Inv s := by
    refine h.inv ?_ ?_
    · exact ⟨by simp, fun _ => ⟨by simp, by simp, by simp, by simp, isolated_of_ne (by simp)⟩⟩
    · intro s a s' hs ha hstep
      exact step_inv hs ha hstep
  exact (hinv.calls i).isolated

/-- A call whose connection fails, and whose context ends before it tries again. -/
theorem calls_isolated_broken : ∃ s, Run.Steps step Apart {} s ∧
    (s.calls 0).pc = .returned (some .broken) ∧ Isolated (s.calls 0) := by
  have hrun : Run.Steps step Apart {} {} := .refl
  have hrun := hrun.tail (a := Label.act 0 .client) (fun _ _ => nofun) rfl
  have hrun := hrun.tail (a := Label.breaks 0) trivial rfl
  have hrun := hrun.tail (a := Label.act 0 .loses) List.not_mem_nil rfl
  have hrun := hrun.tail (a := Label.act 0 .drop) trivial rfl
  have hrun := hrun.tail (a := Label.act 0 (.close true)) trivial rfl
  exact ⟨_, hrun, rfl, calls_isolated hrun 0⟩

/-- Two calls share a connection.  One fails twice for reasons of its own, and each time its
close ends the other's attempt; no connection has failed by itself. -/
def collision : List Label :=
  let again : List Label := [.act 0 .client, .act 1 .client, .act 1 .fails, .act 1 .drop,
    .act 1 (.close false), .act 0 .loses, .act 0 .drop, .act 0 (.close false)]
  again ++ again

theorem failure_closes_anothers_connection : ∃ s, Run.run step {} collision = some s ∧
    (s.calls 0).pc = .returned (some .closed) ∧ (s.calls 1).pc = .returned (some .own) ∧
    ¬ Isolated (s.calls 0) := by
  have hrun : ∃ s ∈ Run.run step {} collision, (s.calls 0).pc = .returned (some .closed) ∧
      (s.calls 1).pc = .returned (some .own) ∧ .closed ∈ (s.calls 0).past := by decide +kernel
  obtain ⟨s, hs, hpc, hother, hpast⟩ := hrun
  refine ⟨s, hs, hpc, hother, fun h => ?_⟩
  have := h .closed hpc nofun nofun .closed hpast
  simp at this

end JobsIroh.Runnerd.Sync
