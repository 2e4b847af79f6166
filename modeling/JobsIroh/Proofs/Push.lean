/-
Concurrent pushes to one ref name are writes to one register.

A handler that goes for a lock goes for the lock of its name, which never changes, so at
most one handler of a name is between `recheck` and `unlock`.  What it has checked there
therefore still holds when it writes the ref, and the order of the writes is the order in
which a register with conditional writes would have taken them.
-/
import JobsIroh.Amberiroh.Push

namespace JobsIroh

namespace Push

variable {κ ρ : Type}

/-! ### Where a handler stands -/

namespace Pc

/-- The lock the handler has looked up. -/
def lock : Pc κ ρ → Option Nat
  | .acquire _ l | .recheck _ l | .prepare _ l | .put _ l _ | .answer _ l | .unlock l => some l
  | _ => none

/-- The lock the handler holds. -/
def held : Pc κ ρ → Option Nat
  | .recheck _ l | .prepare _ l | .put _ l _ | .answer _ l | .unlock l => some l
  | _ => none

/-- The parsed root the handler works on. -/
def root : Pc κ ρ → Option κ
  | .transfer r | .lookup r | .acquire r _ | .recheck r _ | .prepare r _ | .put r _ _
  | .answer r _ => some r
  | _ => none

/-- The precondition has been checked under the lock and the ref is not written yet. -/
def checked : Pc κ ρ → Bool
  | .prepare _ _ | .put _ _ _ => true
  | _ => false

/-- The handler is about to return. -/
def ended : Pc κ ρ → Bool
  | .unlock _ | .finished => true
  | _ => false

theorem held_of_checked {pc : Pc κ ρ} (h : pc.checked = true) : ∃ l, pc.held = some l := by
  cases pc <;> simp_all [checked, held]

theorem lock_of_held {pc : Pc κ ρ} {l : Nat} (h : pc.held = some l) : pc.lock = some l := by
  cases pc <;> simp_all [lock, held]

end Pc

/-- The answer is a mismatch or an error. -/
def Answer.bad : Answer → Bool
  | .ok _ => false
  | .err _ _ _ => true

variable {c : Choice} {m : PushMsg}

theorem checkCAS_bad {R : RefPkg κ ρ} {refs : String → Option ρ}
    {a : Answer} (h : checkCAS R refs c m = some a) : a.bad = true := by
  unfold checkCAS at h
  split at h
  · rw [← Option.some.inj h]
    rfl
  · split at h
    · simp at h
    · rw [← Option.some.inj h]
      rfl

theorem precondition_bad {R : RefPkg κ ρ} {refs : String → Option ρ}
    {a : Answer} (h : precondition R refs c m = some a) : a.bad = true := by
  unfold precondition at h
  split at h
  · exact checkCAS_bad h
  · simp at h

/-- What the precondition asks of a record. -/
def Finds (R : RefPkg κ ρ) (m : PushMsg) : Option ρ → Prop
  | none => m.expectedOld = []
  | some raw => R.decodeKey raw = .ok m.expectedOld

theorem finds_of_precondition {R : RefPkg κ ρ} {refs : String → Option ρ}
    (hcas : m.cas = true) (h : precondition R refs c m = none) :
    Finds R m (refs m.name) := by
  unfold precondition checkCAS at h
  rw [if_pos hcas] at h
  split at h
  · simp at h
  · rename_i k hk
    split at h
    · rename_i heq
      unfold current at hk
      split at hk
      · simp at hk
      · split at hk
        · rename_i hnone
          rw [hnone]
          show m.expectedOld = []
          rw [← heq, ← Except.ok.inj hk]
        · rename_i raw hraw
          rw [hraw]
          show R.decodeKey raw = .ok m.expectedOld
          rw [hk, heq]
    · simp at h

/-! ### What one step does -/

/-- The handler moved on, with nothing of the server changed. -/
inductive Quiet (R : RefPkg κ ρ) (refs : String → Option ρ) (p : Handler κ ρ) :
    Handler κ ρ → Prop
  | begin (root : κ) (hpc : p.pc = .start) (hr : R.parse p.msg.root = .ok root) :
    Quiet R refs p { p with pc := .transfer root }
  | received (root : κ) (hpc : p.pc = .transfer root) :
    Quiet R refs p { p with pc := .lookup root }
  | passed (root : κ) (l : Nat) (hpc : p.pc = .recheck root l)
    (hf : p.msg.cas = true → Finds R p.msg (refs p.msg.name)) :
    Quiet R refs p { p with pc := .prepare root l }
  | encoded (root : κ) (l : Nat) (raw : ρ) (hpc : p.pc = .prepare root l)
    (hraw : R.decodeKey raw = .ok (R.bytes root)) :
    Quiet R refs p { p with pc := .put root l raw }
  /-- The push ends without a write. -/
  | refused (a : Option Answer) (next : Pc κ ρ) (hover : next.ended = true)
    (hlock : next.lock = p.pc.held) (ha : ∀ b, a = some b → b.bad = true)
    (hpc : p.pc.ended = false) (hn : ∀ root l, p.pc ≠ .answer root l) :
    Quiet R refs p { p with pc := next, answer := a }
  | answered (root : κ) (l : Nat) (hpc : p.pc = .answer root l) (a : Option Answer)
    (ha : ∀ b, a = some b → b = .ok (R.bytes root)) :
    Quiet R refs p { p with pc := .unlock l, answer := a }

/-- What a handler's step changes. -/
inductive Advance (R : RefPkg κ ρ) (s : Server κ ρ) (i : Nat) (p : Handler κ ρ) :
    Server κ ρ → Prop
  | quiet (p' : Handler κ ρ) (h : Quiet R s.refs p p') : Advance R s i p (s.set i p')
  | found (root : κ) (l : Nat) (hpc : p.pc = .lookup root) (hl : s.refLocks p.msg.name = some l) :
    Advance R s i p (s.set i { p with pc := .acquire root l })
  | made (root : κ) (hpc : p.pc = .lookup root) (hl : s.refLocks p.msg.name = none) :
    Advance R s i p
      { s with
        refLocks := fun name =>
          if name = p.msg.name then some s.locks.length else s.refLocks name
        locks := s.locks ++ [none]
        pushes := s.pushes.set i { p with pc := .acquire root s.locks.length } }
  | acquired (root : κ) (l : Nat) (hpc : p.pc = .acquire root l) (hfree : s.locks[l]? = some none) :
    Advance R s i p
      { s with
        locks := s.locks.set l (some i)
        pushes := s.pushes.set i { p with pc := .recheck root l } }
  | wrote (root : κ) (l : Nat) (raw : ρ) (hpc : p.pc = .put root l raw) :
    Advance R s i p
      { s with
        refs := fun name => if name = p.msg.name then some raw else s.refs name
        pushes := s.pushes.set i { p with pc := .answer root l }
        committed := s.committed ++ [⟨i, p.msg, root⟩] }
  | unlocked (l : Nat) (hpc : p.pc = .unlock l) :
    Advance R s i p
      { s with
        locks := s.locks.set l none
        pushes := s.pushes.set i { p with pc := .finished } }

variable {R : RefPkg κ ρ} {s s' : Server κ ρ}

variable {p : Handler κ ρ}

theorem Quiet.reply {refs : String → Option ρ} {a : Answer} {pc next : Pc κ ρ} (hpc : p.pc = pc)
    (hover : next.ended = true) (hlock : next.lock = pc.held) (hopen : pc.ended = false)
    (hn : ∀ root l, pc ≠ .answer root l) (ha : a.bad = true) :
    Quiet R refs p (p.reply c a next) := by
  subst hpc
  refine .refused _ next hover hlock (fun b hb => ?_) hopen hn
  split at hb
  · simp at hb
  · rw [← Option.some.inj hb]
    exact ha

theorem quiet_start (hpc : p.pc = .start) :
    Quiet R s.refs p (s.start R p c) := by
  have hrefuse : ∀ a : Answer, a.bad = true → Quiet R s.refs p (p.reply c a .finished) := by
    intro a ha
    exact .reply hpc rfl rfl rfl nofun ha
  unfold Server.start
  split
  · exact hrefuse _ rfl
  · split
    · exact hrefuse _ rfl
    · rename_i root hr
      split
      · rename_i a ha
        exact hrefuse a (precondition_bad ha)
      · exact .begin root hpc hr

theorem quiet_transfer {refs : String → Option ρ} {root : κ}
    (hpc : p.pc = .transfer root) : Quiet R refs p (Server.transfer p c root) := by
  unfold Server.transfer
  split
  · exact .received root hpc
  · split
    · -- the peer's own error is not echoed: no answer
      exact .refused none .finished rfl (by rw [hpc]; rfl) (by simp) (by rw [hpc]; rfl)
        (by simp [hpc])
    · exact .reply hpc rfl rfl rfl nofun rfl

variable {l : Nat}

theorem quiet_recheck {root : κ}
    (hpc : p.pc = .recheck root l) : Quiet R s.refs p (s.recheck R p c root l) := by
  unfold Server.recheck
  split
  · rename_i a ha
    exact .reply hpc rfl rfl rfl nofun (precondition_bad ha)
  · rename_i hnone
    exact .passed root l hpc fun hcas => finds_of_precondition hcas hnone

theorem quiet_prepare {refs : String → Option ρ} {root : κ}
    (hpc : p.pc = .prepare root l) :
    Quiet R refs p (Server.prepare R p c root l) := by
  have hrefuse : ∀ text, Quiet R refs p (p.fail c codeInternal text (.unlock l)) := by
    intro text
    exact .reply hpc rfl rfl rfl nofun rfl
  unfold Server.prepare
  split
  · exact hrefuse _
  · rename_i raw hraw
    split
    · exact hrefuse _
    · exact .encoded root l raw hpc (R.decodeKey_encode hraw)

variable {i : Nat}

/-- **What a handler's step does.** -/
theorem advance_cases (h : s.advance R i p c = some s') :
    Advance R s i p s' := by
  unfold Server.advance at h
  split at h
  · rename_i hpc
    rw [← Option.some.inj h]
    exact .quiet _ (quiet_start hpc)
  · rename_i root hpc
    rw [← Option.some.inj h]
    exact .quiet _ (quiet_transfer hpc)
  · rename_i root hpc
    rw [← Option.some.inj h]
    unfold Server.lookup
    split
    · rename_i l hl
      exact .found root l hpc hl
    · rename_i hl
      exact .made root hpc hl
  · rename_i root l hpc
    unfold Server.acquire at h
    split at h
    · rename_i hfree
      rw [← Option.some.inj h]
      exact .acquired root l hpc hfree
    · simp at h
  · rename_i root l hpc
    rw [← Option.some.inj h]
    exact .quiet _ (quiet_recheck hpc)
  · rename_i root l hpc
    rw [← Option.some.inj h]
    exact .quiet _ (quiet_prepare hpc)
  · rename_i root l raw hpc
    rw [← Option.some.inj h]
    unfold Server.put
    split
    · exact .quiet _ (.reply hpc rfl rfl rfl nofun rfl)
    · exact .wrote root l raw hpc
  · rename_i root l hpc
    rw [← Option.some.inj h]
    refine .quiet _ (.answered root l hpc _ fun b hb => ?_)
    split at hb
    · simp at hb
    · exact (Option.some.inj hb).symm
  · rename_i l hpc
    rw [← Option.some.inj h]
    exact .unlocked l hpc
  · simp at h

/-! ### The lock of a name -/

/-- What a handler knows of its lock and of its record. -/
structure Knows (R : RefPkg κ ρ) (s : Server κ ρ) (i : Nat) (p : Handler κ ρ) : Prop where
  looked : ∀ l, p.pc.lock = some l → s.refLocks p.msg.name = some l
  holds : ∀ l, p.pc.held = some l → s.locks[l]? = some (some i)
  encoded : ∀ root l raw, p.pc = .put root l raw → R.decodeKey raw = .ok (R.bytes root)

def Locked (R : RefPkg κ ρ) (s : Server κ ρ) : Prop :=
  ∀ (i : Nat) (p : Handler κ ρ), s.pushes[i]? = some p → Knows R s i p

variable {j : Nat}

/-- **Mutual exclusion**: two handlers of one name do not both hold its lock. -/
theorem Locked.exclusive (h : Locked R s) {l' : Nat} {q : Handler κ ρ}
    (hi : s.pushes[i]? = some p) (hj : s.pushes[j]? = some q) (hn : p.msg.name = q.msg.name)
    (hp : p.pc.held = some l) (hq : q.pc.held = some l') : i = j := by
  have hl := (h i p hi).looked l (Pc.lock_of_held hp)
  have hl' := (h j q hj).looked l' (Pc.lock_of_held hq)
  rw [hn, hl'] at hl
  have hown := (h i p hi).holds l hp
  rw [← Option.some.inj hl, (h j q hj).holds l' hq] at hown
  simpa using hown.symm

variable {p' : Handler κ ρ}

theorem Quiet.msg {refs : String → Option ρ} (h : Quiet R refs p p') :
    p'.msg = p.msg := by
  cases h <;> rfl

/-- The lock of a handler that moves on is the one it holds. -/
theorem Quiet.lock {refs : String → Option ρ} (h : Quiet R refs p p') :
    p'.pc.lock = p.pc.held := by
  cases h with
  | begin root hpc | received root hpc | passed root l hpc | encoded root l raw hpc
  | answered root l hpc => rw [hpc]; rfl
  | refused a next hover hlock => exact hlock

theorem Quiet.encoded_put {refs : String → Option ρ} (h : Quiet R refs p p')
    {root : κ} {raw : ρ} (hpc' : p'.pc = .put root l raw) :
    R.decodeKey raw = .ok (R.bytes root) := by
  cases h with
  | encoded root l raw hpc hraw =>
    obtain ⟨rfl, -, rfl⟩ := Pc.put.inj hpc'
    exact hraw
  | refused a next hover =>
    rw [show next = .put root l raw from hpc'] at hover
    simp [Pc.ended] at hover
  | _ => simp at hpc'

/-- A handler that was not at work on its record keeps what it knows of its lock. -/
theorem Knows.of_pc (h : Knows R s i p) (hmsg : p'.msg = p.msg)
    (hlocks : s'.refLocks = s.refLocks) (hheld : s'.locks = s.locks)
    (hlock : p'.pc.lock = p.pc.held)
    (hraw : ∀ root l raw, p'.pc = .put root l raw → R.decodeKey raw = .ok (R.bytes root)) :
    Knows R s' i p' := by
  refine ⟨fun l hl => ?_, fun l hl => ?_, hraw⟩
  · rw [hlocks, hmsg]
    exact h.looked l (Pc.lock_of_held (hlock ▸ hl))
  · rw [hheld]
    exact h.holds l (hlock ▸ Pc.lock_of_held hl)

/-- What a handler's step does to the others: their locks stay theirs. -/
theorem Knows.other {q : Handler κ ρ} (hp : Knows R s i p) (h : Knows R s j q)
    (hne : j ≠ i) (hs : Advance R s i p s') : Knows R s' j q := by
  refine ⟨fun l hl => ?_, fun l hl => ?_, h.encoded⟩
  · have hlook := h.looked l hl
    cases hs with
    | made root hpc hnone =>
      -- a name that gets its lock now is not the name of a handler that has one
      have hname : q.msg.name ≠ p.msg.name := by
        intro heq
        rw [heq, hnone] at hlook
        simp at hlook
      simpa [hname] using hlook
    | _ => exact hlook
  · have hown := h.holds l hl
    cases hs with
    | made =>
      have hlt : l < s.locks.length := (List.getElem?_eq_some_iff.mp hown).1
      show (s.locks ++ [none])[l]? = _
      rw [List.getElem?_append_left hlt]
      exact hown
    | acquired root l' hpc hfree =>
      have hl' : l' ≠ l := by
        intro heq
        rw [← heq, hfree] at hown
        simp at hown
      show (s.locks.set l' (some i))[l]? = _
      rw [List.getElem?_set_ne hl']
      exact hown
    | unlocked l' hpc =>
      have hl' : l' ≠ l := by
        intro heq
        rw [← heq, hp.holds l' (by rw [hpc]; rfl)] at hown
        exact hne (by simpa using hown.symm)
      show (s.locks.set l' none)[l]? = _
      rw [List.getElem?_set_ne hl']
      exact hown
    | _ => exact hown

/-- The step of a handler changes its own entry only. -/
theorem Advance.pushes (hs : Advance R s i p s') :
    ∃ p', s'.pushes = s.pushes.set i p' ∧ p'.msg = p.msg := by
  cases hs with
  | quiet p' h => exact ⟨p', rfl, h.msg⟩
  | _ => exact ⟨_, rfl, rfl⟩

/-- The entry of the handler that made a step. -/
theorem own_eq {l : List (Handler κ ρ)} {q : Handler κ ρ} (hi : l[i]? = some p)
    (hi' : (l.set i q)[i]? = some p') : q = p' := by
  rw [List.getElem?_set_self (List.getElem?_eq_some_iff.mp hi).1] at hi'
  exact Option.some.inj hi'

/-- What a handler's step gives the handler itself. -/
theorem Knows.own (h : Knows R s i p) (hs : Advance R s i p s')
    (hi : s.pushes[i]? = some p) (hi' : s'.pushes[i]? = some p') : Knows R s' i p' := by
  cases hs with
  | quiet q hq =>
    obtain rfl := own_eq hi hi'
    exact h.of_pc hq.msg rfl rfl hq.lock fun _ _ _ => hq.encoded_put
  | found root l hpc hl =>
    obtain rfl := own_eq hi hi'
    exact ⟨fun l' hl' => by rw [← hl']; exact hl, by simp [Pc.held], by simp⟩
  | made =>
    obtain rfl := own_eq hi hi'
    exact ⟨fun l' hl' => by rw [← hl']; simp [Pc.lock], by simp [Pc.held], by simp⟩
  | acquired root l hpc hfree =>
    obtain rfl := own_eq hi hi'
    have hl : l < s.locks.length := (List.getElem?_eq_some_iff.mp hfree).1
    refine ⟨fun l' hl' => h.looked l' (by rw [hpc]; exact hl'), fun l' hl' => ?_, by simp⟩
    obtain rfl : l = l' := by simpa [Pc.held] using hl'
    exact List.getElem?_set_self hl
  | wrote root l raw hpc =>
    obtain rfl := own_eq hi hi'
    exact h.of_pc rfl rfl rfl (by rw [hpc]; rfl) (by simp)
  | unlocked =>
    obtain rfl := own_eq hi hi'
    exact ⟨by simp [Pc.lock], by simp [Pc.held], by simp⟩

theorem Locked.advance (h : Locked R s)
    (hi : s.pushes[i]? = some p) (hs : Advance R s i p s') : Locked R s' := by
  intro j q hj
  obtain ⟨p', hpush, -⟩ := hs.pushes
  by_cases hne : j = i
  · subst hne
    exact (h j p hi).own hs hi hj
  · rw [hpush, List.getElem?_set_ne (Ne.symm hne)] at hj
    exact (h i p hi).other (h j q hj) hne hs

/-! ### One step of the server -/

/-- What a step of the server changes. -/
inductive Step (R : RefPkg κ ρ) (s : Server κ ρ) : Label ρ → Server κ ρ → Prop
  | accept (m : PushMsg) :
    Step R s (.accept m) { s with pushes := s.pushes ++ [{ msg := m }] }
  | advance (i : Nat) (c : Choice) (p : Handler κ ρ) (s' : Server κ ρ)
    (hi : s.pushes[i]? = some p) (h : Advance R s i p s') : Step R s (.advance i c) s'
  | write (name : String) (raw : Option ρ) :
    Step R s (.write name raw) { s with refs := fun n => if n = name then raw else s.refs n }

variable {a : Label ρ}

theorem step_cases (h : s.step R a = some s') : Step R s a s' := by
  cases a with
  | accept m =>
    rw [← Option.some.inj h]
    exact .accept m
  | advance i c =>
    simp only [Server.step] at h
    split at h
    · rename_i p hp
      exact .advance i c p s' hp (advance_cases h)
    · simp at h
  | write name raw =>
    rw [← Option.some.inj h]
    exact .write name raw

/-- A handler of the list with one more is an old one or the new one. -/
theorem get_concat {α : Type} {l : List α} {a b : α} (h : (l ++ [a])[j]? = some b) :
    l[j]? = some b ∨ b = a := by
  by_cases hlt : j < l.length
  · rw [List.getElem?_append_left hlt] at h
    exact Or.inl h
  · rw [List.getElem?_append_right (by omega)] at h
    have hmem := List.mem_of_getElem? h
    exact Or.inr (by simpa using hmem)

theorem Locked.step (h : Locked R s) (hs : s.step R a = some s') : Locked R s' := by
  cases step_cases hs with
  | accept =>
    intro j q hj
    rcases get_concat hj with hj' | rfl
    · exact ⟨(h j q hj').looked, (h j q hj').holds, (h j q hj').encoded⟩
    · exact ⟨by simp [Pc.lock], by simp [Pc.held], by simp⟩
  | advance i c p s' hi ha => exact h.advance hi ha
  | write =>
    intro j q hj
    exact ⟨(h j q hj).looked, (h j q hj).holds, (h j q hj).encoded⟩

/-! ### The checked precondition lasts until the write -/

/-- The pushes are the only writers of the name. -/
def OnlyPushes (nm : String) (_ : Server κ ρ) : Label ρ → Prop
  | .write name _ => name ≠ nm
  | _ => True

/-- What the handlers of a name have checked under its lock is still so. -/
def Checked (R : RefPkg κ ρ) (nm : String) (s : Server κ ρ) : Prop :=
  ∀ (i : Nat) (p : Handler κ ρ), s.pushes[i]? = some p → p.msg.name = nm →
    p.pc.checked = true → p.msg.cas = true → Finds R p.msg (s.refs nm)

theorem Quiet.checked {refs : String → Option ρ} (h : Quiet R refs p p')
    (hc : p'.pc.checked = true) :
    p.pc.checked = true ∨ (p.msg.cas = true → Finds R p.msg (refs p.msg.name)) := by
  cases h with
  | passed root l hpc hf => exact Or.inr hf
  | encoded root l raw hpc => exact Or.inl (by rw [hpc]; rfl)
  | refused a next =>
    cases next <;> simp_all [Pc.checked, Pc.ended]
  | _ => simp [Pc.checked] at hc

variable {nm : String}

theorem Checked.advance (h : Checked R nm s)
    (hl : Locked R s) (hi : s.pushes[i]? = some p) (hs : Advance R s i p s') :
    Checked R nm s' := by
  intro j q hj hq hc hcas
  obtain ⟨p', hpush, -⟩ := hs.pushes
  by_cases hne : j = i
  · subst hne
    cases hs with
    | quiet p' hquiet =>
      obtain rfl := own_eq hi hj
      rw [hquiet.msg] at hq hcas ⊢
      rcases hquiet.checked hc with hold | hnew
      · exact h j p hi hq hold hcas
      · rw [← hq]
        exact hnew hcas
    | _ =>
      obtain rfl := own_eq hi hj
      simp [Pc.checked] at hc
  · rw [hpush, List.getElem?_set_ne (Ne.symm hne)] at hj
    cases hs with
    | wrote root l raw hpc =>
      -- a handler that writes this ref holds its lock, so nobody else has checked
      obtain ⟨l', hl'⟩ := Pc.held_of_checked hc
      by_cases hname : nm = p.msg.name
      · exact absurd (hl.exclusive hj hi (hq.trans hname) hl' (by rw [hpc]; rfl)) hne
      · show Finds R q.msg (if nm = p.msg.name then some raw else s.refs nm)
        rw [if_neg hname]
        exact h j q hj hq hc hcas
    | _ => exact h j q hj hq hc hcas

theorem Checked.step (h : Checked R nm s) (hl : Locked R s)
    (hw : OnlyPushes nm s a) (hs : s.step R a = some s') : Checked R nm s' := by
  cases step_cases hs with
  | accept =>
    intro j q hj hq hc hcas
    rcases get_concat hj with hj' | rfl
    · exact h j q hj' hq hc hcas
    · simp [Pc.checked] at hc
  | advance i c p s' hi ha => exact h.advance hl hi ha
  | write name raw =>
    intro j q hj hq hc hcas
    show Finds R q.msg (if nm = name then raw else s.refs nm)
    rw [if_neg (Ne.symm hw)]
    exact h j q hj hq hc hcas

/-! ### The order of the writes -/

/-- The ref has this value: it is missing, or its record holds this key. -/
def Holds (R : RefPkg κ ρ) : Option ρ → Option Bytes → Prop
  | none, v => v = none
  | some raw, v => ∃ k, v = some k ∧ k ≠ [] ∧ R.decodeKey raw = .ok k

/-- The writes of a name so far are legal, and its ref has the value of the last. -/
structure Serial (R : RefPkg κ ρ) (nm : String) (init : Option Bytes) (s : Server κ ρ) : Prop where
  legal : Register.Legal init (s.writes R nm)
  value : Holds R (s.refs nm) (Register.valueAfter init (s.writes R nm))

/-- A precondition that holds of the record lets the write be made. -/
theorem allowed_of_finds {root : κ} {raw : Option ρ} {v : Option Bytes}
    (hv : Holds R raw v) (hf : m.cas = true → Finds R m raw) :
    (Commit.write R ⟨i, m, root⟩).Allowed v := by
  intro e he
  by_cases hcas : m.cas = true
  · have hfound := hf hcas
    simp only [Commit.write, hcas, if_true, Option.some.injEq] at he
    cases raw with
    | none =>
      have hnil : m.expectedOld = [] := hfound
      rw [if_pos hnil] at he
      exact Eq.trans hv he
    | some raw =>
      obtain ⟨k, hk, hne, hdec⟩ := hv
      have hold : R.decodeKey raw = .ok m.expectedOld := hfound
      obtain rfl : k = m.expectedOld := Except.ok.inj (hdec.symm.trans hold)
      rw [if_neg hne] at he
      exact hk.trans he
  · simp [Commit.write, hcas] at he

theorem Serial.advance {init : Option Bytes}
    (h : Serial R nm init s) (hl : Locked R s) (hc : Checked R nm s)
    (hi : s.pushes[i]? = some p) (hs : Advance R s i p s') : Serial R nm init s' := by
  cases hs with
  | wrote root l raw hpc =>
    have hwrites : Server.writes R
        { s with
          refs := fun name => if name = p.msg.name then some raw else s.refs name
          pushes := s.pushes.set i { p with pc := .answer root l }
          committed := s.committed ++ [⟨i, p.msg, root⟩] } nm = s.writes R nm ++
          if p.msg.name = nm then [Commit.write R ⟨i, p.msg, root⟩] else [] := by
      by_cases hname : p.msg.name = nm <;> simp [Server.writes, List.filter_append, hname]
    by_cases hname : p.msg.name = nm
    · rw [if_pos hname] at hwrites
      refine ⟨?_, ?_⟩
      · rw [hwrites]
        refine h.legal.concat (allowed_of_finds h.value fun hcas => ?_)
        exact hc i p hi hname (by rw [hpc]; rfl) hcas
      · rw [hwrites, Register.valueAfter_concat]
        show Holds R (if nm = p.msg.name then some raw else s.refs nm) _
        rw [if_pos hname.symm]
        exact ⟨R.bytes root, rfl, R.bytes_ne_nil root, (hl i p hi).encoded root l raw hpc⟩
    · rw [if_neg hname, List.append_nil] at hwrites
      refine ⟨by rw [hwrites]; exact h.legal, ?_⟩
      rw [hwrites]
      show Holds R (if nm = p.msg.name then some raw else s.refs nm) _
      rw [if_neg (Ne.symm hname)]
      exact h.value
  | _ => exact ⟨h.legal, h.value⟩

theorem Serial.step {init : Option Bytes} (h : Serial R nm init s)
    (hl : Locked R s) (hc : Checked R nm s) (hw : OnlyPushes nm s a)
    (hs : s.step R a = some s') : Serial R nm init s' := by
  cases step_cases hs with
  | accept => exact ⟨h.legal, h.value⟩
  | advance i c p s' hi ha => exact h.advance hl hc hi ha
  | write name raw =>
    refine ⟨h.legal, ?_⟩
    show Holds R (if nm = name then raw else s.refs nm) _
    rw [if_neg (Ne.symm hw)]
    exact h.value

/-! ### Answers and writes -/

/-- What the answer of a handler says of the writes. -/
structure Told (R : RefPkg κ ρ) (committed : List (Commit κ)) (i : Nat) (p : Handler κ ρ) :
    Prop where
  parsed : ∀ root, p.pc.root = some root → R.parse p.msg.root = .ok root
  silent : p.pc.ended = false → p.answer = none
  written : ∀ root l, p.pc = .answer root l → ⟨i, p.msg, root⟩ ∈ committed
  told : ∀ k, p.answer = some (.ok k) → ∃ c ∈ committed, c.id = i ∧ R.bytes c.root = k

/-- The handler of a write is past it, and has not answered with an error. -/
structure Landed (R : RefPkg κ ρ) (c : Commit κ) (p : Handler κ ρ) : Prop where
  msg : p.msg = c.msg
  parsed : R.parse c.msg.root = .ok c.root
  past : (∃ root l, p.pc = .answer root l) ∨ p.pc.ended = true
  good : ∀ a, p.answer = some a → a.bad = false

/-- Writes and answers agree, and no push is written twice. -/
structure Tally (R : RefPkg κ ρ) (s : Server κ ρ) : Prop where
  handlers : ∀ (i : Nat) (p : Handler κ ρ), s.pushes[i]? = some p → Told R s.committed i p
  commits : ∀ c ∈ s.committed, ∃ p, s.pushes[c.id]? = some p ∧ Landed R c p
  once : (s.committed.map Commit.id).Nodup

theorem Told.mono {cs cs' : List (Commit κ)} (h : Told R cs i p)
    (hsub : ∀ c ∈ cs, c ∈ cs') : Told R cs' i p := by
  refine ⟨h.parsed, h.silent, fun root l hpc => hsub _ (h.written root l hpc), fun k hk => ?_⟩
  obtain ⟨c, hc, hid⟩ := h.told k hk
  exact ⟨c, hsub c hc, hid⟩

theorem Told.quiet {cs : List (Commit κ)} {refs : String → Option ρ}
    (h : Told R cs i p) (hq : Quiet R refs p p') : Told R cs i p' := by
  cases hq with
  | begin root hpc hr =>
    refine ⟨fun root' hr' => ?_, fun _ => h.silent (by rw [hpc]; rfl), by simp, h.told⟩
    obtain rfl : root = root' := by simpa [Pc.root] using hr'
    exact hr
  | received root hpc | passed root l hpc | encoded root l raw hpc =>
    exact ⟨fun root' hr' => h.parsed root' (by rw [hpc]; exact hr'),
      fun _ => h.silent (by rw [hpc]; rfl), by simp, h.told⟩
  | refused a next hover hlock ha =>
    refine ⟨fun root hr => ?_, fun hno => ?_, fun root l hpc' => ?_, fun k hk => ?_⟩
    · cases next <;> simp_all [Pc.root, Pc.ended]
    · rw [hover] at hno
      simp at hno
    · rw [show next = .answer root l from hpc'] at hover
      simp [Pc.ended] at hover
    · have hbad := ha (.ok k) hk
      simp [Answer.bad] at hbad
  | answered root l hpc a ha =>
    refine ⟨by simp [Pc.root], by simp [Pc.ended], by simp, fun k hk => ?_⟩
    obtain rfl : k = R.bytes root := Answer.ok.inj (ha (.ok k) hk)
    exact ⟨_, h.written root l hpc, rfl, rfl⟩

theorem Landed.quiet {refs : String → Option ρ} {c : Commit κ}
    (h : Landed R c p) (hq : Quiet R refs p p') : Landed R c p' := by
  have hpast := h.past
  cases hq with
  | answered root l hpc a ha =>
    refine ⟨h.msg, h.parsed, Or.inr rfl, fun b hb => ?_⟩
    rw [ha b hb]
    rfl
  | refused a next hover hlock ha hpc hn =>
    rcases hpast with ⟨root, l, hans⟩ | hover'
    · exact absurd hans (hn root l)
    · rw [hpc] at hover'
      simp at hover'
  | begin root hpc | received root hpc | passed root l hpc | encoded root l raw hpc =>
    simp [hpc, Pc.ended] at hpast

theorem Advance.committed (hs : Advance R s i p s') :
    ∀ c ∈ s.committed, c ∈ s'.committed := by
  intro c hc
  cases hs with
  | wrote => exact List.mem_append_left _ hc
  | _ => exact hc

/-- What a handler's step does to its own account. -/
theorem Told.own (h : Told R s.committed i p)
    (hi : s.pushes[i]? = some p) (hs : Advance R s i p s') (hi' : s'.pushes[i]? = some p') :
    Told R s'.committed i p' := by
  cases hs with
  | quiet q hq =>
    obtain rfl := own_eq hi hi'
    exact h.quiet hq
  | wrote root l raw hpc =>
    obtain rfl := own_eq hi hi'
    have hnone := h.silent (by rw [hpc]; rfl)
    refine ⟨fun root' hr => h.parsed root' (by rw [hpc]; exact hr), fun _ => hnone,
      fun root' l' hpc' => ?_, fun k hk => ?_⟩
    · obtain ⟨rfl, -⟩ := Pc.answer.inj hpc'
      exact List.mem_append_right _ (List.mem_singleton.mpr rfl)
    · rw [show p.answer = some (.ok k) from hk] at hnone
      simp at hnone
  | found root l hpc | made root hpc | acquired root l hpc =>
    obtain rfl := own_eq hi hi'
    exact ⟨fun root' hr => h.parsed root' (by rw [hpc]; exact hr),
      fun _ => h.silent (by rw [hpc]; rfl), by simp, h.told⟩
  | unlocked =>
    obtain rfl := own_eq hi hi'
    exact ⟨by simp [Pc.root], by simp [Pc.ended], by simp, h.told⟩

/-- A handler past its write stays past it. -/
theorem Landed.own {c : Commit κ} (h : Landed R c p)
    (hi : s.pushes[i]? = some p) (hs : Advance R s i p s') (hi' : s'.pushes[i]? = some p') :
    Landed R c p' := by
  have hpast := h.past
  cases hs with
  | quiet q hq =>
    obtain rfl := own_eq hi hi'
    exact h.quiet hq
  | unlocked =>
    obtain rfl := own_eq hi hi'
    exact ⟨h.msg, h.parsed, Or.inr rfl, h.good⟩
  | found root l hpc | made root hpc | acquired root l hpc | wrote root l raw hpc =>
    simp [hpc, Pc.ended] at hpast

theorem Tally.landed {c : Commit κ} (h : Tally R s)
    (hc : c ∈ s.committed) (hid : c.id = i) (hi : s.pushes[i]? = some p) : Landed R c p := by
  obtain ⟨q, hq, hl⟩ := h.commits c hc
  rw [hid, hi] at hq
  rw [Option.some.inj hq]
  exact hl

theorem Tally.advance (h : Tally R s)
    (hi : s.pushes[i]? = some p) (hs : Advance R s i p s') : Tally R s' := by
  have hlt : i < s.pushes.length := (List.getElem?_eq_some_iff.mp hi).1
  obtain ⟨p', hpush, hmsg⟩ := hs.pushes
  have hself : s'.pushes[i]? = some p' := by rw [hpush, List.getElem?_set_self hlt]
  have hother : ∀ j, j ≠ i → s'.pushes[j]? = s.pushes[j]? := by
    intro j hne
    rw [hpush, List.getElem?_set_ne (Ne.symm hne)]
  -- the writes there were before the step
  have hold : ∀ c ∈ s.committed, ∃ q, s'.pushes[c.id]? = some q ∧ Landed R c q := by
    intro c hc
    by_cases hne : c.id = i
    · exact ⟨p', by rw [hne]; exact hself, (h.landed hc hne hi).own hi hs hself⟩
    · obtain ⟨q, hq, hl⟩ := h.commits c hc
      exact ⟨q, by rw [hother c.id hne]; exact hq, hl⟩
  refine ⟨fun j q hj => ?_, ?_, ?_⟩
  · by_cases hne : j = i
    · subst hne
      exact (h.handlers j p hi).own hi hs hj
    · rw [hother j hne] at hj
      exact (h.handlers j q hj).mono hs.committed
  · cases hs with
    | wrote root l raw hpc =>
      intro c hc
      rcases List.mem_append.mp hc with hc | hc
      · exact hold c hc
      · obtain rfl : c = ⟨i, p.msg, root⟩ := List.mem_singleton.mp hc
        have htold := h.handlers i p hi
        refine ⟨_, List.getElem?_set_self hlt, rfl, htold.parsed root (by rw [hpc]; rfl),
          Or.inl ⟨root, l, rfl⟩, fun a ha => ?_⟩
        have hnone := htold.silent (by rw [hpc]; rfl)
        rw [show p.answer = some a from ha] at hnone
        simp at hnone
    | _ => exact hold
  · cases hs with
    | wrote root l raw hpc =>
      rw [List.map_append, List.nodup_append]
      refine ⟨h.once, by simp, ?_⟩
      intro a ha b hb hab
      obtain ⟨c, hc, rfl⟩ := List.mem_map.mp ha
      obtain rfl : b = i := by simpa using hb
      -- a handler that is about to write has not written
      have hpast := (h.landed hc hab hi).past
      simp [hpc, Pc.ended] at hpast
    | _ => exact h.once

theorem Tally.step (h : Tally R s) (hs : s.step R a = some s') : Tally R s' := by
  cases step_cases hs with
  | accept =>
    refine ⟨fun j q hj => ?_, fun c hc => ?_, h.once⟩
    · rcases get_concat hj with hj' | rfl
      · exact h.handlers j q hj'
      · exact ⟨by simp [Pc.root], fun _ => rfl, by simp, by simp⟩
    · obtain ⟨p, hp, hl⟩ := h.commits c hc
      have hlt : c.id < s.pushes.length := (List.getElem?_eq_some_iff.mp hp).1
      exact ⟨p, by rw [← hp]; exact List.getElem?_append_left hlt, hl⟩
  | advance i c p s' hi ha => exact h.advance hi ha
  | write => exact ⟨h.handlers, h.commits, h.once⟩

/-- Everything that is kept about the handlers and one name. -/
structure Inv (R : RefPkg κ ρ) (nm : String) (init : Option Bytes) (s : Server κ ρ) : Prop where
  locked : Locked R s
  checked : Checked R nm s
  serial : Serial R nm init s
  tally : Tally R s

theorem Inv.init {init : Option Bytes} {refs : String → Option ρ}
    (h : Holds R (refs nm) init) : Inv R nm init (Server.init refs) := by
  have hnone : ∀ (i : Nat) p, (Server.init (κ := κ) refs).pushes[i]? ≠ some p := by
    simp [Server.init]
  refine ⟨?_, ?_, ⟨Register.legal_nil, h⟩, ⟨?_, nofun, List.nodup_nil⟩⟩
  · exact fun i p hi => absurd hi (hnone i p)
  · exact fun i p hi => absurd hi (hnone i p)
  · exact fun i p hi => absurd hi (hnone i p)

/-- **Pushes to a name are linearizable.**  Where they are the only writers of the name, the
committed pushes, in the order of their writes, are legal writes to one register: a
compare-and-swap push finds what it expects.  The ref has the value of the last of them.
Each is the write of one push with its parsed root, no push is written twice, a push that
answers a mismatch or an error is not among them, and one that answers ok is. -/
theorem pushes_linearizable {nm : String} {init : Option Bytes} {refs : String → Option ρ}
    (hinit : Holds R (refs nm) init)
    (hs : Run.Steps (Server.step R) (OnlyPushes nm) (Server.init refs) s) :
    Register.Legal init (s.writes R nm) ∧
    Holds R (s.refs nm) (Register.valueAfter init (s.writes R nm)) ∧
    (∀ c ∈ s.committed, ∃ p, s.pushes[c.id]? = some p ∧ p.msg = c.msg ∧
      R.parse c.msg.root = .ok c.root) ∧
    (s.committed.map Commit.id).Nodup ∧
    ∀ (i : Nat) (p : Handler κ ρ), s.pushes[i]? = some p →
      (∀ code text cur, p.answer = some (.err code text cur) → i ∉ s.committed.map Commit.id) ∧
      (∀ k, p.answer = some (.ok k) → ∃ c ∈ s.committed, c.id = i ∧ R.bytes c.root = k) := by
  have h : Inv R nm init s := by
    refine hs.inv (Inv.init hinit) ?_
    intro s a s' h hw hs
    exact ⟨h.locked.step hs, h.checked.step h.locked hw hs,
      h.serial.step h.locked h.checked hw hs, h.tally.step hs⟩
  refine ⟨h.serial.legal, h.serial.value, ?_, h.tally.once, ?_⟩
  · intro c hc
    obtain ⟨p, hp, hl⟩ := h.tally.commits c hc
    exact ⟨p, hp, hl.msg, hl.parsed⟩
  · intro i p hi
    refine ⟨fun code text cur ha hmem => ?_, (h.tally.handlers i p hi).told⟩
    obtain ⟨c, hc, hid⟩ := List.mem_map.mp hmem
    have hgood := (h.tally.landed hc hid hi).good _ ha
    simp [Answer.bad] at hgood

/-- Keys are single bytes and a record is its key. -/
def smallRefs : RefPkg UInt8 UInt8 where
  bytes k := [k]
  parse
    | [b] => .ok b
    | _ => .error "not one byte"
  parse_bytes _ := rfl
  bytes_ne_nil _ := by simp
  hexError _ := ""
  validateName _ := .ok ()
  encode _ k _ := .ok k
  decodeKey k := .ok [k]
  decodeKey_encode h := by
    rw [Except.ok.inj h]
  quote name := name

/-- Two pushes expect the ref to be missing; both pass the early check, one is written, and
the other one is told about it. -/
def racingRun : List (Label UInt8) :=
  [.accept { name := "n", root := [1], cas := true },
    .accept { name := "n", root := [2], cas := true },
    .advance 0 {}, .advance 1 {}, .advance 0 {}, .advance 1 {}, .advance 0 {}, .advance 1 {},
    .advance 1 {}, .advance 1 {}, .advance 1 {}, .advance 1 {}, .advance 1 {}, .advance 1 {},
    .advance 0 {}, .advance 0 {}]

/-- The step is one of a push. -/
def Label.isPush : Label ρ → Bool
  | .write _ _ => false
  | _ => true

theorem pushes_linearizable_race : ∃ s : Server UInt8 UInt8,
    Run.Steps (Server.step smallRefs) (OnlyPushes "n") (Server.init fun _ => none) s ∧
    s.committed.map Commit.id = [1] ∧
    (s.pushes.map Handler.answer) =
      [some (.err codeCASMismatch "remote ref n changed" [2]), some (.ok [2])] ∧
    Register.Legal none (s.writes smallRefs "n") ∧
    Holds smallRefs (s.refs "n") (Register.valueAfter none (s.writes smallRefs "n")) := by
  have hrun : ∃ s ∈ Run.runIf (Server.step smallRefs) (fun _ a => a.isPush)
      (Server.init fun _ => none) racingRun,
        s.committed.map Commit.id = [1] ∧ s.pushes.map Handler.answer =
          [some (.err codeCASMismatch "remote ref n changed" [2]), some (.ok [2])] := by
    decide +kernel
  obtain ⟨s, hs, hprop⟩ := hrun
  have hsteps : Run.Steps (Server.step smallRefs) (OnlyPushes "n")
      (Server.init fun _ => none) s := by
    refine (Run.Steps.of_checked hs).mono ?_
    intro s a ha
    cases a with
    | write => simp [Label.isPush] at ha
    | accept | advance => trivial
  have hnone : Holds smallRefs none none := rfl
  obtain ⟨hlegal, hvalue, -⟩ := pushes_linearizable hnone hsteps
  exact ⟨s, hsteps, hprop.1, hprop.2, hlegal, hvalue⟩

end Push

end JobsIroh
