/-
The status KV follows the requests.

What was last decided to be written for a request is in the KV or among the ticker's writes,
as long as nobody else writes the entry in between.  Its fingerprint is noted, and a status
with the noted fingerprint is the one that was noted: the reason of a failure is not part of
it, but it does not come without a change of phase.  So a round of the ticker leaves the
current status of every request in the KV or on its way there.
-/
import JobsIroh.Proofs.Bumps

namespace JobsIroh

variable {κ : Type} [DecidableEq κ]

/-! ### The mirror -/

namespace Mirror

/-- What the entry holds once the ticker has made its writes. -/
def Due (m : Mirror κ) (rid : ReqID) (q : RequestStatus κ) : Prop :=
  (rid, q) ∈ m.writes ∨ rid ∉ m.writes.map (·.1) ∧ m.kv rid = some q

/-- The last decision on the entry of a registered request. -/
structure Recorded (m : Mirror κ) (rid : ReqID) (r : Request κ) (q : RequestStatus κ) : Prop where
  due : m.Due rid q
  noted : m.lastReqKV rid = some q.fingerprint
  targetK : q.targetK = r.k
  platform : q.platform = r.platform
  createdNs : q.createdNs = m.created rid
  /-- The fingerprint leaves the reason out; it does not come without a change of phase. -/
  error : q.error = r.failReason ∨ q.phase = .running ∧ r.failReason ≠ ""
  ended : q.phase ≠ .running → terminal (assembleLocked m.sched r) = true
  current : m.version = m.lastKVVersion → q = requestStatus m.sched (m.created rid) r

variable [Inhabited κ] {W : World κ} {st : Store κ} {m m' : Mirror κ} {rid : ReqID}
  {r r' : Request κ} {q : RequestStatus κ}

/-- The invariant of the mirror. -/
structure Kept (W : World κ) (st : Store κ) (m : Mirror κ) : Prop where
  reached : Reached W Run.Always st m.sched
  /-- A submit is under way, or the request is recorded. -/
  entries : ∀ rid r, m.sched.requests rid = some r →
    (∃ t scratch, .submitted rid t scratch ∈ m.sched.stack) ∨ ∃ q, m.Recorded rid r q
  distinct : (m.writes.map (·.1)).Nodup
  behind : m.lastKVVersion ≤ m.version
  known : ∀ rid r, m.sched.requests rid = some r → rid ∈ m.ids
  gone : ∀ rid ∈ m.deleted, rid ∈ m.ids ∧ m.sched.requests rid = none ∧
    rid ∉ m.writes.map (·.1) ∧ (m.kv rid = none ∨ rid ∈ m.purges)
  purging : ∀ rid ∈ m.purges, rid ∈ m.deleted

/-- The writes of a step succeed, none falls between the ticker's decision on the same entry
and its write, no delete does, and a verdict that has its job run again gets it published. -/
def orderly (m : Mirror κ) : Event κ → Bool
  | .sched a ok =>
    (m.sched.writesStatus a).all (fun rid => ok && !(m.writes.map (·.1)).contains rid) &&
      (match a with
        | .delete rid => !(m.writes.map (·.1)).contains rid
        | _ => true) &&
      Republishes m.sched a
  | .collect _ => true
  | .put ok | .purge _ ok => ok

omit [DecidableEq κ] [Inhabited κ] in
/-- The current status, freshly decided on. -/
theorem Recorded.fresh (hdue : m.Due rid (requestStatus m.sched (m.created rid) r))
    (hnoted : m.lastReqKV rid =
      some (requestStatus m.sched (m.created rid) r).fingerprint) :
    m.Recorded rid r (requestStatus m.sched (m.created rid) r) :=
  ⟨hdue, hnoted, rfl, rfl, rfl, Or.inl rfl,
    fun h => by simpa [terminal, requestStatus] using h, fun _ => rfl⟩

omit [DecidableEq κ] [Inhabited κ] in
/-- A status with the noted fingerprint is the one that was noted. -/
theorem Recorded.eq_status (h : m.Recorded rid r q)
    (hfp : (requestStatus m.sched (m.created rid) r).fingerprint = q.fingerprint) :
    q = requestStatus m.sched (m.created rid) r := by
  obtain ⟨hphase, hcounts⟩ := Fingerprint.mk.inj hfp
  have herror : q.error = r.failReason := by
    rcases h.error with heq | ⟨hrun, hfail⟩
    · exact heq
    · exfalso
      rw [hrun] at hphase
      change assembleLocked m.sched r = .running at hphase
      unfold assembleLocked at hphase
      by_cases hc : r.cancelled = true <;> simp [hc, hfail] at hphase
  have hk := h.targetK
  have hp := h.platform
  have hns := h.createdNs
  obtain ⟨phase, targetK, platform, counts, createdNs, error⟩ := q
  dsimp only at hphase hcounts herror hk hp hns
  rw [herror, hk, hp, hns, ← hphase, ← hcounts]
  rfl

/-! ### Steps of the scheduler -/

section

variable {a : Label κ} {s' : State κ}

omit [DecidableEq κ] [Inhabited κ] in
theorem note_writes (m : Mirror κ) (a : Label κ) :
    (m.note a).writes = m.writes ∧ (m.note a).kv = m.kv ∧ (m.note a).lastReqKV = m.lastReqKV ∧
      (m.note a).lastKVVersion = m.lastKVVersion := by
  cases a with
  | submit | delete => unfold note; dsimp only; split <;> exact ⟨rfl, rfl, rfl, rfl⟩
  | _ => exact ⟨rfl, rfl, rfl, rfl⟩

/-- The time of a request that is registered stays. -/
theorem note_created (hs : JobsIroh.step W m.sched a = some s')
    (hr : m.sched.requests rid = some r) : (m.note a).created rid = m.created rid := by
  cases a with
  | submit c i rid' =>
    have hne : rid ≠ rid' := by
      intro heq
      subst heq
      unfold JobsIroh.step at hs
      dsimp only at hs
      split at hs
      · cases hs
      rw [if_pos (by simp [hr])] at hs
      cases hs
    unfold note
    dsimp only
    split
    · rfl
    · exact Function.update_of_ne hne _ _
  | delete => unfold note; dsimp only; split <;> rfl
  | _ => rfl

/-- The mirror after a step, before the write that the step makes under the lock. -/
def moved (W : World κ) (m : Mirror κ) (a : Label κ) (s' : State κ) : Mirror κ :=
  { m.note a with
    sched := s', version := if bumps W m.sched a then m.version + 1 else m.version }

omit [Inhabited κ] in
theorem follow_eq (W : World κ) (m : Mirror κ) (a : Label κ) (ok : Bool) (s' : State κ) :
    m.follow W a ok s' =
      match m.sched.writesStatus a with
      | none => moved W m a s'
      | some rid => (moved W m a s').putRequestStatusLocked rid ok := rfl

/-- **The record of a request outlives a step** that does not write its entry. -/
theorem Recorded.moved (h : m.Recorded rid r q) (hk : Kept W st m) (ha : a ≠ .crash)
    (hs : JobsIroh.step W m.sched a = some s') (hpub : Republishes m.sched a = true)
    (hr : m.sched.requests rid = some r) (hr' : s'.requests rid = some r') :
    (moved W m a s').Recorded rid r' q := by
  obtain ⟨hwr, hkv, hlast, hver⟩ := note_writes m a
  obtain ⟨⟨hb, hf⟩, hpl⟩ := Reached.pipelines hk.reached
  have hcre : (Mirror.moved W m a s').created rid = m.created rid := note_created hs hr
  have hstep := step_request hb hs hr
  rw [hr'] at hstep
  -- what a step can do to the request
  obtain ⟨hrk, hrp, herr⟩ : r'.k = r.k ∧ r'.platform = r.platform ∧
      (r'.failReason = r.failReason ∨
        r'.failReason ≠ "" ∧ terminal (assembleLocked m.sched r) = false) := by
    generalize ho : some r' = o at hstep
    cases hstep with
    | starved now reason msg hmsg ht => rw [Option.some.inj ho]; exact ⟨rfl, rfl, Or.inr ⟨hmsg, ht⟩⟩
    | deleted | rejected | crashed => cases ho
    | _ => rw [Option.some.inj ho]; exact ⟨rfl, rfl, Or.inl rfl⟩
  refine ⟨?_, ?_, h.targetK.trans hrk.symm, h.platform.trans hrp.symm,
    h.createdNs.trans hcre.symm, ?_, ?_, ?_⟩
  · show (rid, q) ∈ (m.note a).writes ∨
      rid ∉ (m.note a).writes.map (·.1) ∧ (m.note a).kv rid = some q
    rw [hwr, hkv]
    exact h.due
  · show (m.note a).lastReqKV rid = _
    rw [hlast]
    exact h.noted
  · rcases herr with heq | ⟨hne, hrun⟩
    · rw [heq]
      exact h.error
    · -- the watchdog only fails what runs, and what runs was not noted as over
      refine Or.inr ⟨?_, hne⟩
      by_contra hover
      rw [h.ended hover] at hrun
      cases hrun
  · intro hover
    exact terminal_step hb hf hpl ha hs hr hr' (h.ended hover)
  · intro hsame
    change (if bumps W m.sched a then m.version + 1 else m.version) =
      (m.note a).lastKVVersion at hsame
    rw [hver] at hsame
    have hbehind := hk.behind
    cases hbump : bumps W m.sched a with
    | true =>
      rw [hbump, if_pos rfl] at hsame
      omega
    | false =>
      rw [hbump, if_neg Bool.false_ne_true] at hsame
      have hst := step_status hb ha hs hpub hbump rid (m.created rid)
      rw [hr, hr'] at hst
      rw [hcre]
      exact (h.current hsame).trans (Option.some.inj hst).symm

omit [DecidableEq κ] [Inhabited κ] in
/-- A write under the lock, when the ticker has none to make for the request. -/
theorem Due.put {q : RequestStatus κ} (hst : m.status rid = some q)
    (hno : rid ∉ m.writes.map (·.1)) : (m.putRequestStatusLocked rid true).Due rid q := by
  unfold putRequestStatusLocked
  rw [hst]
  exact Or.inr ⟨hno, Function.update_self _ _ _⟩

variable {rid' : ReqID}

section

omit [DecidableEq κ] [Inhabited κ]

theorem Due.put_ne (h : m.Due rid q) (hne : rid ≠ rid') (ok : Bool) :
    (m.putRequestStatusLocked rid' ok).Due rid q := by
  unfold putRequestStatusLocked
  split
  · exact h
  · rcases h with hin | ⟨hno, hkv⟩
    · exact Or.inl hin
    · refine Or.inr ⟨hno, ?_⟩
      show m.written ok rid' _ rid = _
      unfold written
      split
      · rw [Function.update_of_ne hne]
        exact hkv
      · exact hkv

/-- What a write under the lock touches. -/
theorem put_eq (m : Mirror κ) (rid : ReqID) (ok : Bool) :
    ∃ kv last, m.putRequestStatusLocked rid ok = { m with kv := kv, lastReqKV := last } := by
  unfold putRequestStatusLocked
  split
  · exact ⟨m.kv, m.lastReqKV, rfl⟩
  · exact ⟨_, _, rfl⟩

theorem status_some (h : m.sched.requests rid = some r) :
    m.status rid = some (requestStatus m.sched (m.created rid) r) := by
  unfold status
  rw [h]
  rfl

theorem Recorded.put (hst : m.sched.requests rid = some r) (hno : rid ∉ m.writes.map (·.1)) :
    (m.putRequestStatusLocked rid true).Recorded rid r
      (requestStatus m.sched (m.created rid) r) := by
  have hdue := Due.put (status_some hst) hno
  have hnoted : (m.putRequestStatusLocked rid true).lastReqKV rid =
      some (requestStatus m.sched (m.created rid) r).fingerprint := by
    unfold putRequestStatusLocked
    rw [status_some hst]
    exact Function.update_self _ _ _
  obtain ⟨kv, last, heq⟩ := put_eq m rid true
  rw [heq] at hdue hnoted ⊢
  exact Recorded.fresh hdue hnoted

theorem Recorded.put_ne (h : m.Recorded rid r q) (hne : rid ≠ rid') (ok : Bool) :
    (m.putRequestStatusLocked rid' ok).Recorded rid r q := by
  have hdue := h.due.put_ne hne ok
  have hnoted : (m.putRequestStatusLocked rid' ok).lastReqKV rid = some q.fingerprint := by
    unfold putRequestStatusLocked
    split
    · exact h.noted
    · exact (Function.update_of_ne hne _ _).trans h.noted
  obtain ⟨kv, last, heq⟩ := put_eq m rid' ok
  rw [heq] at hdue hnoted ⊢
  exact ⟨hdue, hnoted, h.targetK, h.platform, h.createdNs, h.error, h.ended, h.current⟩

/-- An id that is noted as known or deleted was so before, or the step says so. -/
theorem note_ids (m : Mirror κ) (a : Label κ) :
    (∀ rid ∈ m.ids, rid ∈ (m.note a).ids) ∧
      (∀ c i rid, a = .submit c i rid → m.sched.closed = false → rid ∈ (m.note a).ids) ∧
      ((m.note a).deleted = m.deleted ∧ (m.note a).purges = m.purges ∨
        ∃ rid, a = .delete rid ∧ (m.sched.requests rid).isSome ∧
          (m.note a).deleted = rid :: m.deleted ∧ (m.note a).purges = rid :: m.purges) := by
  cases a with
  | submit =>
    unfold note
    dsimp only
    split
    · rename_i hclosed
      refine ⟨fun _ h => h, fun c' i' rid' heq hopen => ?_, Or.inl ⟨rfl, rfl⟩⟩
      rw [hclosed] at hopen
      cases hopen
    · refine ⟨fun _ h => List.mem_cons_of_mem _ h, fun c' i' rid' heq _ => ?_, Or.inl ⟨rfl, rfl⟩⟩
      obtain ⟨-, -, rfl⟩ := Label.submit.inj heq
      exact List.mem_cons_self
  | delete rid =>
    unfold note
    dsimp only
    split
    · rename_i hsome
      exact ⟨fun _ h => h, nofun,
        Or.inr ⟨rid, rfl, hsome, rfl, rfl⟩⟩
    · exact ⟨fun _ h => h, nofun, Or.inl ⟨rfl, rfl⟩⟩
  | _ => exact ⟨fun _ h => h, nofun, Or.inl ⟨rfl, rfl⟩⟩

end

/-- The part of the invariant that has nothing to do with the write of the step. -/
theorem Kept.moved_gone (hk : Kept W st m) (hadm : m.admits a = true)
    (hs : JobsIroh.step W m.sched a = some s')
    (hdel : ∀ rid, a = .delete rid → rid ∉ m.writes.map (·.1)) :
    ∀ rid ∈ (moved W m a s').deleted, rid ∈ (moved W m a s').ids ∧ s'.requests rid = none ∧
      rid ∉ (moved W m a s').writes.map (·.1) ∧
      ((moved W m a s').kv rid = none ∨ rid ∈ (moved W m a s').purges) := by
  obtain ⟨hwr, hkv, -⟩ := note_writes m a
  obtain ⟨hids, -, hnew⟩ := note_ids m a
  have hb := (Reached.fenced hk.reached).1
  have hold : ∀ rid ∈ m.deleted, rid ∈ (m.note a).ids ∧ s'.requests rid = none ∧
      rid ∉ (m.note a).writes.map (·.1) ∧ (m.kv rid = none ∨ rid ∈ m.purges) := by
    intro rid hin
    obtain ⟨hid, hnone, hno, hgone⟩ := hk.gone rid hin
    refine ⟨hids rid hid, step_no_request hb hs hnone fun c i heq => ?_,
      by rw [hwr]; exact hno, hgone⟩
    rw [heq] at hadm
    simp [admits, hid] at hadm
  intro rid hin
  change rid ∈ (m.note a).deleted at hin
  show rid ∈ (m.note a).ids ∧ s'.requests rid = none ∧ rid ∉ (m.note a).writes.map (·.1) ∧
    ((m.note a).kv rid = none ∨ rid ∈ (m.note a).purges)
  rw [hkv]
  rcases hnew with ⟨hd, hp⟩ | ⟨rid', rfl, hsome, hd, hp⟩
  · rw [hd] at hin
    rw [hp]
    exact hold rid hin
  · rw [hd] at hin
    rw [hp]
    rcases List.mem_cons.mp hin with rfl | hin
    · obtain ⟨r, hr⟩ := Option.isSome_iff_exists.mp hsome
      refine ⟨hids rid (hk.known rid r hr), ?_, by rw [hwr]; exact hdel rid rfl,
        Or.inr List.mem_cons_self⟩
      obtain ⟨-, rfl⟩ := whenFree_some hs
      unfold delete
      rw [hr]
      exact Function.update_self _ _ _
    · obtain ⟨h₁, h₂, h₃, h₄⟩ := hold rid hin
      exact ⟨h₁, h₂, h₃, h₄.imp id (List.mem_cons_of_mem _)⟩

omit [DecidableEq κ] [Inhabited κ] in
theorem put_kv_none {ok : Bool} (hr : m.sched.requests rid = none)
    (hkv : m.kv rid = none) : (m.putRequestStatusLocked rid' ok).kv rid = none := by
  unfold putRequestStatusLocked
  split
  · exact hkv
  · rename_i q hst
    have hne : rid ≠ rid' := by
      intro heq
      rw [heq] at hr
      unfold status at hst
      rw [hr] at hst
      cases hst
    show m.written ok rid' _ rid = none
    unfold written
    split
    · rw [Function.update_of_ne hne]
      exact hkv
    · exact hkv

/-- **The scheduler keeps the mirror.** -/
theorem Kept.sched {ok : Bool} (hk : Kept W st m) (hord : m.orderly (.sched a ok) = true)
    (hadm : m.admits a = true) (hs : JobsIroh.step W m.sched a = some s') :
    Kept W st (m.follow W a ok s') := by
  have ha : a ≠ .crash := by
    intro ha
    rw [ha] at hadm
    cases hadm
  have hb := (Reached.fenced hk.reached).1
  simp only [orderly, Bool.and_eq_true] at hord
  obtain ⟨⟨hwrite, hdel⟩, hpub⟩ := hord
  have hdel' : ∀ rid, a = .delete rid → rid ∉ m.writes.map (·.1) := by
    intro rid heq
    subst heq
    simpa using hdel
  obtain ⟨hwr, hkv, hlast, hver⟩ := note_writes m a
  obtain ⟨hids, hsub, hnew⟩ := note_ids m a
  have hgone := hk.moved_gone hadm hs hdel'
  have hreach : Reached W Run.Always st s' := hk.reached.tail trivial hs
  have hdist : ((moved W m a s').writes.map (·.1)).Nodup := by
    show ((m.note a).writes.map (·.1)).Nodup
    rw [hwr]
    exact hk.distinct
  have hbehind : (moved W m a s').lastKVVersion ≤ (moved W m a s').version := by
    show (m.note a).lastKVVersion ≤ if bumps W m.sched a then m.version + 1 else m.version
    have := hk.behind
    split <;> omega
  have hknown : ∀ rid r, s'.requests rid = some r → rid ∈ (moved W m a s').ids := by
    intro rid r' hr'
    show rid ∈ (m.note a).ids
    cases hr : m.sched.requests rid with
    | some r => exact hids rid (hk.known rid r hr)
    | none =>
      obtain ⟨-, c, i, heq, hopen⟩ := new_request_joins hb hs hr hr'
      exact hsub c i rid heq hopen
  have hpurge : ∀ rid ∈ (moved W m a s').purges, rid ∈ (moved W m a s').deleted := by
    intro rid hin
    change rid ∈ (m.note a).purges at hin
    show rid ∈ (m.note a).deleted
    rcases hnew with ⟨hd, hp⟩ | ⟨rid', -, -, hd, hp⟩
    · rw [hp] at hin
      rw [hd]
      exact hk.purging rid hin
    · rw [hp] at hin
      rw [hd]
      exact (List.mem_cons.mp hin).elim (fun h => h ▸ List.mem_cons_self)
        fun h => List.mem_cons_of_mem _ (hk.purging rid h)
  -- the requests whose entry the step does not write
  have hentries : ∀ rid r', s'.requests rid = some r' → m.sched.writesStatus a ≠ some rid →
      (∃ t scratch, .submitted rid t scratch ∈ s'.stack) ∨
        ∃ q, (moved W m a s').Recorded rid r' q := by
    intro rid r' hr' hno
    cases hr : m.sched.requests rid with
    | none => exact Or.inl (new_request_joins hb hs hr hr').1
    | some r =>
      rcases hk.entries rid r hr with ⟨t, scratch, hfr⟩ | ⟨q, hq⟩
      · exact Or.inl ⟨t, scratch, submitted_stays hb ha hs hfr hno⟩
      · exact Or.inr ⟨q, hq.moved hk ha hs hpub hr hr'⟩
  rw [follow_eq]
  cases hw : m.sched.writesStatus a with
  | none =>
    refine ⟨hreach, fun rid r' hr' => hentries rid r' hr' (by simp [hw]), hdist, hbehind, hknown,
      hgone, hpurge⟩
  | some rid₀ =>
    rw [hw] at hwrite
    obtain ⟨hok, hout⟩ : ok = true ∧ rid₀ ∉ m.writes.map (·.1) := by simpa using hwrite
    subst hok
    have hput : ∀ rid r', s'.requests rid = some r' →
        (∃ t scratch, .submitted rid t scratch ∈ s'.stack) ∨
          ∃ q, ((moved W m a s').putRequestStatusLocked rid₀ true).Recorded rid r' q := by
      intro rid r' hr'
      by_cases hid : rid = rid₀
      · subst hid
        refine Or.inr ⟨_, Recorded.put hr' ?_⟩
        show rid ∉ (m.note a).writes.map (·.1)
        rw [hwr]
        exact hout
      · rcases hentries rid r' hr' (by rw [hw]; simpa using fun h => hid h.symm) with hj | ⟨q, hq⟩
        · exact Or.inl hj
        · exact Or.inr ⟨q, hq.put_ne hid true⟩
    have hnone : ∀ rid, s'.requests rid = none → (moved W m a s').kv rid = none →
        ((moved W m a s').putRequestStatusLocked rid₀ true).kv rid = none :=
      fun rid => put_kv_none (m := moved W m a s')
    obtain ⟨kv, last, heq⟩ := put_eq (moved W m a s') rid₀ true
    rw [heq] at hput hnone
    dsimp only
    rw [heq]
    refine ⟨hreach, hput, hdist, hbehind, hknown, fun rid hin => ?_, hpurge⟩
    obtain ⟨h₁, h₂, h₃, h₄⟩ := hgone rid hin
    exact ⟨h₁, h₂, h₃, h₄.imp (hnone rid h₂) id⟩

end

/-! ### The ticker and the purges -/

omit [DecidableEq κ] [Inhabited κ] in
theorem changed_eq_some {e : ReqID × RequestStatus κ} (h : m.changed rid = some e) :
    e.1 = rid ∧ m.status rid = some e.2 := by
  unfold changed at h
  split at h
  · cases h
  · rename_i q hq
    split at h
    · cases h
    · obtain rfl := Option.some.inj h
      exact ⟨rfl, hq⟩

variable {order : List ReqID}

omit [DecidableEq κ] [Inhabited κ] in
/-- The ticker writes an entry at most once in a round. -/
theorem collected_distinct (h : order.Nodup) :
    ((order.filterMap m.changed).map (·.1)).Nodup := by
  induction order with
  | nil => exact List.nodup_nil
  | cons rid order ih =>
    obtain ⟨hnot, hrest⟩ := List.nodup_cons.mp h
    rw [List.filterMap_cons]
    split
    · exact ih hrest
    · rename_i e he
      rw [List.map_cons, List.nodup_cons]
      refine ⟨fun hin => ?_, ih hrest⟩
      obtain ⟨e', hin', heq⟩ := List.mem_map.mp hin
      obtain ⟨rid', hrid', he'⟩ := List.mem_filterMap.mp hin'
      rw [(changed_eq_some he).1, (changed_eq_some he').1] at heq
      exact hnot (heq ▸ hrid')

omit [DecidableEq κ] [Inhabited κ] in
/-- What is due after a round: what is new is written, and the rest is there. -/
theorem collected_due (hcov : m.covers order = true) (hid : rid ∈ m.ids)
    (hst : m.status rid = some q)
    (hold : m.lastReqKV rid = some q.fingerprint → m.kv rid = some q) :
    (rid, q) ∈ order.filterMap m.changed ∨
      rid ∉ (order.filterMap m.changed).map (·.1) ∧ m.kv rid = some q := by
  by_cases hfp : m.lastReqKV rid = some q.fingerprint
  · refine Or.inr ⟨fun hin => ?_, hold hfp⟩
    obtain ⟨e, hin, heq⟩ := List.mem_map.mp hin
    obtain ⟨rid', -, he⟩ := List.mem_filterMap.mp hin
    have hrid := (changed_eq_some he).1.symm.trans heq
    subst hrid
    unfold changed at he
    rw [hst] at he
    dsimp only at he
    rw [if_pos hfp] at he
    cases he
  · have hin : rid ∈ order := by
      unfold covers at hcov
      simp only [Bool.and_eq_true, List.all_eq_true] at hcov
      have hreg : m.sched.requests rid ≠ none := by
        intro hnone
        unfold status at hst
        rw [hnone] at hst
        cases hst
      simpa [Option.isNone_iff_eq_none, hreg] using hcov.2 rid hid
    refine Or.inl (List.mem_filterMap.mpr ⟨rid, hin, ?_⟩)
    unfold changed
    rw [hst]
    dsimp only
    rw [if_neg hfp]

theorem Kept.collect (hk : Kept W st m) (hfree : m.sched.free = true)
    (hnil : m.writes = []) (hcov : m.covers order = true) :
    Kept W st (m.collect order) ∧ (m.collect order).version = (m.collect order).lastKVVersion := by
  unfold Mirror.collect
  split
  · rename_i hsame
    exact ⟨hk, hsame⟩
  refine ⟨?_, rfl⟩
  have hnodup : order.Nodup := by
    unfold covers at hcov
    simp only [Bool.and_eq_true] at hcov
    simpa using hcov.1
  refine ⟨hk.reached, fun rid r hr => Or.inr ⟨requestStatus m.sched (m.created rid) r, ?_⟩,
    collected_distinct hnodup, Nat.le_refl _, hk.known, fun rid hin => ?_, hk.purging⟩
  · change m.sched.requests rid = some r at hr
    rcases hk.entries rid r hr with ⟨t, scratch, hfr⟩ | ⟨q, hq⟩
    · rw [(State.free_iff _).mp hfree |>.1] at hfr
      cases hfr
    · refine Recorded.fresh ?_ ?_
      · refine collected_due hcov (hk.known rid r hr) (status_some hr) fun hfp => ?_
        -- a known fingerprint is that of the record, and the record is in the KV
        have heq := hq.eq_status (Option.mem_unique hfp hq.noted)
        rcases hq.due with hin | ⟨-, hkv⟩
        · rw [hnil] at hin
          cases hin
        · rw [hkv, heq]
      · show (m.status rid).map (·.fingerprint) = _
        rw [status_some hr]
        rfl
  · obtain ⟨h₁, h₂, -, h₄⟩ := hk.gone rid hin
    refine ⟨h₁, h₂, fun hw => ?_, h₄⟩
    obtain ⟨e, hin', heq⟩ := List.mem_map.mp hw
    obtain ⟨rid', -, he⟩ := List.mem_filterMap.mp hin'
    obtain ⟨heq', hst⟩ := changed_eq_some he
    rw [← heq', heq] at hst
    unfold status at hst
    rw [h₂] at hst
    cases hst

variable {rid' : ReqID}

omit [DecidableEq κ] [Inhabited κ] in
/-- The ticker's write moves what is due from its list into the KV. -/
theorem Due.written {q' : RequestStatus κ} {rest : List (ReqID × RequestStatus κ)}
    (h : m.Due rid q) (hw : m.writes = (rid', q') :: rest)
    (hd : (m.writes.map (·.1)).Nodup) :
    Due { m with writes := rest, kv := m.written true rid' (some q') } rid q := by
  rw [hw, List.map_cons, List.nodup_cons] at hd
  unfold Due at h ⊢
  rw [hw] at h
  show _ ∨ rid ∉ rest.map (·.1) ∧ Function.update m.kv rid' (some q') rid = some q
  by_cases hid : rid = rid'
  · subst hid
    rw [Function.update_self]
    rcases h with hin | ⟨hno, -⟩
    · rcases List.mem_cons.mp hin with heq | hin
      · obtain ⟨-, rfl⟩ := Prod.mk.inj heq
        exact Or.inr ⟨hd.1, rfl⟩
      · exact absurd (List.mem_map.mpr ⟨_, hin, rfl⟩) hd.1
    · exact absurd List.mem_cons_self hno
  · rw [Function.update_of_ne hid]
    rcases h with hin | ⟨hno, hkv⟩
    · rcases List.mem_cons.mp hin with heq | hin
      · exact absurd (Prod.mk.inj heq).1 hid
      · exact Or.inl hin
    · exact Or.inr ⟨fun hin => hno (List.mem_cons_of_mem _ hin), hkv⟩

omit [DecidableEq κ] [Inhabited κ] in
theorem Recorded.of_due (h : m.Recorded rid r q) {writes : List (ReqID × RequestStatus κ)}
    {kv : ReqID → Option (RequestStatus κ)} {purges : List ReqID}
    (hdue : Due { m with writes := writes, kv := kv, purges := purges } rid q) :
    Recorded { m with writes := writes, kv := kv, purges := purges } rid r q :=
  ⟨hdue, h.noted, h.targetK, h.platform, h.createdNs, h.error, h.ended, h.current⟩

theorem Kept.put {q' : RequestStatus κ} {rest : List (ReqID × RequestStatus κ)}
    (hk : Kept W st m) (hw : m.writes = (rid', q') :: rest) :
    Kept W st { m with writes := rest, kv := m.written true rid' (some q') } := by
  refine ⟨hk.reached, fun rid r hr => ?_, ?_, hk.behind, hk.known, fun rid hin => ?_, hk.purging⟩
  · rcases hk.entries rid r hr with hj | ⟨q, hq⟩
    · exact Or.inl hj
    · exact Or.inr ⟨q, hq.of_due (hq.due.written hw hk.distinct)⟩
  · have hd := hk.distinct
    rw [hw, List.map_cons, List.nodup_cons] at hd
    exact hd.2
  · obtain ⟨h₁, h₂, h₃, h₄⟩ := hk.gone rid hin
    rw [hw, List.map_cons, List.mem_cons, not_or] at h₃
    refine ⟨h₁, h₂, h₃.2, h₄.imp (fun hkv => ?_) id⟩
    exact (Function.update_of_ne h₃.1 _ _).trans hkv

omit [DecidableEq κ] [Inhabited κ] in
/-- A purge is of a request that is not registered. -/
theorem Due.purged {purges : List ReqID} (h : m.Due rid q) (hne : rid ≠ rid') :
    Due { m with purges := purges, kv := m.written true rid' none } rid q :=
  h.imp id fun hkv => ⟨hkv.1, (Function.update_of_ne hne _ _).trans hkv.2⟩

theorem Kept.registered_ne (hk : Kept W st m) (hr : m.sched.requests rid = some r)
    (hin : rid' ∈ m.purges) : rid ≠ rid' := by
  intro heq
  rw [heq, (hk.gone rid' (hk.purging rid' hin)).2.1] at hr
  cases hr

theorem Kept.purge {i : Nat} (hk : Kept W st m) (hi : m.purges[i]? = some rid') :
    Kept W st { m with purges := m.purges.eraseIdx i, kv := m.written true rid' none } := by
  have hmem := List.mem_of_getElem? hi
  refine ⟨hk.reached, fun rid r hr => ?_, hk.distinct, hk.behind, hk.known, fun rid hin => ?_,
    fun rid hin => hk.purging rid (List.mem_of_mem_eraseIdx hin)⟩
  · rcases hk.entries rid r hr with hj | ⟨q, hq⟩
    · exact Or.inl hj
    · exact Or.inr ⟨q, hq.of_due (hq.due.purged (hk.registered_ne hr hmem))⟩
  · obtain ⟨h₁, h₂, h₃, h₄⟩ := hk.gone rid hin
    refine ⟨h₁, h₂, h₃, ?_⟩
    show Function.update m.kv rid' none rid = none ∨ rid ∈ m.purges.eraseIdx i
    by_cases hid : rid = rid'
    · subst hid
      exact Or.inl (Function.update_self _ _ _)
    · rw [Function.update_of_ne hid]
      exact h₄.imp id fun hp => Run.mem_eraseIdx_of_ne hi hp hid

/-! ### Whole runs -/

theorem Kept.init (W : World κ) (st : Store κ) (kv : ReqID → Option (RequestStatus κ)) :
    Kept W st (init st kv) := by
  refine ⟨Run.Steps.refl, fun rid r hr => ?_, List.nodup_nil, Nat.le_refl _, fun rid r hr => ?_,
    fun rid hin => ?_, fun rid hin => ?_⟩
  · cases hr
  · cases hr
  · cases hin
  · cases hin

/-- **Every orderly step keeps the mirror.** -/
theorem Kept.step {e : Event κ} (hk : Kept W st m) (hord : m.orderly e = true)
    (hs : Mirror.step W m e = some m') : Kept W st m' := by
  cases e with
  | sched =>
    unfold Mirror.step at hs
    dsimp only at hs
    split at hs
    · rename_i hadm
      obtain ⟨s', hs', rfl⟩ := Option.map_eq_some_iff.mp hs
      exact hk.sched hord hadm hs'
    · cases hs
  | collect =>
    unfold Mirror.step at hs
    dsimp only at hs
    split at hs
    · rename_i hc
      simp only [Bool.and_eq_true, List.isEmpty_iff] at hc
      rw [← Option.some.inj hs]
      exact (hk.collect hc.1.1 hc.1.2 hc.2).1
    · cases hs
  | put ok =>
    obtain rfl : ok = true := hord
    unfold Mirror.step at hs
    dsimp only at hs
    split at hs
    · cases hs
    · rename_i rid q rest hw
      rw [← Option.some.inj hs]
      exact hk.put hw
  | purge i ok =>
    obtain rfl : ok = true := hord
    unfold Mirror.step at hs
    dsimp only at hs
    split at hs
    · cases hs
    · rename_i rid hi
      rw [← Option.some.inj hs]
      exact hk.purge hi

/-- The entries of the registered requests will hold their current statuses. -/
def Settled (m : Mirror κ) : Prop :=
  ∀ rid r, m.sched.requests rid = some r → m.Due rid (requestStatus m.sched (m.created rid) r)

/-- The step changes no status: none comes, none goes, none is another. -/
def Quiet (W : World κ) (m : Mirror κ) (e : Event κ) : Prop :=
  ∀ m', step W m e = some m' → ∀ rid, m'.status rid = m.status rid

theorem Settled.step {e : Event κ} (h : m.Settled) (hk : Kept W st m) (hord : m.orderly e = true)
    (hq : Quiet W m e) (hs : Mirror.step W m e = some m') : m'.Settled := by
  have hstat := hq m' hs
  cases e with
  | sched a ok =>
    unfold Mirror.step at hs
    dsimp only at hs
    split at hs
    · obtain ⟨s', hs', rfl⟩ := Option.map_eq_some_iff.mp hs
      intro rid r' hr'
      simp only [orderly, Bool.and_eq_true] at hord
      obtain ⟨⟨hwrite, -⟩, -⟩ := hord
      obtain ⟨hwr, hkv, -⟩ := note_writes m a
      -- the status is the one it was, so it is due already
      have hdue : (moved W m a s').Due rid
          (requestStatus (m.follow W a ok s').sched ((m.follow W a ok s').created rid) r') := by
        have hst := hstat rid
        rw [status_some hr'] at hst
        obtain ⟨r, hr, heq⟩ := Option.map_eq_some_iff.mp hst.symm
        rw [← heq]
        show (rid, _) ∈ (m.note a).writes ∨ rid ∉ (m.note a).writes.map (·.1) ∧
          (m.note a).kv rid = some _
        rw [hwr, hkv]
        exact h rid r hr
      rw [follow_eq] at hdue hr' ⊢
      cases hw : m.sched.writesStatus a with
      | none =>
        rw [hw] at hdue hr'
        exact hdue
      | some rid₀ =>
        rw [hw] at hdue hr' hwrite
        obtain ⟨hok, hout⟩ : ok = true ∧ rid₀ ∉ m.writes.map (·.1) := by simpa using hwrite
        subst hok
        by_cases hid : rid = rid₀
        · subst hid
          have hno : rid ∉ (m.note a).writes.map (·.1) := by
            rw [hwr]
            exact hout
          obtain ⟨kv, last, heq⟩ := put_eq (moved W m a s') rid true
          dsimp only at hr' ⊢
          rw [heq] at hr'
          have hput := Due.put (m := moved W m a s') (status_some hr') hno
          rw [heq] at hput ⊢
          exact hput
        · exact hdue.put_ne hid true
    · cases hs
  | collect =>
    unfold Mirror.step at hs
    dsimp only at hs
    split at hs
    · rename_i hc
      simp only [Bool.and_eq_true, List.isEmpty_iff] at hc
      rw [← Option.some.inj hs]
      unfold Mirror.collect
      split
      · exact h
      · intro rid r hr
        refine collected_due hc.2 (hk.known rid r hr) (status_some hr) fun _ => ?_
        rcases h rid r hr with hin | ⟨-, hkv⟩
        · rw [hc.1.2] at hin
          cases hin
        · exact hkv
    · cases hs
  | put ok =>
    obtain rfl : ok = true := hord
    unfold Mirror.step at hs
    dsimp only at hs
    split at hs
    · cases hs
    · rename_i rid q rest hw
      rw [← Option.some.inj hs]
      exact fun rid r hr => (h rid r hr).written hw hk.distinct
  | purge i ok =>
    obtain rfl : ok = true := hord
    unfold Mirror.step at hs
    dsimp only at hs
    split at hs
    · cases hs
    · rename_i rid' hi
      rw [← Option.some.inj hs]
      exact fun rid r hr => (h rid r hr).purged (hk.registered_ne hr (List.mem_of_getElem? hi))

/-- A round of the ticker settles the mirror. -/
theorem Kept.collect_settled (hk : Kept W st m)
    (hs : Mirror.step W m (.collect order) = some m') : m'.Settled := by
  unfold Mirror.step at hs
  dsimp only at hs
  split at hs
  · rename_i hc
    simp only [Bool.and_eq_true, List.isEmpty_iff] at hc
    obtain ⟨hk', hver⟩ := hk.collect hc.1.1 hc.1.2 hc.2
    rw [← Option.some.inj hs]
    have hfree : (m.collect order).sched.free = true := by
      have hsched : (m.collect order).sched = m.sched := by
        unfold Mirror.collect
        split <;> rfl
      rw [hsched]
      exact hc.1.1
    intro rid r hr
    rcases hk'.entries rid r hr with ⟨t, scratch, hfr⟩ | ⟨q, hq⟩
    · rw [(State.free_iff _).mp hfree |>.1] at hfr
      cases hfr
    · rw [← hq.current hver]
      exact hq.due
  · cases hs

/-- **The mirror converges**, in every run in which all writes succeed, no submit, cancel or
delete falls between the ticker's decision on the same entry and its write, and a verdict that
has its job run again gets it published: when the ticker has gone round since the last change
and no write is outstanding, the entry of every registered request is its status, and a deleted
request has none. -/
theorem mirror_converges {kv : ReqID → Option (RequestStatus κ)} {m₁ m₂ : Mirror κ}
    {order : List ReqID} (hrun : Run.Steps (step W) (fun m e => m.orderly e = true) (init st kv) m)
    (hround : step W m (.collect order) = some m₁)
    (hlast : Run.Steps (step W) (fun m e => m.orderly e = true ∧ Quiet W m e) m₁ m₂)
    (hwrites : m₂.writes = []) (hpurges : m₂.purges = []) :
    (∀ rid r, m₂.sched.requests rid = some r →
      m₂.kv rid = some (requestStatus m₂.sched (m₂.created rid) r)) ∧
    ∀ rid ∈ m₂.deleted, m₂.kv rid = none := by
  have hk := hrun.inv (Kept.init W st kv) fun m e m' hk hord hs => hk.step hord hs
  have hk₁ := hk.step rfl hround
  have hall := hlast.inv (I := fun m => Kept W st m ∧ m.Settled) ⟨hk₁, hk.collect_settled hround⟩
    fun m e m' hi hp hs => ⟨hi.1.step hp.1 hs, hi.2.step hi.1 hp.1 hp.2 hs⟩
  refine ⟨fun rid r hr => ?_, fun rid hin => ?_⟩
  · rcases hall.2 rid r hr with hin | ⟨-, hkv⟩
    · rw [hwrites] at hin
      cases hin
    · exact hkv
  · rcases (hall.1.gone rid hin).2.2.2 with hkv | hp
    · exact hkv
    · rw [hpurges] at hp
      cases hp

/-- The ticker's writes change no status. -/
theorem put_quiet (W : World κ) (m : Mirror κ) (ok : Bool) : Quiet W m (.put ok) := by
  intro m' hs rid
  unfold Mirror.step at hs
  dsimp only at hs
  split at hs
  · cases hs
  · rw [← Option.some.inj hs]
    rfl

/-- The request `r1` is accepted, and its source fails. -/
def sourceFails : List (Event UInt8) :=
  (submitRun 0 9).map (.sched · true) ++ [.sched (.result {} fetchFails) true]

abbrev emptyMirror : Mirror UInt8 := init (smallStore []) (fun _ => none)

/-- The ticker goes round after the source of the build has failed and writes the entry. -/
theorem mirror_converges_source_failed : ∃ (m : Mirror UInt8) (r : Request UInt8),
    m.sched.requests "r1" = some r ∧ assembleLocked m.sched r = .failed ∧
    m.kv "r1" = some (requestStatus m.sched (m.created "r1") r) := by
  have hrun : ∃ m ∈ Run.runIf (step fetchWorld) orderly emptyMirror sourceFails,
      ∃ m₁ ∈ step fetchWorld m (.collect ["r1"]), m₁.orderly (.put true) = true ∧
        ∃ m₂ ∈ step fetchWorld m₁ (.put true), m₂.writes.isEmpty = true ∧
          m₂.purges.isEmpty = true ∧
            ∃ r ∈ m₂.sched.requests "r1", assembleLocked m₂.sched r = .failed := by
    decide +kernel
  obtain ⟨m, hm, m₁, hm₁, hput, m₂, hm₂, hw, hp, r, hr, hph⟩ := hrun
  have hsteps := Run.Steps.of_checked hm
  refine ⟨m₂, r, hr, hph, ?_⟩
  exact (mirror_converges hsteps hm₁
    (Run.Steps.refl.tail ⟨hput, put_quiet fetchWorld m₁ true⟩ hm₂) (List.isEmpty_iff.mp hw)
      (List.isEmpty_iff.mp hp)).1 "r1" r hr

/-- After these events and one more round of the ticker nothing is outstanding, and the entry
of the request `r1` is not its status. -/
def StaleAfter (events : List (Event UInt8)) : Prop :=
  ∃ m m₁ r, Run.run (step fetchWorld) emptyMirror events = some m ∧
    step fetchWorld m (.collect ["r1"]) = some m₁ ∧ m₁.writes = [] ∧ m₁.purges = [] ∧
    m₁.sched.requests "r1" = some r ∧
    m₁.kv "r1" ≠ some (requestStatus m₁.sched (m₁.created "r1") r)

theorem StaleAfter.of_run {events : List (Event UInt8)}
    (h : ∃ m ∈ Run.run (step fetchWorld) emptyMirror events,
      ∃ m₁ ∈ step fetchWorld m (.collect ["r1"]), m₁.writes.isEmpty = true ∧
        m₁.purges.isEmpty = true ∧ ∃ r ∈ m₁.sched.requests "r1",
          m₁.kv "r1" ≠ some (requestStatus m₁.sched (m₁.created "r1") r)) : StaleAfter events := by
  obtain ⟨m, hm, m₁, hm₁, hw, hp, r, hr, hne⟩ := h
  exact ⟨m, m₁, r, hm, hm₁, List.isEmpty_iff.mp hw, List.isEmpty_iff.mp hp, hr, hne⟩

/-- The ticker has decided to write the entry of a request that failed. The request is deleted
and its entry purged; then the ticker writes it, and nothing takes it away again. If the
request is cancelled in between, it goes on to be shown as failed. A verdict that has its job
run again puts the node back to waiting; when the publish fails, the version stays and the
ticker does not look. -/
theorem mirror_diverges :
    (∃ m m₁ : Mirror UInt8, Run.run (step fetchWorld) emptyMirror (sourceFails ++
        [.collect ["r1"], .sched (.delete "r1") true, .purge 0 true, .put true]) = some m ∧
      step fetchWorld m (.collect []) = some m₁ ∧ m₁.writes = [] ∧ m₁.purges = [] ∧
      "r1" ∈ m₁.deleted ∧ m₁.kv "r1" ≠ none) ∧
    StaleAfter (sourceFails ++ [.collect ["r1"], .sched (.cancel "r1") true, .put true]) ∧
    StaleAfter ((submitRun 0 9).map (.sched · true) ++ [.collect ["r1"],
      .sched (.result {} { fetchFails with cls := .control }) true]) := by
  have hdel : ∃ m ∈ Run.run (step fetchWorld) emptyMirror (sourceFails ++
      [.collect ["r1"], .sched (.delete "r1") true, .purge 0 true, .put true]),
        ∃ m₁ ∈ step fetchWorld m (.collect []), m₁.writes.isEmpty = true ∧
          m₁.purges.isEmpty = true ∧ "r1" ∈ m₁.deleted ∧ (m₁.kv "r1").isSome = true := by
    decide +kernel
  refine ⟨?_, StaleAfter.of_run (by decide +kernel), StaleAfter.of_run (by decide +kernel)⟩
  obtain ⟨m, hm, m₁, hm₁, hw, hp, hin, hkv⟩ := hdel
  exact ⟨m, m₁, hm, hm₁, List.isEmpty_iff.mp hw, List.isEmpty_iff.mp hp, hin,
    Option.isSome_iff_ne_none.mp hkv⟩

end Mirror

end JobsIroh
