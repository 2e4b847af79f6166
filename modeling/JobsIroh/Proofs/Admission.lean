/-
What the ledger of a runner guarantees.

Two things are kept along every run.  `Books` is about the ledger alone: the sums stay
within the capacity, and each token is either held or was given back, once.  `Owned` says
whose reservations they are: the sweeper has one while it asks a lane and has not passed it
on, and every running job has one of the class it was delivered on.  With the scheduler's
choice of a class, the requirement of a running job fits in what it holds.
-/
import JobsIroh.Runnerd.Admission
import JobsIroh.Sched.Small
import Mathlib.Algebra.Order.BigOperators.Group.List
import Mathlib.Data.List.Nodup

namespace JobsIroh.Runnerd

variable {κ : Type} {cfg : Config} {held held' : Held} {released : List Nat} {next : Nat}
  {id : String}

/-! ### The ledger -/

structure Books (cfg : Config) (held : Held) (released : List Nat) (next : Nat) : Prop where
  ids : (held.map Hold.id).Nodup
  /-- Every token that was handed out is held or was given back, exactly once. -/
  once : (held.map Hold.token ++ released).Perm (List.range next)
  nonneg : ∀ h ∈ held, 0 ≤ h.res.cpuMilli ∧ 0 ≤ h.res.memBytes
  cpu : held.cpu ≤ cfg.capacity.cpuMilli
  mem : held.mem ≤ cfg.capacity.memBytes
  slots : 0 < cfg.slots → (held.length : Int) ≤ cfg.slots

theorem holds_iff : held.holds id = true ↔ id ∈ held.map Hold.id := by
  simp [Held.holds]

theorem tryAcquire_eq_some {r : Resources} {token : Nat}
    (h : tryAcquire cfg held id r token = some held') :
    id ∉ held.map Hold.id ∧ (0 < cfg.slots → (held.length : Int) < cfg.slots) ∧
      held.cpu + r.cpuMilli ≤ cfg.capacity.cpuMilli ∧
      held.mem + r.memBytes ≤ cfg.capacity.memBytes ∧
      held' = { id := id, res := r, token := token } :: held := by
  unfold tryAcquire at h
  split at h
  · simp at h
  split at h
  · simp at h
  split at h
  · simp at h
  refine ⟨by rwa [← holds_iff], ?_, ?_, ?_, (Option.some.inj h).symm⟩ <;> omega

theorem Books.acquire {r : Resources} (hb : Books cfg held released next)
    (hr : 0 ≤ r.cpuMilli ∧ 0 ≤ r.memBytes)
    (h : tryAcquire cfg held id r next = some held') :
    Books cfg held' released (next + 1) := by
  obtain ⟨hid, hslots, hcpu, hmem, rfl⟩ := tryAcquire_eq_some h
  constructor
  · exact List.nodup_cons.mpr ⟨hid, hb.ids⟩
  · rw [List.range_succ, List.map_cons, List.cons_append]
    exact (hb.once.cons next).trans (List.perm_append_singleton next _).symm
  · intro g hg
    rcases List.mem_cons.mp hg with rfl | hg
    · exact hr
    · exact hb.nonneg g hg
  · rw [Held.cpu, List.map_cons, List.sum_cons, add_comm]
    exact hcpu
  · rw [Held.mem, List.map_cons, List.sum_cons, add_comm]
    exact hmem
  · intro hpos
    rw [List.length_cons]
    omega

theorem rename_eq_some {old new : String} (h : rename held old new = some held') :
    new ∉ held.map Hold.id ∧ held' = held.map (Hold.rename old new) := by
  unfold rename at h
  split at h
  · simp at h
  split at h
  · simp at h
  refine ⟨by rwa [← holds_iff], ?_⟩
  exact (Option.some.inj h).symm

@[simp] theorem rename_res (old new : String) (h : Hold) : (h.rename old new).res = h.res := by
  unfold Hold.rename
  split <;> rfl

@[simp] theorem rename_token (old new : String) (h : Hold) :
    (h.rename old new).token = h.token := by
  unfold Hold.rename
  split <;> rfl

@[simp] theorem rename_id (old new : String) (h : Hold) :
    (h.rename old new).id = if h.id = old then new else h.id := by
  unfold Hold.rename
  split <;> rfl

/-- Only the names change. -/
theorem map_rename {α : Type} (f : Hold → α) (old new : String)
    (hf : ∀ h, f (h.rename old new) = f h) :
    (held.map (Hold.rename old new)).map f = held.map f := by
  rw [List.map_map]
  exact List.map_congr_left fun h _ => hf h

theorem Books.rename {old new : String} (hb : Books cfg held released next)
    (h : rename held old new = some held') : Books cfg held' released next := by
  obtain ⟨hnew, rfl⟩ := rename_eq_some h
  constructor
  · have hids : (held.map (Hold.rename old new)).map Hold.id
        = (held.map Hold.id).map fun x => if x = old then new else x := by
      simp [Function.comp_def]
    rw [hids]
    refine hb.ids.map_on fun x hx y hy hxy => ?_
    by_cases hxo : x = old
    · by_cases hyo : y = old
      · rw [hxo, hyo]
      · rw [if_pos hxo, if_neg hyo] at hxy
        exact absurd (hxy ▸ hy) hnew
    · by_cases hyo : y = old
      · rw [if_neg hxo, if_pos hyo] at hxy
        exact absurd (hxy ▸ hx) hnew
      · rwa [if_neg hxo, if_neg hyo] at hxy
  · rw [map_rename Hold.token old new (rename_token old new)]
    exact hb.once
  · intro g hg
    obtain ⟨g', hg', rfl⟩ := List.mem_map.mp hg
    rw [rename_res]
    exact hb.nonneg g' hg'
  · rw [Held.cpu, map_rename _ old new (by simp)]
    exact hb.cpu
  · rw [Held.mem, map_rename _ old new (by simp)]
    exact hb.mem
  · rw [List.length_map]
    exact hb.slots

/-- Giving something back does not raise a sum of amounts that are not negative. -/
theorem sum_release_le (f : Hold → Int) (hf : ∀ h ∈ held, 0 ≤ f h) :
    ((release held id).map f).sum ≤ (held.map f).sum := by
  induction held with
  | nil => simp [release]
  | cons g held ih =>
    have hrest := ih fun h hh => hf h (List.mem_cons_of_mem _ hh)
    have hg := hf g List.mem_cons_self
    unfold release at hrest ⊢
    rw [List.filter_cons]
    split
    · rw [List.map_cons, List.map_cons, List.sum_cons, List.sum_cons]
      omega
    · rw [List.map_cons, List.sum_cons]
      omega

theorem Books.release (hb : Books cfg held released next) (id : String) :
    Books cfg (release held id) (freed held id ++ released) next := by
  constructor
  · exact hb.ids.sublist (List.filter_sublist.map Hold.id)
  · refine List.Perm.trans ?_ hb.once
    rw [← List.append_assoc]
    refine List.Perm.append_right released ?_
    have hsplit := (List.filter_append_perm (fun h : Hold => decide (h.id ≠ id)) held).map
      Hold.token
    simpa [Runnerd.release, freed] using hsplit
  · exact fun h hh => hb.nonneg h (List.mem_of_mem_filter hh)
  · exact le_trans (sum_release_le _ fun h hh => (hb.nonneg h hh).1) hb.cpu
  · exact le_trans (sum_release_le _ fun h hh => (hb.nonneg h hh).2) hb.mem
  · intro hpos
    have hlen : (Runnerd.release held id).length ≤ held.length := List.length_filter_le _ _
    have := hb.slots hpos
    omega

/-! ### Whose reservations they are -/

/-- The lane whose reservation the sweeper still has. -/
def Sweeper.lane : Sweeper κ → Option Rung
  | .fetching rung _ _ => some rung
  | .batch rung _ _ false _ => some rung
  | _ => none

def laneOwner (lane : Option Rung) : List (String × Resources) :=
  lane.toList.map fun rung => (laneID rung, rung.res)

def jobOwner (name : NodeID κ → String) (e : Execution κ) : String × Resources :=
  (jobID name e.job, e.rung.res)

def owned (h : Hold) : String × Resources := (h.id, h.res)

/-- The reservations are those of the sweeper's lane and of the running jobs. -/
def Owned (name : NodeID κ → String) (held : Held) (lane : Option Rung)
    (jobs : List (Execution κ)) : Prop :=
  (held.map owned).Perm (laneOwner lane ++ jobs.map (jobOwner name))

variable {name : NodeID κ → String} {jobs : List (Execution κ)} {rung : Rung}

theorem laneID_ne_jobID (rung : Rung) (j : Job κ) : laneID rung ≠ jobID name j := by
  rw [laneID, jobID, String.append_assoc, String.append_assoc]
  exact Text.append_ne_append (by decide) _ _

theorem Owned.acquire {r : Resources} (ho : Owned name held none jobs) (hr : r = rung.res)
    (h : tryAcquire cfg held (laneID rung) r next = some held') :
    Owned name held' (some rung) jobs := by
  obtain ⟨-, -, -, -, rfl⟩ := tryAcquire_eq_some h
  subst hr
  exact List.Perm.cons (laneID rung, rung.res) ho

theorem Owned.rename {j : Job κ} (ho : Owned name held (some rung) jobs)
    (h : rename held (laneID rung) (jobID name j) = some held') :
    Owned name held' none ({ job := j, rung } :: jobs) := by
  obtain ⟨-, rfl⟩ := rename_eq_some h
  let pass : String × Resources → String × Resources := fun p =>
    if p.1 = laneID rung then (jobID name j, p.2) else p
  have hheld : (held.map (Hold.rename (laneID rung) (jobID name j))).map owned
      = (held.map owned).map pass := by
    rw [List.map_map, List.map_map]
    refine List.map_congr_left fun g _ => ?_
    show owned (g.rename _ _) = pass (owned g)
    by_cases hg : g.id = laneID rung
    · simp [owned, pass, hg]
    · simp [owned, pass, hg]
  have hjobs : (jobs.map (jobOwner name)).map pass = jobs.map (jobOwner name) := by
    rw [List.map_map]
    refine List.map_congr_left fun e _ => ?_
    simp [pass, jobOwner, (laneID_ne_jobID rung e.job).symm]
  have hperm := ho.map pass
  rw [← hheld, List.map_append, hjobs] at hperm
  simpa [Owned, laneOwner, pass, jobOwner] using hperm

/-- A release takes out what has the name. -/
theorem Owned.filter (ho : Owned name held lane jobs) (id : String) :
    ((release held id).map owned).Perm
      ((laneOwner lane ++ jobs.map (jobOwner name)).filter fun p => p.1 ≠ id) := by
  have hheld : (release held id).map owned = (held.map owned).filter fun p => p.1 ≠ id := by
    rw [List.filter_map]
    rfl
  rw [hheld]
  exact List.Perm.filter _ ho

theorem Owned.releaseLane (ho : Owned name held (some rung) jobs) :
    Owned name (release held (laneID rung)) none jobs := by
  have hperm := ho.filter (laneID rung)
  have hkeep : (jobs.map (jobOwner name)).filter (fun p => p.1 ≠ laneID rung)
      = jobs.map (jobOwner name) := by
    refine List.filter_eq_self.mpr fun p hp => ?_
    obtain ⟨e, -, rfl⟩ := List.mem_map.mp hp
    simp [jobOwner, (laneID_ne_jobID rung e.job).symm]
  rw [List.filter_append, hkeep] at hperm
  simpa [Owned, laneOwner] using hperm

/-- The names of the running jobs are different. -/
theorem Owned.jobs_nodup {lane : Option Rung} (ho : Owned name held lane jobs)
    (hids : (held.map Hold.id).Nodup) : (jobs.map fun e => jobID name e.job).Nodup := by
  have hnames : ((laneOwner lane ++ jobs.map (jobOwner name)).map Prod.fst).Nodup := by
    refine (ho.map Prod.fst).nodup_iff.mp ?_
    rw [List.map_map]
    exact hids
  rw [List.map_append, List.map_map] at hnames
  exact hnames.of_append_right

theorem Owned.releaseJob [DecidableEq κ] {lane : Option Rung} {e : Execution κ}
    (ho : Owned name held lane jobs) (hids : (held.map Hold.id).Nodup) (he : e ∈ jobs) :
    Owned name (release held (jobID name e.job)) lane (jobs.erase e) := by
  have hnodup := ho.jobs_nodup hids
  have hperm := ho.filter (jobID name e.job)
  have hlane : (laneOwner lane).filter (fun p => p.1 ≠ jobID name e.job) = laneOwner lane := by
    refine List.filter_eq_self.mpr fun p hp => ?_
    obtain ⟨rung, -, rfl⟩ := List.mem_map.mp hp
    simp [laneID_ne_jobID rung e.job]
  have hjobs : (jobs.map (jobOwner name)).filter (fun p => p.1 ≠ jobID name e.job)
      = (jobs.erase e).map (jobOwner name) := by
    rw [List.filter_map, (hnodup.of_map).erase_eq_filter]
    refine congrArg (List.map _) (List.filter_congr fun x hx => ?_)
    have hinj : jobID name x.job = jobID name e.job ↔ x = e :=
      ⟨fun h => List.inj_on_of_nodup_map hnodup hx he h, fun h => by rw [h]⟩
    by_cases hxe : x = e
    · simp [jobOwner, hxe]
    · simp [jobOwner, hinj, hxe]
  rw [List.filter_append, hlane, hjobs] at hperm
  exact hperm

/-! ### The daemon -/

theorem classFor_mem (req : Resources) : (classFor req).1 ∈ classes := by
  unfold classFor
  split
  · rename_i c hc
    exact List.mem_of_find?_eq_some hc
  · decide

theorem rung_of_name {c c' : Rung} (hc : c ∈ classes) (hc' : c' ∈ classes)
    (h : c.name = c'.name) : c = c' := by
  have hnodup : (classes.map Rung.name).Nodup := by decide
  exact List.inj_on_of_nodup_map hnodup hc hc' h

theorem rung_nonneg {c : Rung} (hc : c ∈ classes) : 0 ≤ c.res.cpuMilli ∧ 0 ≤ c.res.memBytes := by
  have hall : ∀ c ∈ classes, 0 ≤ c.res.cpuMilli ∧ 0 ≤ c.res.memBytes := by decide
  exact hall c hc

/-- A class that the sweeper is at is on the ladder, and what it has fetched was published. -/
def Sweeper.Fed (queue : List (Job κ)) : Sweeper κ → Prop
  | .fetching rung _ _ => rung ∈ classes
  | .batch rung _ _ _ rest =>
    rung ∈ classes ∧ ∀ j, Payload.job j ∈ rest → j ∈ queue ∧ j.cls = rung.name
  | _ => True

structure Sound (name : NodeID κ → String) (cfg : Config) (d : Daemon κ) : Prop where
  books : Books cfg d.held d.released d.next
  owned : Owned name d.held d.sweeper.lane d.jobs
  queued : ∀ j ∈ d.queue, j.cls = (classFor j.req).1.name
  fed : d.sweeper.Fed d.queue
  jobs : ∀ e ∈ d.jobs, e.rung ∈ classes ∧ e.job ∈ d.queue ∧ e.job.cls = e.rung.name

variable {d d' : Daemon κ}

theorem sound_new : Sound name cfg (newDaemon cfg : Daemon κ) where
  books := by
    -- Some class fits in the capacity, so it is not negative.
    obtain ⟨c, hc⟩ := List.exists_mem_of_ne_nil _ cfg.serves
    obtain ⟨hmem, hfit⟩ := List.mem_filter.mp hc
    obtain ⟨hcpu, hbytes⟩ := rung_nonneg hmem
    have hle : c.res.cpuMilli ≤ cfg.capacity.cpuMilli ∧
        c.res.memBytes ≤ cfg.capacity.memBytes := by simpa using hfit
    refine ⟨by simp [newDaemon], by simp [newDaemon], by simp [newDaemon], ?_, ?_, fun h => ?_⟩ <;>
      show (0 : Int) ≤ _ <;> omega
  owned := by simp [Owned, newDaemon, startSweep, Sweeper.lane, laneOwner]
  queued := by simp [newDaemon]
  fed := trivial
  jobs := by simp [newDaemon]

theorem fed_mono {queue queue' : List (Job κ)} {w : Sweeper κ} (h : w.Fed queue)
    (hsub : ∀ j ∈ queue, j ∈ queue') : w.Fed queue' := by
  cases w with
  | batch =>
    exact ⟨h.1, fun j hj => ⟨hsub j (h.2 j hj).1, (h.2 j hj).2⟩⟩
  | fetching => exact h
  | _ => trivial

section

variable (hs : Sound name cfg d)
include hs

/-- The sweeper moves on without touching the ledger. -/
theorem Sound.moves {w w₀ : Sweeper κ} (hw : d.sweeper = w₀)
    (hlane : w.lane = w₀.lane) (hfed : w.Fed d.queue) :
    Sound name cfg { d with sweeper := w } := by
  have ho := hs.owned
  rw [hw, ← hlane] at ho
  exact { hs with owned := ho, fed := hfed }

/-- The sweeper gives its lane back. -/
theorem Sound.leaves {rung : Rung} {w₀ : Sweeper κ}
    (hw : d.sweeper = w₀) (hlane : w₀.lane = some rung) (i : Nat) (dispatched : Bool) :
    Sound name cfg { giveBack d (laneID rung) with sweeper := .visit i dispatched } := by
  have ho := hs.owned
  rw [hw, hlane] at ho
  exact { hs with
    books := hs.books.release (laneID rung), owned := ho.releaseLane, fed := trivial }

theorem Sound.enqueue [DecidableEq κ] (c : Choice) (s : State κ) (n : Nat)
    (pull : List (RefName κ)) :
    Sound name cfg { d with queue := newJob c s n pull :: d.queue } :=
  { hs with
    queued := by
      intro j hj
      rcases List.mem_cons.mp hj with rfl | hj
      · rfl
      · exact hs.queued j hj
    fed := fed_mono hs.fed fun j hj => List.mem_cons_of_mem _ hj
    jobs := fun e he =>
      ⟨(hs.jobs e he).1, List.mem_cons_of_mem _ (hs.jobs e he).2.1, (hs.jobs e he).2.2⟩ }

theorem Sound.reserve {rung : Rung} {held : Held} {i : Nat}
    {dispatched : Bool} {w₀ : Sweeper κ} (hw : d.sweeper = w₀) (hlane : w₀.lane = none)
    (hrung : rung ∈ classes)
    (h : tryAcquire cfg d.held (laneID rung) rung.res d.next = some held) :
    Sound name cfg
      { d with held, next := d.next + 1, sweeper := .fetching rung i dispatched } := by
  have ho := hs.owned
  rw [hw, hlane] at ho
  exact { hs with
    books := hs.books.acquire (rung_nonneg hrung) h, owned := ho.acquire rfl h, fed := hrung }

/-- The lane's reservation passes to a job. -/
theorem Sound.claims {rung : Rung} {i : Nat} {dispatched : Bool}
    {m : Payload κ} {rest : List (Payload κ)}
    (hw : d.sweeper = .batch rung i dispatched false (m :: rest))
    (h : dispatch name d rung m = some d') :
    Sound name cfg { d' with sweeper := .batch rung i dispatched true rest } := by
  have hfed := hs.fed
  rw [hw] at hfed
  cases m with
  | undecodable => simp [dispatch] at h
  | job j =>
    rw [dispatch] at h
    split at h
    · simp at h
    rename_i held hren
    obtain rfl := Option.some.inj h
    have ho := hs.owned
    rw [hw] at ho
    obtain ⟨hj, hcls⟩ := hfed.2 j List.mem_cons_self
    exact { hs with
      books := hs.books.rename hren
      owned := ho.rename hren
      fed := ⟨hfed.1, fun j hj => hfed.2 j (List.mem_cons_of_mem _ hj)⟩
      jobs := by
        intro e he
        rcases List.mem_cons.mp he with rfl | he
        · exact ⟨hfed.1, hj, hcls⟩
        · exact hs.jobs e he }

theorem Sound.finish [DecidableEq κ] {e : Execution κ} (he : e ∈ d.jobs) :
    Sound name cfg { giveBack d (jobID name e.job) with jobs := d.jobs.erase e } :=
  { hs with
    books := hs.books.release (jobID name e.job)
    owned := hs.owned.releaseJob hs.books.ids he
    jobs := fun x hx => hs.jobs x (List.mem_of_mem_erase hx) }

theorem Sound.backs {e : Execution κ} (he : e ∈ d.jobs) :
    ∃ h ∈ d.held, h.id = jobID name e.job ∧ h.res = (classFor e.job.req).1.res := by
  obtain ⟨hrung, hqueue, hcls⟩ := hs.jobs e he
  have hclass : e.rung = (classFor e.job.req).1 :=
    rung_of_name hrung (classFor_mem _) (by rw [← hcls]; exact hs.queued _ hqueue)
  have hmem : jobOwner name e ∈ d.held.map Runnerd.owned :=
    hs.owned.mem_iff.mpr (List.mem_append_right _ (List.mem_map_of_mem he))
  obtain ⟨h, hh, heq⟩ := List.mem_map.mp hmem
  obtain ⟨hid, hres⟩ := Prod.mk.inj heq
  exact ⟨h, hh, hid, by rw [← hclass, ← hres]⟩

end

variable [DecidableEq κ]

theorem step_sound {ev : Event κ} (hs : Sound name cfg d) (h : step name cfg d ev = some d') :
    Sound name cfg d' := by
  cases ev with
  | enqueue c s n pull =>
    obtain rfl := Option.some.inj h
    exact hs.enqueue c s n pull
  | sweep =>
    simp only [step] at h
    split at h
    · rename_i dispatched hw
      obtain rfl := Option.some.inj h
      cases dispatched with
      | true | false => exact hs.moves hw rfl trivial
    · rename_i i dispatched hw
      split at h
      · simp at h
      rename_i rung hrung
      have hserved : rung ∈ cfg.classes := List.mem_of_getElem? hrung
      have hmem : rung ∈ classes := by
        rw [Config.classes, classesWithin] at hserved
        exact List.mem_of_mem_filter hserved
      split at h
      · obtain rfl := Option.some.inj h
        exact hs.moves hw rfl trivial
      · rename_i held hacq
        obtain rfl := Option.some.inj h
        exact hs.reserve hw rfl hmem hacq
    · simp at h
  | fetchFailed =>
    simp only [step] at h
    split at h
    · rename_i rung i dispatched hw
      obtain rfl := Option.some.inj h
      exact hs.leaves hw rfl i dispatched
    · simp at h
  | fetched =>
    simp only [step] at h
    split at h
    · rename_i rung i dispatched hw
      split at h
      · rename_i hall
        obtain rfl := Option.some.inj h
        have hfed := hs.fed
        rw [hw] at hfed
        refine hs.moves hw rfl ⟨hfed, fun j hj => ?_⟩
        have hdel := List.all_eq_true.mp hall _ hj
        simp only [deliverable, Bool.and_eq_true, decide_eq_true_eq] at hdel
        exact ⟨hdel.1.1, hdel.2⟩
      · simp at h
    · simp at h
  | message =>
    simp only [step] at h
    have hfed := hs.fed
    split at h
    · rename_i rung i dispatched m rest hw
      obtain rfl := Option.some.inj h
      rw [hw] at hfed
      exact hs.moves hw rfl
        ⟨hfed.1, fun j hj => hfed.2 j (List.mem_cons_of_mem _ hj)⟩
    · rename_i rung i dispatched m rest hw
      rw [hw] at hfed
      split at h
      · obtain rfl := Option.some.inj h
        exact hs.moves hw rfl
          ⟨hfed.1, fun j hj => hfed.2 j (List.mem_cons_of_mem _ hj)⟩
      · rename_i d₁ hdisp
        obtain rfl := Option.some.inj h
        exact hs.claims hw hdisp
    · rename_i rung i dispatched hw
      obtain rfl := Option.some.inj h
      exact hs.moves hw rfl trivial
    · rename_i rung i dispatched hw
      obtain rfl := Option.some.inj h
      exact hs.leaves hw rfl i dispatched
    · simp at h
  | wake =>
    simp only [step] at h
    split at h
    · rename_i hw
      obtain rfl := Option.some.inj h
      exact hs.moves hw rfl trivial
    · simp at h
  | stop =>
    simp only [step] at h
    split at h
    · rename_i hw
      obtain rfl := Option.some.inj h
      exact hs.moves hw rfl trivial
    · rename_i i hw
      split at h
      · obtain rfl := Option.some.inj h
        exact hs.moves hw rfl trivial
      · simp at h
    · simp at h
  | finish =>
    simp only [step] at h
    split at h
    · rename_i he
      obtain rfl := Option.some.inj h
      exact hs.finish he
    · simp at h

/-- What holds at every moment of a runner. -/
structure Admitted (name : NodeID κ → String) (cfg : Config) (d : Daemon κ) : Prop where
  cpu : d.held.cpu ≤ cfg.capacity.cpuMilli
  mem : d.held.mem ≤ cfg.capacity.memBytes
  slots : 0 < cfg.slots → (d.held.length : Int) ≤ cfg.slots
  /-- Each reservation is held or was released, and that once. -/
  once : (d.held.map Hold.token ++ d.released).Perm (List.range d.next)
  /-- A reservation that no job has, and that the sweeper is not about to use, is released. -/
  settled : d.jobs = [] → d.sweeper.lane = none → d.held = []
  /-- No attempt runs twice at a time. -/
  apart : (d.jobs.map fun e => (name e.job.id, e.job.gen)).Nodup
  /-- A running job holds what it requires, or the top of the ladder if that is less. -/
  backed : ∀ e ∈ d.jobs, ∃ h ∈ d.held, h.id = jobID name e.job ∧
    ((e.job.req.cpuMilli ≤ h.res.cpuMilli ∧ e.job.req.memBytes ≤ h.res.memBytes) ∨
      ((classFor e.job.req).2 = false ∧ h.res = topClass.res))
  /-- If the capacity leaves room for one more rung, no sum leaves 64 bits. -/
  range : cfg.capacity.cpuMilli + topClass.res.cpuMilli < 2 ^ 63 →
    cfg.capacity.memBytes + topClass.res.memBytes < 2 ^ 63 → ∀ c ∈ classes,
      d.held.cpu + c.res.cpuMilli < 2 ^ 63 ∧ d.held.mem + c.res.memBytes < 2 ^ 63

/--
**Admission on a runner.**  In every state that a runner of any capacity and slot count
comes to, under any deliveries, errors and completions.
-/
theorem runner_admission (name : NodeID κ → String) (cfg : Config) {d : Daemon κ}
    (h : Run.Steps (step name cfg) Run.Always (newDaemon cfg) d) : Admitted name cfg d := by
  have hs : Sound name cfg d :=
    h.inv sound_new fun d ev d' hd _ hstep => step_sound hd hstep
  exact { hs.books with
    settled := by
      intro hjobs hlane
      have ho := hs.owned
      rw [hjobs, hlane] at ho
      exact List.map_eq_nil_iff.mp ho.eq_nil
    apart := by
      have hnodup := hs.owned.jobs_nodup hs.books.ids
      -- The name of a reservation is made from the attempt.
      refine List.Nodup.of_map (fun p : String × Nat => "job/" ++ p.1 ++ "-" ++ toString p.2) ?_
      rw [List.map_map]
      exact hnodup
    backed := by
      intro e he
      obtain ⟨hold, hmem, hid, hres⟩ := hs.backs he
      refine ⟨hold, hmem, hid, ?_⟩
      rw [hres, classFor]
      split
      · rename_i c hc
        exact Or.inl (by simpa using List.find?_some hc)
      · exact Or.inr ⟨rfl, rfl⟩
    range := by
      have htop : ∀ c ∈ classes, c.res.cpuMilli ≤ topClass.res.cpuMilli ∧
          c.res.memBytes ≤ topClass.res.memBytes := by decide
      intro hcpu hmem c hc
      have hheld := hs.books.cpu
      have hheld' := hs.books.mem
      have hclass := htop c hc
      omega }

/-- A runner with one slot that fits the two smallest classes. -/
def oneSlot : Config where
  platform := ""
  capacity := ⟨1000, gib⟩
  slots := 1
  serves := by decide

/-- A job is published and delivered on its lane, after a larger lane had nothing. -/
def oneDelivery : List (Event UInt8) :=
  let s := State.init (smallStore [])
  [.enqueue {} s 0 [], .sweep, .fetched [], .message, .sweep,
    .fetched [.undecodable, .job (newJob {} s 0 [])], .message, .message]

theorem runner_admission_one_job :
    ∃ d : Daemon UInt8, d.jobs.length = 1 ∧ d.released = [0] ∧
      Admitted (fun _ => "n") oneSlot d := by
  have hrun : ∃ d ∈ Run.run (step (fun _ => "n") oneSlot) (newDaemon oneSlot) oneDelivery,
      d.jobs.length = 1 ∧ d.released = [0] := by
    decide +kernel
  obtain ⟨d, hd, hjobs, hreleased⟩ := hrun
  exact ⟨d, hjobs, hreleased, runner_admission (fun _ => "n") oneSlot (Run.Steps.of_run _ hd)⟩

end JobsIroh.Runnerd
