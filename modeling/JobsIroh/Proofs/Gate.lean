/-
Gate confinement: what a runner's batch can write.

A batch is checked as a whole before anything of it is written, and the names that
pass are the node's own, the carrier of the reported source tree, and the declared
caches on the node's platform.  The check is on text while the writes are keyed by
`RefName`; `Proofs.Names` joins the two.  Which tree carrier a `buildfrom` may publish
depends on the batch itself: the last `build-from:K` entry is the one that counts, and
it is also the one that the store holds after the batch.
-/
import JobsIroh.Proofs.Table
import JobsIroh.Proofs.Writes

namespace JobsIroh

variable {κ : Type} [DecidableEq κ]

section

variable {W : World κ} {kind : Kind} {key : κ} {platform : String} {declared : List PinnedCache}
  {refs : List RefProposal} {ks : List κ} {st st' : Store κ}

/-! ### The keys of a batch -/

section

omit [DecidableEq κ]

theorem parseKeys_forall₂ :
    ∀ {refs : List RefProposal} {ks : List κ}, parseKeys W refs = .ok ks →
      List.Forall₂ (fun r k => W.parse r.key = .ok k) refs ks := by
  intro refs
  induction refs with
  | nil =>
    intro ks h
    simp only [parseKeys, Except.ok.injEq] at h
    subst h
    exact List.Forall₂.nil
  | cons r rest ih =>
    intro ks h
    rw [parseKeys] at h
    split at h
    · cases h
    rename_i k hk
    split at h
    · cases h
    rename_i ks' hks
    simp only [Except.ok.injEq] at h
    subst h
    exact List.Forall₂.cons hk (ih hks)

theorem parseKeys_of_forall₂ (h : List.Forall₂ (fun r k => W.parse r.key = .ok k) refs ks) :
    parseKeys W refs = .ok ks := by
  induction h with
  | nil => rfl
  | cons hk hrest ih => rw [parseKeys, hk, ih]

/-- An entry of the batch carries the key it is paired with. -/
theorem parse_of_mem_zip (h : List.Forall₂ (fun r k => W.parse r.key = .ok k) refs ks) :
    ∀ e ∈ refs.zip ks, e.1 ∈ refs ∧ W.parse e.1.key = .ok e.2 := by
  induction h with
  | nil => simp
  | cons hk hrest ih =>
    intro e he
    simp only [List.zip_cons_cons, List.mem_cons] at he
    rcases he with rfl | he
    · exact ⟨List.mem_cons_self, hk⟩
    · exact ⟨List.mem_cons_of_mem _ (ih e he).1, (ih e he).2⟩

theorem complete_of_checkComplete :
    ∀ {l : List (RefProposal × κ)}, checkComplete W st l = .ok () →
      ∀ e ∈ l, st.complete e.2 = true := by
  intro l
  induction l with
  | nil => simp
  | cons e rest ih =>
    intro h
    rw [checkComplete] at h
    split at h
    · rename_i hk
      intro e he
      rcases List.mem_cons.mp he with rfl | he
      · exact hk
      · exact ih h e he
    · cases h

end

/-! ### The decision for one entry -/

omit [DecidableEq κ] in
theorem checkAll_ok {check : RefProposal → Except String Unit} :
    ∀ {refs : List RefProposal}, checkAll W check refs = .ok () → ∀ r ∈ refs, check r = .ok () := by
  intro refs
  induction refs with
  | nil => simp
  | cons r rest ih =>
    intro h
    rw [checkAll] at h
    split at h
    · cases h
    split at h
    · cases h
    rename_i u hu
    intro r' hr'
    rcases List.mem_cons.mp hr' with rfl | hr'
    · exact hu
    · exact ih h r' hr'

/-- The names a node owns outright, as the store sees them. -/
def ownRefs (kind : Kind) (key : κ) : List (RefName κ) :=
  match kind with
  | .importK => [.importOutput key]
  | .buildFrom => [.buildFrom key]
  | .pluginResolve => [.pluginResolved key]
  | .pin => [.pinned key]
  | .buildRun => [.output key, .outputDeps key]
  | .buildValue => []

theorem parse_ownNames {name : String} (h : name ∈ ownNames W kind key) :
    RefName.parse W.toKeyPkg name ∈ ownRefs kind key := by
  have parse : ∀ {p : String} {mk : κ → RefName κ}, (p, mk) ∈ families κ →
      RefName.parse W.toKeyPkg (p ++ W.string key) = mk key :=
    fun hmem => RefName.parse_family W.toKeyPkg hmem key
  unfold ownNames at h
  unfold ownRefs
  cases kind <;> simp only [List.mem_cons, List.not_mem_nil, or_false] at h ⊢
  · rw [h]
    exact parse (by simp [families])
  · rw [h]
    exact parse (by simp [families])
  · rw [h]
    exact parse (by simp [families])
  · rw [h]
    exact parse (by simp [families])
  · rcases h with rfl | rfl
    · exact Or.inl (parse (by simp [families]))
    · exact Or.inr (parse (by simp [families]))

/-- What the gate lets through, entry by entry; `f` is the text of the F the batch reports. -/
inductive Permitted (W : World κ) (kind : Kind) (key : κ) (f platform : String)
    (declared : List PinnedCache) (r : RefProposal) : Prop
  | own (h : RefName.parse W.toKeyPkg r.name ∈ ownRefs kind key)
  | tree (hkind : kind = .buildFrom ∨ kind = .pluginResolve ∨ kind = .pin) (t : κ)
      (hname : RefName.parse W.toKeyPkg r.name = .buildFromTree t) (hkey : r.key = W.bytes t)
      (hf : kind = .buildFrom → W.string t = f)
  | cache (hkind : kind = .buildRun) (d : PinnedCache) (hd : d ∈ declared)
      (hname : RefName.parse W.toKeyPkg r.name = .raw (cacheRefName d.id platform))

theorem permitted_of_checkTreeName {f hexPart : String} {r : RefProposal}
    (hname : r.name = "build-from-tree:" ++ hexPart)
    (h : checkTreeName W kind key f r hexPart = .ok ()) :
    Permitted W kind key f platform declared r := by
  have hkind : kind = .buildFrom ∨ kind = .pluginResolve ∨ kind = .pin := by
    cases kind <;> simp [checkTreeName] at h ⊢
  obtain ⟨t, hcanon, hkey, hf⟩ : ∃ t, hexPart = W.string t ∧ r.key = W.bytes t ∧
      ¬ (kind = .buildFrom ∧ hexPart ≠ f) := by
    cases ht : parseHexKey W hexPart with
    | error => rcases hkind with rfl | rfl | rfl <;> simp [checkTreeName, ht] at h
    | ok t =>
      refine ⟨t, ?_⟩
      by_contra hno
      rcases hkind with rfl | rfl | rfl <;>
        · simp only [checkTreeName, ht] at h
          grind
  refine Permitted.tree hkind t ?_ hkey fun hk => ?_
  · rw [hname, hcanon]
    exact RefName.parse_family W.toKeyPkg (by simp [families]) t
  · rw [← hcanon]
    by_contra hne
    exact hf ⟨hk, hne⟩

theorem permitted_of_checkCacheName {f : String} {r : RefProposal}
    (h : checkCacheName W kind key platform declared r.name = .ok ()) :
    Permitted W kind key f platform declared r := by
  unfold checkCacheName at h
  split at h
  · cases h
  rename_i hkind
  split at h
  · cases h
  rename_i id plat hparse
  split at h
  · cases h
  rename_i hplat
  split at h
  · cases h
  rename_i hdecl
  simp only [ne_eq, not_not] at hkind hplat
  simp only [ne_eq, decide_not, List.all_eq_true, Bool.not_eq_eq_eq_not, Bool.not_true,
    decide_eq_false_iff_not, not_forall, not_not] at hdecl
  obtain ⟨d, hd, hid⟩ := hdecl
  refine Permitted.cache hkind d hd ?_
  rw [parseCacheRefName_eq_some hparse, hplat, ← hid]
  unfold cacheRefName
  rw [String.append_assoc, String.append_assoc]
  exact RefName.parse_foreign W.toKeyPkg (by decide) _

/-- **Every entry of an accepted batch is one the node may produce.** -/
theorem permitted_of_checkRefName {f : String} {r : RefProposal}
    (h : checkRefName W kind key f platform declared r = .ok ()) :
    Permitted W kind key f platform declared r := by
  unfold checkRefName at h
  split at h
  · exact permitted_of_checkCacheName h
  split at h
  · rename_i hexPart hcut
    exact permitted_of_checkTreeName (Text.cutPrefix_eq_some_iff.mp hcut) h
  · split at h
    · rename_i hown
      exact Permitted.own (parse_ownNames hown)
    · cases h

/-! ### The reported F -/

/-- The store after a whole plan has been written. -/
def applyPlan (st : Store κ) (plan : List (RefName κ × κ)) : Store κ :=
  plan.foldl (fun st w => st.putRef w.1 w.2) st

theorem applyPlan_of_not_mem {r : RefName κ} :
    ∀ (plan : List (RefName κ × κ)) (st : Store κ), (∀ w ∈ plan, w.1 ≠ r) →
      (applyPlan st plan).refs r = st.refs r := by
  intro plan
  induction plan with
  | nil => intro st _; rfl
  | cons w rest ih =>
    intro st hne
    have hw : r ≠ w.1 := (hne w List.mem_cons_self).symm
    rw [applyPlan, List.foldl_cons, ← applyPlan,
      ih _ fun w' hw' => hne w' (List.mem_cons_of_mem _ hw')]
    simp [Store.putRef, hw]

/-- The text the gate reports is the text of what the store holds once the entries are in. -/
theorem reportedF_applyPlan {f acc : String} (st : Store κ)
    (hkeys : List.Forall₂ (fun r k => W.parse r.key = .ok k) refs ks)
    (h : reportedF W .buildFrom key refs acc = .ok f)
    (hacc : acc = "" ∨ ∃ t, st.refs (.buildFrom key) = some t ∧ acc = W.string t) :
    f = "" ∨ ∃ t, (applyPlan st ((refs.zip ks).map
        fun e => (RefName.parse W.toKeyPkg e.1.name, e.2))).refs (.buildFrom key) = some t ∧
      f = W.string t := by
  induction hkeys generalizing acc st with
  | nil =>
    simp only [reportedF, Except.ok.injEq] at h
    rw [← h]
    exact hacc
  | @cons r k refs ks hk hrest ih =>
    have hparse : RefName.parse W.toKeyPkg ("build-from:" ++ W.string key) = .buildFrom key :=
      RefName.parse_family W.toKeyPkg (by simp [families]) key
    rw [reportedF] at h
    by_cases hname : r.name = "build-from:" ++ W.string key
    · rw [if_pos ⟨rfl, hname⟩, hk] at h
      refine ih _ h (Or.inr ⟨k, ?_, rfl⟩)
      dsimp only
      rw [hname, hparse]
      simp [Store.putRef]
    · rw [if_neg (by simp [hname])] at h
      refine ih _ h (hacc.imp_right ?_)
      intro ht
      obtain ⟨t, ht, hacct⟩ := ht
      refine ⟨t, ?_, hacct⟩
      have hne : RefName.buildFrom key ≠ RefName.parse W.toKeyPkg r.name := by
        rw [← hparse]
        exact fun he => hname (RefName.parse_injective W.toKeyPkg he).symm
      simp [Store.putRef, hne, ht]

/-! ### The whole batch -/

/-- Every check on the batch passes in the store `st`. -/
structure BatchAccepted (W : World κ) (st : Store κ) (cm : Commit κ) (ks : List κ) : Prop where
  gate : gateAllowed W cm.id.kind cm.id.key cm.platform cm.refs cm.caches = .ok ()
  keys : List.Forall₂ (fun r k => W.parse r.key = .ok k) cm.refs ks
  complete : ∀ e ∈ cm.refs.zip ks, st.complete e.2 = true

/-- The writes of an accepted batch. -/
def Commit.plan (W : World κ) (cm : Commit κ) (ks : List κ) : List (RefName κ × κ) :=
  plannedWrites W cm.id.kind cm.id.key (cm.refs.zip ks)

variable {cm : Commit κ}

theorem checkBatch_ok {plan : List (RefName κ × κ)}
    (h : checkBatch W st cm.id.kind cm.id.key cm.platform cm.refs cm.caches = .ok plan) :
    ∃ ks, BatchAccepted W st cm ks ∧ plan = cm.plan W ks := by
  unfold checkBatch at h
  split at h
  · cases h
  rename_i u hgate
  split at h
  · cases h
  rename_i ks hks
  split at h
  · cases h
  rename_i u' hcomp
  simp only [Except.ok.injEq] at h
  have hkeys := parseKeys_forall₂ hks
  exact ⟨ks, ⟨hgate, hkeys, complete_of_checkComplete hcomp⟩, h.symm⟩

/-- What a commit may write: its node's own names, the carrier of the source tree, declared
caches on the node's platform, and the carriers the server derives. -/
inductive Confined (W : World κ) (cm : Commit κ) : RefName κ → κ → Prop
  | own (r : RefName κ) (v : κ) (h : r ∈ ownRefs cm.id.kind cm.id.key) : Confined W cm r v
  /-- For a `buildfrom` the tree is the one `build-from:K` holds after the batch. -/
  | tree (t : κ)
      (hkind : cm.id.kind = .buildFrom ∨ cm.id.kind = .pluginResolve ∨ cm.id.kind = .pin)
      (hf : cm.id.kind = .buildFrom → ∃ ks, parseKeys W cm.refs = .ok ks ∧
        ∀ st, (applyPlan st (cm.plan W ks)).refs (.buildFrom cm.id.key) = some t) :
    Confined W cm (.buildFromTree t) t
  | cache (hkind : cm.id.kind = .buildRun) (d : PinnedCache) (hd : d ∈ cm.caches) (v : κ) :
    Confined W cm (.raw (cacheRefName d.id cm.platform)) v
  | fTree (hkind : cm.id.kind = .buildFrom) (v : κ) : Confined W cm (.fTree v) v
  | pinned (hkind : cm.id.kind = .pin) (kp pk : κ)
      (hd : ∃ st, deriveKPValue W st cm.id.key = .ok (kp, pk)) : Confined W cm (.pinned kp) pk
  | kpTree (hkind : cm.id.kind = .pin) (kp : κ)
      (hd : ∃ st pk, deriveKPValue W st cm.id.key = .ok (kp, pk)) : Confined W cm (.kpTree kp) kp
  | pinCover (hkind : cm.id.kind = .pin) (kp : κ)
      (hd : ∃ st pk, deriveKPValue W st cm.id.key = .ok (kp, pk)) :
    Confined W cm (.pinCover cm.id.key) kp

/-- **The plan of an accepted batch stays inside the allow table.** -/
theorem BatchAccepted.confined (h : BatchAccepted W st cm ks) {r : RefName κ}
    {v : κ} (hw : (r, v) ∈ cm.plan W ks) : Confined W cm r v := by
  obtain ⟨f, hf, hall⟩ : ∃ f, reportedF W cm.id.kind cm.id.key cm.refs "" = .ok f ∧
      checkAll W (checkRefName W cm.id.kind cm.id.key f cm.platform cm.caches) cm.refs =
        .ok () := by
    have hg := h.gate
    unfold gateAllowed at hg
    split at hg
    · cases hg
    rename_i f hf
    split at hg
    · cases hg
    rename_i u hall
    exact ⟨f, hf, hall⟩
  have hw' := hw
  rcases List.mem_append.mp hw' with hmem | hmem
  · obtain ⟨e, he, hrv⟩ := List.mem_map.mp hmem
    obtain ⟨rfl, rfl⟩ := Prod.mk.inj hrv
    obtain ⟨hmem, hkey⟩ := parse_of_mem_zip h.keys e he
    have hperm := permitted_of_checkRefName (checkAll_ok hall e.1 hmem)
    cases hperm with
    | own hown => exact Confined.own _ _ hown
    | tree hkind t hname hbytes hrep =>
      have het : e.2 = t := by
        rw [hbytes, W.parse_bytes] at hkey
        exact (Except.ok.inj hkey).symm
      rw [hname, het]
      refine Confined.tree t hkind fun hk => ⟨ks, parseKeys_of_forall₂ h.keys, fun st₀ => ?_⟩
      rw [hk] at hf
      have hlast := reportedF_applyPlan st₀ h.keys hf (Or.inl rfl)
      have hne : f ≠ "" := by
        rw [← hrep hk]
        exact W.string_ne_empty t
      rcases hlast with hbad | ⟨t', ht', hft⟩
      · exact absurd hbad hne
      · have htt : t' = t := W.string_injective (by rw [← hft, hrep hk])
        unfold Commit.plan plannedWrites
        rw [applyPlan, List.foldl_append, ← applyPlan, ← applyPlan, applyPlan_of_not_mem, ht', htt]
        intro w hw
        rw [if_pos hk] at hw
        obtain ⟨e', -, rfl⟩ := List.mem_map.mp hw
        simp
    | cache hkind d hd hname =>
      rw [hname]
      exact Confined.cache hkind d hd _
  · by_cases hk : cm.id.kind = .buildFrom
    · rw [if_pos hk] at hmem
      obtain ⟨e, -, hrv⟩ := List.mem_map.mp hmem
      obtain ⟨rfl, rfl⟩ := Prod.mk.inj hrv
      exact Confined.fTree hk _
    · rw [if_neg hk] at hmem
      cases hmem

/-! ### The life of a commit -/

omit [DecidableEq κ] in
theorem BatchAccepted.mono (h : BatchAccepted W st cm ks)
    (hc : ∀ k, st.complete k = true → st'.complete k = true) : BatchAccepted W st' cm ks :=
  ⟨h.gate, h.keys, fun e he => hc _ (h.complete e he)⟩

/-- What is settled about a commit at its stage: past the check the batch is accepted, what is
left to write is the end of its plan, and a KP in flight is the one derived from the pin's F. -/
def StageInv (W : World κ) (st : Store κ) (cm : Commit κ) : Prop :=
  match cm.stage with
  | .check => True
  | .write todo => ∃ ks, BatchAccepted W st cm ks ∧ todo <:+ cm.plan W ks
  | .derive => cm.id.kind = .pin ∧ ∃ ks, BatchAccepted W st cm ks
  | .putPinned kp pk =>
    cm.id.kind = .pin ∧ (∃ ks, BatchAccepted W st cm ks) ∧
      ∃ st₀, deriveKPValue W st₀ cm.id.key = .ok (kp, pk)
  | .putKPTree kp | .putPinCover kp =>
    cm.id.kind = .pin ∧ (∃ ks, BatchAccepted W st cm ks) ∧
      ∃ st₀ pk, deriveKPValue W st₀ cm.id.key = .ok (kp, pk)
  | .finished _ => True

theorem StageInv.mono (h : StageInv W st cm)
    (hc : ∀ k, st.complete k = true → st'.complete k = true) : StageInv W st' cm := by
  have accepted : (∃ ks, BatchAccepted W st cm ks) → ∃ ks, BatchAccepted W st' cm ks :=
    fun ⟨ks, h⟩ => ⟨ks, h.mono hc⟩
  unfold StageInv at h ⊢
  rcases hst : cm.stage with _ | todo | _ | ⟨kp, pk⟩ | kp | kp | err
  all_goals simp only [hst] at h ⊢
  · obtain ⟨ks, hb, htodo⟩ := h
    exact ⟨ks, hb.mono hc, htodo⟩
  · exact ⟨h.1, accepted h.2⟩
  · exact ⟨h.1, accepted h.2.1, h.2.2⟩
  · exact ⟨h.1, accepted h.2.1, h.2.2⟩
  · exact ⟨h.1, accepted h.2.1, h.2.2⟩

theorem StageInv.afterWrites (h : BatchAccepted W st cm ks) :
    StageInv W st { cm with stage := afterWrites cm.id.kind } := by
  unfold StageInv JobsIroh.afterWrites
  by_cases hk : cm.id.kind = .pin
  · rw [if_pos hk]
    exact ⟨hk, ks, ⟨h.gate, h.keys, h.complete⟩⟩
  · rw [if_neg hk]
    trivial

/-- The plan that is left, or what comes after it. -/
theorem StageInv.writes {todo : List (RefName κ × κ)}
    (h : BatchAccepted W st cm ks) (htodo : todo <:+ cm.plan W ks) :
    StageInv W st { cm with
      stage := if todo = [] then JobsIroh.afterWrites cm.id.kind else .write todo } := by
  by_cases hnil : todo = []
  · rw [if_pos hnil]
    exact StageInv.afterWrites h
  · rw [if_neg hnil]
    exact ⟨ks, ⟨h.gate, h.keys, h.complete⟩, htodo⟩

/-- **A commit's own step keeps what is settled about it.** -/
theorem StageInv.commit {stage : Stage κ} (h : StageInv W st cm)
    (hr : CommitRule W st cm st' stage) : StageInv W st' { cm with stage := stage } := by
  have hstep : StoreStep (CommitWrite cm) (fun _ => False) st st' := hr.store
  have hc := hstep.complete
  have h' := h.mono hc
  unfold StageInv at h'
  cases hr with
  | checked hst plan hp =>
    obtain ⟨ks, hb, rfl⟩ := checkBatch_ok hp
    exact StageInv.writes hb (List.suffix_refl _)
  | written hst =>
    simp only [hst] at h'
    obtain ⟨ks, hb, -⟩ := h'
    exact StageInv.afterWrites hb
  | entry r v rest hst =>
    simp only [hst] at h'
    obtain ⟨ks, hb, htodo⟩ := h'
    exact StageInv.writes hb ((List.suffix_cons _ _).trans htodo)
  | derived hst kp pk hd =>
    simp only [hst] at h'
    obtain ⟨hk, ks, hb⟩ := h'
    exact ⟨hk, ⟨ks, ⟨hb.gate, hb.keys, hb.complete⟩⟩, st, hd⟩
  | pinned kp pk hst =>
    simp only [hst] at h'
    obtain ⟨hk, ⟨ks, hb⟩, st₀, hd⟩ := h'
    exact ⟨hk, ⟨ks, ⟨hb.gate, hb.keys, hb.complete⟩⟩, st₀, pk, hd⟩
  | kpTree kp hst =>
    simp only [hst] at h'
    obtain ⟨hk, ⟨ks, hb⟩, hd⟩ := h'
    exact ⟨hk, ⟨ks, ⟨hb.gate, hb.keys, hb.complete⟩⟩, hd⟩
  | _ => trivial

/-- What a commit writes next is confined, and its batch has passed every check. -/
theorem StageInv.confined {r : RefName κ} {v : κ} (h : StageInv W st cm)
    (hw : CommitWrite cm r v) : (∃ ks, BatchAccepted W st cm ks) ∧ Confined W cm r v := by
  unfold StageInv at h
  cases hw with
  | entry r v rest hst =>
    simp only [hst] at h
    obtain ⟨ks, hb, htodo⟩ := h
    exact ⟨⟨ks, hb⟩, hb.confined (htodo.subset List.mem_cons_self)⟩
  | pinned kp pk hst =>
    simp only [hst] at h
    exact ⟨h.2.1, Confined.pinned h.1 kp v h.2.2⟩
  | kpTree kp hst =>
    simp only [hst] at h
    exact ⟨h.2.1, Confined.kpTree h.1 v h.2.2⟩
  | pinCover kp hst =>
    simp only [hst] at h
    exact ⟨h.2.1, Confined.pinCover h.1 v h.2.2⟩

/-- A batch that fails a check ends the commit. -/
theorem commitStep_rejected (c : Choice) (hst : cm.stage = .check)
    (h : ¬ ∃ ks, BatchAccepted W st cm ks) :
    ∃ e, commitStep W c st cm = (st, .finished (some e)) := by
  unfold commitStep
  simp only [hst]
  split
  · exact ⟨_, rfl⟩
  · rename_i hp
    obtain ⟨ks, hb, -⟩ := checkBatch_ok hp
    exact absurd ⟨ks, hb⟩ h
  · rename_i plan _ hp
    obtain ⟨ks, hb, -⟩ := checkBatch_ok hp
    exact absurd ⟨ks, hb⟩ h

end

variable [Inhabited κ] {W : World κ} {P : State κ → Label κ → Prop} {st : Store κ}
  {s s' : State κ} {a : Label κ}

theorem Reached.stageInv (h : Reached W P st s) : ∀ cm ∈ s.commits, StageInv W s.store cm := by
  induction h with
  | refl => simp [State.init]
  | tail hr hp hs ih =>
    have hb := Reached.base hr
    have hstore := step_store hb.graph hs
    intro cm hcm
    cases step_commits hb.graph hs cm hcm with
    | old hcm => exact (ih cm hcm).mono hstore.complete
    | started c res n ha hid hn hacc hok h =>
      rw [h]
      trivial
    | staged cm₀ hcm₀ stage hr h =>
      rw [h]
      exact (ih cm₀ hcm₀).commit hr

/-- The step gives the ref `r` the value `v`. -/
def Wrote (s s' : State κ) (r : RefName κ) (v : κ) : Prop :=
  s'.store.refs r = some v ∧ s.store.refs r ≠ some v

/-- **Gate confinement.** Every ref that a commit writes is one of its node's own names, the
carrier of the source tree, a declared cache on the node's platform or a carrier the server
derives, and it is only written when the whole batch has passed every check.  A batch that fails
one ends the commit without a write, an ended commit never writes, and neither does the verdict
on it.  What the handling of a result writes under the lock is the server's own. -/
theorem gate_confinement (h : Reached W P st s) (hs : step W s a = some s') :
    (∀ c i cm, a = .commit c i → s.commits[i]? = some cm →
      (∀ r v, Wrote s s' r v → (∃ ks, BatchAccepted W s.store cm ks) ∧ Confined W cm r v) ∧
      (cm.stage = .check → (¬ ∃ ks, BatchAccepted W s.store cm ks) →
        s'.store = s.store ∧ ∃ e, s'.commits[i]? = some { cm with stage := .finished (some e) }) ∧
      ∀ e, cm.stage = .finished e → s'.store = s.store ∧ s'.commits[i]? = some cm) ∧
    (∀ c res, a = .result c res → ∀ r v, Wrote s s' r v → Carrier r v) ∧
    (∀ c i, a = .finish c i → ∀ r v, ¬ Wrote s s' r v) ∧
    ∀ c, a = .exec c → ∀ r v, Wrote s s' r v →
      ∃ fr rest, s.stack = fr :: rest ∧ FrameWrite s.node fr r v := by
  have hstore := step_store (Reached.base h).graph hs
  have hwrite : ∀ r v, Wrote s s' r v → Write s a r v := by
    intro r v hw
    obtain ⟨hv, hne⟩ := hw
    rcases hstore.refs r with hsame | ⟨v', hv', hwr⟩ | ⟨hnone, -⟩
    · exact absurd (hsame ▸ hv) hne
    · rw [hv] at hv'
      obtain rfl := Option.some.inj hv'
      exact hwr
    · rw [hv] at hnone
      cases hnone
  refine ⟨?_, ?_, ?_, ?_⟩
  · intro c i cm ha hcm
    subst ha
    have hlt : i < s.commits.length := (List.getElem?_eq_some_iff.mp hcm).1
    have heq : s' = { s with
        store := (commitStep W c s.store cm).1
        commits := s.commits.set i { cm with stage := (commitStep W c s.store cm).2 } } := by
      unfold step at hs
      simp only [hcm, Option.some.injEq] at hs
      exact hs.symm
    refine ⟨?_, ?_, ?_⟩
    · intro r v hw
      cases hwrite r v hw with
      | commit c i cm' hcm' r v hcw =>
        obtain rfl : cm = cm' := Option.mem_unique hcm hcm'
        exact (Reached.stageInv h cm (List.mem_of_getElem? hcm)).confined hcw
      | heal a ha => simp at ha
    · intro hst hrej
      obtain ⟨e, he⟩ := commitStep_rejected c hst hrej
      rw [heq, he]
      exact ⟨rfl, e, by simp [List.getElem?_set_self hlt]⟩
    · intro e hst
      have he : commitStep W c s.store cm = (s.store, .finished e) := by
        unfold commitStep
        simp only [hst]
      rw [heq, he, ← hst]
      exact ⟨rfl, by simp [List.getElem?_set_self hlt]⟩
  · rintro c res rfl r v hw
    cases hwrite r v hw with
    | heal a ha r v hc => exact hc
  · rintro c i rfl r v hw
    cases hwrite r v hw with
    | heal a ha => simp at ha
  · intro c ha r v hw
    subst ha
    cases hwrite r v hw with
    | frame c fr rest hst r v hfw => exact ⟨fr, rest, hst, hfw⟩
    | heal a ha => simp at ha

/-- The output of an import is written by the commit of its result. -/
theorem gate_confinement_import_output :
    ∃ s s', runSched fetchWorld (State.init (smallStore [])) (submitRun 1 9 ++
        [.result {} (fetched [⟨"import-output:07", [5], ""⟩]), .commit {} 0]) = some s ∧
      step fetchWorld s (.commit {} 0) = some s' ∧ Wrote s s' (.importOutput 7) 5 ∧
      ∃ cm, s.commits[0]? = some cm ∧ Confined fetchWorld cm (.importOutput 7) 5 := by
  have hrun : ∃ s ∈ runSched fetchWorld (State.init (smallStore [])) (submitRun 1 9 ++
      [.result {} (fetched [⟨"import-output:07", [5], ""⟩]), .commit {} 0]),
        s.commits[0]?.isSome = true ∧ ∃ s' ∈ step fetchWorld s (.commit {} 0),
          s'.store.refs (.importOutput 7) = some 5 ∧ s.store.refs (.importOutput 7) ≠ some 5 := by
    decide +kernel
  obtain ⟨s, hs, hsome, s', hs', hw⟩ := hrun
  obtain ⟨cm, hcm⟩ := Option.isSome_iff_exists.mp hsome
  have hmain := gate_confinement (Run.Steps.of_run _ hs) hs'
  exact ⟨s, s', hs, hs', hw, cm, hcm, ((hmain.1 {} 0 cm rfl hcm).1 _ _ hw).2⟩

end JobsIroh
