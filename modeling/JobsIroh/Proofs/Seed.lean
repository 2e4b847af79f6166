/-
What a run of `Seed` leaves behind.

A marker says that its blob was seeded once, not that the ref still holds the artifact.
So going back to an earlier binary leaves the ref at the artifact of the later one, and a
ref that has expired is not published again (`seed_overlooks_refs`).

`seed_rollout_iff` gives the exact condition on the refs before a run: the marker of an
embedded blob, where it is there and can be read, tells the truth.  A run also leaves the
key alone if the last run without error seeded the same blob and the ref and its marker
have not changed since.
-/
import JobsIroh.Bootstrap.Seed

namespace JobsIroh.Bootstrap

open Text

variable {κ : Type} {st : Store κ} {bin : Binary} {refs refs' : Refs κ} {p q : String}
  {a b : SeedArtifact} {blob : Blob} {io : Io}

/-! ### The names of refs and markers -/

theorem ref_inj (h : a.ref p = b.ref q) : a = b ∧ p = q := by
  have hstem : a = b ∨ Incomparable a.stem b.stem := by
    cases a <;> cases b <;> decide
  rcases hstem with rfl | hne
  · refine ⟨rfl, ?_⟩
    have hcut := congrArg (cutPrefix a.stem) h
    rw [SeedArtifact.ref, SeedArtifact.ref, cutPrefix_append, cutPrefix_append] at hcut
    exact Option.some.inj hcut
  · exact absurd h (append_ne_append hne p q)

theorem ref_ne_marker (ref : String) : a.ref p ≠ seedMarkerRef st ref blob := by
  have hne : Incomparable a.stem "seed-src:" := by
    cases a <;> decide
  rw [seedMarkerRef, String.append_assoc, String.append_assoc]
  exact append_ne_append hne _ _

/-- The hash at the end of a marker has a fixed length. -/
theorem marker_inj {ref ref' : String} {blob' : Blob}
    (h : seedMarkerRef st ref blob = seedMarkerRef st ref' blob') : ref = ref' := by
  have hlist := congrArg String.toList h
  simp only [seedMarkerRef, String.toList_append, List.append_assoc] at hlist
  have hlist := List.append_cancel_left hlist
  have hlen : (":".toList ++ (st.sum8 blob).toList).length
      = (":".toList ++ (st.sum8 blob').toList).length := by
    simp [String.length_toList, st.sum8_length]
  have := (List.append_inj' hlist hlen).1
  exact String.toList_inj.mp this

/-! ### One artifact -/

/-- The ref holds an artifact that was made from the blob. -/
def Points (st : Store κ) (refs : Refs κ) (ref : String) (blob : Blob) : Prop :=
  ∃ n, refs ref = some (st.ingest blob n)

/-- Two sets of refs agree on the ref of an artifact and on a marker of it. -/
def Agree (st : Store κ) (p : String) (a : SeedArtifact) (blob : Blob) (refs refs' : Refs κ) :
    Prop :=
  refs' (a.ref p) = refs (a.ref p) ∧
    refs' (seedMarkerRef st (a.ref p) blob) = refs (seedMarkerRef st (a.ref p) blob)

theorem putRef_self (ref : String) (k : κ) : putRef refs ref k ref = some k := by
  simp [putRef]

theorem putRef_other {ref ref' : String} (h : ref' ≠ ref) (k : κ) :
    putRef refs ref k ref' = refs ref' := by
  simp [putRef, h]

theorem publish_agree {ref : String} (href : a.ref p ≠ ref)
    (hmarker : seedMarkerRef st (a.ref p) blob ≠ ref) (blob' : Blob) :
    Agree st p a blob refs (publish st io ref blob' refs).2 := by
  have hmark : seedMarkerRef st (a.ref p) blob ≠ seedMarkerRef st ref blob' := by
    intro h
    exact href (marker_inj h)
  unfold publish
  split
  · exact ⟨rfl, rfl⟩
  · split
    · split
      · refine ⟨?_, ?_⟩
        · dsimp only
          rw [putRef_other (ref_ne_marker _), putRef_other href]
        · dsimp only
          rw [putRef_other hmark, putRef_other hmarker]
      · exact ⟨putRef_other href _, putRef_other hmarker _⟩
    · exact ⟨rfl, rfl⟩

theorem publish_ok {k : κ} (h : (publish st io (a.ref p) blob refs).1 = .ok k) :
    Points st (publish st io (a.ref p) blob refs).2 (a.ref p) blob ∧
      (publish st io (a.ref p) blob refs).2 (seedMarkerRef st (a.ref p) blob) ≠ none := by
  unfold publish at h ⊢
  split at h
  · simp at h
  · rename_i n hn
    split at h
    · split at h
      · rename_i hput hmarker
        simp only [hput, hmarker, if_true]
        refine ⟨⟨n, ?_⟩, ?_⟩
        · rw [putRef_other (ref_ne_marker _), putRef_self]
        · rw [putRef_self]
          simp
      · simp at h
    · simp at h

theorem seedOne_unmarked (h : marked st io (a.ref p) blob refs = none)
    (hok : seedOne st io (a.ref p) blob refs = (.ok (), refs')) :
    Points st refs' (a.ref p) blob ∧ refs' (seedMarkerRef st (a.ref p) blob) ≠ none := by
  rw [seedOne, h] at hok
  rcases hpub : publish st io (a.ref p) blob refs with ⟨r, refs₁⟩
  rw [hpub] at hok
  cases r with
  | error => simp at hok
  | ok k =>
    obtain rfl : refs₁ = refs' := by simpa using hok
    have hput : Points st (publish st io (a.ref p) blob refs).2 (a.ref p) blob ∧ _ :=
      publish_ok (by rw [hpub])
    rwa [hpub] at hput

theorem seedOne_agree (hne : (p, a) ≠ (q, b)) (blob' : Blob) :
    Agree st p a blob refs (seedOne st io (b.ref q) blob' refs).2 := by
  unfold seedOne
  split
  · exact ⟨rfl, rfl⟩
  · have href : a.ref p ≠ b.ref q := by
      intro h
      obtain ⟨rfl, rfl⟩ := ref_inj h
      exact hne rfl
    have hpub : Agree st p a blob refs (publish st io (b.ref q) blob' refs).2 :=
      publish_agree href (ref_ne_marker _).symm blob'
    rcases hres : publish st io (b.ref q) blob' refs with ⟨r, refs₁⟩
    rw [hres] at hpub
    cases r with
    | error | ok => exact hpub

/-- Seeding one artifact either leaves another one as it was, or makes its own. -/
theorem seedOne_cases {blob' : Blob} (hq : bin (seedPath q b) = some blob')
    (hp : bin (seedPath p a) = some blob)
    (h : seedOne st io (b.ref q) blob' refs = (.ok (), refs')) :
    (Agree st p a blob refs refs' ∧ ((p, a) = (q, b) →
      io.getFails = false ∧ refs (seedMarkerRef st (a.ref p) blob) ≠ none)) ∨
    ((p, a) = (q, b) ∧
      (io.getFails = true ∨ refs (seedMarkerRef st (a.ref p) blob) = none) ∧
      Points st refs' (a.ref p) blob ∧ refs' (seedMarkerRef st (a.ref p) blob) ≠ none) := by
  by_cases heq : (p, a) = (q, b)
  · obtain ⟨rfl, rfl⟩ := Prod.mk.inj heq
    obtain rfl : blob = blob' := by simpa [hp] using hq
    cases hm : marked st io (a.ref p) blob refs with
    | some =>
      rw [seedOne, hm] at h
      obtain rfl : refs = refs' := by simpa using h
      refine Or.inl ⟨⟨rfl, rfl⟩, fun _ => ?_⟩
      cases hget : io.getFails with
      | true => simp [marked, hget] at hm
      | false =>
        rw [marked, hget] at hm
        simp only [Bool.false_eq_true, if_false] at hm
        simp [hm]
    | none =>
      obtain ⟨hpts, hmark⟩ := seedOne_unmarked hm h
      refine Or.inr ⟨rfl, ?_, hpts, hmark⟩
      cases hget : io.getFails with
      | true => exact Or.inl rfl
      | false =>
        rw [marked, hget] at hm
        exact Or.inr (by simpa using hm)
  · refine Or.inl ⟨?_, fun h => absurd h heq⟩
    have hag : Agree st p a blob refs (seedOne st io (b.ref q) blob' refs).2 :=
      seedOne_agree heq blob'
    rwa [h] at hag

/-! ### A run -/

/-- The artifacts whose marker could not be read at some point of the run. -/
def failedReads (bin : Binary) :
    List (String × SeedArtifact) → List Io → List (String × SeedArtifact)
  | [], _ => []
  | (p, a) :: rest, ios =>
    match bin (seedPath p a) with
    | none => failedReads bin rest ios
    | some _ =>
      match ios with
      | [] => []
      | io :: ios =>
        if io.getFails then (p, a) :: failedReads bin rest ios
        else failedReads bin rest ios

theorem mem_of_failedReads (items : List (String × SeedArtifact)) :
    ∀ {ios : List Io}, (p, a) ∈ failedReads bin items ios → (p, a) ∈ items := by
  induction items with
  | nil => intro ios h; simp [failedReads] at h
  | cons item items ih =>
    intro ios h
    rw [failedReads.eq_def] at h
    dsimp only at h
    rw [List.mem_cons]
    split at h
    · exact Or.inr (ih h)
    · split at h
      · simp at h
      · split at h
        · rcases List.mem_cons.mp h with heq | hmem
          · exact Or.inl heq
          · exact Or.inr (ih hmem)
        · exact Or.inr (ih h)

/-- The first artifact of a run that goes through. -/
theorem seedFrom_cons {items : List (String × SeedArtifact)} {ios : List Io}
    (h : seedFrom st bin ((q, b) :: items) ios refs = (.ok (), refs')) :
    (bin (seedPath q b) = none ∧
      failedReads bin ((q, b) :: items) ios = failedReads bin items ios ∧
      seedFrom st bin items ios refs = (.ok (), refs')) ∨
    ∃ blob io ios' refs₁, bin (seedPath q b) = some blob ∧
      failedReads bin ((q, b) :: items) ios =
        (if io.getFails then (q, b) :: failedReads bin items ios' else failedReads bin items ios') ∧
      seedOne st io (b.ref q) blob refs = (.ok (), refs₁) ∧
      seedFrom st bin items ios' refs₁ = (.ok (), refs') := by
  rw [seedFrom] at h
  cases hbin : bin (seedPath q b) with
  | none =>
    rw [hbin] at h
    exact Or.inl ⟨rfl, by simp [failedReads, hbin], h⟩
  | some blob =>
    rw [hbin] at h
    cases ios with
    | nil => simp at h
    | cons io ios =>
      dsimp only at h
      rcases hone : seedOne st io (b.ref q) blob refs with ⟨r, refs₁⟩
      rw [hone] at h
      cases r with
      | error => simp at h
      | ok =>
        exact Or.inr ⟨blob, io, ios, refs₁, rfl, by simp [failedReads, hbin], hone, h⟩

/-- What a run has done for one artifact, in terms of the refs it started from. -/
structure Seeded (st : Store κ) (bin : Binary) (items : List (String × SeedArtifact))
    (ios : List Io) (p : String) (a : SeedArtifact) (blob : Blob) (refs refs' : Refs κ) : Prop where
  /-- The ref is right if it was, or if the artifact was published. -/
  points_iff : Points st refs' (a.ref p) blob ↔ Points st refs (a.ref p) blob ∨
    (p, a) ∈ items ∧ (refs (seedMarkerRef st (a.ref p) blob) = none ∨
      (p, a) ∈ failedReads bin items ios)
  /-- The marker is there. -/
  marker : (p, a) ∈ items ∨ refs (seedMarkerRef st (a.ref p) blob) ≠ none →
    refs' (seedMarkerRef st (a.ref p) blob) ≠ none
  /-- A marker that is there and is read keeps the ref. -/
  kept : refs (seedMarkerRef st (a.ref p) blob) ≠ none → (p, a) ∉ failedReads bin items ios →
    refs' (a.ref p) = refs (a.ref p)

theorem seedFrom_seeded (hp : bin (seedPath p a) = some blob)
    (items : List (String × SeedArtifact)) :
    ∀ {ios : List Io} {refs : Refs κ}, seedFrom st bin items ios refs = (.ok (), refs') →
      Seeded st bin items ios p a blob refs refs' := by
  induction items with
  | nil =>
    intro ios refs h
    obtain rfl : refs = refs' := by simpa [seedFrom] using h
    exact ⟨by simp, by simp, fun _ _ => rfl⟩
  | cons item items ih =>
    intro ios refs h
    obtain ⟨q, b⟩ := item
    rcases seedFrom_cons h with
      ⟨hnone, hfail, hrest⟩ | ⟨blob', io, ios', refs₁, hsome, hfail, hone, hrest⟩
    · have hne : (p, a) ≠ (q, b) := by
        intro heq
        obtain ⟨rfl, rfl⟩ := Prod.mk.inj heq
        simp [hp] at hnone
      obtain ⟨hpts, hmark, hkept⟩ := ih hrest
      rw [← hfail] at hpts hkept
      refine ⟨?_, ?_, hkept⟩
      · rw [hpts, List.mem_cons]
        simp [hne]
      · simpa [hne] using hmark
    · obtain ⟨hpts, hmark, hkept⟩ := ih hrest
      rcases seedOne_cases hsome hp hone with ⟨⟨href, hm⟩, hsame⟩ | ⟨heq, hcause, hpts₁, hm₁⟩
      · -- Nothing about this artifact has changed.
        have hfails : (p, a) ∈ failedReads bin ((q, b) :: items) ios ↔
            (p, a) ∈ failedReads bin items ios' := by
          rw [hfail]
          split
          · rename_i hget
            rw [List.mem_cons]
            refine or_iff_right fun heq => ?_
            simp [(hsame heq).1] at hget
          · rfl
        have hsame' : Points st refs₁ (a.ref p) blob ↔ Points st refs (a.ref p) blob := by
          simp [Points, href]
        rw [hm] at hpts hmark hkept
        rw [href] at hkept
        refine ⟨?_, ?_, ?_⟩
        · rw [hpts, hsame', hfails, List.mem_cons]
          by_cases heq : (p, a) = (q, b)
          · have hmem : (p, a) ∈ failedReads bin items ios' → (p, a) ∈ items :=
              mem_of_failedReads items
            exact or_congr_right ⟨fun h => ⟨Or.inl heq, h.2⟩,
              fun h => ⟨hmem (h.2.resolve_left (hsame heq).2), h.2⟩⟩
          · simp [heq]
        · rw [List.mem_cons]
          rintro ((heq | hmem) | hne)
          · exact hmark (Or.inr (hsame heq).2)
          · exact hmark (Or.inl hmem)
          · exact hmark (Or.inr hne)
        · intro hne hnot
          exact hkept hne (fun hmem => hnot (hfails.mpr hmem))
      · -- The artifact was published.
        obtain ⟨rfl, rfl⟩ := Prod.mk.inj heq
        refine ⟨iff_of_true (hpts.mpr (Or.inl hpts₁)) (Or.inr ⟨List.mem_cons_self, ?_⟩),
          fun _ => hmark (Or.inr hm₁), ?_⟩
        · rw [hfail]
          rcases hcause with hget | hnone
          · exact Or.inr (by simp [hget])
          · exact Or.inl hnone
        · intro hne hnot
          rw [hfail] at hnot
          rcases hcause with hget | hnone
          · simp [hget] at hnot
          · exact absurd hnone hne

theorem mem_requested {platforms : List String} :
    (p, a) ∈ requested platforms ↔ p ∈ platforms := by
  have hall : a ∈ seedArtifacts := by
    cases a <;> decide
  simp [requested, hall]

/-- After the last run without error the markers of what it seeded were there. -/
def LastMarked (st : Store κ) (s : History κ) : Prop :=
  ∀ last, s.last = some last → ∀ p ∈ last.platforms, ∀ a blob,
    last.bin (seedPath p a) = some blob →
      last.refs (seedMarkerRef st (a.ref p) blob) ≠ none

theorem step_lastMarked {s s' : History κ} {ev : Event} (h : LastMarked st s)
    (hs : step st s ev = some s') : LastMarked st s' := by
  cases ev with
  | seed bin platforms ios =>
    rw [step] at hs
    rcases hrun : seed st bin platforms ios s.refs with ⟨r, refs⟩
    rw [hrun] at hs
    cases r with
    | error =>
      rw [← Option.some.inj hs]
      exact h
    | ok =>
      rw [← Option.some.inj hs]
      intro last hlast p hp a blob hblob
      obtain rfl := Option.some.inj hlast
      exact (seedFrom_seeded hblob _ hrun).marker (Or.inl (mem_requested.mpr hp))
  | seedShellAs | expire =>
    rw [← Option.some.inj hs]
    exact h

/--
**What a run of `Seed` that returns without error leaves.**  The ref of every embedded
artifact holds what was made from the blob of this binary, exactly if before the run each
marker of an embedded blob that was there and was read belonged to a ref that held that.
And the key does not change where the last run without error seeded the same blob and
neither the ref nor the marker has changed since, unless the marker cannot be read.
-/
theorem seed_rollout_iff (st : Store κ) {refs₀ refs' : Refs κ} {s : History κ}
    (h : Run.Steps (step st) Run.Always (History.new refs₀) s)
    {bin : Binary} {platforms : List String} {ios : List Io}
    (hrun : seed st bin platforms ios s.refs = (.ok (), refs')) :
    ((∀ p ∈ platforms, ∀ a blob, bin (seedPath p a) = some blob →
        Points st refs' (a.ref p) blob) ↔
      ∀ p ∈ platforms, ∀ a blob, bin (seedPath p a) = some blob →
        s.refs (seedMarkerRef st (a.ref p) blob) ≠ none →
        (p, a) ∉ failedReads bin (requested platforms) ios →
        Points st s.refs (a.ref p) blob) ∧
    ∀ last, s.last = some last → ∀ p ∈ last.platforms, ∀ a blob,
      last.bin (seedPath p a) = some blob → bin (seedPath p a) = some blob →
      s.refs (a.ref p) = last.refs (a.ref p) →
      s.refs (seedMarkerRef st (a.ref p) blob) = last.refs (seedMarkerRef st (a.ref p) blob) →
      (p, a) ∉ failedReads bin (requested platforms) ios →
      refs' (a.ref p) = s.refs (a.ref p) := by
  have hmarked : LastMarked st s := by
    refine h.inv ?_ fun s ev s' hI _ hs => step_lastMarked hI hs
    intro last hlast
    simp [History.new] at hlast
  refine ⟨?_, ?_⟩
  · refine forall_congr' fun p => forall_congr' fun hp => forall_congr' fun a =>
      forall_congr' fun blob => forall_congr' fun hblob => ?_
    have hitem : (p, a) ∈ requested platforms := mem_requested.mpr hp
    rw [(seedFrom_seeded hblob _ hrun).points_iff]
    constructor
    · rintro (h | ⟨-, h | h⟩) hmarker hread
      · exact h
      · exact absurd h hmarker
      · exact absurd h hread
    · intro h
      by_cases hpub : s.refs (seedMarkerRef st (a.ref p) blob) = none ∨
          (p, a) ∈ failedReads bin (requested platforms) ios
      · exact Or.inr ⟨hitem, hpub⟩
      · rw [not_or] at hpub
        exact Or.inl (h hpub.1 hpub.2)
  · intro last hlast p hp a blob hold hnew _ hsame hread
    refine (seedFrom_seeded hnew _ hrun).kept ?_ hread
    rw [hsame]
    exact hmarked last hlast p hp a blob hold

/-! ### Histories -/

/-- One blob for each path, whatever binary runs; `SeedShellAs` as the boot self-test calls it;
and only refs of other kinds expire. -/
def Steady (B : Binary) : Event → Prop
  | .seed bin _ _ => ∀ path blob, bin path = some blob → B path = some blob
  | .seedShellAs _ _ ref _ => ∃ q, ref = "selftest-shell:" ++ q
  | .expire ref => ∀ a p, ref ≠ SeedArtifact.ref a p

/-- A marker belongs to a ref that holds what was made from its blob. -/
def Truthful (st : Store κ) (B : Binary) (refs : Refs κ) : Prop :=
  ∀ p a blob, B (seedPath p a) = some blob → refs (seedMarkerRef st (a.ref p) blob) ≠ none →
    Points st refs (a.ref p) blob

/-- The ref is written before its marker. -/
theorem publish_own : (publish st io (a.ref p) blob refs).2 = refs ∨
    Points st (publish st io (a.ref p) blob refs).2 (a.ref p) blob := by
  unfold publish
  split
  · exact Or.inl rfl
  · rename_i n _
    repeat' split
    · exact Or.inr ⟨n, (putRef_other (ref_ne_marker _) _).trans (putRef_self _ _)⟩
    · exact Or.inr ⟨n, putRef_self _ _⟩
    · exact Or.inl rfl

theorem seedOne_refs (ref : String) : (seedOne st io ref blob refs).2 = refs ∨
    (seedOne st io ref blob refs).2 = (publish st io ref blob refs).2 := by
  unfold seedOne
  repeat' split
  · exact Or.inl rfl
  · rename_i h
    exact Or.inr (by rw [h])
  · rename_i h
    exact Or.inr (by rw [h])

variable {B : Binary}

theorem Truthful.agree (h : Truthful st B refs)
    (hag : ∀ p a blob, B (seedPath p a) = some blob →
      Agree st p a blob refs refs' ∨ Points st refs' (a.ref p) blob) : Truthful st B refs' := by
  intro p a blob hp hm
  rcases hag p a blob hp with ⟨href, hmark⟩ | hpts
  · rw [hmark] at hm
    obtain ⟨n, hn⟩ := h p a blob hp hm
    exact ⟨n, href.trans hn⟩
  · exact hpts

theorem Truthful.seedOne (h : Truthful st B refs) (hq : B (seedPath q b) = some blob) :
    Truthful st B (seedOne st io (b.ref q) blob refs).2 := by
  refine h.agree fun p a blob' hp => ?_
  by_cases heq : (p, a) = (q, b)
  · obtain ⟨rfl, rfl⟩ := Prod.mk.inj heq
    obtain rfl : blob' = blob := by simpa [hp] using hq
    have hone : (seedOne st io (a.ref p) blob' refs).2 = refs ∨
        (seedOne st io (a.ref p) blob' refs).2 = (publish st io (a.ref p) blob' refs).2 :=
      seedOne_refs (a.ref p)
    rcases hone with hsame | hpub
    · exact Or.inl (by rw [hsame]; exact ⟨rfl, rfl⟩)
    · rw [hpub]
      exact publish_own.imp_left fun hsame => by rw [hsame]; exact ⟨rfl, rfl⟩
  · exact Or.inl (seedOne_agree heq blob)

theorem Truthful.seedFrom (hbin : ∀ path blob, bin path = some blob → B path = some blob)
    (items : List (String × SeedArtifact)) : ∀ {ios : List Io} {refs : Refs κ},
      Truthful st B refs → Truthful st B (seedFrom st bin items ios refs).2 := by
  induction items with
  | nil => exact fun h => h
  | cons item items ih =>
    intro ios refs h
    rw [Bootstrap.seedFrom]
    split
    · exact ih h
    · rename_i blob hblob
      split
      · exact h
      · rename_i io _
        have hone : Truthful st B (Bootstrap.seedOne st io (item.2.ref item.1) blob refs).2 :=
          h.seedOne (hbin _ _ hblob)
        split <;> rename_i hres <;> rw [hres] at hone
        · exact hone
        · exact ih hone

theorem step_truthful {s s' : History κ} {ev : Event} (h : Truthful st B s.refs)
    (hev : Steady B ev) (hs : step st s ev = some s') : Truthful st B s'.refs := by
  cases ev with
  | seed bin platforms ios =>
    have hseed : Truthful st B (seedFrom st bin (requested platforms) ios s.refs).2 :=
      h.seedFrom hev _
    rw [step, seed] at hs
    split at hs <;> rename_i hrun <;> rw [hrun] at hseed <;> rw [← Option.some.inj hs]
    · exact hseed
    · exact hseed
  | seedShellAs bin platform ref io =>
    obtain ⟨r, rfl⟩ := hev
    rw [← Option.some.inj hs]
    refine h.agree fun p a blob _ => Or.inl ?_
    have href : a.ref p ≠ "selftest-shell:" ++ r :=
      append_ne_append (by cases a <;> decide) p r
    have hmarker : seedMarkerRef st (a.ref p) blob ≠ "selftest-shell:" ++ r := by
      rw [seedMarkerRef, String.append_assoc, String.append_assoc]
      exact append_ne_append (by decide) _ r
    dsimp only
    unfold seedShellAs
    repeat' split
    · exact ⟨rfl, rfl⟩
    · rename_i k _ _
      exact ⟨putRef_other href k, putRef_other hmarker k⟩
    · exact ⟨rfl, rfl⟩
    · exact publish_agree href hmarker _
  | expire ref =>
    rw [← Option.some.inj hs]
    intro p a blob hp hm
    have hmark : s.refs (seedMarkerRef st (a.ref p) blob) ≠ none := by
      intro hnone
      simp [Function.update_apply, hnone] at hm
    obtain ⟨n, hn⟩ := h p a blob hp hmark
    exact ⟨n, (Function.update_of_ne (hev a p).symm _ _).trans hn⟩

/-- **Where nothing goes back and no seed ref expires, every run without error leaves the refs
right**, whatever runs were cut short before it. -/
theorem seed_history (h₀ : Truthful st B refs) {s : History κ}
    (h : Run.Steps (step st) (fun _ ev => Steady B ev) (History.new refs) s)
    {platforms : List String} {ios : List Io} (hbin : Steady B (.seed bin platforms ios))
    (hrun : seed st bin platforms ios s.refs = (.ok (), refs')) (hp : p ∈ platforms)
    (hblob : bin (seedPath p a) = some blob) : Points st refs' (a.ref p) blob := by
  have htrue : Truthful st B s.refs :=
    h.inv (I := fun s => Truthful st B s.refs) h₀ fun s ev s' hI hev hs => step_truthful hI hev hs
  refine (seedFrom_seeded hblob _ hrun).points_iff.mpr ?_
  by_cases hm : s.refs (seedMarkerRef st (a.ref p) blob) = none
  · exact Or.inr ⟨mem_requested.mpr hp, Or.inl hm⟩
  · exact Or.inl (htrue p a blob (hbin _ _ hblob) hm)

/-! ### Small stores -/

/-- A store whose keys are the blob and the time. -/
def plainStore : Store (Blob × Nat) where
  sum8 b := if b = [1] then "00000000000000a1" else "00000000000000b2"
  sum8_length b := by
    split
    · decide
    · decide
  ingest b n := (b, n)

/-- A binary that carries one shell. -/
def withShell (blob : Blob) : Binary :=
  fun path => if path = seedPath "linux/amd64" .shell then some blob else none

def seedOnce (blob : Blob) (time : Nat) : Event :=
  .seed (withShell blob) ["linux/amd64"] [{ ingest := some time }]

/-- The binary with the first blob runs after some events: does it return, and what is left? -/
def seedAfter (events : List Event) : Option (Bool × Option (Blob × Nat)) :=
  (Run.run (step plainStore) (History.new fun _ => none) events).map fun s =>
    let r := seed plainStore (withShell [1]) ["linux/amd64"] [{ ingest := some 2 }] s.refs
    (r.1.toBool, r.2 (SeedArtifact.shell.ref "linux/amd64"))

/-- Seeding the same binary again keeps the key. -/
theorem seed_rollout_iff_again :
    ∃ s refs', Run.Steps (step plainStore) Run.Always (History.new fun _ => none) s ∧
      seed plainStore (withShell [1]) ["linux/amd64"] [{ ingest := some 2 }] s.refs
        = (.ok (), refs') ∧
      Points plainStore refs' (SeedArtifact.shell.ref "linux/amd64") [1] := by
  have hcheck : ∃ s ∈ Run.run (step plainStore) (History.new fun _ => none) [seedOnce [1] 0],
      s.refs (SeedArtifact.shell.ref "linux/amd64") = some ([1], 0) ∧
        (seed plainStore (withShell [1]) ["linux/amd64"] [{ ingest := some 2 }] s.refs).1.toBool
          = true := by
    decide +kernel
  obtain ⟨s, hs, hc⟩ := hcheck
  have hsteps := Run.Steps.of_run _ hs
  rcases hrun : seed plainStore (withShell [1]) ["linux/amd64"] [{ ingest := some 2 }] s.refs
    with ⟨r, refs'⟩
  cases r with
  | error => simp [hrun, Except.toBool] at hc
  | ok =>
    refine ⟨s, refs', hsteps, hrun, ?_⟩
    refine (seed_rollout_iff plainStore hsteps hrun).1.mpr ?_ "linux/amd64" (by simp) .shell [1]
      (by simp [withShell])
    intro p hp a blob hblob _ _
    obtain rfl : p = "linux/amd64" := by simpa using hp
    have hother : ∀ a, withShell [1] (seedPath "linux/amd64" a) ≠ none → a = .shell := by
      intro a
      cases a <;> decide +kernel
    obtain rfl := hother a (by rw [hblob]; simp)
    obtain rfl : [1] = blob := by simpa [withShell] using hblob
    exact ⟨0, hc.1⟩

/--
Back to an earlier binary, `Seed` returns without error and leaves the artifact of the
later one; and it does not publish a ref that has expired.
-/
theorem seed_overlooks_refs :
    seedAfter [seedOnce [1] 0, seedOnce [2] 1] = some (true, some ([2], 1)) ∧
      (∀ n, plainStore.ingest [1] n ≠ ([2], 1)) ∧
      seedAfter [seedOnce [1] 0, .expire (SeedArtifact.shell.ref "linux/amd64")]
        = some (true, none) := by
  refine ⟨by decide +kernel, ?_, by decide +kernel⟩
  intro n
  simp [plainStore]

end JobsIroh.Bootstrap
