/-
What the parts of a want round do.

One lemma for each function a round is made of: which keys `Wants` returns, that a split
and a deal lose and repeat none of them, and what passing `checkDelivered` means.  The two
results about whole transfers, `Proofs/Receive.lean` and `Proofs/Exchange.lean`, use these and
unfold none of it.
-/
import JobsIroh.Amberiroh.WantSync
import JobsIroh.Lib.ObjectGraph

namespace JobsIroh.WantSync

open Search ObjectGraph

variable {κ φ : Type}

section Store

variable [DecidableEq κ] {C : Codec κ} {M : Core C} {st st' : Objects κ}

/-- Every object hashes to the key it is stored under. -/
def Verified (C : Codec κ) (st : Objects κ) : Prop :=
  ∀ k d, st.lookup k = some d → C.hashes k d = true

theorem kids_of_lookup {k : κ} {d : Bytes} {cs : List κ} (hl : st.lookup k = some d)
    (hc : C.childKeys k d = some cs) : kids C st k = cs := by
  simp [kids, hl, hc]

theorem Grown.refl (st : Objects κ) : Grown C st st := ⟨fun _ _ h => h, fun _ _ h => Or.inl h⟩

theorem Grown.trans {st'' : Objects κ} (h : Grown C st st') (h' : Grown C st' st'') :
    Grown C st st'' := by
  refine ⟨fun k d hl => h'.kept k d (h.kept k d hl), fun k d hl => ?_⟩
  rcases h'.new k d hl with hold | hnew
  · exact h.new k d hold
  · exact Or.inr hnew

theorem Grown.verified (h : Grown C st st') (hv : Verified C st) : Verified C st' :=
  fun k d hl => (h.new k d hl).elim (hv k d) id

theorem Held.grown (hext : Grown C st st') {k : κ} (h : Held C st k) :
    Held C st' k ∧ kids C st' k = kids C st k := by
  obtain ⟨d, cs, hl, hc⟩ := h
  have hl' := hext.kept _ _ hl
  exact ⟨⟨d, cs, hl', hc⟩, by rw [kids_of_lookup hl' hc, kids_of_lookup hl hc]⟩

theorem Complete.grown (hext : Grown C st st') {k : κ} (h : Complete C st k) :
    Complete C st' k := h.mono fun _ hm => hm.grown hext

/-! ### Which keys are wanted -/

/-- What `Wants` returns for a frontier, the keys of `seen` having been dealt with. -/
structure WantsSpec (C : Codec κ) (st : Objects κ) (seen frontier ws : List κ) : Prop where
  sublist : ws.Sublist frontier
  nodup : ws.Nodup
  fresh : ∀ k ∈ ws, k ∉ seen
  pruned : ∀ k ∈ frontier, k ∈ seen ∨ k ∈ ws ∨ Complete C st k

theorem wantsFrom_spec (frontier : List κ) :
    ∀ {seen ws : List κ}, wantsFrom M st seen frontier = some ws →
      WantsSpec C st seen frontier ws := by
  induction frontier with
  | nil =>
    intro seen ws h
    obtain rfl : [] = ws := by simpa [wantsFrom] using h
    exact ⟨List.Sublist.refl _, List.nodup_nil, by simp, by simp⟩
  | cons k frontier ih =>
    intro seen ws h
    rw [wantsFrom] at h
    by_cases hseen : k ∈ seen
    · rw [if_pos hseen] at h
      have hrest := ih h
      refine ⟨hrest.sublist.cons k, hrest.nodup, hrest.fresh, ?_⟩
      intro m hm
      rcases List.mem_cons.mp hm with rfl | hm
      · exact Or.inl hseen
      · exact hrest.pruned m hm
    rw [if_neg hseen] at h
    -- Past `k` a key is dealt with as before, or it is `k` itself.
    have hlater : ∀ {ws' : List κ}, WantsSpec C st (k :: seen) frontier ws' →
        ∀ m ∈ frontier, m ∈ seen ∨ m = k ∨ m ∈ ws' ∨ Complete C st m := by
      intro ws' hrest m hm
      rcases hrest.pruned m hm with h | h
      · rcases List.mem_cons.mp h with rfl | h
        · exact Or.inr (Or.inl rfl)
        · exact Or.inl h
      · exact Or.inr (Or.inr h)
    split at h
    · rename_i hcheck
      have hrest := ih h
      have hk : Complete C st k := by
        by_cases habs : absent st k = true
        · rw [if_pos habs] at hcheck
          simp at hcheck
        · rw [if_neg habs] at hcheck
          exact (M.complete_iff st k).mp hcheck
      refine ⟨hrest.sublist.cons k, hrest.nodup,
        fun m hm hc => hrest.fresh m hm (List.mem_cons_of_mem _ hc), ?_⟩
      intro m hm
      rcases List.mem_cons.mp hm with rfl | hm
      · exact Or.inr (Or.inr hk)
      · rcases hlater hrest m hm with h | rfl | h
        · exact Or.inl h
        · exact Or.inr (Or.inr hk)
        · exact Or.inr h
    · obtain ⟨ws', hws, rfl⟩ := Option.map_eq_some_iff.mp h
      have hrest := ih hws
      refine ⟨hrest.sublist.cons_cons k, ?_, ?_, ?_⟩
      · exact List.nodup_cons.mpr
          ⟨fun hk => hrest.fresh k hk List.mem_cons_self, hrest.nodup⟩
      · intro m hm hc
        rcases List.mem_cons.mp hm with rfl | hm
        · exact hseen hc
        · exact hrest.fresh m hm (List.mem_cons_of_mem _ hc)
      · intro m hm
        rcases List.mem_cons.mp hm with rfl | hm
        · exact Or.inr (Or.inl List.mem_cons_self)
        · rcases hlater hrest m hm with h | rfl | h
          · exact Or.inl h
          · exact Or.inr (Or.inl List.mem_cons_self)
          · exact Or.inr (h.imp (List.mem_cons_of_mem _) id)
    · simp at h

theorem wants_spec {frontier ws : List κ} (h : wants M st frontier = some ws) :
    WantsSpec C st [] frontier ws := wantsFrom_spec frontier h

/-- `Wants` fails only where something below the frontier does not decode. -/
theorem wantsFrom_isSome (frontier : List κ) :
    ∀ (seen : List κ), (∀ k ∈ frontier, ∀ m, Reach (kids C st) k m → ¬ Malformed C st m) →
      (wantsFrom M st seen frontier).isSome = true := by
  induction frontier with
  | nil => intro seen _; simp [wantsFrom]
  | cons k frontier ih =>
    intro seen hok
    have hrest := fun m hm => hok m (List.mem_cons_of_mem k hm)
    rw [wantsFrom]
    by_cases hseen : k ∈ seen
    · rw [if_pos hseen]
      exact ih seen hrest
    rw [if_neg hseen]
    split
    · exact ih _ hrest
    · rw [Option.isSome_map]
      exact ih _ hrest
    · rename_i hcheck
      by_cases habs : absent st k = true
      · rw [if_pos habs] at hcheck
        simp at hcheck
      · rw [if_neg habs] at hcheck
        obtain ⟨m, hm, hr⟩ := M.fault st k hcheck
        exact absurd hm (hok k List.mem_cons_self m hr)

end Store

/-! ### Splitting and dealing -/

theorem splitWants_append (ws : List κ) (max : Nat) :
    (splitWants ws max).1 ++ (splitWants ws max).2 = ws := by
  unfold splitWants
  split
  · simp
  · exact List.take_append_drop max ws

/-- With room for a key, a request is empty only when nothing is wanted. -/
theorem splitWants_eq_nil {ws : List κ} {max : Nat} (hmax : 0 < max)
    (h : (splitWants ws max).1 = []) : ws = [] := by
  unfold splitWants at h
  split at h
  · exact h
  · have := congrArg List.length h
    simp only [List.length_take, List.length_nil] at this
    omega

theorem modify_append_perm {shards : List (List κ)} {i : Nat} (hi : i < shards.length) (k : κ) :
    (shards.modify i (· ++ [k])).flatten.Perm (k :: shards.flatten) := by
  induction shards generalizing i with
  | nil => simp at hi
  | cons shard shards ih =>
    cases i with
    | zero =>
      simp only [List.modify_zero_cons, List.flatten_cons, List.append_assoc]
      exact List.perm_middle
    | succ =>
      have hrest := ih (by simpa using hi)
      exact (hrest.append_left shard).trans List.perm_middle

section Deal

variable {C : Codec κ} {A : Arith φ}

theorem lightest_lt {w assigned : List φ} (hw : w ≠ []) : lightest A w assigned < w.length := by
  have hpos : 0 < w.length := List.length_pos_of_ne_nil hw
  -- The best channel so far is a channel, whichever way the comparisons go.
  have hfold : ∀ (is : List Nat) (better : Nat → Nat → Bool) (best : Nat), best < w.length →
      (∀ i ∈ is, i < w.length) →
      is.foldl (fun best i => if better i best then i else best) best < w.length := by
    intro is better
    induction is with
    | nil => intro best hb _; simpa using hb
    | cons i is ih =>
      intro best hb his
      rw [List.foldl_cons]
      refine ih _ ?_ fun j hj => his j (List.mem_cons_of_mem _ hj)
      split
      · exact his i List.mem_cons_self
      · exact hb
  refine hfold _ (fun i best => A.lt (A.div (assigned.getD i (A.ofNat 0)) (w.getD i (A.ofNat 1)))
    (A.div (assigned.getD best (A.ofNat 0)) (w.getD best (A.ofNat 1)))) 0 hpos ?_
  intro i hi
  have := (List.mem_range'_1.mp hi).2
  omega

theorem dealFrom_spec {w : List φ} (hw : w ≠ []) (ks : List κ) :
    ∀ (assigned : List φ) (shards : List (List κ)), shards.length = w.length →
      (dealFrom C A w ks assigned shards).length = w.length ∧
      (dealFrom C A w ks assigned shards).flatten.Perm (ks ++ shards.flatten) := by
  induction ks with
  | nil => intro assigned shards hlen; exact ⟨hlen, List.Perm.refl _⟩
  | cons k ks ih =>
    intro assigned shards hlen
    have hlt : lightest A w assigned < shards.length := by
      rw [hlen]; exact lightest_lt hw
    obtain ⟨hlen', hperm⟩ := ih (assigned.modify (lightest A w assigned) (A.add ·
      (if A.lt (A.ofNat (C.length k)) (A.ofNat 1) then A.ofNat 1 else A.ofNat (C.length k))))
      (shards.modify (lightest A w assigned) (· ++ [k])) (by rw [List.length_modify, hlen])
    refine ⟨hlen', hperm.trans ?_⟩
    exact ((modify_append_perm hlt k).append_left ks).trans List.perm_middle

/-- **A deal has a shard for every channel, and every wanted key in one of them, once.** -/
theorem dealWants_spec (ks : List κ) {weights : List Int} (hw : weights ≠ []) :
    (dealWants C A ks weights).length = weights.length ∧
      (dealWants C A ks weights).flatten.Perm ks := by
  unfold dealWants
  by_cases hone : weights.length = 1
  · simp [hone]
  · rw [if_neg hone]
    have hne : weights.map (fun wt => A.ofNat (if wt < 1 then 1 else wt.toNat)) ≠ [] := by
      simpa using hw
    have hspec := dealFrom_spec (C := C) (A := A) hne ks
      (List.replicate weights.length (A.ofNat 0)) (List.replicate weights.length [])
      (by simp)
    simpa using hspec

end Deal

/-! ### The objects of a round -/

theorem checkDelivered_none_iff [DecidableEq κ] {received ws : List κ} :
    checkDelivered received ws = none ↔ ∀ k ∈ ws, k ∈ received := by
  unfold checkDelivered
  cases hm : ws.filter (· ∉ received) with
  | nil =>
    simp only [true_iff]
    intro k hk
    have := List.filter_eq_nil_iff.mp hm k hk
    simpa using this
  | cons k =>
    simp only [reduceCtorEq, false_iff]
    intro hall
    have hk : k ∈ ws.filter (· ∉ received) := by rw [hm]; exact List.mem_cons_self
    obtain ⟨hws, hnot⟩ := List.mem_filter.mp hk
    exact of_decide_eq_true hnot (hall k hws)

section Items

variable {C : Codec κ}

/-- Every item carries the children its bytes name. -/
theorem childItems_kids (objs : List (κ × Bytes)) :
    ∀ it ∈ (childItems C objs).1, C.childKeys it.key it.data = some it.kids := by
  induction objs with
  | nil => simp [childItems]
  | cons obj objs ih =>
    obtain ⟨k, d⟩ := obj
    intro it hit
    rw [childItems] at hit
    cases hc : C.childKeys k d with
    | none => simp [hc] at hit
    | some =>
      rw [hc] at hit
      rcases List.mem_cons.mp hit with rfl | hit
      · exact hc
      · exact ih it hit

theorem readError_none {reads : List (ChannelRead κ)} (h : ∀ r ∈ reads, r.failure = none) :
    readError reads = none := by
  have hfailed : reads.filterMap ChannelRead.failure = [] := List.filterMap_eq_nil_iff.mpr h
  unfold readError
  simp [hfailed]

theorem readRound_kids [DecidableEq κ] {env : Env κ} {rounds : List (List (List κ))}
    {unread : List (List PackFrame)} {shards : List (List κ)} :
    ∀ it ∈ env.merge rounds ((readRound env C rounds unread shards).map (·.items)),
      C.childKeys it.key it.data = some it.kids := by
  intro it hit
  have hflat := (env.merge_perm _ _).mem_iff.mp hit
  obtain ⟨items, hitems, hin⟩ := List.mem_flatten.mp hflat
  obtain ⟨r, hr, rfl⟩ := List.mem_map.mp hitems
  obtain ⟨p, -, rfl⟩ := List.mem_map.mp hr
  unfold readShard at hin
  split at hin
  · simp at hin
  · exact childItems_kids _ it hin

end Items

end JobsIroh.WantSync
