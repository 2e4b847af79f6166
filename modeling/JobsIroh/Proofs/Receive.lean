/-
A transfer that ends without an error is complete.

Nothing is known of the peers.  What carries the loop is the set of keys received so
far, `got`: their objects are held, and each of their children is received too, or in
the frontier, or complete below.  A round moves the frontier into `got`: a key of it is
pruned because it is complete, or received, or put off and back in the frontier.  When
nothing is wanted any more the frontier is complete, and so is everything below `root`.
-/
import JobsIroh.Proofs.WantRounds

namespace JobsIroh.WantSync

open Search ObjectGraph

variable {κ φ : Type} [DecidableEq κ] {C : Codec κ} {M : Core C} {A : Arith φ} {max : Nat}
  {env : Env κ}

/-! ### What a round can do -/

inductive TurnRule (M : Core C) (max : Nat) (s : Recv κ) : Turn κ → Prop
  | finished {ws : List κ} {t : Recv κ} (hwants : wants M s.store s.frontier = some ws)
      (hsend : (splitWants ws max).1 = []) (hstore : t.store = s.store) :
      TurnRule M max s (.done t none)
  | failed {t : Recv κ} {e : ReceiveError κ} (hstore : Grown C s.store t.store) :
      TurnRule M max s (.done t (some e))
  | next (items : List (Item κ)) {ws : List κ} {t : Recv κ}
      (hwants : wants M s.store s.frontier = some ws)
      (hkids : ∀ it ∈ items, C.childKeys it.key it.data = some it.kids)
      (hok : (M.writeParallel s.store items).2.2 = true)
      (hdelivered : ∀ k ∈ (splitWants ws max).1, k ∈ items.map (·.key))
      (hstore : t.store = (M.writeParallel s.store items).1)
      (hfrontier : t.frontier = items.flatMap (·.kids) ++ (splitWants ws max).2) :
      TurnRule M max s (.next t)

theorem finishRound_rule {s s' : Recv κ} {ws : List κ} {shards : List (List κ)}
    (hwants : wants M s'.store s'.frontier = some ws) (hstore : s.store = s'.store) :
    TurnRule M max s' (finishRound M env s (splitWants ws max).1 (splitWants ws max).2 shards) := by
  unfold finishRound
  dsimp only
  set items := env.merge (s.rounds ++ [shards])
    ((readRound env C (s.rounds ++ [shards]) s.unread shards).map (·.items)) with hitems
  have hgrown := M.grown s.store items
  rw [hstore] at hgrown ⊢
  split
  · exact .failed hgrown
  split
  · rename_i hok
    have htaken := (M.stored _ _ hok).1
    split
    · exact .failed hgrown
    · rename_i hdelivered
      rw [checkDelivered_none_iff] at hdelivered
      refine .next items hwants readRound_kids hok ?_ rfl ?_
      · intro k hk
        have := hdelivered k hk
        rwa [List.mem_dedup, htaken] at this
      · show List.flatMap _ (M.writeParallel s'.store items).2.1 ++ _ = _
        rw [htaken]
  · exact .failed hgrown

theorem turn_rule (A : Arith φ) (env : Env κ) (s : Recv κ) :
    TurnRule M max s (turn M A max env s) := by
  unfold turn
  cases hwants : wants M s.store s.frontier with
  | none => exact .failed (Grown.refl _)
  | some =>
    dsimp only
    split
    · rename_i hsend
      exact .finished hwants (List.isEmpty_iff.mp hsend) rfl
    · exact finishRound_rule hwants rfl

/-! ### What is received is accounted for -/

/-- A key is received, or still to be looked at, or needs nothing more. -/
def Due (C : Codec κ) (s : Recv κ) (got : List κ) (k : κ) : Prop :=
  k ∈ got ∨ k ∈ s.frontier ∨ Complete C s.store k

structure Tracks (C : Codec κ) (root : κ) (s : Recv κ) (got : List κ) : Prop where
  verified : Verified C s.store
  held : ∀ k ∈ got, Held C s.store k
  below : ∀ k ∈ got, ∀ c ∈ kids C s.store k, Due C s got c
  root : Due C s got root

theorem Tracks.next {root : κ} {s t : Recv κ} {got : List κ} (h : Tracks C root s got)
    (hrule : TurnRule M max s (.next t)) : ∃ got', Tracks C root t got' := by
  cases hrule with
  | @next items ws t hwants hkids hok hdelivered hstore hfrontier =>
    have hgrown := M.grown s.store items
    obtain ⟨-, hitems⟩ := M.stored _ _ hok
    rw [← hstore] at hgrown hitems
    have hverified := hgrown.verified h.verified
    have hnew : ∀ it ∈ items, Held C t.store it.key ∧ kids C t.store it.key = it.kids := by
      intro it hit
      obtain ⟨d, hd⟩ :=
        Option.isSome_iff_exists.mp (Option.isNone_eq_false_iff.mp (hitems it hit).2)
      obtain rfl : d = it.data := C.hashes_inj (hverified _ _ hd) (hitems it hit).1
      exact ⟨⟨_, _, hd, hkids it hit⟩, kids_of_lookup hd (hkids it hit)⟩
    -- What was due stays due: the frontier is pruned, received, or put off.
    have hdue : ∀ k, Due C s got k → Due C t (items.map (·.key) ++ got) k := by
      rintro k (hk | hk | hk)
      · exact Or.inl (List.mem_append_right _ hk)
      · rcases ((wants_spec hwants).pruned k hk).resolve_left (by simp) with hws | hc
        · rw [← splitWants_append ws max] at hws
          rcases List.mem_append.mp hws with hsend | hcarry
          · exact Or.inl (List.mem_append_left _ (hdelivered k hsend))
          · refine Or.inr (Or.inl ?_)
            rw [hfrontier]
            exact List.mem_append_right _ hcarry
        · exact Or.inr (Or.inr (Complete.grown hgrown hc))
      · exact Or.inr (Or.inr (Complete.grown hgrown hk))
    refine ⟨items.map (·.key) ++ got, hverified, ?_, ?_, hdue root h.root⟩
    · intro k hk
      rcases List.mem_append.mp hk with hk | hk
      · obtain ⟨it, hit, rfl⟩ := List.mem_map.mp hk
        exact (hnew it hit).1
      · exact ((h.held k hk).grown hgrown).1
    · intro k hk c hc
      rcases List.mem_append.mp hk with hk | hk
      · obtain ⟨it, hit, rfl⟩ := List.mem_map.mp hk
        rw [(hnew it hit).2] at hc
        refine Or.inr (Or.inl ?_)
        rw [hfrontier]
        exact List.mem_append_left _ (List.mem_flatMap.mpr ⟨it, hit, hc⟩)
      · rw [((h.held k hk).grown hgrown).2] at hc
        exact hdue c (h.below k hk c hc)

/-- With nothing left to want, what was received is closed under children. -/
theorem Tracks.complete {root : κ} {s : Recv κ} {got : List κ} (h : Tracks C root s got)
    (hwants : wants M s.store s.frontier = some []) : Complete C s.store root := by
  have hfrontier : ∀ k ∈ s.frontier, Complete C s.store k := by
    intro k hk
    rcases (wants_spec hwants).pruned k hk with h | h | h
    · simp at h
    · simp at h
    · exact h
  have hdue : ∀ k, Due C s got k → k ∈ got ∨ Complete C s.store k := by
    rintro k (hk | hk | hk)
    · exact Or.inl hk
    · exact Or.inr (hfrontier k hk)
    · exact Or.inr hk
  refine whole_of_closed (Z := fun k => k ∈ got ∨ Complete C s.store k) ?_ ?_ (hdue root h.root)
  · rintro k (hk | hk)
    · exact h.held k hk
    · exact hk.self
  · rintro k (hk | hk) c hc
    · exact hdue c (h.below k hk c hc)
    · exact Or.inr (hk.below (Relation.ReflTransGen.single hc))

/-! ### Whole transfers -/

theorem tracks_start (n : Nat) {st : Objects κ} (hst : Verified C st) (root : κ) :
    Tracks C root (Recv.start n st root) [] :=
  ⟨hst, by simp, by simp, Or.inr (Or.inl List.mem_cons_self)⟩

theorem receiveFrom_sound (hmax : 0 < max) {st : Objects κ} {root : κ} (fuel : Nat) :
    ∀ {s t : Recv κ} {err : Option (ReceiveError κ)} {got : List κ}, Tracks C root s got →
      Grown C st s.store → receiveFrom M A max env fuel s = some (t, err) →
      Grown C st t.store ∧ (err = none → Complete C t.store root) := by
  induction fuel with
  | zero => intro s t err got _ _ h; simp [receiveFrom] at h
  | succ fuel ih =>
    intro s t err got htracks hgrown h
    have hrule : TurnRule M max s (turn M A max env s) := turn_rule A env s
    rw [receiveFrom] at h
    cases hturn : turn M A max env s with
    | done s' err' =>
      rw [hturn] at h hrule
      obtain ⟨rfl, rfl⟩ : s' = t ∧ err' = err := by simpa using h
      cases hrule with
      | finished hwants hsend hstore =>
        rw [hstore]
        rw [splitWants_eq_nil hmax hsend] at hwants
        exact ⟨hgrown, fun _ => htracks.complete hwants⟩
      | failed hstore => exact ⟨hgrown.trans hstore, by simp⟩
    | next =>
      rw [hturn] at h hrule
      obtain ⟨got', htracks'⟩ := htracks.next hrule
      refine ih htracks' ?_ h
      cases hrule with
      | next _ _ _ _ _ hstore _ =>
        rw [hstore]
        exact hgrown.trans (M.grown _ _)

/--
**A transfer that ends without an error is complete**, whatever the peers send on
however many channels: everything below `root` is in the store, and what the transfer
added, also when it failed, hashes to the key it is stored under.
-/
theorem receive_is_sound (C : Codec κ) (M : Core C) (A : Arith φ) (env : Env κ) (n : Nat)
    (st : Objects κ) (hst : Verified C st) (root : κ) (fuel : Nat) (s : Recv κ)
    (err : Option (ReceiveError κ))
    (h : receive M A maxWantsPerRound env n st root fuel = some (s, err)) :
    (err = none → ∀ k, Reach (kids C s.store) root k → Held C s.store k) ∧
      (∀ k d, s.store.lookup k = some d → st.lookup k = some d ∨ C.hashes k d = true) ∧
      ∀ k d, st.lookup k = some d → s.store.lookup k = some d := by
  obtain ⟨hgrown, hdone⟩ :=
    receiveFrom_sound (by decide) fuel (tracks_start n hst root) (Grown.refl st) h
  exact ⟨hdone, hgrown.new, hgrown.kept⟩

/-! ### A small graph -/

section Walk

variable (C : Codec κ) (st : Objects κ)

/-- Every key a walk from `k` can meet. -/
def walkKeys (k : κ) : List κ := k :: (st.map (·.1)).flatMap fun m => m :: kids C st m

def held (k : κ) : Bool := ((st.lookup k).bind (C.childKeys k)).isSome

variable {C st}

theorem held_iff (k : κ) : held C st k = true ↔ Held C st k := by
  simp only [held, Held, Option.isSome_iff_exists, Option.bind_eq_some_iff]
  exact ⟨fun ⟨cs, d, h⟩ => ⟨d, cs, h⟩, fun ⟨d, cs, h⟩ => ⟨cs, d, h⟩⟩

theorem mem_walkKeys_of_kids {k m c : κ} (hc : c ∈ kids C st m) : c ∈ walkKeys C st k := by
  have hm : m ∈ st.map (·.1) := by
    cases hl : st.lookup m with
    | none => simp [kids, hl] at hc
    | some => exact Assoc.mem_keys_of_lookup hl
  refine List.mem_cons_of_mem _ (List.mem_flatMap.mpr ⟨m, hm, ?_⟩)
  exact List.mem_cons_of_mem _ hc

theorem walk_complete (k : κ) : (Search.dfs (kids C st) (fun m => !held C st m)
    ((walkKeys C st k).length + 1) k []).2 = none ↔ Complete C st k := by
  have hclosed : ∀ n ∈ walkKeys C st k, ∀ c ∈ kids C st n, c ∈ walkKeys C st k :=
    fun _ _ _ hc => mem_walkKeys_of_kids hc
  have hfinds : (Search.dfs (kids C st) (fun m => !held C st m)
      ((walkKeys C st k).length + 1) k []).2.isSome = true ↔
        ∃ m, (!held C st m) = true ∧ Search.Reach (kids C st) k m :=
    dfs_isSome_iff hclosed (Nat.lt_succ_self _) List.mem_cons_self
  rw [← Option.not_isSome_iff_eq_none, hfinds]
  refine ⟨fun h m hr => ?_, fun h ⟨m, hm, hr⟩ => ?_⟩
  · by_contra hheld
    exact h ⟨m, by simpa [← held_iff] using hheld, hr⟩
  · simp [(held_iff m).mpr (h m hr)] at hm

/-- A store that walks the graph, and takes all of a stream or nothing. -/
def Core.plain (C : Codec κ) : Core C where
  checkComplete st k := if (Search.dfs (kids C st) (fun m => !held C st m)
    ((walkKeys C st k).length + 1) k []).2 = none then .complete else .missing
  writeParallel st items := if items.all fun it => C.hashes it.key it.data then
    (st ++ items.map fun it => (it.key, it.data), items, true) else (st, [], false)
  complete_iff st k := by simp [← walk_complete]
  fault st k h := by split at h <;> cases h
  grown st items := by
    split
    · rename_i hall
      refine ⟨fun k d hl => by simp [List.lookup_append, hl], fun k d hl => ?_⟩
      rw [List.lookup_append] at hl
      cases hold : st.lookup k with
      | some => exact Or.inl (by simpa [hold] using hl)
      | none =>
        rw [hold, Option.none_or] at hl
        obtain ⟨it, hit, heq⟩ := List.mem_map.mp (Assoc.mem_of_lookup hl)
        obtain ⟨rfl, rfl⟩ := Prod.mk.inj heq
        exact Or.inr (List.all_eq_true.mp hall it hit)
    · exact Grown.refl st
  stored st items h := by
    split at h <;> rename_i hall
    · rw [if_pos hall]
      refine ⟨rfl, fun it hit => ⟨List.all_eq_true.mp hall it hit, ?_⟩⟩
      rw [absent, Bool.eq_false_iff, ne_eq, Option.isNone_iff_eq_none, List.lookup_append,
        Option.or_eq_none_iff, List.lookup_eq_none_iff, List.lookup_eq_none_iff]
      intro h
      simpa using h.2 _ (List.mem_map_of_mem hit)
    · cases h
  taken st items h := by rw [if_pos (List.all_eq_true.mpr h)]

end Walk

/-- Object 0 has the children 1 and 2, which share the child 3. -/
def diamond (k : UInt8) : Bytes :=
  if k = 0 then [1, 2] else if k = 1 then [3] else if k = 2 then [3] else []

/-- An object is the list of its children, and a record is a key. -/
def diamondCodec : Codec UInt8 where
  hashes k d := d == diamond k
  childKeys _ d := some d
  length k := (diamond k).length
  unreadable _ := "object not found"
  packHead := []
  record o := [o.1]
  packEnd := []
  decodePack b := (b.map fun k => (k, diamond k), true)
  hashes_inj := by
    intro k a b ha hb
    rw [beq_iff_eq] at ha hb
    rw [ha, hb]
  decodePack_records := by
    intro objs hobjs
    simp only [List.nil_append, List.append_nil, Prod.mk.injEq, and_true]
    induction objs with
    | nil => simp
    | cons o objs ih =>
      have ho := beq_iff_eq.mp (hobjs o List.mem_cons_self)
      have hrest := ih fun p hp => hobjs p (List.mem_cons_of_mem _ hp)
      simp only [List.flatMap_cons, List.singleton_append, List.map_cons, hrest, ← ho]

def natArith : Arith Nat where
  ofNat := id
  add := (· + ·)
  div := (· / ·)
  lt a b := decide (a < b)

def diamondSender : Sender UInt8 where
  store := [(0, [1, 2]), (1, [3]), (2, [3]), (3, [])]
  sortByLocation := id
  sort_perm := List.Perm.refl

/-- Every channel answered by a sender with the whole graph. -/
def diamondEnv : Env UInt8 where
  arrives rounds i :=
    (sendReply diamondCodec diamondSender ((rounds.getLast?.getD []).getD i [])).1
  weights _ i := i
  merge _ packs := packs.flatten
  merge_perm _ _ := List.Perm.refl _

theorem diamond_part : Verified diamondCodec [(1, [3])] := by
  intro k d hl
  obtain ⟨rfl, rfl⟩ : k = 1 ∧ d = [3] := by simpa using Assoc.mem_of_lookup hl
  decide

/-- Over two channels, with one inner object held already and its child missing. -/
theorem receive_is_sound_diamond :
    ∃ s, receive (Core.plain diamondCodec) natArith maxWantsPerRound diamondEnv 2 [(1, [3])] 0 4 =
        some (s, none) ∧
      ∀ k, Reach (kids diamondCodec s.store) 0 k → Held diamondCodec s.store k := by
  have hrun : ∃ r ∈ receive (Core.plain diamondCodec) natArith maxWantsPerRound diamondEnv 2
      [(1, [3])] 0 4,
      r.2 = none := by decide +kernel
  obtain ⟨⟨s, _⟩, hs, rfl⟩ := hrun
  have hsound :=
    receive_is_sound diamondCodec (Core.plain diamondCodec) natArith diamondEnv 2 [(1, [3])]
      diamond_part 0 4 s none hs
  exact ⟨s, hs, hsound.1 rfl⟩

end JobsIroh.WantSync
