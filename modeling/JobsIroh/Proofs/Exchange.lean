/-
With honest senders a transfer ends, and ends well on every channel.

Each channel is served by a `Send` whose store holds everything below `root`.  Content
keys make all these stores, and the receiver's, agree on the children of a key, so the
graph is one: `kids` of the first sender.  Below `root` it has no cycles, and the load
of a frontier is the sum of its keys' weights in that graph.  A round opens the keys it
requests and keeps those it puts off, which makes the load strictly smaller, also when a
key comes back that an earlier round has requested already.
-/
import JobsIroh.Proofs.Receive
import Mathlib.Algebra.Order.BigOperators.Group.List
import Mathlib.Algebra.Order.Ring.Nat

namespace JobsIroh.WantSync

open Search ObjectGraph

variable {κ φ : Type} [DecidableEq κ] {C : Codec κ} {M : Core C} {A : Arith φ} {max n : Nat}
  {env : Env κ} {S : Nat → Sender κ} {root : κ}

/-! ### Senders with the whole closure -/

/-- Every channel's sender holds, verified, everything below `root`. -/
structure Served (C : Codec κ) (S : Nat → Sender κ) (n : Nat) (root : κ) : Prop where
  channel : 0 < n
  verified : ∀ i < n, Verified C (S i).store
  complete : ∀ i < n, Complete C (S i).store root

/-- What arrives on a channel is what its sender answers to the round's request. -/
def Answered (C : Codec κ) (S : Nat → Sender κ) (n : Nat) (env : Env κ) : Prop :=
  ∀ rounds shards, ∀ i < n, shards.getD i [] ≠ [] →
    env.arrives (rounds ++ [shards]) i = (sendReply C (S i) (shards.getD i [])).1

/-- The object graph, as the first sender has it. -/
abbrev graph (C : Codec κ) (S : Nat → Sender κ) : κ → List κ := kids C (S 0).store

variable {st : Objects κ} {k : κ} {d : Bytes}

theorem Verified.same {st' : Objects κ} (hst : Verified C st) (hst' : Verified C st')
    {d' : Bytes} (h : st.lookup k = some d) (h' : st'.lookup k = some d') : d = d' :=
  C.hashes_inj (hst k d h) (hst' k d' h')

section

variable (h : Served C S n root) (hst : Verified C st) (hk : Reach (graph C S) root k)
include h hst hk

/-- A key below `root` that a verified store holds has its children in the graph. -/
theorem Served.agrees (hl : st.lookup k = some d) :
    C.childKeys k d = some (graph C S k) := by
  obtain ⟨d₀, cs, hl₀, hc⟩ := h.complete 0 h.channel k hk
  have hgraph : graph C S k = cs := kids_of_lookup hl₀ hc
  rw [hst.same (h.verified 0 h.channel) hl hl₀, hgraph]
  exact hc

theorem Served.not_malformed : ¬ Malformed C st k := by
  rintro ⟨d, hl, hc⟩
  rw [h.agrees hst hk hl] at hc
  cases hc

/-- A walk of the receiver's store from below `root` stays below `root`. -/
theorem Served.walk_below {m : κ} (hm : Reach (kids C st) k m) : Reach (graph C S) root m := by
  induction hm with
  | refl => exact hk
  | @tail m c _ hstep ih =>
    refine ih.tail ?_
    cases hl : st.lookup m with
    | none =>
      have : c ∈ kids C st m := hstep
      simp [kids, hl] at this
    | some =>
      have : c ∈ kids C st m := hstep
      rwa [kids_of_lookup hl (h.agrees hst ih hl)] at this

end

theorem Served.wants_isSome (h : Served C S n root) (hst : Verified C st)
    {frontier : List κ} (hf : ∀ k ∈ frontier, Reach (graph C S) root k) :
    (wants M st frontier).isSome = true :=
  wantsFrom_isSome frontier [] fun k hk _ hm =>
    h.not_malformed hst (h.walk_below hst (hf k hk) hm)

variable {i : Nat}

/-- Every sender holds what is below `root`. -/
theorem Served.lookup (h : Served C S n root) (hi : i < n)
    (hk : Reach (graph C S) root k) : ∃ d, (S i).store.lookup k = some d := by
  have hk' : Reach (kids C (S i).store) root k := by
    induction hk with
    | refl => exact Relation.ReflTransGen.refl
    | @tail m c hm hstep ih =>
      obtain ⟨d, cs, hl, -⟩ := h.complete i hi m ih
      refine ih.tail ?_
      show c ∈ kids C (S i).store m
      rw [kids_of_lookup hl (h.agrees (h.verified i hi) hm hl)]
      exact hstep
  obtain ⟨d, -, hl, -⟩ := h.complete i hi k hk'
  exact ⟨d, hl⟩

/-! ### One answer -/

theorem dedupeKeys_nodup (keys : List κ) :
    ∀ {seen : List κ}, keys.Nodup → (∀ k ∈ keys, k ∉ seen) → dedupeKeys seen keys = keys := by
  induction keys with
  | nil => intro seen _ _; simp [dedupeKeys]
  | cons k keys ih =>
    intro seen hnd hfresh
    obtain ⟨hk, hnd⟩ := List.nodup_cons.mp hnd
    rw [dedupeKeys, if_neg (hfresh k List.mem_cons_self)]
    rw [ih hnd]
    intro m hm hc
    rcases List.mem_cons.mp hc with rfl | hc
    · exact hk hm
    · exact hfresh m (List.mem_cons_of_mem _ hm) hc

theorem mem_dedupeKeys (keys : List κ) :
    ∀ {seen : List κ} {k : κ}, k ∈ dedupeKeys seen keys → k ∈ keys := by
  induction keys with
  | nil => intro seen k h; simp [dedupeKeys] at h
  | cons m keys ih =>
    intro seen k h
    rw [dedupeKeys] at h
    split at h
    · exact List.mem_cons_of_mem _ (ih h)
    · rcases List.mem_cons.mp h with rfl | h
      · exact List.mem_cons_self
      · exact List.mem_cons_of_mem _ (ih h)

theorem getRecords_held (keys : List κ)
    (hheld : ∀ k ∈ keys, ∃ d, st.lookup k = some d) :
    (getRecords st keys).2 = none ∧ (getRecords st keys).1.map (·.1) = keys ∧
      ∀ o ∈ (getRecords st keys).1, st.lookup o.1 = some o.2 := by
  induction keys with
  | nil => simp [getRecords]
  | cons k keys ih =>
    obtain ⟨d, hd⟩ := hheld k List.mem_cons_self
    obtain ⟨hnone, hkeys, hobjs⟩ := ih fun m hm => hheld m (List.mem_cons_of_mem _ hm)
    rw [getRecords, hd]
    refine ⟨hnone, by simp [hkeys], ?_⟩
    intro o ho
    rcases List.mem_cons.mp ho with rfl | ho
    · exact hd
    · exact hobjs o ho

theorem write_append (size : Nat) (c : ChunkWriter) (a b : Bytes) :
    (c.write size a).write size b = c.write size (a ++ b) := by
  simp [ChunkWriter.write, List.foldl_append]

/-- The answer to keys the sender holds is a finished pack of their objects. -/
theorem sendReply_held {T : Sender κ} {keys : List κ}
    (hheld : ∀ k ∈ keys, ∃ d, T.store.lookup k = some d) :
    ∃ objs : List (κ × Bytes), (objs.map (·.1)).Perm (dedupeKeys [] keys) ∧
      (∀ o ∈ objs, T.store.lookup o.1 = some o.2) ∧
      sendReply C T keys = ((({} : ChunkWriter).write chunkSize
        (C.packHead ++ objs.flatMap C.record ++ C.packEnd)).finish, true) := by
  have hsorted : ∀ k ∈ T.sortByLocation (dedupeKeys [] keys), ∃ d, T.store.lookup k = some d :=
    fun k hk => hheld k (mem_dedupeKeys keys ((T.sort_perm _).mem_iff.mp hk))
  obtain ⟨hnone, hkeys, hobjs⟩ := getRecords_held _ hsorted
  refine ⟨(getRecords T.store (T.sortByLocation (dedupeKeys [] keys))).1, ?_, hobjs, ?_⟩
  · rw [hkeys]
    exact T.sort_perm _
  · unfold sendReply
    dsimp only
    rw [hnone]
    rw [write_append]

omit [DecidableEq κ] in
theorem childItems_decode (objs : List (κ × Bytes))
    (h : ∀ o ∈ objs, (C.childKeys o.1 o.2).isSome = true) :
    (childItems C objs).2 = true ∧
      (childItems C objs).1.map (fun it => (it.key, it.data)) = objs := by
  induction objs with
  | nil => simp [childItems]
  | cons o objs ih =>
    obtain ⟨k, d⟩ := o
    obtain ⟨cs, hcs⟩ := Option.isSome_iff_exists.mp (h (k, d) List.mem_cons_self)
    obtain ⟨hok, hmap⟩ := ih fun p hp => h p (List.mem_cons_of_mem _ hp)
    have hcs' : C.childKeys k d = some cs := hcs
    rw [childItems, hcs']
    exact ⟨hok, by simp [hmap]⟩

/-- What an honest round brings on one channel: the requested objects, and nothing after. -/
structure Delivered (C : Codec κ) (g : κ → List κ) (shard : List κ) (r : ChannelRead κ) :
    Prop where
  rest : r.rest = .ok []
  keys : (r.items.map (·.key)).Perm shard
  hashed : ∀ it ∈ r.items, C.hashes it.key it.data = true
  kids : ∀ it ∈ r.items, it.kids = g it.key

theorem Served.delivered (h : Served C S n root) (hi : i < n) {shard : List κ}
    (hnd : shard.Nodup) (hbelow : ∀ k ∈ shard, Reach (graph C S) root k) :
    Delivered C (graph C S) shard (readChannel C (sendReply C (S i) shard).1) := by
  obtain ⟨objs, hperm, hobjs, hreply⟩ := sendReply_held
    fun k hk => h.lookup hi (hbelow k hk)
  rw [dedupeKeys_nodup shard hnd (by simp)] at hperm
  have hfst : ∀ o ∈ objs, Reach (graph C S) root o.1 := fun o ho =>
    hbelow o.1 (hperm.mem_iff.mp (List.mem_map_of_mem ho))
  have hhash : ∀ o ∈ objs, C.hashes o.1 o.2 = true :=
    fun o ho => h.verified i hi _ _ (hobjs o ho)
  have hkeys : ∀ o ∈ objs, C.childKeys o.1 o.2 = some (graph C S o.1) :=
    fun o ho => h.agrees (h.verified i hi) (hfst o ho) (hobjs o ho)
  obtain ⟨hok, hitems⟩ := childItems_decode objs
    fun o ho => by rw [hkeys o ho]; simp
  have hread := readPack_finish chunkSize (C.packHead ++ objs.flatMap C.record ++ C.packEnd) []
  rw [List.append_nil] at hread
  have hchannel : readChannel C (sendReply C (S i) shard).1 = ⟨(childItems C objs).1, .ok []⟩ := by
    rw [hreply]
    unfold readChannel
    simp only [hread, C.decodePack_records objs hhash, hok, if_true]
  rw [hchannel]
  have hobj : ∀ it ∈ (childItems C objs).1, (it.key, it.data) ∈ objs := by
    intro it hit
    rw [← hitems]
    exact List.mem_map_of_mem hit
  refine ⟨by simp, ?_, fun it hit => hhash _ (hobj it hit), ?_⟩
  · have hmap : (childItems C objs).1.map (·.key) = objs.map (·.1) := by
      conv_rhs => rw [← hitems]
      simp
    simpa only [hmap] using hperm
  · intro it hit
    have hgraph := hkeys _ (hobj it hit)
    rw [childItems_kids objs it hit] at hgraph
    simpa using hgraph

/-! ### One round -/

/-- The round's requests are disjoint, and below `root`. -/
structure GoodShards (g : κ → List κ) (root : κ) (n : Nat) (shards : List (List κ)) : Prop where
  length : shards.length = n
  nodup : shards.flatten.Nodup
  below : ∀ k ∈ shards.flatten, Reach g root k

variable {shards : List (List κ)}

section

variable (h : Served C S n root) (henv : Answered C S n env) (rounds : List (List (List κ)))
  (hgood : GoodShards (graph C S) root n shards)
include h henv rounds hgood

theorem readRound_delivered :
    ∀ p ∈ shards.zipIdx, Delivered C (graph C S) p.1
      (readShard env C (rounds ++ [shards]) (List.replicate n []) p) := by
  rintro ⟨shard, i⟩ hp
  have hget : shards[i]? = some shard := List.mk_mem_zipIdx_iff_getElem?.mp hp
  have hi : i < n := by
    rw [← hgood.length]
    exact (List.getElem?_eq_some_iff.mp hget).1
  have hunread : (List.replicate n ([] : List PackFrame)).getD i [] = [] := by
    simp [List.getD, hi]
  unfold readShard
  rw [hunread, List.nil_append]
  by_cases hempty : shard.isEmpty = true
  · rw [if_pos hempty, List.isEmpty_iff.mp hempty]
    exact ⟨by simp, by simp, by simp, by simp⟩
  · rw [if_neg hempty]
    have hshard : shards.getD i [] = shard := by simp [List.getD, hget]
    have hne : shard ≠ [] := fun hs => hempty (List.isEmpty_iff.mpr hs)
    have hmem : shard ∈ shards := List.mem_of_getElem? hget
    rw [henv rounds shards i hi (by rw [hshard]; exact hne), hshard]
    refine h.delivered hi ?_ fun k hk => hgood.below k (List.mem_flatten.mpr ⟨shard, hmem, hk⟩)
    exact (List.nodup_flatten.mp hgood.nodup).1 shard hmem

/-- Together the channels of an honest round deliver every key requested, once. -/
theorem readRound_honest :
    ∃ reads, readRound env C (rounds ++ [shards]) (List.replicate n []) shards = reads ∧
      readError reads = none ∧ leftover reads = List.replicate n [] ∧
      ((reads.map (·.items)).flatten.map (·.key)).Perm shards.flatten ∧
      ∀ it ∈ (reads.map (·.items)).flatten,
        C.hashes it.key it.data = true ∧ it.kids = graph C S it.key := by
  have hall := readRound_delivered h henv rounds hgood
  refine ⟨_, rfl, ?_, ?_, ?_, ?_⟩
  · refine readError_none fun r hr => ?_
    obtain ⟨p, hp, rfl⟩ := List.mem_map.mp hr
    rw [ChannelRead.failure, (hall p hp).rest]
  · refine List.eq_replicate_iff.mpr ⟨by simp [leftover, readRound, hgood.length], ?_⟩
    intro fs hfs
    obtain ⟨r, hr, rfl⟩ := List.mem_map.mp hfs
    obtain ⟨p, hp, rfl⟩ := List.mem_map.mp hr
    rw [(hall p hp).rest]
  · have hfst : shards.zipIdx.map (·.1) = shards := List.zipIdx_map_fst 0 shards
    rw [List.map_flatten]
    conv_rhs => rw [← hfst]
    rw [readRound, List.map_map, List.map_map, ← List.flatMap_def, ← List.flatMap_def]
    exact List.Perm.flatMap_left _ fun p hp => (hall p hp).keys
  · intro it hit
    obtain ⟨items, hitems, hin⟩ := List.mem_flatten.mp hit
    obtain ⟨r, hr, rfl⟩ := List.mem_map.mp hitems
    obtain ⟨p, hp, rfl⟩ := List.mem_map.mp hr
    exact ⟨(hall p hp).hashed it hin, (hall p hp).kids it hin⟩

end

/-- The requests a channel has had after some rounds. -/
def asked (rounds : List (List (List κ))) (i : Nat) : List (List κ) :=
  (rounds.map (·.getD i [])).filter fun shard => !shard.isEmpty

structure Going (C : Codec κ) (g : κ → List κ) (root : κ) (n : Nat) (s : Recv κ) : Prop where
  verified : Verified C s.store
  below : ∀ k ∈ s.frontier, Reach g root k
  unread : s.unread = List.replicate n []
  length : s.written.length = n
  written : ∀ i < n, s.written[i]? = some (asked s.rounds i)
  shards : ∀ shards ∈ s.rounds, GoodShards g root n shards

omit [DecidableEq κ] in
theorem request_asked {rounds : List (List (List κ))} {written : List (List (List κ))}
    (hw : written[i]? = some (asked rounds i))
    (hi : i < shards.length) :
    (request written shards)[i]? = some (asked (rounds ++ [shards]) i) := by
  have hget : shards[i]? = some (shards.getD i []) := by simp [List.getD, hi]
  have hasked : asked (rounds ++ [shards]) i
      = asked rounds i ++ [shards.getD i []].filter fun shard => !shard.isEmpty := by
    simp only [asked, List.map_append, List.map_cons, List.map_nil, List.filter_append]
  rw [request, List.getElem?_zipWith, hw, hget, hasked]
  generalize shards.getD i [] = shard
  by_cases hempty : shard = []
  · simp [hempty]
  · simp [hempty]

/-- An honest round goes through: what is asked arrives, and the loop goes on below it. -/
theorem finishRound_honest (h : Served C S n root) (henv : Answered C S n env) {s : Recv κ}
    (hs : Going C (graph C S) root n s) {send carry : List κ}
    (hcarry : ∀ k ∈ carry, Reach (graph C S) root k)
    (hgood : GoodShards (graph C S) root n shards) (hsend : shards.flatten.Perm send) :
    ∃ (t : Recv κ) (keys : List κ), finishRound M env s send carry shards = .next t ∧
      Going C (graph C S) root n t ∧ keys.Perm send ∧
      t.frontier = keys.flatMap (graph C S) ++ carry := by
  obtain ⟨reads, hreads, herr, hleft, hkeys, hitems⟩ :=
    readRound_honest h henv s.rounds hgood
  set items := env.merge (s.rounds ++ [shards]) (reads.map (·.items)) with hitemsdef
  have hmerge : items.Perm (reads.map (·.items)).flatten := env.merge_perm _ _
  have hall : ∀ it ∈ items, C.hashes it.key it.data = true ∧ it.kids = graph C S it.key :=
    fun it hit => hitems it (hmerge.mem_iff.mp hit)
  have hok := M.taken s.store items fun it hit => (hall it hit).1
  have htaken := (M.stored _ _ hok).1
  have hperm : (items.map (·.key)).Perm send :=
    ((hmerge.map (·.key)).trans hkeys).trans hsend
  have hdelivered : checkDelivered (items.map (·.key)).dedup send = none := by
    rw [checkDelivered_none_iff]
    intro k hk
    rw [List.mem_dedup]
    exact hperm.mem_iff.mpr hk
  have hfrontier : items.flatMap (·.kids) = (items.map (·.key)).flatMap (graph C S) := by
    rw [List.flatMap_map]
    exact List.flatMap_congr fun it hit => (hall it hit).2
  refine ⟨{ store := (M.writeParallel s.store items).1
            frontier := items.flatMap (·.kids) ++ carry
            unread := leftover reads
            written := request s.written shards
            rounds := s.rounds ++ [shards]
            stats := { s.stats with
              received := s.stats.received + (items.map (·.key)).dedup.length } },
    items.map (·.key), ?_, ?_, hperm, by rw [hfrontier]⟩
  · unfold finishRound
    dsimp only
    rw [hs.unread, hreads, herr]
    rw [← hitemsdef, htaken, hok, if_pos rfl, hdelivered]
  · refine ⟨(M.grown s.store items).verified hs.verified, ?_, hleft, ?_, ?_, ?_⟩
    · intro k hk
      rcases List.mem_append.mp hk with hk | hk
      · rw [hfrontier] at hk
        obtain ⟨m, hm, hkm⟩ := List.mem_flatMap.mp hk
        refine (hgood.below m ?_).tail hkm
        exact (hsend.mem_iff).mpr (hperm.mem_iff.mp hm)
      · exact hcarry k hk
    · simp [request, hs.length, hgood.length]
    · intro i hi
      exact request_asked (hs.written i hi) (by rw [hgood.length]; exact hi)
    · intro shards' hshards
      rcases List.mem_append.mp hshards with hold | hnew
      · exact hs.shards shards' hold
      · rw [List.mem_singleton.mp hnew]
        exact hgood

/-! ### Whole transfers -/

section Load

variable (hwf : WellFounded (ChildBelow (graph C S) root))

/-- How much a frontier can still make the loop ask for. -/
noncomputable def load (frontier : List κ) : Nat := (frontier.map (weight hwf)).sum

/-- **A round that asks for something makes the load smaller.** -/
theorem turn_honest (M : Core C) (A : Arith φ) (max : Nat) (h : Served C S n root)
    (henv : Answered C S n env) {s : Recv κ} (hs : Going C (graph C S) root n s) :
    (∃ t, turn M A max env s = .done t none ∧ t.written = s.written.map (· ++ [[]]) ∧
      t.rounds = s.rounds) ∨
    ∃ t, turn M A max env s = .next t ∧ Going C (graph C S) root n t ∧
      load hwf t.frontier < load hwf s.frontier := by
  obtain ⟨ws, hws⟩ := Option.isSome_iff_exists.mp (h.wants_isSome (M := M) hs.verified hs.below)
  have hspec := wants_spec hws
  have hsplit := splitWants_append ws max
  set send := (splitWants ws max).1 with hsend
  set carry := (splitWants ws max).2 with hcarry
  have hwsbelow : ∀ k ∈ ws, Reach (graph C S) root k :=
    fun k hk => hs.below k (hspec.sublist.subset hk)
  unfold turn
  rw [hws]
  dsimp only
  by_cases hempty : send.isEmpty = true
  · rw [if_pos hempty]
    exact Or.inl ⟨_, rfl, rfl, rfl⟩
  rw [if_neg hempty]
  refine Or.inr ?_
  have hwne : (List.range s.written.length).map (env.weights s.rounds) ≠ [] := by
    have := h.channel
    rw [hs.length]
    simp
    omega
  obtain ⟨hlen, hperm⟩ := dealWants_spec send hwne
  have hsendws : ∀ k ∈ send, k ∈ ws := fun k hk => by
    rw [← hsplit]; exact List.mem_append_left _ hk
  have hcarryws : ∀ k ∈ carry, k ∈ ws := fun k hk => by
    rw [← hsplit]; exact List.mem_append_right _ hk
  have hsendnd : send.Nodup := by
    have := hspec.nodup
    rw [← hsplit] at this
    exact (List.nodup_append.mp this).1
  have hgood : GoodShards (graph C S) root n
      (dealWants C A send ((List.range s.written.length).map (env.weights s.rounds))) := by
    refine ⟨by rw [hlen]; simp [hs.length], hperm.nodup_iff.mpr hsendnd, ?_⟩
    intro k hk
    exact hwsbelow k (hsendws k (hperm.mem_iff.mp hk))
  have hs' : Going C (graph C S) root n { s with stats := { s.stats with
      rounds := s.stats.rounds + 1
      requested := s.stats.requested + send.length } } :=
    ⟨hs.verified, hs.below, hs.unread, hs.length, hs.written, hs.shards⟩
  obtain ⟨t, keys, ht, hgoing, hkeys, hfrontier⟩ := finishRound_honest h henv hs'
    (fun k hk => hwsbelow k (hcarryws k hk)) hgood hperm
  refine ⟨t, ht, hgoing, ?_⟩
  have hopen := sum_weight_open hwf
    fun k hk => hwsbelow k (hsendws k (hkeys.mem_iff.mp hk))
  have hpos : 0 < keys.length := by
    rw [hkeys.length_eq]
    refine List.length_pos_of_ne_nil fun hnil => hempty ?_
    rw [hnil, List.isEmpty_nil]
  have hsendsum : (keys.map (weight hwf)).sum = (send.map (weight hwf)).sum :=
    (hkeys.map _).sum_eq
  have hle : (ws.map (weight hwf)).sum ≤ load hwf s.frontier :=
    (hspec.sublist.map (weight hwf)).sum_le_sum (by simp)
  have hwssum : (ws.map (weight hwf)).sum
      = (send.map (weight hwf)).sum + (carry.map (weight hwf)).sum := by
    rw [← hsplit, List.map_append, List.sum_append]
  have htsum : load hwf t.frontier
      = ((keys.flatMap (graph C S)).map (weight hwf)).sum + (carry.map (weight hwf)).sum := by
    rw [load, hfrontier, List.map_append, List.sum_append]
  omega

theorem receiveFrom_terminates (h : Served C S n root) (henv : Answered C S n env) :
    ∀ (b : Nat) {s : Recv κ}, Going C (graph C S) root n s → load hwf s.frontier < b →
      ∃ fuel t, receiveFrom M A max env fuel s = some (t, none) ∧
        (∀ i < n, t.written[i]? = some (asked t.rounds i ++ [[]])) ∧
        ∀ shards ∈ t.rounds, GoodShards (graph C S) root n shards := by
  intro b
  induction b with
  | zero => intro s _ hload; omega
  | succ b ih =>
    intro s hs hload
    rcases turn_honest hwf M A max h henv hs with ⟨t, ht, hw, hr⟩ | ⟨t, ht, hgo, hlt⟩
    · refine ⟨1, t, by simp [receiveFrom, ht], ?_, by rw [hr]; exact hs.shards⟩
      intro i hi
      rw [hw, hr, List.getElem?_map, hs.written i hi, Option.map_some]
    · obtain ⟨fuel, u, hu, hrest⟩ := ih hgo (by omega)
      exact ⟨fuel + 1, u, by simp [receiveFrom, ht, hu], hrest⟩

end Load

/-- A sender answers requests for what it holds and returns at the empty one. -/
theorem send_returns (T : Sender κ) (reqs : List (List κ))
    (hne : ∀ r ∈ reqs, r ≠ []) (hheld : ∀ r ∈ reqs, ∀ k ∈ r, ∃ d, T.store.lookup k = some d) :
    send C T (reqs ++ [[]]) = (reqs.map fun r => (sendReply C T r).1, .returned) := by
  induction reqs with
  | nil => simp [send]
  | cons r reqs ih =>
    have hrest := ih (fun q hq => hne q (List.mem_cons_of_mem _ hq))
      fun q hq => hheld q (List.mem_cons_of_mem _ hq)
    obtain ⟨objs, -, -, hreply⟩ := sendReply_held (hheld r List.mem_cons_self)
    have hr : r.isEmpty = false := by
      simpa using hne r List.mem_cons_self
    rw [List.cons_append, send, hr, if_neg (by simp), hreply]
    simp [hrest, hreply]

/--
**With honest senders a transfer ends well.**  Whatever part of the graph the receiver
holds already, and however the rounds are capped, weighed and merged, `Receive` returns
without an error after finitely many rounds, with everything below `root` in the store.
The requests on a channel are its shards that are not empty, and then one empty request,
at which its `Send` returns having answered all of them; and no round asks for a key twice.
-/
theorem exchange_terminates (C : Codec κ) (M : Core C) (A : Arith φ) (S : Nat → Sender κ) (n : Nat)
    (env : Env κ) (st : Objects κ) (root : κ) (hst : Verified C st) (hS : Served C S n root)
    (hacyclic : AcyclicBelow (graph C S) root) (henv : Answered C S n env) :
    ∃ fuel s, receive M A maxWantsPerRound env n st root fuel = some (s, none) ∧
      (∀ k, Reach (kids C s.store) root k → Held C s.store k) ∧
      (∀ i < n, ∃ reqs, s.written[i]? = some (reqs ++ [[]]) ∧ reqs = asked s.rounds i ∧
        (∀ r ∈ reqs, r ≠ []) ∧
        send C (S i) (reqs ++ [[]]) = (reqs.map fun r => (sendReply C (S i) r).1, .returned)) ∧
      ∀ shards ∈ s.rounds, shards.flatten.Nodup := by
  have hfin : ∀ k, graph C S k ≠ [] → k ∈ (S 0).store.map (·.1) := by
    intro k hk
    cases hl : (S 0).store.lookup k with
    | none => simp [graph, kids, hl] at hk
    | some => exact Assoc.mem_keys_of_lookup hl
  have hwf := wellFounded_of_acyclic hfin hacyclic
  have hstart : Going C (graph C S) root n (Recv.start n st root) := by
    refine ⟨hst, ?_, rfl, by simp [Recv.start], ?_, by simp [Recv.start]⟩
    · intro k hk
      rw [List.mem_singleton.mp hk]
    · intro i hi
      simp [Recv.start, asked, hi]
  obtain ⟨fuel, s, hrun, hwritten, hshards⟩ := receiveFrom_terminates hwf hS henv _
    hstart (Nat.lt_succ_self _)
  obtain ⟨-, hcomplete⟩ := receiveFrom_sound (show 0 < maxWantsPerRound by decide) fuel
    (tracks_start n hst root) (Grown.refl st) hrun
  refine ⟨fuel, s, hrun, hcomplete rfl, ?_, fun shards h => (hshards shards h).nodup⟩
  intro i hi
  have hne : ∀ r ∈ asked s.rounds i, r ≠ [] := by
    intro r hr
    simpa using (List.mem_filter.mp hr).2
  refine ⟨asked s.rounds i, hwritten i hi, rfl, hne, send_returns (S i) _ hne ?_⟩
  intro r hr k hk
  obtain ⟨shards, hin, rfl⟩ := List.mem_map.mp (List.mem_filter.mp hr).1
  have hlt : i < shards.length := by rw [(hshards shards hin).length]; exact hi
  have hmem : shards.getD i [] ∈ shards := by
    simp [List.getD, hlt]
  exact hS.lookup hi ((hshards shards hin).below k (List.mem_flatten.mpr ⟨_, hmem, hk⟩))

theorem diamond_objects {k : UInt8} (h : diamondSender.store.lookup k = some d) :
    d = diamond k ∧ ∀ c ∈ d, k < c ∧ (diamondSender.store.lookup c).isSome = true := by
  have hmem := Assoc.mem_of_lookup h
  simp only [diamondSender, List.mem_cons, Prod.mk.injEq, List.not_mem_nil, or_false] at hmem
  rcases hmem with ⟨rfl, rfl⟩ | ⟨rfl, rfl⟩ | ⟨rfl, rfl⟩ | ⟨rfl, rfl⟩ <;> decide +kernel

theorem diamond_edge {k c : UInt8} (h : c ∈ kids diamondCodec diamondSender.store k) :
    k < c ∧ (diamondSender.store.lookup c).isSome = true := by
  cases hl : diamondSender.store.lookup k with
  | none => simp [kids, hl] at h
  | some d =>
    have hd : kids diamondCodec diamondSender.store k = d := kids_of_lookup hl rfl
    rw [hd] at h
    exact (diamond_objects hl).2 c h

/-- The diamond over two channels, into a store that holds a parent without its child. -/
theorem exchange_terminates_diamond :
    ∃ fuel s, receive (Core.plain diamondCodec) natArith maxWantsPerRound diamondEnv 2 [(1, [3])] 0
        fuel = some (s, none) ∧ ∀ shards ∈ s.rounds, shards.flatten.Nodup := by
  have hsender : Verified diamondCodec diamondSender.store := by
    intro k d hl
    rw [(diamond_objects hl).1]
    exact beq_self_eq_true _
  have hcomplete : Complete diamondCodec diamondSender.store 0 := by
    refine whole_of_closed (Z := fun k => (diamondSender.store.lookup k).isSome = true) ?_
      (fun k _ c hc => (diamond_edge hc).2) (by decide)
    intro k hk
    obtain ⟨d, hd⟩ := Option.isSome_iff_exists.mp hk
    exact ⟨d, d, hd, rfl⟩
  have hacyclic : AcyclicBelow (graph diamondCodec fun _ => diamondSender) 0 := by
    intro k _ hcycle
    have hlt : ∀ m, Relation.TransGen (Edge (kids diamondCodec diamondSender.store)) k m →
        k < m := by
      intro m hm
      induction hm with
      | single hstep => exact (diamond_edge hstep).1
      | tail _ hstep ih => exact UInt8.lt_trans ih (diamond_edge hstep).1
    exact UInt8.lt_irrefl k (hlt k hcycle)
  have henv : Answered diamondCodec (fun _ => diamondSender) 2 diamondEnv := by
    intro rounds shards i _ _
    simp [diamondEnv]
  obtain ⟨fuel, s, hrun, -, -, hnodup⟩ := exchange_terminates diamondCodec
    (Core.plain diamondCodec) natArith (fun _ => diamondSender) 2 diamondEnv [(1, [3])] 0
    diamond_part
    ⟨by decide, fun _ _ => hsender, fun _ _ => hcomplete⟩ hacyclic henv
  exact ⟨fuel, s, hrun, hnodup⟩

end JobsIroh.WantSync
