/-
The memo of covered builds is safe.

A derivation of KP is determined by three things it reads: the pinned bytes, the platform
and the covered tree.  KP is the key of a tree that has all three in it, so it determines
them in turn.  Both callers read the same three things, whatever order a Go map is
iterated in, so that what one of them writes for a KP is what the other would.
-/
import JobsIroh.Cover.Derive
import JobsIroh.Lib.Run
import JobsIroh.Proofs.Overlay
import Mathlib.Data.Countable.Basic
import Mathlib.Logic.Equiv.List

namespace JobsIroh.Cover

open JobsIroh.Tree

/-! ### The covered tree -/

/-- The order in which the generated files are iterated does not matter. -/
theorem coveredTree_order (o : MapOrder) (p : Pinned) (root : Dir) :
    (coveredTree o p root).toOption = (coveredTree .listed p root).toOption := by
  unfold coveredTree
  split
  · rfl
  split
  · rfl
  cases prunePinned p root with
  | error => rfl
  | ok src =>
    dsimp only
    split
    · exact overlayTree_perm src ((o.perm p.generated).map _)
    · rfl

variable {pinned : Bytes} {src : Dir}

variable {α : Type} {a : α}

theorem toOption_eq_some {x : Except String α} :
    x.toOption = some a ↔ x = .ok a := by
  cases x <;> simp [Except.toOption]

variable {κ : Type} (S : Site κ)

namespace Site

/-! ### What a derivation reads -/

/-- The pinned bytes of F. -/
def pinnedBytes (st : Store κ) (f : κ) : Option Bytes :=
  (st.refs (.pinned f)).bind S.objects.file

/-- The environment in an F-tree. -/
def envTree (f : κ) : Option Dir :=
  match (S.objects.tree f).bind (Dir.find "env") with
  | some (_, .sub e) => some e
  | _ => none

/-- The platform in an F-tree; the tar may have something for an entry that is no file. -/
def platform (c : Caller) (f : κ) : Option Bytes :=
  (S.objects.tree f).bind fun d =>
    match d.find "platform" with
    | some (_, .leaf (.file b)) => some b
    | _ =>
      match c with
      | .sched _ => none
      | .pipeline _ => (S.tarOther d "platform").toOption

/-- The covered tree of F. -/
def covered (st : Store κ) (f : κ) : Option Dir :=
  (S.pinnedBytes st f).bind fun pinned =>
    (S.outside.decodePinned pinned).toOption.bind fun p =>
      (S.envTree f).bind fun env => (coveredTree .listed p env).toOption

/-- A derivation that succeeds, by what it reads. -/
structure Derived (c : Caller) (st : Store κ) (f kp pinnedKey : κ) (pinned platform : Bytes)
    (src : Dir) : Prop where
  ref : st.refs (.pinned f) = some pinnedKey
  blob : st.complete pinnedKey = true
  tree : st.complete f = true
  pinned_eq : S.objects.file pinnedKey = some pinned
  platform_eq : S.platform c f = some platform
  covered_eq : S.covered st f = some src
  kp_eq : kp = (kpTree pinned platform src).key S.objects.keys

end Site

variable {S} {c : Caller} {o : MapOrder} {st : Store κ} {f kp pinnedKey : κ}

/-! ### Reading the store -/

variable {n : String} {ck : κ}

/-- What is stored under an entry's content key is what the entry holds. -/
theorem Objects.of_contentKey {O : Objects κ} {d : Dir} {a : Attr}
    {node : Tree.Node} (hd : O.tree f = some d) (hn : d.find n = some (a, node))
    (hk : contentKey O.keys node = some ck) :
    (∀ e, O.tree ck = some e ↔ node = .sub e) ∧
      ∀ b, O.file ck = some b ↔ node = .leaf (.file b) := by
  cases node with
  | sub e =>
    obtain rfl : e.key O.keys = ck := by simpa [contentKey] using hk
    have htree := O.tree_sub hd hn
    refine ⟨fun e' => by simp [htree], fun b => ?_⟩
    constructor
    · intro hb
      rw [O.file_or_tree hb] at htree
      simp at htree
    · intro hb
      simp at hb
  | leaf l =>
    cases l with
    | link | special => simp [contentKey] at hk
    | file b =>
      obtain rfl : O.keys.fileKey b = ck := by simpa [contentKey] using hk
      have hfile := O.tree_file hd hn
      refine ⟨fun e => ?_, fun b' => by simp [hfile]⟩
      simp [O.file_or_tree hfile]

theorem readFile_ok {k : κ} {b : Bytes} :
    st.readFile (S.world o) k = .ok b ↔ st.complete k = true ∧ S.objects.file k = some b := by
  unfold Store.readFile
  cases st.complete k with
  | false => simp
  | true =>
    simp only [Site.world]
    cases S.objects.file k <;> simp

variable {p : Pinned}

theorem derive_ok {platform : String} {env : κ} :
    (S.world o).derive pinned p platform env = .ok kp ↔ ∃ root src, S.objects.tree env = some root ∧
      (coveredTree .listed p root).toOption = some src ∧
      kp = (kpTree pinned (S.toBytes platform) src).key S.objects.keys := by
  simp only [Site.world, derive]
  cases S.objects.tree env with
  | none => simp
  | some =>
    rw [← toOption_eq_some, toOption_map, coveredTree_order, Option.map_eq_some_iff]
    simp [eq_comm]

theorem envTree_eq_some {e : Dir} :
    S.envTree f = some e ↔ ∃ d a, S.objects.tree f = some d ∧ d.find "env" = some (a, .sub e) := by
  unfold Site.envTree
  cases S.objects.tree f with
  | none => simp
  | some d =>
    cases hf : d.find "env" with
    | none => simp [hf]
    | some x =>
      obtain ⟨a, node⟩ := x
      cases node <;> simp [hf]

theorem covered_eq_some
    (hpinned : S.pinnedBytes st f = some pinned) (hp : S.outside.decodePinned pinned = .ok p) :
    S.covered st f = some src ↔
      ∃ e, S.envTree f = some e ∧ (coveredTree .listed p e).toOption = some src := by
  unfold Site.covered
  rw [hpinned, Option.bind_some, hp]
  simp only [Except.toOption, Option.bind_some]
  cases S.envTree f <;> simp

/-- A named entry of a tree in the store, and its content key. -/
def Entry (S : Site κ) (st : Store κ) (f : κ) (n : String) (node : Tree.Node) (ck : κ) : Prop :=
  st.complete f = true ∧ ∃ d a, S.objects.tree f = some d ∧ d.find n = some (a, node) ∧
    contentKey S.objects.keys node = some ck

theorem resolveSubdirKey_ok :
    S.resolveSubdirKey st f n = .ok ck ↔ ∃ node, Entry S st f n node ck := by
  unfold Site.resolveSubdirKey Entry
  cases st.complete f with
  | false => simp
  | true =>
    cases S.objects.tree f with
    | none => simp
    | some d =>
      cases hn : d.find n with
      | none => simp [hn]
      | some e =>
        obtain ⟨a, node⟩ := e
        cases hk : contentKey S.objects.keys node <;> simp [hn, hk]

theorem treeSubdir_ok :
    st.treeSubdir (S.world o) f n = .ok (some ck) ↔ ∃ node, Entry S st f n node ck := by
  rw [← resolveSubdirKey_ok]
  unfold Store.treeSubdir Site.resolveSubdirKey
  simp only [Site.world]
  repeat' split
  all_goals simp_all

/-- The scheduler reads a platform that is a file. -/
theorem platform_eq_some {platform : Bytes} : S.platform (.sched o) f = some platform ↔
    ∃ d a, S.objects.tree f = some d ∧ d.find "platform" = some (a, .leaf (.file platform)) := by
  unfold Site.platform
  rw [Option.bind_eq_some_iff]
  constructor
  · rintro ⟨d, hd, h⟩
    split at h
    · rename_i a b hn
      exact ⟨d, a, hd, by rw [hn, Option.some.inj h]⟩
    · cases h
  · rintro ⟨d, a, hd, hn⟩
    exact ⟨d, hd, by rw [hn]⟩

/-- The tree under the environment's content key is the environment. -/
theorem Entry.env {env : κ} {root : Dir} :
    (∃ node, Entry S st f "env" node env ∧ S.objects.tree env = some root) ↔
      st.complete f = true ∧ S.envTree f = some root ∧ env = root.key S.objects.keys := by
  rw [envTree_eq_some]
  constructor
  · rintro ⟨node, ⟨hc, d, a, hd, hn, hk⟩, htree⟩
    obtain rfl := ((S.objects.of_contentKey hd hn hk).1 root).mp htree
    exact ⟨hc, ⟨d, a, hd, hn⟩, by simpa [contentKey] using hk.symm⟩
  · rintro ⟨hc, ⟨d, a, hd, hn⟩, rfl⟩
    exact ⟨.sub root, ⟨hc, d, a, hd, hn, rfl⟩, S.objects.tree_sub hd hn⟩

/-- The file under the platform's content key is the platform. -/
theorem Entry.platform {platform : Bytes} :
    (∃ node platKey, Entry S st f "platform" node platKey ∧
        S.objects.file platKey = some platform) ↔
      st.complete f = true ∧ S.platform (.sched o) f = some platform := by
  rw [platform_eq_some]
  constructor
  · rintro ⟨node, platKey, ⟨hc, d, a, hd, hn, hk⟩, hfile⟩
    obtain rfl := ((S.objects.of_contentKey hd hn hk).2 platform).mp hfile
    exact ⟨hc, d, a, hd, hn⟩
  · rintro ⟨hc, d, a, hd, hn⟩
    exact ⟨_, _, ⟨hc, d, a, hd, hn, rfl⟩, S.objects.tree_file hd hn⟩

/-- The platform as the tar has it. -/
theorem readTreeFile_ok {platform : Bytes} :
    S.readTreeFile st f "platform" = .ok platform ↔
      st.complete f = true ∧ S.platform (.pipeline o) f = some platform := by
  unfold Site.readTreeFile Site.platform
  cases st.complete f with
  | false => simp
  | true =>
    cases S.objects.tree f with
    | none => simp
    | some d =>
      cases hn : d.find "platform" with
      | none => simp [hn, toOption_eq_some]
      | some e =>
        obtain ⟨a, node⟩ := e
        cases node with
        | sub => simp [hn, toOption_eq_some]
        | leaf l => cases l <;> simp [hn, toOption_eq_some]

/-- A KP from what was read, whoever read it. -/
theorem derived_iff {platform : Bytes} {env : κ}
    (href : st.refs (.pinned f) = some pinnedKey)
    (hpinned : st.complete pinnedKey = true ∧ S.objects.file pinnedKey = some pinned)
    (hp : S.outside.decodePinned pinned = .ok p)
    (henv : ∃ node, Entry S st f "env" node env) (hplat : S.platform c f = some platform) :
    (S.world o).derive pinned p (S.outside.text platform) env = .ok kp ↔
      ∃ src, S.Derived c st f kp pinnedKey pinned platform src := by
  have hbytes : S.pinnedBytes st f = some pinned := by
    simp [Site.pinnedBytes, href, hpinned.2]
  obtain ⟨node, hentry⟩ := henv
  rw [derive_ok, S.toBytes_text]
  constructor
  · rintro ⟨root, src, htree, hcov, hkp⟩
    obtain ⟨hc, hroot, -⟩ := Entry.env.mp ⟨node, hentry, htree⟩
    exact ⟨src, href, hpinned.1, hc, hpinned.2, hplat,
      (covered_eq_some hbytes hp).mpr ⟨root, hroot, hcov⟩, hkp⟩
  · rintro ⟨src, h⟩
    obtain ⟨root, hroot, hcov⟩ := (covered_eq_some hbytes hp).mp h.covered_eq
    refine ⟨root, src, ?_, hcov, h.kp_eq⟩
    obtain ⟨d, a, hd, hn⟩ := envTree_eq_some.mp hroot
    obtain ⟨-, d', a', hd', hn', hk⟩ := hentry
    obtain rfl : d = d' := by simpa [hd] using hd'
    obtain ⟨-, rfl⟩ : a = a' ∧ Tree.Node.sub root = node := by simpa [hn] using hn'
    exact ((S.objects.of_contentKey hd hn hk).1 root).mpr rfl

/-- What a derivation that succeeds has read of the environment. -/
theorem Site.Derived.reads {platform : Bytes}
    (h : S.Derived c st f kp pinnedKey pinned platform src) :
    ∃ p env, S.outside.decodePinned pinned = .ok p ∧ ∃ node, Entry S st f "env" node env := by
  have hcov := h.covered_eq
  unfold Site.covered at hcov
  simp only [Site.pinnedBytes, h.ref, Option.bind_some, h.pinned_eq, Option.bind_eq_some_iff,
    toOption_eq_some] at hcov
  obtain ⟨p, hp, root, hroot, -⟩ := hcov
  obtain ⟨node, hentry, -⟩ := Entry.env.mpr ⟨h.tree, hroot, rfl⟩
  exact ⟨p, _, hp, node, hentry⟩

/-- The scheduler's `deriveKP`, by what it reads. -/
theorem sched_ok_iff : JobsIroh.deriveKPValue (S.world o) st f = .ok (kp, pinnedKey) ↔
    ∃ pinned platform src, S.Derived (.sched o) st f kp pinnedKey pinned platform src := by
  constructor
  · intro h
    unfold JobsIroh.deriveKPValue at h
    split at h
    · simp at h
    rename_i pk href
    split at h
    · simp at h
    rename_i pinned hread
    split at h
    · simp at h
    rename_i p hp
    split at h
    · simp at h
    · simp at h
    rename_i env henv
    split at h
    · simp at h
    · simp at h
    rename_i platKey hplatKey
    split at h
    · simp at h
    rename_i plat hplat
    split at h
    · simp at h
    rename_i kp' hkp
    obtain ⟨rfl, rfl⟩ : kp' = kp ∧ pk = pinnedKey := by simpa using h
    obtain ⟨node, hentry⟩ := treeSubdir_ok.mp hplatKey
    have hfile : S.objects.file platKey = some plat := by
      simp only [Site.world] at hplat
      cases hf : S.objects.file platKey <;> simp_all
    obtain ⟨-, hplatform⟩ := (Entry.platform).mp ⟨node, platKey, hentry, hfile⟩
    obtain ⟨src, hd⟩ := (derived_iff href (readFile_ok.mp hread) hp (treeSubdir_ok.mp henv)
      hplatform).mp hkp
    exact ⟨pinned, plat, src, hd⟩
  · rintro ⟨pinned, plat, src, h⟩
    obtain ⟨p, env, hp, henv⟩ := h.reads
    obtain ⟨node, platKey, hentry, hfile⟩ := Entry.platform.mpr ⟨h.tree, h.platform_eq⟩
    have hkp := (derived_iff (o := o) h.ref ⟨h.blob, h.pinned_eq⟩ hp henv
      h.platform_eq).mpr ⟨src, h⟩
    have hplat : (S.world o).file platKey = .ok plat := by
      simp only [Site.world, hfile]
    have hp' : (S.world o).decodePinned pinned = .ok p := hp
    have htext : (S.world o).text plat = S.outside.text plat := rfl
    unfold JobsIroh.deriveKPValue
    simp only [h.ref, readFile_ok.mpr ⟨h.blob, h.pinned_eq⟩, hp', treeSubdir_ok.mpr henv,
      treeSubdir_ok.mpr ⟨node, hentry⟩, hplat, htext, hkp]

/-- The local pipeline's `deriveKP`, by what it reads. -/
theorem pipeline_ok_iff : S.localDeriveKPValue o st f = .ok (kp, pinnedKey) ↔
    ∃ pinned platform src, S.Derived (.pipeline o) st f kp pinnedKey pinned platform src := by
  constructor
  · intro h
    unfold Site.localDeriveKPValue at h
    split at h
    · simp at h
    rename_i pk href
    split at h
    · simp at h
    rename_i pinned hread
    split at h
    · simp at h
    rename_i p hp
    split at h
    · simp at h
    rename_i env henv
    split at h
    · simp at h
    rename_i plat hplat
    split at h
    · simp at h
    rename_i kp' hkp
    obtain ⟨rfl, rfl⟩ : kp' = kp ∧ pk = pinnedKey := by simpa using h
    obtain ⟨-, hplatform⟩ := (readTreeFile_ok).mp hplat
    obtain ⟨src, hd⟩ := (derived_iff href (readFile_ok.mp hread) hp (resolveSubdirKey_ok.mp henv)
      hplatform).mp hkp
    exact ⟨pinned, plat, src, hd⟩
  · rintro ⟨pinned, plat, src, h⟩
    obtain ⟨p, env, hp, henv⟩ := h.reads
    have hkp := (derived_iff (o := o) h.ref ⟨h.blob, h.pinned_eq⟩ hp henv
      h.platform_eq).mpr ⟨src, h⟩
    unfold Site.localDeriveKPValue
    simp only [h.ref, readFile_ok.mpr ⟨h.blob, h.pinned_eq⟩, hp, resolveSubdirKey_ok.mpr henv,
      readTreeFile_ok.mpr ⟨h.tree, h.platform_eq⟩, hkp]

/-- **A derivation succeeds exactly when it can read its three parts**, and KP is their key. -/
theorem deriveKPValue_ok_iff : S.deriveKPValue c st f = .ok (kp, pinnedKey) ↔
    ∃ pinned platform src, S.Derived c st f kp pinnedKey pinned platform src := by
  cases c with
  | sched => exact sched_ok_iff
  | pipeline => exact pipeline_ok_iff

theorem Site.Derived.pinnedBytes {platform : Bytes}
    (h : S.Derived c st f kp pinnedKey pinned platform src) :
    S.pinnedBytes st f = some pinned := by
  simp [Site.pinnedBytes, h.ref, h.pinned_eq]

/-- The platform the scheduler reads is a file, which the local pipeline reads as well. -/
theorem platform_of_sched {platform : Bytes} (h : S.platform (.sched o) f = some platform)
    (c : Caller) : S.platform c f = some platform := by
  obtain ⟨d, a, hd, hn⟩ := platform_eq_some.mp h
  simp [Site.platform, hd, hn]

section Memo

variable {c₁ c₂ : Caller} {st₁ st₂ : Store κ} {f₁ f₂ kp₁ kp₂ pk₁ pk₂ : κ}

/-- What the scheduler derives, every caller derives. -/
theorem derive_of_sched (h : S.deriveKPValue (.sched o) st₁ f₁ = .ok (kp₁, pk₁)) (c : Caller) :
    S.deriveKPValue c st₁ f₁ = .ok (kp₁, pk₁) := by
  obtain ⟨pinned, plat, src, d⟩ := deriveKPValue_ok_iff.mp h
  exact deriveKPValue_ok_iff.mpr ⟨pinned, plat, src,
    { d with platform_eq := platform_of_sched d.platform_eq c }⟩

section

variable (h₁ : S.deriveKPValue c₁ st₁ f₁ = .ok (kp₁, pk₁))
  (h₂ : S.deriveKPValue c₂ st₂ f₂ = .ok (kp₂, pk₂))
include h₁ h₂

/-- KP determines what it was derived from. -/
theorem kp_eq_iff : kp₁ = kp₂ ↔ S.pinnedBytes st₁ f₁ = S.pinnedBytes st₂ f₂ ∧
      S.platform c₁ f₁ = S.platform c₂ f₂ ∧ S.covered st₁ f₁ = S.covered st₂ f₂ := by
  obtain ⟨pinned, plat, src, d₁⟩ := deriveKPValue_ok_iff.mp h₁
  obtain ⟨pinned', plat', src', d₂⟩ := deriveKPValue_ok_iff.mp h₂
  rw [d₁.pinnedBytes, d₂.pinnedBytes, d₁.platform_eq, d₂.platform_eq, d₁.covered_eq,
    d₂.covered_eq, d₁.kp_eq, d₂.kp_eq, Dir.key_inj]
  simp only [Option.some.injEq]
  constructor
  · intro h
    simpa [kpTree] using h
  · rintro ⟨rfl, rfl, rfl⟩
    rfl

/-- The pinned blob recorded for a KP is the same for all that derive it. -/
theorem pinnedKey_eq (h : kp₁ = kp₂) : pk₁ = pk₂ := by
  have hbytes := ((kp_eq_iff h₁ h₂).mp h).1
  obtain ⟨pinned, plat, src, d₁⟩ := deriveKPValue_ok_iff.mp h₁
  obtain ⟨pinned', plat', src', d₂⟩ := deriveKPValue_ok_iff.mp h₂
  obtain rfl : pinned = pinned' := by simpa [d₁.pinnedBytes, d₂.pinnedBytes] using hbytes
  rw [← S.objects.file_key d₁.pinned_eq, ← S.objects.file_key d₂.pinned_eq]

/-- One F and one pinned blob give one KP. -/
theorem kp_eq_of_same (hf : f₁ = f₂)
    (hpinned : S.pinnedBytes st₁ f₁ = S.pinnedBytes st₂ f₂) : kp₁ = kp₂ := by
  subst hf
  have hplat : S.platform c₁ f₁ = S.platform c₂ f₁ := by
    obtain ⟨_, plat, _, d₁⟩ := deriveKPValue_ok_iff.mp h₁
    obtain ⟨_, plat', _, d₂⟩ := deriveKPValue_ok_iff.mp h₂
    cases c₁ with
    | sched => rw [d₁.platform_eq, platform_of_sched d₁.platform_eq]
    | pipeline =>
      cases c₂ with
      | sched => rw [d₂.platform_eq, platform_of_sched d₂.platform_eq]
      | pipeline => rfl
  refine (kp_eq_iff h₁ h₂).mpr ⟨hpinned, hplat, ?_⟩
  rw [Site.covered, hpinned, Site.covered]

end

variable [DecidableEq κ]

theorem record_pinned (c : Caller) (st : Store κ) (f kp pk k : κ) :
    (c.record st f kp pk).refs (.pinned k) = if k = kp then some pk else st.refs (.pinned k) := by
  cases c <;> by_cases h : k = kp <;>
    simp [Caller.record, Store.putRef, Store.ingest, h]

/-- A derivation keeps what is recorded for a KP that was derived. -/
theorem deriveKP_keeps {st st' : Store κ} {call : Caller × κ}
    (h₁ : S.deriveKPValue c₁ st₁ f₁ = .ok (kp₁, pk₁)) (hst : st.refs (.pinned kp₁) = some pk₁)
    (hstep : S.deriveKP st call = some st') : st'.refs (.pinned kp₁) = some pk₁ := by
  unfold Site.deriveKP at hstep
  split at hstep
  · obtain rfl : st = st' := by simpa using hstep
    exact hst
  · rename_i kp pk hd
    obtain rfl : _ = st' := by simpa using hstep
    rw [record_pinned]
    split
    · rename_i hkp
      rw [pinnedKey_eq hd h₁ hkp.symm]
    · exact hst

/--
**The memo is safe.**  Of any two derivations that succeed, by whichever caller, of
whichever F and in whichever store:

* they give one KP exactly when the pinned bytes, the platform and the covered tree agree;
* if they give one KP, they record one value for it;
* for one F and one pinned blob they give one KP, and where the scheduler derives it every
  caller does;
* what the first records for its KP stays through any run of further derivations.
-/
theorem kp_memo_safe (h₁ : S.deriveKPValue c₁ st₁ f₁ = .ok (kp₁, pk₁))
    (h₂ : S.deriveKPValue c₂ st₂ f₂ = .ok (kp₂, pk₂)) :
    (kp₁ = kp₂ ↔ S.pinnedBytes st₁ f₁ = S.pinnedBytes st₂ f₂ ∧
      S.platform c₁ f₁ = S.platform c₂ f₂ ∧ S.covered st₁ f₁ = S.covered st₂ f₂) ∧
    (kp₁ = kp₂ → pk₁ = pk₂) ∧
    (f₁ = f₂ → S.pinnedBytes st₁ f₁ = S.pinnedBytes st₂ f₂ → kp₁ = kp₂) ∧
    ((∃ o, c₁ = .sched o) → ∀ c, S.deriveKPValue c st₁ f₁ = .ok (kp₁, pk₁)) ∧
    ∀ {st'}, Run.Steps S.deriveKP Run.Always (c₁.record st₁ f₁ kp₁ pk₁) st' →
      st'.refs (.pinned kp₁) = some pk₁ := by
  refine ⟨kp_eq_iff h₁ h₂, pinnedKey_eq h₁ h₂, kp_eq_of_same h₁ h₂, ?_, ?_⟩
  · rintro ⟨o, rfl⟩ c
    exact derive_of_sched h₁ c
  · intro st' hrun
    refine hrun.inv ?_ fun st call st' hst _ hstep => deriveKP_keeps h₁ hst hstep
    rw [record_pinned, if_pos rfl]

end Memo

/-! ### A store of every object, under numbers -/

instance countableByte : Countable UInt8 :=
  Function.Injective.countable (f := UInt8.toNat) fun _ _ h => UInt8.toNat_inj.mp h

instance countableChar : Countable Char :=
  Function.Injective.countable (f := Char.toNat) fun _ _ h => Char.toNat_inj.mp h

instance countableString : Countable String :=
  Function.Injective.countable (f := String.toList) fun _ _ h => String.toList_inj.mp h

instance : Countable Attr :=
  Function.Injective.countable
    (f := fun a : Attr => (a.name, a.perm, a.uid, a.gid, a.mtime, a.xattrs))
    fun a b h => by
      cases a
      cases b
      simpa using h

/-- The kinds of content, told apart by a tag. -/
def contentCode : Content Nat → Nat × Path × Nat × Nat
  | .file key => (0, [], key, 0)
  | .link target => (1, target, 0, 0)
  | .special type rdev => (2, [], type, rdev)
  | .dir key => (3, [], key, 0)

instance : Countable (Content Nat) :=
  Function.Injective.countable (f := contentCode) fun a b h => by
    cases a <;> cases b <;> simp_all [contentCode]

instance : Countable (Stored Nat) :=
  Function.Injective.countable (f := fun s : Stored Nat => (s.attr, s.content)) fun a b h => by
    cases a
    cases b
    simpa using h

/-- A number for each of countably many things. -/
noncomputable def number (α : Type) [Countable α] : α → Nat := (exists_injective_nat α).choose

theorem number_inj [Countable α] {b : α} (h : number α a = number α b) : a = b :=
  (exists_injective_nat α).choose_spec h

/-- Even numbers for files and odd ones for directories. -/
noncomputable def numberKeys : Keys Nat where
  fileKey b := 2 * number Bytes b
  dirKey es := 2 * number (List (Stored Nat)) es + 1
  fileKey_inj h := number_inj (by omega)
  dirKey_inj h := number_inj (by omega)

open Classical in
/-- The value that has the key. -/
noncomputable def withKey {α : Type} (key : α → Nat) (k : Nat) : Option α :=
  if h : ∃ a, key a = k then some h.choose else none

variable {k : Nat}

theorem withKey_eq_some {key : α → Nat} (hinj : ∀ {a b}, key a = key b → a = b)
    : withKey key k = some a ↔ key a = k := by
  unfold withKey
  constructor
  · intro h
    split at h
    · rename_i hex
      rw [← Option.some.inj h]
      exact hex.choose_spec
    · simp at h
  · intro h
    have hex : ∃ a, key a = k := ⟨a, h⟩
    rw [dif_pos hex]
    exact congrArg some (hinj (hex.choose_spec.trans h.symm))

theorem withKey_tree {d : Dir} :
    withKey (Dir.key numberKeys) k = some d ↔ d.key numberKeys = k :=
  withKey_eq_some Dir.key_inj.mp

theorem withKey_file {b : Bytes} :
    withKey numberKeys.fileKey k = some b ↔ numberKeys.fileKey b = k :=
  withKey_eq_some numberKeys.fileKey_inj

noncomputable def everything : Objects Nat where
  keys := numberKeys
  tree := withKey (Dir.key numberKeys)
  file := withKey numberKeys.fileKey
  tree_key h := withKey_tree.mp h
  file_key h := withKey_file.mp h
  file_or_tree {k b} h := by
    by_contra hne
    obtain ⟨d, hd⟩ := Option.ne_none_iff_exists'.mp hne
    have hfile := withKey_file.mp h
    have htree := withKey_tree.mp hd
    rw [← htree] at hfile
    simp only [Dir.key, numberKeys] at hfile
    omega
  tree_sub _ _ := withKey_tree.mpr rfl
  tree_file _ _ := withKey_file.mpr rfl

/-- Every blob pins the directory `a` and a generated file `g`. -/
def pinA : Pinned := { inputs := [], sources := ["a"], generated := [("g", [7])] }

/-- Keys are written in unary, texts in hex. -/
def plainWorld : World Nat where
  bytes k := List.replicate (k + 1) 0
  parse b := .ok (b.length - 1)
  parse_bytes k := by simp
  bytes_ne_nil k := by simp
  hexError _ := ""
  fileKey _ := .error "not stored"
  decodeImport _ := .error "not an import"
  decodeDefinition _ := .error "not a definition"
  canonical d := .ok d.params
  decodePluginResolved _ := .error "not plugin-resolved"
  decodePinned _ := .ok pinA
  decodeTreeRef b := .ok b
  file _ := .error "not a file"
  subdir _ _ := .ok none
  derive _ _ _ _ := .error "no cover"
  validateName _ := .ok ()
  parseCPU _ := .ok 0
  parseMem _ := .ok 0
  absent _ := "object not found"
  text := Text.hexEncode
  quote s := s

noncomputable def plainSite : Site Nat where
  outside := plainWorld
  objects := everything
  toBytes s := (Text.hexDecode s).getD []
  toBytes_text b := by simp [plainWorld, Text.hexDecode_hexEncode]
  tarOther _ _ := .error "no entry"

/-- A context with `a/b`, which is covered, and `z`, which is not. -/
def contextWith (z : Bytes) : Dir :=
  .sub { name := "a", perm := 0o755 } (.leaf { name := "b", perm := 0o644 } (.file [1]) .nil)
    (.leaf { name := "z", perm := 0o644, mtime := 3 } (.file z) .nil)

noncomputable def fWith (z : Bytes) : Nat :=
  (buildFromTree (contextWith z) [] [] [9] none).key numberKeys

/-- Every object is there, and every F is pinned to one blob. -/
noncomputable def pinnedStore : Store Nat where
  refs
    | .pinned _ => some (numberKeys.fileKey [5])
    | _ => none
  complete _ := true

/-- What is left of it, with the generated file. -/
def coveredA : Dir :=
  .sub { name := "a", perm := 0o755, mtime := coverEpochNano }
    (.leaf { name := "b", perm := 0o644, mtime := coverEpochNano } (.file [1]) .nil)
    (.leaf (generatedFile "g") (.file [7]) .nil)

theorem derived_fWith (c : Caller) (z : Bytes) :
    ∃ kp, plainSite.Derived c pinnedStore (fWith z) kp (numberKeys.fileKey [5]) [5] [9]
      coveredA := by
  have htree : plainSite.objects.tree (fWith z) =
      some (buildFromTree (contextWith z) [] [] [9] none) :=
    withKey_tree.mpr rfl
  have hfile : plainSite.objects.file (numberKeys.fileKey [5]) = some [5] := withKey_file.mpr rfl
  have henv : plainSite.envTree (fWith z) = some (contextWith z) := by
    rw [envTree_eq_some]
    exact ⟨_, _, htree, rfl⟩
  have hbytes : plainSite.pinnedBytes pinnedStore (fWith z) = some [5] := hfile
  refine ⟨_, rfl, rfl, rfl, hfile, ?_, ?_, rfl⟩
  · rw [Site.platform, htree]
    rfl
  · exact (covered_eq_some hbytes rfl).mpr ⟨_, henv, rfl⟩

/-- Two contexts that differ outside the cover, one derived by the scheduler and one locally. -/
theorem kp_memo_safe_outside :
    ∃ kp₁ kp₂ pk₁ pk₂, fWith [1] ≠ fWith [2] ∧
      plainSite.deriveKPValue (.sched .listed) pinnedStore (fWith [1]) = .ok (kp₁, pk₁) ∧
      plainSite.deriveKPValue (.pipeline .listed) pinnedStore (fWith [2]) = .ok (kp₂, pk₂) ∧
      kp₁ = kp₂ ∧ pk₁ = pk₂ := by
  obtain ⟨kp₁, d₁⟩ := derived_fWith (.sched .listed) [1]
  obtain ⟨kp₂, d₂⟩ := derived_fWith (.pipeline .listed) [2]
  have h₁ := deriveKPValue_ok_iff.mpr ⟨_, _, _, d₁⟩
  have h₂ := deriveKPValue_ok_iff.mpr ⟨_, _, _, d₂⟩
  obtain ⟨hiff, hsame, -⟩ := kp_memo_safe h₁ h₂
  have hkp : kp₁ = kp₂ := hiff.mpr
    ⟨rfl, by rw [d₁.platform_eq, d₂.platform_eq], by rw [d₁.covered_eq, d₂.covered_eq]⟩
  refine ⟨kp₁, kp₂, _, _, ?_, h₁, h₂, hkp, hsame hkp⟩
  intro hf
  have := Dir.key_inj.mp hf
  simp [buildFromTree, contextWith] at this

end JobsIroh.Cover
