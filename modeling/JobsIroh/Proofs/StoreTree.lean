/-
What a store tree lists.

The directory has one entry for each distinct key it is made of, in the order of the
names, and its names read back as those keys.  Resolving the inputs of a build yields
their artifacts and the keys that their own directories list.
-/
import JobsIroh.Runner.BuildRun

namespace JobsIroh.Runner

open JobsIroh.Tree (Attr Content Stored Keys)

variable {κ : Type} {T : Tools κ} {h : Host κ}

/-! ### Store trees -/

theorem storeEntry_name (k : κ) : (T.storeEntry k).attr.name = T.string k := by
  unfold Tools.storeEntry
  split <;> rfl

theorem storeEntry_inj {a b : κ} (hab : (T.storeEntry a).attr.name = (T.storeEntry b).attr.name) :
    a = b := by
  rw [storeEntry_name, storeEntry_name] at hab
  exact T.world.string_injective hab

theorem mem_insertEntry {e x : Stored κ} {l : List (Stored κ)}
    (hl : ∀ y ∈ l, y.attr.name = e.attr.name → y = e) :
    x ∈ Tools.insertEntry e l ↔ x = e ∨ x ∈ l := by
  induction l with
  | nil => simp [Tools.insertEntry]
  | cons y l ih =>
    have ih := ih fun z hz => hl z (List.mem_cons_of_mem _ hz)
    rw [Tools.insertEntry]
    split
    · rename_i hname
      rw [hl y List.mem_cons_self hname.symm]
      simp
    · split
      · simp
      · rw [List.mem_cons, List.mem_cons, ih, or_left_comm]

/-- The names of the entries increase. -/
def Sorted (es : List (Stored κ)) : Prop := es.Pairwise fun a b => a.attr.name < b.attr.name

theorem sorted_insertEntry {e : Stored κ} {l : List (Stored κ)} (hl : Sorted l) :
    Sorted (Tools.insertEntry e l) := by
  have hlt : ∀ {l : List (Stored κ)} {y : Stored κ}, y.attr.name < e.attr.name →
      (∀ z ∈ l, y.attr.name < z.attr.name) →
      ∀ z ∈ Tools.insertEntry e l, y.attr.name < z.attr.name := by
    intro l y hy hall
    induction l with
    | nil => simpa [Tools.insertEntry] using hy
    | cons x l ih =>
      rw [Tools.insertEntry]
      have htail := fun z hz => hall z (List.mem_cons_of_mem x hz)
      split
      · intro z hz
        rcases List.mem_cons.mp hz with rfl | hz
        · exact hy
        · exact htail z hz
      · split
        · intro z hz
          rcases List.mem_cons.mp hz with rfl | hz
          · exact hy
          · exact hall z hz
        · intro z hz
          rcases List.mem_cons.mp hz with rfl | hz
          · exact hall z List.mem_cons_self
          · exact ih htail z hz
  induction l with
  | nil => simp [Tools.insertEntry, Sorted]
  | cons x l ih =>
    obtain ⟨hx, hl⟩ := List.pairwise_cons.mp hl
    rw [Tools.insertEntry]
    split
    · rename_i heq
      refine List.pairwise_cons.mpr ⟨fun z hz => ?_, hl⟩
      rw [heq]
      exact hx z hz
    · rename_i hne
      split
      · rename_i hless
        refine List.pairwise_cons.mpr ⟨fun z hz => ?_, List.pairwise_cons.mpr ⟨hx, hl⟩⟩
        rcases List.mem_cons.mp hz with rfl | hz
        · exact hless
        · exact lt_trans hless (hx z hz)
      · rename_i hge
        have hxe : x.attr.name < e.attr.name :=
          lt_of_le_of_ne (not_lt.mp hge) fun hc => hne hc.symm
        exact List.pairwise_cons.mpr ⟨hlt hxe hx, ih hl⟩

theorem mem_storeEntries {ks : List κ} {e : Stored κ} :
    e ∈ T.storeEntries ks ↔ ∃ k ∈ ks, e = T.storeEntry k := by
  induction ks generalizing e with
  | nil => simp [Tools.storeEntries]
  | cons k ks ih =>
    have hl : ∀ y ∈ T.storeEntries ks, y.attr.name = (T.storeEntry k).attr.name →
        y = T.storeEntry k := by
      intro y hy hname
      obtain ⟨k', -, rfl⟩ := ih.mp hy
      rw [storeEntry_inj hname]
    have hcons : T.storeEntries (k :: ks)
        = Tools.insertEntry (T.storeEntry k) (T.storeEntries ks) := by
      simp [Tools.storeEntries]
    rw [hcons, mem_insertEntry hl, ih]
    simp

theorem sorted_storeEntries (ks : List κ) : Sorted (T.storeEntries ks) := by
  induction ks with
  | nil => simp [Tools.storeEntries, Sorted]
  | cons k ks ih =>
    exact sorted_insertEntry ih

/-- The names of a store tree read back as its keys. -/
theorem mem_entryKeys {es : List (Stored κ)} :
    ∀ {ks : List κ}, (∀ e ∈ es, ∃ k, e = T.storeEntry k) → T.entryKeys es = .ok ks →
      ∀ a, a ∈ ks ↔ T.storeEntry a ∈ es := by
  induction es with
  | nil =>
    intro ks _ hk a
    obtain rfl : [] = ks := by simpa [Tools.entryKeys] using hk
    simp
  | cons e es ih =>
    intro ks hes hk a
    obtain ⟨k, rfl⟩ := hes e List.mem_cons_self
    rw [Tools.entryKeys, storeEntry_name, Tools.string, T.world.parseHex_string] at hk
    dsimp only at hk
    split at hk
    · simp at hk
    · rename_i rest hrest
      obtain rfl : k :: rest = ks := by simpa using hk
      have ih := ih (fun e he => hes e (List.mem_cons_of_mem _ he)) hrest a
      rw [List.mem_cons, List.mem_cons, ih]
      constructor
      · rintro (rfl | ha)
        · exact Or.inl rfl
        · exact Or.inr ha
      · rintro (heq | ha)
        · exact Or.inl (storeEntry_inj (congrArg (·.attr.name) heq))
        · exact Or.inr ha

theorem entryKeys_total {es : List (Stored κ)} (hes : ∀ e ∈ es, ∃ k, e = T.storeEntry k) :
    ∃ ks, T.entryKeys es = .ok ks := by
  induction es with
  | nil => exact ⟨[], rfl⟩
  | cons e es ih =>
    obtain ⟨k, rfl⟩ := hes e List.mem_cons_self
    obtain ⟨ks, hks⟩ := ih fun e he => hes e (List.mem_cons_of_mem _ he)
    refine ⟨k :: ks, ?_⟩
    rw [Tools.entryKeys, storeEntry_name, Tools.string, T.world.parseHex_string, hks]

/-! ### Inputs -/

/-- What an input names: an import or a build, by its key. -/
structure Item (κ : Type) where
  kind : InputKind
  key : κ

/-- The input names the item. -/
def Names (T : Tools κ) (pi : NamedInput) (i : Item κ) : Prop :=
  pi.input.kind = i.kind ∧ T.world.inputKey pi.input = .ok i.key

/-- The artifact of an item, once it is there. -/
def artifact (T : Tools κ) (h : Host κ) (i : Item κ) : Option κ :=
  match i.kind with
  | .importK => h.store.refs (.importOutput i.key)
  | .build => (Tools.resolveBuildOutput h i.key).bind fun out =>
    (T.resolveSubdirKey h out "c").toOption
  | _ => none

theorem resolveInputOutputKey_ok {pi : NamedInput} {a : κ} :
    T.resolveInputOutputKey h pi = .ok a ↔ ∃ i, Names T pi i ∧ artifact T h i = some a := by
  unfold Tools.resolveInputOutputKey Names artifact
  cases hk : T.world.inputKey pi.input with
  | error => simp
  | ok ik =>
    have hitem : ∀ P : Item κ → Prop, (∃ i : Item κ, (pi.input.kind = i.kind ∧
        (.ok ik : Except String κ) = .ok i.key) ∧ P i) ↔ P ⟨pi.input.kind, ik⟩ := by
      intro P
      constructor
      · rintro ⟨⟨kind, key⟩, ⟨rfl, hkey⟩, hP⟩
        obtain rfl : ik = key := by simpa using hkey
        exact hP
      · intro hP
        exact ⟨_, ⟨rfl, rfl⟩, hP⟩
    rw [hitem]
    cases pi.input.kind with
    | importK => cases hr : h.store.refs (.importOutput ik) <;> simp [hr]
    | build =>
      dsimp only
      cases Tools.resolveBuildOutput h ik with
      | none => simp
      | some out =>
        cases hr : T.resolveSubdirKey h out "c" <;> simp [hr, Except.toOption]
    | tree | other => simp

/-- The closure that comes with an input: nothing, or the listing of its deps tree. -/
theorem resolveInputDeps_ok {pi : NamedInput} {ks : List κ} :
    T.resolveInputDeps h pi = .ok ks ↔
      (pi.input.kind ≠ .build ∧ ks = []) ∨
      (pi.input.kind = .build ∧ ∃ k d es, T.world.inputKey pi.input = .ok k ∧
        Tools.resolveBuildOutputDeps h k = some d ∧ h.dirs d = some es ∧
        T.entryKeys es = .ok ks) := by
  unfold Tools.resolveInputDeps
  by_cases hkind : pi.input.kind = .build
  · cases hk : T.world.inputKey pi.input with
    | error => simp [hkind]
    | ok k =>
      cases hd : Tools.resolveBuildOutputDeps h k with
      | none => simp [hkind, hd]
      | some d =>
        cases hes : h.dirs d <;> simp [hkind, hd, hes]
  · simp [hkind, eq_comm]

/-- Every input of a collected list was resolved, and nothing else is in it. -/
theorem collectStore_ok {inputs : List NamedInput} :
    ∀ {rs : List (κ × List κ)}, T.collectStore h inputs = .ok rs →
      (∀ pi ∈ inputs, ∃ bok deps, T.resolveInputOutputKey h pi = .ok bok ∧
        T.resolveInputDeps h pi = .ok deps) ∧
      ∀ a, a ∈ Tools.boks rs ↔ ∃ pi ∈ inputs, T.resolveInputOutputKey h pi = .ok a ∨
        ∃ deps, T.resolveInputDeps h pi = .ok deps ∧ a ∈ deps := by
  induction inputs with
  | nil =>
    intro rs hr
    obtain rfl : [] = rs := by simpa [Tools.collectStore] using hr
    simp [Tools.boks]
  | cons pi inputs ih =>
    intro rs hr
    rw [Tools.collectStore] at hr
    split at hr
    · simp at hr
    rename_i bok hbok
    split at hr
    · simp at hr
    rename_i deps hdeps
    split at hr
    · simp at hr
    rename_i rest hrest
    obtain rfl : (bok, deps) :: rest = rs := by simpa using hr
    obtain ⟨hall, hmem⟩ := ih hrest
    refine ⟨?_, ?_⟩
    · intro pi' hpi
      rcases List.mem_cons.mp hpi with rfl | hpi
      · exact ⟨bok, deps, hbok, hdeps⟩
      · exact hall pi' hpi
    · intro a
      have hboks : Tools.boks ((bok, deps) :: rest) = (bok :: deps) ++ Tools.boks rest := by
        simp [Tools.boks]
      rw [hboks, List.mem_append, List.mem_cons, hmem, List.exists_mem_cons_iff, hbok, hdeps]
      simp [eq_comm]

theorem collectStore_total {inputs : List NamedInput}
    (hin : ∀ pi ∈ inputs, ∃ bok deps, T.resolveInputOutputKey h pi = .ok bok ∧
      T.resolveInputDeps h pi = .ok deps) : ∃ rs, T.collectStore h inputs = .ok rs := by
  induction inputs with
  | nil => exact ⟨[], rfl⟩
  | cons pi inputs ih =>
    obtain ⟨bok, deps, hbok, hdeps⟩ := hin pi List.mem_cons_self
    obtain ⟨rs, hrs⟩ := ih fun pi hpi => hin pi (List.mem_cons_of_mem _ hpi)
    refine ⟨(bok, deps) :: rs, ?_⟩
    rw [Tools.collectStore, hbok, hdeps, hrs]

/-! ### Runtime deps -/

theorem mem_keyedInputs {inputs : List NamedInput} :
    ∀ {byKey : List (Bytes × NamedInput)}, T.keyedInputs inputs = .ok byKey →
      ∀ b pi, (b, pi) ∈ byKey ↔
        pi ∈ inputs ∧ ∃ k, T.world.inputKey pi.input = .ok k ∧ b = T.world.bytes k := by
  induction inputs with
  | nil =>
    intro byKey hk b pi
    obtain rfl : [] = byKey := by simpa [Tools.keyedInputs] using hk
    simp
  | cons pi inputs ih =>
    intro byKey hk b pi'
    rw [Tools.keyedInputs] at hk
    split at hk
    · simp at hk
    rename_i ik hik
    split at hk
    · simp at hk
    rename_i rest hrest
    obtain rfl : (T.world.bytes ik, pi) :: rest = byKey := by simpa using hk
    rw [List.mem_cons, List.mem_cons, ih hrest, Prod.mk.injEq]
    constructor
    · rintro (⟨rfl, rfl⟩ | ⟨hpi, hb⟩)
      · exact ⟨Or.inl rfl, ik, hik, rfl⟩
      · exact ⟨Or.inr hpi, hb⟩
    · rintro ⟨rfl | hpi, k, hkey, rfl⟩
      · obtain rfl : ik = k := by simpa [hik] using hkey
        exact Or.inl ⟨rfl, rfl⟩
      · exact Or.inr ⟨hpi, k, hkey, rfl⟩

theorem keyedInputs_total {inputs : List NamedInput}
    (hin : ∀ pi ∈ inputs, ∃ k, T.world.inputKey pi.input = .ok k) :
    ∃ byKey, T.keyedInputs inputs = .ok byKey := by
  induction inputs with
  | nil => exact ⟨[], rfl⟩
  | cons pi inputs ih =>
    obtain ⟨k, hk⟩ := hin pi List.mem_cons_self
    obtain ⟨byKey, hb⟩ := ih fun pi hpi => hin pi (List.mem_cons_of_mem _ hpi)
    refine ⟨(T.world.bytes k, pi) :: byKey, ?_⟩
    rw [Tools.keyedInputs, hk, hb]

theorem lookupDeps_total {byKey : List (Bytes × NamedInput)} {deps : List Bytes}
    (hdeps : ∀ b ∈ deps, ∃ pi, (b, pi) ∈ byKey) : ∃ rt, Tools.lookupDeps byKey deps = .ok rt := by
  induction deps with
  | nil => exact ⟨[], rfl⟩
  | cons b deps ih =>
    obtain ⟨rt, hrt⟩ := ih fun b hb => hdeps b (List.mem_cons_of_mem _ hb)
    obtain ⟨pi, hpi⟩ := hdeps b List.mem_cons_self
    rw [Tools.lookupDeps]
    cases hf : byKey.reverse.find? fun e => e.1 = b with
    | none =>
      have hnot := List.find?_eq_none.mp hf (b, pi) (List.mem_reverse.mpr hpi)
      simp at hnot
    | some e => exact ⟨e.2 :: rt, by rw [hrt]⟩

/-- Every dep is looked up, and nothing else. -/
theorem lookupDeps_ok {byKey : List (Bytes × NamedInput)} {deps : List Bytes} :
    ∀ {rt : List NamedInput}, Tools.lookupDeps byKey deps = .ok rt →
      (∀ b ∈ deps, ∃ pi ∈ rt, (b, pi) ∈ byKey) ∧ ∀ pi ∈ rt, ∃ b ∈ deps, (b, pi) ∈ byKey := by
  induction deps with
  | nil =>
    intro rt hr
    obtain rfl : [] = rt := by simpa [Tools.lookupDeps] using hr
    simp
  | cons dk deps ih =>
    intro rt hr
    rw [Tools.lookupDeps] at hr
    split at hr
    · simp at hr
    rename_i e he
    split at hr
    · simp at hr
    rename_i rest hrest
    obtain rfl : e.2 :: rest = rt := by simpa using hr
    obtain ⟨hall, honly⟩ := ih hrest
    have hdk : (dk, e.2) ∈ byKey := by
      have hkey : e.1 = dk := by simpa using List.find?_some he
      rw [← hkey]
      exact List.mem_reverse.mp (List.mem_of_find?_eq_some he)
    refine ⟨?_, ?_⟩
    · intro b hb
      rcases List.mem_cons.mp hb with rfl | hb
      · exact ⟨e.2, List.mem_cons_self, hdk⟩
      · obtain ⟨pi, hpi, hmem⟩ := hall b hb
        exact ⟨pi, List.mem_cons_of_mem _ hpi, hmem⟩
    · intro pi hpi
      rcases List.mem_cons.mp hpi with rfl | hpi
      · exact ⟨dk, List.mem_cons_self, hdk⟩
      · obtain ⟨b, hb, hmem⟩ := honly pi hpi
        exact ⟨b, List.mem_cons_of_mem _ hb, hmem⟩

end JobsIroh.Runner
