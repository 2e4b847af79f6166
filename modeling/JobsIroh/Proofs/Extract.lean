/-
Where the tar extractors write.

Both extractors check names and link targets as strings, while the calls resolve the
links that earlier entries have made.  `l -> .` and then `l/up -> ..` both pass the
check, for the second one is read as a link in `l`; it is made in the output directory
itself, and everything below `up` then goes next to the output directory
(`extraction_leaves_the_directory`).

The checks do keep an archive inside as long as no entry goes through a link
(`extraction_stays_inside`): then a destination that passes is the output directory and
some names (`Tar.destination_extends`, `Github.safeJoin_extends`), and the calls change
nothing but what those names spell.
-/
import JobsIroh.Fetchers.Extract

namespace JobsIroh.Fetchers

open Paths Posix

variable {pr : Proc} {fs : Fs} {root : Loc} {ns : Path} {d : Disk} {hdr : Header}

/-! ### Destinations -/

theorem join_extends (outDir : Path) (hne : ns ≠ []) (hns : ∀ s ∈ ns, isName s = true) :
    Extends (clean outDir) (join outDir ns) ns := by
  obtain ⟨n, ns', rfl⟩ := List.exists_cons_of_ne_nil hne
  have hn : n ≠ "" := by
    rintro rfl
    exact absurd (hns "" List.mem_cons_self) (by decide)
  have hrel : isAbs (n :: ns') = false := by
    unfold isAbs
    split
    · rename_i heq
      exact absurd (List.cons.inj heq).1 hn
    · rfl
  unfold join
  split
  · rename_i hempty
    subst hempty
    refine ⟨by rw [clean_abs, hrel, clean_abs]; rfl, ?_⟩
    rw [clean_comps, foldl_names hns]
    rfl
  · rename_i hout
    have habs : isAbs (outDir ++ n :: ns') = isAbs outDir := by
      match outDir, hout with
      | [], _ => exact hrel
      | [s], hs => simp_all [isAbs]
      | s :: r :: rest, _ => by_cases hs : s = "" <;> simp [isAbs, hs]
    refine ⟨by rw [clean_abs, habs, clean_abs], ?_⟩
    rw [clean_comps, clean_comps, habs, List.foldl_append, foldl_names hns]

theorem Tar.destination_extends {outDir name : Path} {strip : Int} {dst : Clean}
    (h : Tar.destination outDir strip name = .ok (some dst)) :
    ∃ ns, Extends (clean outDir) dst ns ∧ ns ≠ [] ∧ ∀ s ∈ ns, isName s = true := by
  unfold Tar.destination at h
  split at h
  · cases h
  rename_i rel _
  dsimp only at h
  split at h
  · cases h
  rename_i htop
  split at h
  · cases h
  rename_i hsafe
  obtain ⟨habs, hesc⟩ : (clean rel).abs = false ∧ escapes (clean rel).comps = false := by
    simpa using hsafe
  have hne : (clean rel).comps ≠ [] := fun hnil => htop ⟨habs, hnil⟩
  have hparts : (clean rel).parts = (clean rel).comps := by
    unfold Clean.parts
    rw [habs]
    split <;> simp_all
  have hns : ∀ s ∈ (clean rel).comps, isName s = true := by
    obtain ⟨n, ns, heq, hns⟩ := (clean rel).ordered
    cases n with
    | zero => simpa [heq] using hns
    | succ n => simp [heq, escapes, List.replicate_succ] at hesc
  refine ⟨(clean rel).comps, ?_, hne, hns⟩
  cases h
  rw [hparts]
  exact join_extends outDir hne hns

theorem Github.safeJoin_extends {dest rel : Path} {target : Clean}
    (hlast : (clean dest).comps.getLast? ≠ some "..")
    (h : Github.safeJoin dest rel = some target) :
    ∃ ns, Extends (clean dest) target ns ∧ ∀ s ∈ ns, isName s = true := by
  unfold Github.safeJoin at h
  obtain ⟨hin, rfl⟩ :
      Github.within (clean dest) (join dest rel) = true ∧ join dest rel = target := by
    simpa using h
  simp only [Github.within, Bool.or_eq_true, Bool.and_eq_true, decide_eq_true_eq] at hin
  rcases hin with heq | ⟨⟨hne, habs⟩, hpre⟩
  · exact ⟨[], ⟨by rw [heq], by simp [heq]⟩, by simp⟩
  · obtain ⟨ns, hns⟩ := List.isPrefixOf_iff_prefix.mp hpre
    refine ⟨ns, ⟨habs.symm, hns.symm⟩, fun s hs => ?_⟩
    -- The base ends in a name, so only names come after it.
    obtain ⟨a, n, ha⟩ := (List.eq_nil_or_concat' (clean dest).comps).resolve_left hne
    have hn : isName n = true := isName_iff.mpr
      ⟨(clean dest).ordered.not_skip (by simp [ha]), by simpa [ha] using hlast⟩
    have hord := (join dest rel).ordered
    rw [← hns, ha, List.append_assoc, List.singleton_append] at hord
    exact hord.name_after hn hs

/-! ### One entry -/

/-- The names of a destination below the output directory. -/
def namesBelow (outDir : Path) (dst : Clean) : Path := dst.comps.drop (clean outDir).comps.length

theorem namesBelow_eq {outDir : Path} {dst : Clean} (h : Extends (clean outDir) dst ns) :
    namesBelow outDir dst = ns := by
  rw [namesBelow, h.2, List.drop_left]

/-- The entry goes through no link: none lies where a directory of its destination is. -/
def Tar.NoLinks (root : Loc) (outDir : Path) (strip : Int) (hdr : Header) (fs : Fs) : Prop :=
  match Tar.destination outDir strip hdr.name with
  | .ok (some dst) => LinkFree fs root false (namesBelow outDir dst)
  | _ => True

/-- As for the shared extractor; and no link lies where a file is to be. -/
def Github.NoLinks (root : Loc) (dest : Path) (hdr : Header) (fs : Fs) : Prop :=
  match (Github.stripTop hdr.name).bind (Github.safeJoin dest) with
  | some target => LinkFree fs root (hdr.typeflag = .reg) (namesBelow dest target)
  | none => True

instance (root : Loc) (outDir : Path) (strip : Int) (hdr : Header) (fs : Fs) :
    Decidable (Tar.NoLinks root outDir strip hdr fs) :=
  match h : Tar.destination outDir strip hdr.name with
  | .ok (some dst) =>
    decidable_of_iff (LinkFree fs root false (namesBelow outDir dst)) (by simp [Tar.NoLinks, h])
  | .ok none | .error _ => isTrue (by simp [Tar.NoLinks, h])

instance (root : Loc) (dest : Path) (hdr : Header) (fs : Fs) :
    Decidable (Github.NoLinks root dest hdr fs) :=
  match h : (Github.stripTop hdr.name).bind (Github.safeJoin dest) with
  | some target =>
    decidable_of_iff (LinkFree fs root (hdr.typeflag = .reg) (namesBelow dest target))
      (by simp [Github.NoLinks, h])
  | none => isTrue (by simp [Github.NoLinks, h])

theorem Tar.writeReg_confined {base dst : Clean} (hroot : Named pr fs base root)
    (h : Below fs root false ns d) (hdst : Extends base dst ns) (hne : ns ≠ []) :
    Confined fs root (Tar.writeReg pr hdr dst d).2 := by
  unfold Tar.writeReg
  rcases h.openFile hroot hdst (b := false) (perm hdr) (by simp) (fun hnil => absurd hnil hne)
    with ⟨e, heq⟩ | ⟨d', heq, -, hopen⟩
  · rw [heq]
    exact h.toConfined
  · rw [heq]
    have hwrite := hopen.writeFile hne hdr.body
    dsimp only
    split
    · have hmode := hwrite.chmod hroot hdst hne (perm hdr) rfl
      exact andThen_ind hmode.toConfined hmode.toConfined
    · exact hwrite.toConfined

theorem Tar.extractEntry_confined {outDir : Path} {strip : Int}
    (hroot : Named pr fs (clean outDir) root) (h : Confined fs root d)
    (hno : Tar.NoLinks root outDir strip hdr d.fs) :
    Confined fs root (Tar.extractEntry pr outDir strip hdr d).2 := by
  unfold Tar.extractEntry
  unfold Tar.NoLinks at hno
  split
  · exact h
  · exact h
  · rename_i dst hdst
    rw [hdst] at hno
    obtain ⟨ns, hext, hne, hns⟩ := Tar.destination_extends hdst
    have hb : Below fs root false ns d :=
      { h with free := by simpa [namesBelow_eq hext] using hno, names := hns }
    have hparent := hb.mkdirAll_dir hroot hext
    split
    · have hmade := hb.mkdirAll hroot hext
      exact andThen_ind hmade.toConfined hmade.toConfined
    · exact andThen_ind hparent.toConfined (Tar.writeReg_confined hroot hparent hext hne)
    · split
      · exact h
      · refine andThen_ind hparent.toConfined ?_
        have hlink := (hparent.remove hroot hext hne).symlink hroot hext hdr.linkname rfl
        exact andThen_ind hlink.toConfined hlink.toConfined
    · exact h

theorem Github.extractEntry_confined {dest : Path} (hroot : Named pr fs (clean dest) root)
    (hlast : (clean dest).comps.getLast? ≠ some "..") (h : Confined fs root d)
    (hno : Github.NoLinks root dest hdr d.fs) :
    Confined fs root (Github.extractEntry pr dest hdr d).2 := by
  unfold Github.extractEntry
  unfold Github.NoLinks at hno
  split
  · exact h
  rename_i rel hrel
  split
  · exact h
  rename_i target htarget
  rw [hrel, Option.bind_some, htarget] at hno
  obtain ⟨ns, hext, hns⟩ := Github.safeJoin_extends hlast htarget
  have hb : Below fs root (hdr.typeflag = .reg) ns d :=
    { h with free := by simpa [namesBelow_eq hext] using hno, names := hns }
  have hparent := hb.mkdirAll_dir hroot hext
  split
  · have hmade := hb.mkdirAll hroot hext
    exact andThen_ind hmade.toConfined hmade.toConfined
  · rename_i hreg
    refine andThen_ind hparent.toConfined ?_
    unfold Github.writeReg
    rcases hparent.openFile hroot hext (b := true) (perm hdr) (by simp [hreg]) (fun _ => rfl)
      with ⟨e, heq⟩ | ⟨d', heq, hne, hopen⟩
    · rw [heq]
      exact hparent.toConfined
    · rw [heq]
      exact (hopen.writeFile hne hdr.body).toConfined
  · rename_i hsym
    split
    · exact h
    split
    · exact h
    · refine andThen_ind hparent.toConfined ?_
      have hlink := hparent.symlink hroot hext hdr.linkname (by simp [hsym])
      exact andThen_ind hlink.toConfined hlink.toConfined
  · exact h

/-! ### The whole archive -/

/-- Each entry that is reached meets a condition on the file system it finds. -/
def Along {ε : Type} (step : Header → Disk → Option ε × Disk) (C : Header → Fs → Prop) :
    List Header → Disk → Prop
  | [], _ => True
  | hdr :: rest, d =>
    C hdr d.fs ∧ ((step hdr d).1 = none → Along step C rest (step hdr d).2)

instance decidableAlong {ε : Type} (step : Header → Disk → Option ε × Disk)
    (C : Header → Fs → Prop) [∀ hdr fs, Decidable (C hdr fs)] :
    ∀ hs d, Decidable (Along step C hs d)
  | [], _ => isTrue trivial
  | hdr :: rest, d =>
    have := decidableAlong step C rest (step hdr d).2
    inferInstanceAs (Decidable (_ ∧ (_ → _)))

theorem Tar.extractFrom_confined {outDir : Path} {strip : Int}
    (hroot : Named pr fs (clean outDir) root) (complete : Bool) (entries : List Header) :
    ∀ {d : Disk}, Confined fs root d →
      Along (Tar.extractEntry pr outDir strip) (Tar.NoLinks root outDir strip) entries d →
      Confined fs root (Tar.extractFrom pr outDir strip complete entries d).2 := by
  induction entries with
  | nil => intro d h _; exact h
  | cons hdr rest ih =>
    intro d h ⟨hno, hrest⟩
    have hstep := Tar.extractEntry_confined hroot h hno
    rw [Tar.extractFrom]
    rcases hout : Tar.extractEntry pr outDir strip hdr d with ⟨err, d'⟩
    rw [hout] at hstep hrest
    cases err with
    | some => exact hstep
    | none => exact ih hstep (hrest rfl)

theorem Github.extractFrom_confined {dest : Path} (hroot : Named pr fs (clean dest) root)
    (hlast : (clean dest).comps.getLast? ≠ some "..") (complete : Bool) (entries : List Header) :
    ∀ {wrote : Bool} {d : Disk}, Confined fs root d →
      Along (Github.extractEntry pr dest) (Github.NoLinks root dest) entries d →
      Confined fs root (Github.extractFrom pr dest complete wrote entries d).2 := by
  induction entries with
  | nil => intro wrote d h _; exact h
  | cons hdr rest ih =>
    intro wrote d h ⟨hno, hrest⟩
    have hstep := Github.extractEntry_confined hroot hlast h hno
    rw [Github.extractFrom]
    rcases hout : Github.extractEntry pr dest hdr d with ⟨err, d'⟩
    rw [hout] at hstep hrest
    cases err with
    | some => exact hstep
    | none => exact ih hstep (hrest rfl)

/--
**The extractors stay inside.**  Into an empty directory, whatever the archive and whether
or not it is extracted to its end: as long as no entry that is reached goes through a
link, all that is created, truncated, written, given a mode or removed lies in the output
directory.  For the GitHub extractor the path of that directory must not end in `..`,
since `../..` then counts as lying below it.
-/
theorem extraction_stays_inside {outDir : Path} (hroot : Named pr fs (clean outDir) root) :
    (∀ (strip : Int) (a : Archive),
      Along (Tar.extractEntry pr outDir strip) (Tar.NoLinks root outDir strip) a.entries
        { fs := fs, log := [] } →
      Kept (Inside root) (Tar.extract pr outDir strip a { fs := fs, log := [] }).2) ∧
    ((clean outDir).comps.getLast? ≠ some ".." → ∀ body : Option Archive,
      (∀ a, body = some a → Along (Github.extractEntry pr outDir) (Github.NoLinks root outDir)
        a.entries { fs := fs, log := [] }) →
      Kept (Inside root) (Github.extractTarball pr outDir body { fs := fs, log := [] }).2) := by
  have hnew : Confined fs root { fs := fs, log := [] } :=
    ⟨by simp [Kept], fun _ _ => rfl⟩
  constructor
  · intro strip a halong
    exact (Tar.extractFrom_confined hroot a.complete a.entries hnew halong).kept
  · intro hlast body halong
    cases body with
    | none => exact hnew.kept
    | some a =>
      exact (Github.extractFrom_confined hroot hlast a.complete a.entries hnew (halong a rfl)).kept

/-- A disk with the empty directory `/out`. -/
def emptyOut : Fs :=
  Fs.put { entries := [], parents := by intro l n h; simp [lookIn] at h } ["out"] .dir (by decide)

/-- A file, a link to it from another directory, and a file beside the link. -/
def linked : Archive where
  entries :=
    [{ name := ["w", "bin", "tool"], typeflag := .reg, mode := 493, body := [1] },
     { name := ["w", "lib", "tool"], typeflag := .symlink, linkname := ["..", "bin", "tool"] },
     { name := ["w", "lib", "x"], typeflag := .reg, mode := 420, body := [2] }]

theorem extraction_stays_inside_linked :
    Kept (Inside ["out"]) (Tar.extract { cwd := [], maxLinks := 40 } ["", "out"] 1 linked
        { fs := emptyOut, log := [] }).2 ∧
      Kept (Inside ["out"]) (Github.extractTarball { cwd := [], maxLinks := 40 } ["", "out"]
        (some linked) { fs := emptyOut, log := [] }).2 := by
  have hroot : Named { cwd := [], maxLinks := 40 } emptyOut (clean ["", "out"]) ["out"] :=
    ⟨by decide +kernel, by decide +kernel, by decide⟩
  have h := extraction_stays_inside hroot
  refine ⟨h.1 1 linked (by decide +kernel), h.2 (by decide +kernel) _ fun a ha => ?_⟩
  obtain rfl := Option.some.inj ha
  decide +kernel

/-- A link to the directory itself, a link made through it that leads up, and a file. -/
def climbing : Archive where
  entries :=
    [{ name := ["w", "l"], typeflag := .symlink, linkname := ["."] },
     { name := ["w", "l", "up"], typeflag := .symlink, linkname := [".."] },
     { name := ["w", "up", "evil"], typeflag := .reg, mode := 420, body := [7] }]

/-- The extraction ends well, and has made a file of this name at the root. -/
def wroteAtRoot {ε : Type} (r : Option ε × Disk) (n : String) : Bool :=
  r.1.isNone && decide (Effect.create [n] ∈ r.2.log)

/-- Both extractors write a file next to the output directory, and report success. -/
theorem extraction_leaves_the_directory :
    place { cwd := [], maxLinks := 40 } emptyOut true (clean ["", "out"]) = some ["out"] ∧
      emptyOut.isEmpty ["out"] = true ∧ ¬Inside ["out"] ["evil"] ∧
      wroteAtRoot (Tar.extract { cwd := [], maxLinks := 40 } ["", "out"] 1 climbing
        { fs := emptyOut, log := [] }) "evil" = true ∧
      wroteAtRoot (Github.extractTarball { cwd := [], maxLinks := 40 } ["", "out"]
        (some climbing) { fs := emptyOut, log := [] }) "evil" = true := by
  decide +kernel

end JobsIroh.Fetchers
