/-
When each reference was last used (`reftrack/reftrack.go`).

The tracker is a map from ref names to a clock and a pin.  Names are the texts the
store uses; two prefixes make a family: `build-output:X` and `build-output-deps:X`
share a touch, a pin and an unpin, whenever the other one is tracked.  Every exported
method holds the tracker's lock from end to end, so it is one function here, with the
time it has read.  Times are nanoseconds.
-/
import JobsIroh.Lib.Assoc
import JobsIroh.Lib.Text
import Mathlib.Data.List.Dedup
import Mathlib.Data.List.Sort
import Mathlib.Data.String.Basic

namespace JobsIroh

/-! ### Names -/

def protectedPrefixes : List String := ["shell:", "fetcher:", "seed-src:"]

def outputPrefix : String := "build-output:"

def depsPrefix : String := "build-output-deps:"

/-- The name belongs to a class that never expires. -/
def isProtected (name : String) : Bool :=
  protectedPrefixes.any fun p => (Text.cutPrefix p name).isSome

/-- `familySibling`. -/
def familySibling (name : String) : Option String :=
  match Text.cutPrefix depsPrefix name with
  | some x => some (outputPrefix ++ x)
  | none => (Text.cutPrefix outputPrefix name).map (depsPrefix ++ ·)

theorem prefixes_incomparable : Text.Incomparable depsPrefix outputPrefix := by decide

@[simp]
theorem familySibling_output (x : String) :
    familySibling (outputPrefix ++ x) = some (depsPrefix ++ x) := by
  rw [familySibling, Text.cutPrefix_of_incomparable prefixes_incomparable, Text.cutPrefix_append]
  rfl

theorem deps_ne_output (x y : String) : depsPrefix ++ x ≠ outputPrefix ++ y :=
  Text.append_ne_append prefixes_incomparable x y

/-! ### The tracker -/

structure Entry where
  firstSeen : Int
  lastAccess : Int
  pinned : Bool := false
  deriving DecidableEq, Repr

abbrev Tracker := List (String × Entry)

namespace Tracker

def get (t : Tracker) (name : String) : Option Entry := t.lookup name

def put (t : Tracker) (name : String) (e : Entry) : Tracker := (name, e) :: t.filter (·.1 ≠ name)

/-- `Forget`. -/
def forget (t : Tracker) (name : String) : Tracker := t.filter (·.1 ≠ name)

/-- `touchLocked`. -/
def touchLocked (t : Tracker) (name : String) (now : Int) : Tracker :=
  match t.get name with
  | some e => t.put name { e with lastAccess := now }
  | none => t.put name { firstSeen := now, lastAccess := now }

/-- Set or clear the pin of a tracked name. -/
def setPinned (t : Tracker) (name : String) (pinned : Bool) : Tracker :=
  match t.get name with
  | some e => t.put name { e with pinned := pinned }
  | none => t

/-- Do the same to the family sibling, when it is tracked. -/
def mirror (t : Tracker) (name : String) (f : Tracker → String → Tracker) : Tracker :=
  match familySibling name with
  | some sib => if (t.get sib).isSome then f t sib else t
  | none => t

def touch (t : Tracker) (name : String) (now : Int) : Tracker :=
  (t.touchLocked name now).mirror name fun t n => t.touchLocked n now

def pin (t : Tracker) (name : String) (now : Int) : Tracker :=
  ((t.touchLocked name now).setPinned name true).mirror name fun t n =>
    (t.touchLocked n now).setPinned n true

def unpin (t : Tracker) (name : String) : Tracker :=
  (t.setPinned name false).mirror name fun t n => t.setPinned n false

/-- Seed what is not tracked yet. -/
def seed (now : Int) (t : Tracker) (name : String) : Tracker :=
  if (t.get name).isSome then t else t.put name { firstSeen := now, lastAccess := now }

def reconcile (t : Tracker) (existing : List String) (now : Int) : Tracker :=
  (existing.foldl (seed now) t).filter (·.1 ∈ existing)

/-- An entry that is neither pinned nor protected and is older than the cutoff. -/
def isExpired (t : Tracker) (cutoff : Int) (name : String) : Bool :=
  match t.get name with
  | some e => !e.pinned && !isProtected name && decide (e.lastAccess < cutoff)
  | none => false

/-- The order of the expiry list: deps names after all others, else by name. -/
def sweepsBefore (a b : String) : Prop :=
  if (Text.cutPrefix depsPrefix a).isSome = (Text.cutPrefix depsPrefix b).isSome then a ≤ b
  else (Text.cutPrefix depsPrefix a).isSome = false

instance : DecidableRel sweepsBefore := fun _ _ => inferInstanceAs (Decidable (ite _ _ _))

def expired (t : Tracker) (retention now : Int) : List String :=
  ((t.map (·.1)).dedup.filter (t.isExpired (now - retention))).insertionSort sweepsBefore

/-! ### Reading the map -/

theorem get_put (t : Tracker) (name : String) (e : Entry) (n : String) :
    (t.put name e).get n = if n = name then some e else t.get n :=
  Assoc.lookup_put t name e n

theorem get_forget (t : Tracker) (name n : String) :
    (t.forget name).get n = if n = name then none else t.get n := by
  unfold forget get
  rw [Assoc.lookup_filter t (fun n => decide (n ≠ name)) n]
  by_cases h : n = name <;> simp [h]

/-- An entry after a touch, seeded if there was none. -/
def touchEntry (now : Int) : Option Entry → Entry
  | some e => { e with lastAccess := now }
  | none => { firstSeen := now, lastAccess := now }

theorem get_touchLocked (t : Tracker) (name : String) (now : Int) (n : String) :
    (t.touchLocked name now).get n =
      if n = name then some (touchEntry now (t.get name)) else t.get n := by
  unfold touchLocked
  cases t.get name with
  | none | some => exact get_put ..

theorem get_setPinned (t : Tracker) (name : String) (pinned : Bool) (n : String) :
    (t.setPinned name pinned).get n =
      if n = name then (t.get name).map ({ · with pinned := pinned }) else t.get n := by
  unfold setPinned
  cases h : t.get name with
  | none =>
    by_cases hn : n = name
    · simp [hn, h]
    · simp [hn]
  | some => exact get_put ..

theorem familySibling_ne {name sib : String} (h : familySibling name = some sib) : sib ≠ name := by
  unfold familySibling at h
  cases hd : Text.cutPrefix depsPrefix name with
  | some x =>
    rw [hd] at h
    rw [Text.cutPrefix_eq_some_iff.mp hd, ← Option.some.inj h]
    exact (deps_ne_output x x).symm
  | none =>
    rw [hd] at h
    obtain ⟨x, hx, rfl⟩ := Option.map_eq_some_iff.mp h
    rw [Text.cutPrefix_eq_some_iff.mp hx]
    exact deps_ne_output x x

/-- A change of one entry, mirrored onto the sibling. -/
theorem get_mirror (t : Tracker) (name : String) {f : Tracker → String → Tracker}
    {g : Option Entry → Option Entry}
    (hf : ∀ t m n, (f t m).get n = if n = m then g (t.get m) else t.get n) (n : String) :
    (t.mirror name f).get n =
      if familySibling name = some n ∧ (t.get n).isSome then g (t.get n) else t.get n := by
  unfold mirror
  cases hs : familySibling name with
  | none => simp
  | some sib =>
    dsimp only
    by_cases ht : (t.get sib).isSome = true
    · rw [if_pos ht, hf]
      by_cases hn : n = sib
      · subst hn
        simp [ht]
      · rw [if_neg hn, if_neg (fun h => hn (Option.some.inj h.1).symm)]
    · rw [if_neg ht, if_neg]
      intro h
      exact ht ((Option.some.inj h.1) ▸ h.2)

/-- The names a touch or a pin of `name` changes. -/
def reaches (t : Tracker) (name n : String) : Prop :=
  n = name ∨ familySibling name = some n ∧ (t.get n).isSome = true

instance (t : Tracker) (name n : String) : Decidable (t.reaches name n) :=
  inferInstanceAs (Decidable (_ ∨ _))

theorem get_touch (t : Tracker) (name : String) (now : Int) (n : String) :
    (t.touch name now).get n =
      if t.reaches name n then some (touchEntry now (t.get n)) else t.get n := by
  unfold touch reaches
  rw [get_mirror _ _ (g := fun e => some (touchEntry now e))
      (fun t m n => get_touchLocked t m now n),
    get_touchLocked]
  by_cases hn : n = name
  · subst hn
    rw [if_neg (fun h => familySibling_ne h.1 rfl)]
    simp
  · simp [hn]

theorem get_pin (t : Tracker) (name : String) (now : Int) (n : String) :
    (t.pin name now).get n =
      if t.reaches name n then some { touchEntry now (t.get n) with pinned := true }
      else t.get n := by
  unfold pin reaches
  have hboth : ∀ (t : Tracker) (m n : String), ((t.touchLocked m now).setPinned m true).get n =
      if n = m then some { touchEntry now (t.get m) with pinned := true } else t.get n := by
    intro t m n
    rw [get_setPinned, get_touchLocked, get_touchLocked]
    by_cases hn : n = m <;> simp [hn]
  rw [get_mirror _ _ (g := fun e => some { touchEntry now e with pinned := true }) hboth, hboth]
  by_cases hn : n = name
  · subst hn
    rw [if_neg (fun h => familySibling_ne h.1 rfl)]
    simp
  · simp [hn]

theorem get_unpin (t : Tracker) (name n : String) :
    (t.unpin name).get n =
      if n = name ∨ familySibling name = some n then (t.get n).map ({ · with pinned := false })
      else t.get n := by
  unfold unpin
  rw [get_mirror _ _ (g := fun e => e.map ({ · with pinned := false }))
    (fun t m n => get_setPinned t m false n), get_setPinned]
  by_cases hn : n = name
  · subst hn
    rw [if_neg (fun h => familySibling_ne h.1 rfl)]
    simp
  · by_cases hs : familySibling name = some n
    · cases t.get n <;> simp [hn, hs]
    · simp [hn, hs]

theorem get_seed (now : Int) (t : Tracker) (name n : String) :
    (seed now t name).get n =
      if n = name then some ((t.get n).getD { firstSeen := now, lastAccess := now })
      else t.get n := by
  unfold seed
  cases h : t.get name with
  | none =>
    rw [if_neg (by simp), get_put]
    by_cases hn : n = name
    · subst hn
      simp [h]
    · simp [hn]
  | some =>
    by_cases hn : n = name
    · subst hn
      simp [h]
    · simp [hn]

theorem get_foldl_seed (now : Int) (existing : List String) (t : Tracker) (n : String) :
    (existing.foldl (seed now) t).get n =
      if n ∈ existing then some ((t.get n).getD { firstSeen := now, lastAccess := now })
      else t.get n := by
  induction existing generalizing t with
  | nil => simp
  | cons m existing ih =>
    rw [List.foldl_cons, ih, get_seed]
    by_cases hm : n = m
    · simp [hm]
    · simp [hm]

theorem get_reconcile (t : Tracker) (existing : List String) (now : Int) (n : String) :
    (t.reconcile existing now).get n =
      if n ∈ existing then some ((t.get n).getD { firstSeen := now, lastAccess := now })
      else none := by
  unfold reconcile
  rw [get, Assoc.lookup_filter _ (fun n => decide (n ∈ existing)) n]
  by_cases h : n ∈ existing
  · rw [if_pos (by simpa using h), if_pos h]
    exact (get_foldl_seed now existing t n).trans (if_pos h)
  · rw [if_neg (by simpa using h), if_neg h]

/-! ### The expiry list -/

theorem mem_expired {t : Tracker} {retention now : Int} {n : String} :
    n ∈ t.expired retention now ↔ t.isExpired (now - retention) n = true := by
  unfold expired
  rw [List.mem_insertionSort, List.mem_filter, List.mem_dedup]
  refine ⟨fun h => h.2, fun h => ⟨?_, h⟩⟩
  unfold isExpired at h
  cases hn : t.get n with
  | none => simp [hn] at h
  | some => exact Assoc.mem_keys_of_lookup hn

theorem isDeps_deps (x : String) : (Text.cutPrefix depsPrefix (depsPrefix ++ x)).isSome = true := by
  rw [Text.cutPrefix_append]
  rfl

theorem isDeps_output (x : String) :
    (Text.cutPrefix depsPrefix (outputPrefix ++ x)).isSome = false := by
  rw [Text.cutPrefix_of_incomparable prefixes_incomparable]
  rfl

instance : Std.Total sweepsBefore where
  total a b := by
    unfold sweepsBefore
    by_cases h : (Text.cutPrefix depsPrefix a).isSome = (Text.cutPrefix depsPrefix b).isSome
    · simpa [h] using le_total a b
    · cases ha : (Text.cutPrefix depsPrefix a).isSome <;>
        cases hb : (Text.cutPrefix depsPrefix b).isSome <;> simp_all

instance : IsTrans String sweepsBefore where
  trans a b c hab hbc := by
    unfold sweepsBefore at hab hbc ⊢
    cases ha : (Text.cutPrefix depsPrefix a).isSome <;>
      cases hb : (Text.cutPrefix depsPrefix b).isSome <;>
      cases hc : (Text.cutPrefix depsPrefix c).isSome <;> simp_all
    · exact hab.trans hbc
    · exact hab.trans hbc

/-- A deps name comes after every output name. -/
theorem not_sweepsBefore (x y : String) : ¬ sweepsBefore (depsPrefix ++ x) (outputPrefix ++ y) := by
  unfold sweepsBefore
  rw [isDeps_deps, isDeps_output]
  simp

theorem expired_sorted (t : Tracker) (retention now : Int) :
    (t.expired retention now).Pairwise sweepsBefore :=
  List.pairwise_insertionSort _ _

theorem expired_nodup (t : Tracker) (retention now : Int) : (t.expired retention now).Nodup :=
  (List.perm_insertionSort _ _).nodup_iff.mpr ((List.nodup_dedup _).filter _)

theorem isExpired_iff {t : Tracker} {cutoff : Int} {n : String} :
    t.isExpired cutoff n = true ↔ ∃ e, t.get n = some e ∧ e.pinned = false ∧
      isProtected n = false ∧ e.lastAccess < cutoff := by
  unfold isExpired
  cases t.get n <;> simp [and_assoc]

end Tracker

/-- No output is in a protected class. -/
theorem isProtected_output (x : String) : isProtected (outputPrefix ++ x) = false := by
  unfold isProtected protectedPrefixes
  simp only [List.any_cons, List.any_nil, Bool.or_false, Bool.or_eq_false_iff]
  refine ⟨?_, ?_, ?_⟩ <;> rw [Text.cutPrefix_of_incomparable (by decide)] <;> rfl

end JobsIroh
