/-
Association lists as finite maps.

A map is a list of key-value pairs read by `List.lookup`; the first pair of a key
counts.  Deleting by a test on the key and putting in front are all the updates there
are, and each is characterised by what is looked up afterwards.
-/
import Mathlib.Data.List.Basic

namespace Assoc

variable {α β : Type} [BEq α] [LawfulBEq α] {l : List (α × β)} {k : α} {v : β}

theorem mem_of_lookup (h : l.lookup k = some v) : (k, v) ∈ l := by
  induction l with
  | nil => simp at h
  | cons p l ih =>
    rw [List.lookup_cons] at h
    split at h
    · rename_i heq
      obtain rfl : p.2 = v := by simpa using h
      rw [beq_iff_eq] at heq
      rw [heq]
      exact List.mem_cons_self
    · exact List.mem_cons_of_mem _ (ih h)

theorem lookup_cons_self (p : α × β) (l : List (α × β)) : (p :: l).lookup p.1 = some p.2 := by
  obtain ⟨k, v⟩ := p
  simp

theorem lookup_cons_ne {p : α × β} (h : k ≠ p.1) : (p :: l).lookup k = l.lookup k := by
  obtain ⟨k', v⟩ := p
  have hb : (k == k') = false := by simpa using h
  rw [List.lookup_cons, hb]

/-- Keep the pairs whose key passes a test. -/
theorem lookup_filter (l : List (α × β)) (q : α → Bool) (k : α) :
    (l.filter (fun p => q p.1)).lookup k = if q k then l.lookup k else none := by
  induction l with
  | nil => simp
  | cons p l ih =>
    rw [List.filter_cons]
    by_cases hk : k = p.1
    · subst hk
      by_cases hq : q p.1 = true
      · rw [if_pos hq, if_pos hq, lookup_cons_self, lookup_cons_self]
      · rw [if_neg hq, if_neg hq, ih, if_neg hq]
    · rw [lookup_cons_ne hk]
      by_cases hq : q p.1 = true
      · rw [if_pos hq, lookup_cons_ne hk, ih]
      · rw [if_neg hq, ih]

/-- Put a pair in the place of every older one of its key. -/
theorem lookup_put [DecidableEq α] (l : List (α × β)) (k : α) (v : β) (n : α) :
    ((k, v) :: l.filter (fun p => p.1 ≠ k)).lookup n = if n = k then some v else l.lookup n := by
  by_cases h : n = k
  · subst h
    rw [if_pos rfl, lookup_cons_self (n, v)]
  · rw [if_neg h, lookup_cons_ne h, lookup_filter l (fun n => decide (n ≠ k)) n,
      if_pos (by simpa using h)]

theorem mem_keys_of_lookup (h : l.lookup k = some v) : k ∈ l.map (·.1) :=
  List.mem_map.mpr ⟨_, mem_of_lookup h, rfl⟩

end Assoc
