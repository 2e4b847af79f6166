/-
Text with a fixed grammar: hexadecimal, prefixes and single-character separators.

Names that are built by concatenation and taken apart again need two facts: the
parser inverts the printer, and whatever it accepts is what the printer would
have written.  Everything here works on the character list, where both are
inductions on the list.
-/
import Mathlib.Data.List.Basic
import Mathlib.Tactic.IntervalCases

namespace Text

/-! ### Hexadecimal -/

/-- The lower-case digit for a value below sixteen. -/
def hexDigit (n : Nat) : Char :=
  if n < 10 then Char.ofNat (48 + n) else Char.ofNat (87 + n)

/-- The value of a digit; both cases are read. -/
def hexVal (c : Char) : Option Nat :=
  if 48 ≤ c.toNat ∧ c.toNat ≤ 57 then some (c.toNat - 48)
  else if 97 ≤ c.toNat ∧ c.toNat ≤ 102 then some (c.toNat - 87)
  else if 65 ≤ c.toNat ∧ c.toNat ≤ 70 then some (c.toNat - 55)
  else none

/-- Two lower-case digits for each byte. -/
def hexChars : List UInt8 → List Char
  | [] => []
  | b :: bs => hexDigit (b.toNat / 16) :: hexDigit (b.toNat % 16) :: hexChars bs

/-- The hexadecimal text of a byte string. -/
def hexEncode (bs : List UInt8) : String := String.ofList (hexChars bs)

def hexBytes : List Char → Option (List UInt8)
  | [] => some []
  | [_] => none
  | a :: b :: rest =>
    match hexVal a, hexVal b, hexBytes rest with
    | some x, some y, some bs => some (UInt8.ofNat (16 * x + y) :: bs)
    | _, _, _ => none

/-- Read hexadecimal text of either case and even length. -/
def hexDecode (s : String) : Option (List UInt8) := hexBytes s.toList

theorem hexVal_hexDigit {n : Nat} (h : n < 16) : hexVal (hexDigit n) = some n := by
  interval_cases n <;> decide

theorem hexBytes_hexChars (bs : List UInt8) : hexBytes (hexChars bs) = some bs := by
  induction bs with
  | nil => rfl
  | cons b bs ih =>
    have hb := b.toNat_lt
    have hhi := hexVal_hexDigit (show b.toNat / 16 < 16 by omega)
    have hlo := hexVal_hexDigit (show b.toNat % 16 < 16 by omega)
    rw [hexChars, hexBytes, hhi, hlo, ih]
    simp only [Nat.div_add_mod, UInt8.ofNat_toNat]

/-- Reading hexadecimal text gives back the bytes it was written from. -/
theorem hexDecode_hexEncode (bs : List UInt8) : hexDecode (hexEncode bs) = some bs := by
  rw [hexDecode, hexEncode, String.toList_ofList, hexBytes_hexChars]

/-! ### Prefixes -/

/-- What follows `p` in `s`, when `s` starts with `p`. -/
def cutPrefix (p s : String) : Option String :=
  if p.toList <+: s.toList then some (String.ofList (s.toList.drop p.toList.length)) else none

theorem cutPrefix_eq_some_iff {p s t : String} : cutPrefix p s = some t ↔ s = p ++ t := by
  unfold cutPrefix
  constructor
  · intro h
    split at h
    · rename_i hp
      rw [← Option.some.inj h, ← String.toList_inj, String.toList_append, String.toList_ofList]
      exact (List.prefix_iff_eq_append.mp hp).symm
    · cases h
  · rintro rfl
    rw [String.toList_append, if_pos (List.prefix_append _ _), List.drop_left,
      String.ofList_toList]

@[simp]
theorem cutPrefix_append (p t : String) : cutPrefix p (p ++ t) = some t :=
  cutPrefix_eq_some_iff.mpr rfl

/-- Neither text starts with the other. -/
def Incomparable (p q : String) : Prop := ¬ p.toList <+: q.toList ∧ ¬ q.toList <+: p.toList

instance (p q : String) : Decidable (Incomparable p q) := inferInstanceAs (Decidable (_ ∧ _))

theorem Incomparable.symm {p q : String} (h : Incomparable p q) : Incomparable q p := ⟨h.2, h.1⟩

/-- Texts that start with incomparable prefixes differ. -/
theorem append_ne_append {p q : String} (h : Incomparable p q) (s t : String) :
    p ++ s ≠ q ++ t := by
  intro he
  have hl : p.toList ++ s.toList = q.toList ++ t.toList := by
    rw [← String.toList_append, ← String.toList_append, he]
  have hp : p.toList <+: q.toList ++ t.toList := ⟨s.toList, hl⟩
  rcases List.prefix_or_prefix_of_prefix hp (List.prefix_append _ _) with h1 | h1
  · exact h.1 h1
  · exact h.2 h1

theorem cutPrefix_of_incomparable {p q : String} (h : Incomparable p q) (t : String) :
    cutPrefix p (q ++ t) = none := by
  rcases hc : cutPrefix p (q ++ t) with _ | s
  · rfl
  · exact absurd (cutPrefix_eq_some_iff.mp hc).symm (append_ne_append h s t)

/-! ### Separators -/

def cutChars (c : Char) : List Char → Option (List Char × List Char)
  | [] => none
  | x :: xs => if x = c then some ([], xs) else (cutChars c xs).map fun r => (x :: r.1, r.2)

/-- Split at the first `c`. -/
def cut (c : Char) (s : String) : Option (String × String) :=
  (cutChars c s.toList).map fun r => (String.ofList r.1, String.ofList r.2)

theorem cutChars_eq_some {c : Char} :
    ∀ {l a b : List Char}, cutChars c l = some (a, b) → l = a ++ c :: b ∧ c ∉ a := by
  intro l
  induction l with
  | nil => intro a b h; simp [cutChars] at h
  | cons x xs ih =>
    intro a b h
    rw [cutChars] at h
    split at h
    · rename_i hx
      obtain ⟨rfl, rfl⟩ := Prod.mk.inj (Option.some.inj h)
      exact ⟨by simp [hx], by simp⟩
    · rename_i hx
      obtain ⟨⟨a', b'⟩, hr, he⟩ := Option.map_eq_some_iff.mp h
      obtain ⟨rfl, rfl⟩ := Prod.mk.inj he
      obtain ⟨h1, h2⟩ := ih hr
      exact ⟨by rw [h1]; rfl, by simp [h2, Ne.symm hx]⟩

/-- A split string is its two halves around the separator, which the first half lacks. -/
theorem cut_eq_some {c : Char} {s a b : String} (h : cut c s = some (a, b)) :
    s = a ++ String.ofList [c] ++ b ∧ c ∉ a.toList := by
  obtain ⟨⟨a', b'⟩, hr, he⟩ := Option.map_eq_some_iff.mp h
  obtain ⟨rfl, rfl⟩ := Prod.mk.inj he
  obtain ⟨h1, h2⟩ := cutChars_eq_some hr
  refine ⟨?_, by rwa [String.toList_ofList]⟩
  rw [← String.toList_inj, h1]
  simp

/-- `strings.Split` at one character. -/
def splitChars (c : Char) : List Char → List (List Char)
  | [] => [[]]
  | x :: xs =>
    if x = c then [] :: splitChars c xs
    else
      match splitChars c xs with
      | [] => [[x]]
      | w :: ws => (x :: w) :: ws

def split (c : Char) (s : String) : List String := (splitChars c s.toList).map String.ofList

end Text
