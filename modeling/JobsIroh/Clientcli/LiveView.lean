/-
Cutting a line of the live view (`clientcli/liveview.go`).

A block line must not wrap, or the cursor-up arithmetic breaks, so a line is cut to
the terminal's width.  Control sequences do not count towards the width and are copied
as they are.  A string is the list of its runes; an index of the source is the suffix
that starts there.
-/
import Mathlib.Data.List.Basic

namespace JobsIroh
namespace Clientcli

/-- A final byte of a control sequence. -/
def csiFinal (c : Char) : Bool := 0x40 ≤ c.toNat && c.toNat ≤ 0x7e

/-- `csiEnd`: where a control sequence starts at the rune `c`, the sequence and what
follows it.  One without a final byte reaches to the end. -/
def csiEnd (c : Char) : List Char → Option (List Char × List Char)
  | [] => none
  | b :: r =>
    if c = '\x1b' ∧ b = '[' then
      let n := r.findIdx csiFinal + 1
      some (c :: b :: r.take n, r.drop n)
    else none

theorem csiEnd_some {c : Char} {r q t : List Char} (h : csiEnd c r = some (q, t)) :
    c :: r = q ++ t ∧ 2 ≤ q.length := by
  cases r with
  | nil => simp [csiEnd] at h
  | cons b r => grind [csiEnd, List.take_append_drop]

theorem csiEnd_lt {c : Char} {r q t : List Char} (h : csiEnd c r = some (q, t)) :
    t.length < (c :: r).length := by
  obtain ⟨hr, hq⟩ := csiEnd_some h
  rw [hr, List.length_append]
  omega

/-- `visibleLen`. -/
def visibleLen : List Char → Nat
  | [] => 0
  | c :: r =>
    match _ : csiEnd c r with
    | some (_, t) => visibleLen t
    | none => visibleLen r + 1
termination_by r => r.length
decreasing_by
  · exact csiEnd_lt ‹_›
  · simp

/-- The loop of `truncateLine` with `n` runes still to print: what it writes, and
whether it saw a control sequence. -/
def truncateLoop : Nat → List Char → List Char × Bool
  | 0, _ => ([], false)
  | _ + 1, [] => ([], false)
  | n + 1, c :: r =>
    match _ : csiEnd c r with
    | some (q, t) => (q ++ (truncateLoop (n + 1) t).1, true)
    | none => (c :: (truncateLoop n r).1, (truncateLoop n r).2)
termination_by _ r => r.length
decreasing_by
  · exact csiEnd_lt ‹_›
  · simp

/-- `truncateLine`. -/
def truncateLine (s : List Char) (width : Int) : List Char :=
  if width ≤ 0 ∨ visibleLen s ≤ width then s
  else if width = 1 then ['…']
  else
    let (b, sawCSI) := truncateLoop (width - 1).toNat s
    b ++ '…' :: if sawCSI then ['\x1b', '[', '0', 'm'] else []

/-! ### Tokens

Both scans walk the same tokens: a control sequence, or one rune that is shown.
-/

def tokens : List Char → List (List Char)
  | [] => []
  | c :: r =>
    match _ : csiEnd c r with
    | some (q, t) => q :: tokens t
    | none => [c] :: tokens r
termination_by r => r.length
decreasing_by
  · exact csiEnd_lt ‹_›
  · simp

/-- The shown runes of a list of tokens. -/
def shown (ts : List (List Char)) : List Char :=
  (ts.filter (·.length = 1)).flatten

theorem tokens_flatten (s : List Char) : (tokens s).flatten = s := by
  fun_induction tokens s with
  | case1 => rfl
  | case2 c r q t h ih => rw [List.flatten_cons, ih, (csiEnd_some h).1]
  | case3 c r h ih => rw [List.flatten_cons, ih, List.singleton_append]

theorem shown_csi {c : Char} {r q t : List Char} (h : csiEnd c r = some (q, t))
    (ts : List (List Char)) : shown (q :: ts) = shown ts := by
  have hq := (csiEnd_some h).2
  rw [shown, List.filter_cons_of_neg (by simp; omega), shown]

@[simp] theorem shown_rune (c : Char) (ts : List (List Char)) :
    shown ([c] :: ts) = c :: shown ts := rfl

theorem shown_append (ts us : List (List Char)) : shown (ts ++ us) = shown ts ++ shown us := by
  rw [shown, List.filter_append, List.flatten_append, shown, shown]

theorem visibleLen_eq (s : List Char) : visibleLen s = (shown (tokens s)).length := by
  fun_induction visibleLen s with
  | case1 => simp [tokens, shown]
  | case2 c r q t h ih => grind [tokens, shown_csi]
  | case3 c r h ih => grind [tokens, shown_rune]

/-- A finished sequence is the same whatever follows it. -/
theorem csiEnd_append {c : Char} {r q t : List Char} (h : csiEnd c r = some (q, t))
    (ht : t ≠ []) : ∃ q', q = c :: q' ∧ ∀ x, csiEnd c (q' ++ x) = some (q, x) := by
  cases r with
  | nil => simp [csiEnd] at h
  | cons b r =>
    rw [csiEnd] at h
    split_ifs at h with hcb
    simp only [Option.some.injEq, Prod.mk.injEq] at h
    obtain ⟨rfl, rfl⟩ := h
    refine ⟨_, rfl, fun x => ?_⟩
    have hlen := List.drop_eq_nil_iff.not.mp ht
    rw [List.cons_append, csiEnd, if_pos hcb]
    have hfind : (r.take (r.findIdx csiFinal + 1) ++ x).findIdx csiFinal
        = r.findIdx csiFinal := by
      rw [List.findIdx_append, List.findIdx_take, List.length_take, if_pos] <;> omega
    simp only [hfind]
    have hcut : (r.take (r.findIdx csiFinal + 1)).length = r.findIdx csiFinal + 1 := by
      rw [List.length_take]
      omega
    rw [List.take_left' hcut, List.drop_left' hcut]

theorem tokens_csi {c : Char} {r q t : List Char} (h : csiEnd c r = some (q, t)) :
    tokens (c :: r) = q :: tokens t := by
  grind [tokens]

theorem tokens_rune {c : Char} {r : List Char} (h : csiEnd c r = none) :
    tokens (c :: r) = [c] :: tokens r := by
  grind [tokens]

/-- **The loop writes whole tokens**, and what it wrote reads back as those tokens when
the ellipsis follows. -/
theorem truncateLoop_spec (n : Nat) (s : List Char) (hn : n < visibleLen s) :
    ∃ ts rest, tokens s = ts ++ rest ∧ (truncateLoop n s).1 = ts.flatten
      ∧ shown ts = (shown (tokens s)).take n
      ∧ ∀ x, tokens (ts.flatten ++ '…' :: x) = ts ++ ['…'] :: tokens x := by
  fun_induction truncateLoop n s with
  | case1 s =>
    refine ⟨[], tokens s, rfl, rfl, rfl, fun x => tokens_rune ?_⟩
    cases x <;> simp [csiEnd]
  | case2 n => simp [visibleLen] at hn
  | case3 n c r q t h ih =>
    have hlen : visibleLen (c :: r) = visibleLen t := by
      rw [visibleLen_eq, visibleLen_eq, tokens_csi h, shown_csi h]
    obtain ⟨ts, rest, hts, hb, hshown, hread⟩ := ih (by omega)
    -- shown runes follow the sequence, so it has its final byte
    have ht : t ≠ [] := by
      intro ht
      rw [hlen, ht, visibleLen] at hn
      omega
    obtain ⟨q', rfl, hq⟩ := csiEnd_append h ht
    refine ⟨(c :: q') :: ts, rest, ?_, ?_, ?_, fun x => ?_⟩
    · rw [tokens_csi h, hts, List.cons_append]
    · rw [hb, List.flatten_cons]
    · rw [tokens_csi h, shown_csi h, shown_csi h, hshown]
    · rw [List.flatten_cons, List.append_assoc, List.cons_append, tokens_csi (hq _), hread,
        List.cons_append]
  | case4 n c r h ih =>
    have hlen : visibleLen (c :: r) = visibleLen r + 1 := by
      rw [visibleLen_eq, visibleLen_eq, tokens_rune h, shown_rune, List.length_cons]
    obtain ⟨ts, rest, hts, hb, hshown, hread⟩ := ih (by omega)
    refine ⟨[c] :: ts, rest, ?_, ?_, ?_, fun x => ?_⟩
    · rw [tokens_rune h, hts, List.cons_append]
    · rw [hb, List.flatten_cons, List.singleton_append]
    · rw [tokens_rune h, shown_rune, shown_rune, hshown, List.take_succ_cons]
    · -- what follows the rune is what followed it before, or the ellipsis
      have hr : r = ts.flatten ++ rest.flatten := by
        rw [← List.flatten_append, ← hts, tokens_flatten]
      have hc : csiEnd c (ts.flatten ++ '…' :: x) = none := by
        cases hf : ts.flatten with
        | nil => simp [csiEnd]
        | cons b u =>
          rw [hr, hf] at h
          simp only [csiEnd, List.cons_append] at h ⊢
          split_ifs at h ⊢
          rfl
      rw [List.flatten_cons, List.singleton_append, List.cons_append, tokens_rune hc, hread,
        List.cons_append]

/-- **A cut line fits and keeps its tokens.**  Whatever the sequences in a line, a
positive width leaves at most that many shown runes and leaves a line that fits as it
is.  Where a line is cut, what stands before the ellipsis is a number of its whole
tokens, read back as the same tokens, with all but one of the shown runes that fit. -/
theorem truncateLine_fits (s : List Char) (w : Nat) :
    visibleLen (truncateLine s (w + 1)) ≤ w + 1
      ∧ (visibleLen s ≤ w + 1 → truncateLine s (w + 1) = s)
      ∧ (w + 1 < visibleLen s → ∃ ts rest tail, tokens s = ts ++ rest
          ∧ truncateLine s (w + 1) = ts.flatten ++ '…' :: tail
          ∧ tokens (truncateLine s (w + 1)) = ts ++ ['…'] :: tokens tail
          ∧ shown ts = (shown (tokens s)).take w ∧ shown (tokens tail) = []) := by
  rcases Nat.lt_or_ge (w + 1) (visibleLen s) with hs | hs
  · obtain ⟨ts, rest, hts, hb, hshown, hread⟩ := truncateLoop_spec w s (by omega)
    have hline : ∃ tail, truncateLine s (w + 1) = ts.flatten ++ '…' :: tail
        ∧ shown (tokens tail) = [] := by
      rw [truncateLine, if_neg (by omega)]
      split_ifs with hw
      · have hw : w = 0 := by omega
        subst hw
        refine ⟨[], ?_, by simp [tokens, shown]⟩
        rw [← hb, truncateLoop, List.nil_append]
      · have hw : ((w : Int) + 1 - 1).toNat = w := by omega
        rw [hw]
        refine ⟨_, congrArg (· ++ _) hb, ?_⟩
        have hreset : csiEnd '\x1b' ['[', '0', 'm'] = some (['\x1b', '[', '0', 'm'], []) := by
          decide
        split
        · rw [tokens_csi hreset, shown_csi hreset]
          simp [tokens, shown]
        · simp [tokens, shown]
    obtain ⟨tail, hline, htail⟩ := hline
    have hout : tokens (truncateLine s (w + 1)) = ts ++ ['…'] :: tokens tail := by
      rw [hline, hread]
    refine ⟨?_, fun h => by omega, fun _ => ⟨ts, rest, tail, hts, hline, hout, hshown, htail⟩⟩
    rw [visibleLen_eq, hout, shown_append, shown_rune, htail, hshown, List.length_append,
      List.length_take, List.length_singleton]
    omega
  · have hline : truncateLine s (w + 1) = s := if_pos (by omega)
    exact ⟨by rw [hline]; exact hs, fun _ => hline, fun h => by omega⟩

end Clientcli
end JobsIroh
