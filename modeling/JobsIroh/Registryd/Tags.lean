/-
The tag listing and its paging, from `serveTags` of `registryd/handler.go`.

Every page is cut from a listing made anew, which may have changed since the page before; the
Link of a page names the last tag on it.  `L i` is what the `i`th request of a client that
follows the Links finds.
-/
import Mathlib.Data.Finset.Sort
import Mathlib.Data.String.Basic
import JobsIroh.Lib.Text

namespace JobsIroh.Registryd

/-- A 64 character lowercase hex store key; `parse` is `key.Parse`. -/
def parseHexKey (parse : List UInt8 → Bool) (s : String) : Bool :=
  s.utf8ByteSize = 64 && s.toLower = s && (Text.hexDecode s).any parse

/-- What a request finds: the K of every record, and the server's refs unless it cannot be
reached.  A record is written under the hex form of its key. -/
structure Listing (parse : List UInt8 → Bool) where
  records : List String
  refs : Option (List String)
  keyed : ∀ k ∈ records, parseHexKey parse k = true

/-- What a sorted list has after `last`; `sort.SearchStrings` finds the first entry that is not
below it. -/
def searchAfter {α : Type} [LinearOrder α] (l : List α) (last : α) : List α :=
  let i := l.findIdx fun t => decide (last ≤ t)
  l.drop (if l[i]? = some last then i + 1 else i)

variable {parse : List UInt8 → Bool}

def Listing.tags (l : Listing parse) : List String :=
  let built := (l.refs.getD []).filterMap fun name =>
    (Text.cutPrefix "build-from:" name).filter (parseHexKey parse)
  (l.records ++ built).toFinset.sort

/-- The page for the parameters `n` and `last`, and the parameters of its Link. -/
def serveTags (l : Listing parse) (n : Option Int) (last : String) :
    List String × Option (Int × String) :=
  let tags := if last = "" then l.tags else searchAfter l.tags last
  match n with
  | none => (tags, none)
  | some n =>
    if 0 ≤ n ∧ n < tags.length then
      let tags := tags.take n.toNat
      (tags, if 0 < n then tags[n.toNat - 1]?.map (n, ·) else none)
    else (tags, none)

/-- A client that follows the Links, after `N` requests: the tags it has got, and what it asks
for next. -/
def follow (L : Nat → Listing parse) (n : Int) : Nat → List String × Option (Int × String)
  | 0 => ([], some (n, ""))
  | i + 1 =>
    match follow L n i with
    | (got, none) => (got, none)
    | (got, some q) =>
      let (page, link) := serveTags (L i) (some q.1) q.2
      (got ++ page, link)

/-! ### One page -/

theorem searchAfter_eq {α : Type} [LinearOrder α] {l : List α} {last : α}
    (hs : l.Pairwise (· < ·)) : searchAfter l last = l.filter fun t => decide (last < t) := by
  induction l with
  | nil => rfl
  | cons a l ih =>
    obtain ⟨ha, hl⟩ := List.pairwise_cons.mp hs
    have above : last ≤ a → l.filter (fun t => decide (last < t)) = l := by
      intro hle
      exact List.filter_eq_self.mpr fun t ht => by simpa using hle.trans_lt (ha t ht)
    rw [List.filter_cons]
    rcases lt_trichotomy a last with hlt | rfl | hgt
    · rw [if_neg (by simpa using hlt.le), ← ih hl]
      simp only [searchAfter, List.findIdx_cons, not_le.mpr hlt, decide_false, cond_false,
        List.getElem?_cons_succ]
      split <;> rfl
    · simp [searchAfter, List.findIdx_cons, above le_rfl]
    · simp [searchAfter, List.findIdx_cons, hgt, hgt.le, above hgt.le, hgt.ne']

theorem Listing.tags_sorted (l : Listing parse) : l.tags.Pairwise (· < ·) :=
  (Finset.sortedLT_sort _).pairwise

/-- A tag is the K of a record, or one the server has a `build-from:` ref for. -/
theorem Listing.mem_tags {l : Listing parse} {t : String} : t ∈ l.tags ↔ t ∈ l.records ∨
    ∃ name ∈ l.refs.getD [], Text.cutPrefix "build-from:" name = some t ∧
      parseHexKey parse t = true := by
  simp only [tags, Finset.mem_sort, List.mem_toFinset, List.mem_append, List.mem_filterMap,
    Option.filter_eq_some_iff]

/-- No tag is empty, so an empty `last` is below them all. -/
theorem Listing.pos_of_mem {l : Listing parse} {t : String} (h : t ∈ l.tags) : "" < t := by
  have hk : parseHexKey parse t = true := by
    rcases Listing.mem_tags.mp h with h | ⟨-, -, -, h⟩
    · exact l.keyed t h
    · exact h
  refine lt_of_le_of_ne (not_lt.mp fun hlt => ?_) fun he => ?_
  · exact List.not_lt_nil _ (String.lt_iff_toList_lt.mp hlt)
  · simp [← he, parseHexKey] at hk

/-- A page is what comes next; if it is not all of it, the Link names its last tag. -/
theorem serveTags_split (l : Listing parse) (n : Nat) (last : String) :
    ∃ page rest link, serveTags l (some (n + 1)) last = (page, link) ∧
      l.tags.filter (fun t => decide (last < t)) = page ++ rest ∧
      (link = none ∧ rest = [] ∨ ∃ p a, page = p ++ [a] ∧ link = some ((n : Int) + 1, a)) := by
  have hr : (if last = "" then l.tags else searchAfter l.tags last) =
      l.tags.filter fun t => decide (last < t) := by
    split
    · rename_i h
      refine (List.filter_eq_self.mpr fun t ht => ?_).symm
      rw [h]
      exact decide_eq_true (Listing.pos_of_mem ht)
    · exact searchAfter_eq l.tags_sorted
  simp only [serveTags, hr]
  generalize l.tags.filter (fun t => decide (last < t)) = r
  by_cases hlt : n + 1 < r.length
  · have htake := List.take_succ_eq_append_getElem (show n < r.length by omega)
    rw [if_pos (by omega), show ((n : Int) + 1).toNat = n + 1 by omega, if_pos (by omega)]
    refine ⟨_, r.drop (n + 1), _, rfl, (List.take_append_drop _ r).symm, Or.inr ⟨_, _, htake, ?_⟩⟩
    rw [Nat.add_sub_cancel, List.getElem?_take_of_lt (by omega),
      List.getElem?_eq_getElem (by omega)]
    rfl
  · rw [if_neg (by omega)]
    exact ⟨r, [], none, rfl, (List.append_nil r).symm, Or.inl ⟨rfl, rfl⟩⟩

/-! ### Paging -/

/-- After `N` requests the tags are in order and end where the next request starts; they are all
up to there that were there each time. -/
structure Paged (L : Nat → Listing parse) (n : Int) (N : Nat) (got : List String)
    (req : Option (Int × String)) : Prop where
  sorted : got.Pairwise (· < ·)
  sub : ∀ t ∈ got, ∃ i, t ∈ (L i).tags
  next : ∀ q ∈ req, q.1 = n ∧ N ≤ got.length ∧ ∀ t ∈ got, t ≤ q.2
  all : ∀ t, (∀ i, (follow L n i).2 ≠ none → t ∈ (L i).tags) → (∀ q ∈ req, t ≤ q.2) → t ∈ got

theorem follow_paged (L : Nat → Listing parse) (n N : Nat) :
    Paged L (n + 1) N (follow L (n + 1) N).1 (follow L (n + 1) N).2 := by
  induction N with
  | zero =>
    refine ⟨List.Pairwise.nil, nofun, fun q hq => ?_, fun t ht hle => ?_⟩
    · obtain rfl := Option.some.inj hq
      exact ⟨rfl, Nat.zero_le _, nofun⟩
    · exact absurd (hle _ rfl) (Listing.pos_of_mem (ht 0 nofun)).not_ge
  | succ N ih =>
    rw [follow]
    rcases hf : follow L (n + 1) N with ⟨got, _ | q⟩ <;> rw [hf] at ih
    · exact ⟨ih.sorted, ih.sub, nofun, ih.all⟩
    dsimp only at ih ⊢
    obtain ⟨hn, hlen, hle⟩ := ih.next q rfl
    obtain ⟨page, rest, link, hserve, hsplit, hlink⟩ := serveTags_split (L N) n q.2
    rw [hn, hserve]
    have hmem : ∀ t, t ∈ page ++ rest ↔ t ∈ (L N).tags ∧ q.2 < t := by
      intro t
      rw [← hsplit, List.mem_filter, decide_eq_true_iff]
    have hs := (L N).tags_sorted.filter fun t => decide (q.2 < t)
    rw [hsplit, List.pairwise_append] at hs
    have hsorted : (got ++ page).Pairwise (· < ·) :=
      List.pairwise_append.mpr ⟨ih.sorted, hs.1, fun t ht u hu =>
        (hle t ht).trans_lt ((hmem u).mp (List.mem_append_left _ hu)).2⟩
    refine ⟨hsorted, fun t ht => ?_, fun q' hq' => ?_, fun t ht hq' => ?_⟩
    · rcases List.mem_append.mp ht with ht | ht
      · exact ih.sub t ht
      · exact ⟨N, ((hmem t).mp (List.mem_append_left _ ht)).1⟩
    · rcases hlink with ⟨rfl, -⟩ | ⟨p, a, rfl, rfl⟩
      · cases hq'
      obtain rfl := Option.some.inj hq'
      rw [← List.append_assoc] at hsorted ⊢
      have hlong : N + 1 ≤ (got ++ p ++ [a]).length := by
        simp only [List.length_append, List.length_singleton]
        omega
      refine ⟨rfl, hlong, fun t ht => ?_⟩
      rcases List.mem_append.mp ht with ht | ht
      · exact ((List.pairwise_append.mp hsorted).2.2 t ht a List.mem_cons_self).le
      · exact (List.mem_singleton.mp ht).le
    · rw [List.mem_append]
      rcases le_or_gt t q.2 with hseen | hnew
      · refine Or.inl (ih.all t ht fun q₀ h₀ => ?_)
        obtain rfl := Option.some.inj h₀
        exact hseen
      · have hin := (hmem t).mpr ⟨ht N (by simp [hf]), hnew⟩
        refine Or.inr ((List.mem_append.mp hin).resolve_right fun hrest => ?_)
        rcases hlink with ⟨-, rfl⟩ | ⟨p, a, rfl, rfl⟩
        · cases hrest
        · exact (hs.2.2 a (by simp) t hrest).not_ge (hq' _ rfl)

/-- **Paging is complete.** Whatever becomes of the listing between the requests, the tags a
client gets by following the Links are in strictly increasing order; when there is no further
Link, each tag that was listed at the time of every request has come exactly once; and if only
finitely many tags are ever listed, the Links end. -/
theorem serveTags_pages_complete (L : Nat → Listing parse) (n : Nat) :
    (∀ N, (follow L (n + 1) N).1.Pairwise (· < ·)) ∧
    (∀ N, (follow L (n + 1) N).2 = none →
      ∀ t, (∀ i, (follow L (n + 1) i).2 ≠ none → t ∈ (L i).tags) →
        (follow L (n + 1) N).1.count t = 1) ∧
    ∀ F : Finset String, (∀ i, ∀ t ∈ (L i).tags, t ∈ F) →
      ∃ N ≤ F.card + 1, (follow L (n + 1) N).2 = none := by
  have h := follow_paged L n
  have hnodup : ∀ N, (follow L (n + 1) N).1.Nodup := fun N => (h N).sorted.imp ne_of_lt
  refine ⟨fun N => (h N).sorted, fun N hN t ht => ?_, fun F hF => ⟨F.card + 1, le_rfl, ?_⟩⟩
  · refine List.count_eq_one_of_mem (hnodup N) ((h N).all t ht fun q hq => ?_)
    rw [hN] at hq
    cases hq
  · -- every page with a Link has a tag of its own
    by_contra hsome
    obtain ⟨q, hq⟩ := Option.ne_none_iff_exists'.mp hsome
    obtain ⟨-, hlen, -⟩ := (h _).next q hq
    have hsub : (follow L (n + 1) (F.card + 1)).1.toFinset ⊆ F := by
      intro t ht
      obtain ⟨i, hi⟩ := (h _).sub t (List.mem_toFinset.mp ht)
      exact hF i t hi
    have hcard := Finset.card_le_card hsub
    rw [List.toFinset_card_of_nodup (hnodup _)] at hcard
    omega

def hexKey (digit : Char) : String := String.ofList (List.replicate 64 digit)

/-- One K has a record here, another one a ref on the server. -/
def twoTags : Listing fun _ => true where
  records := [hexKey '1']
  refs := some ["shell:linux/amd64", "build-from:" ++ hexKey '2']
  keyed := by decide +kernel

theorem twoTags_tags : twoTags.tags = [hexKey '1', hexKey '2'] := by
  have hlist : twoTags.records ++ (twoTags.refs.getD []).filterMap (fun name =>
      (Text.cutPrefix "build-from:" name).filter (parseHexKey fun _ => true)) =
      [hexKey '1', hexKey '2'] := by decide +kernel
  rw [Listing.tags, hlist]
  exact (List.toFinset_sort _ (by decide +kernel)).mpr (by decide +kernel)

/-- In pages of one tag: the first has a Link, and the second is the last. -/
theorem serveTags_pages_complete_two :
    follow (fun _ => twoTags) 1 1 = ([hexKey '1'], some (1, hexKey '1')) ∧
    (follow (fun _ => twoTags) 1 2).2 = none ∧
    (follow (fun _ => twoTags) 1 2).1.count (hexKey '2') = 1 := by
  have hpages : follow (fun _ => twoTags) 1 1 = ([hexKey '1'], some (1, hexKey '1')) ∧
      (follow (fun _ => twoTags) 1 2).2 = none := by
    simp only [follow, serveTags, twoTags_tags]
    decide +kernel
  exact ⟨hpages.1, hpages.2, (serveTags_pages_complete (fun _ => twoTags) 0).2.1 2 hpages.2 _
    fun _ _ => by simp [twoTags_tags]⟩

end JobsIroh.Registryd
