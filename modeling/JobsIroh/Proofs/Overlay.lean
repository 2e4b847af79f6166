/-
The overlay does not depend on the order of the generated files.

The generated files are a Go map, iterated in an order that changes from run to run.
Adding two files to the tree of generated files gives the same in either order, or fails
in either order, if with another message; so the tree is the same for every order.
-/
import JobsIroh.Amber.Overlay

namespace JobsIroh.Tree

/-! ### Putting entries into a directory -/

namespace Dir

variable {a b : Attr} {m n : Node}

theorem find_cons (a : Attr) (node : Node) (rest : Dir) (s : String) :
    (node.cons a rest).find s = if a.name = s then some (a, node) else rest.find s := by
  cases node <;> simp [Node.cons, find]

theorem put_cons (a b : Attr) (m n : Node) (rest : Dir) :
    (m.cons b rest).put a n = if a.name = b.name then n.cons a rest
      else if a.name < b.name then n.cons a (m.cons b rest) else m.cons b (rest.put a n) := by
  cases m <;> simp [Node.cons, put]

/-- Every directory with entries is a first entry and the others. -/
theorem cons_cases {P : Dir → Prop} (hnil : P .nil)
    (hcons : ∀ (b : Attr) (m : Node) (rest : Dir), P rest → P (m.cons b rest)) (d : Dir) : P d := by
  induction d with
  | nil => exact hnil
  | leaf b l rest ih => exact hcons b (.leaf l) rest ih
  | sub b d rest _ ih => exact hcons b (.sub d) rest ih

theorem put_nil (a : Attr) (n : Node) : Dir.nil.put a n = n.cons a .nil := by rw [put]

theorem find_put (a : Attr) (node : Node) (d : Dir) (s : String) :
    (d.put a node).find s = if a.name = s then some (a, node) else d.find s := by
  induction d using cons_cases with
  | hnil => rw [put_nil, find_cons]
  | hcons b m rest ih =>
    rw [put_cons]
    by_cases heq : a.name = b.name
    · rw [if_pos heq, find_cons, find_cons, heq]
      by_cases hs : b.name = s
      · rw [if_pos hs, if_pos hs]
      · rw [if_neg hs, if_neg hs, if_neg hs]
    · rw [if_neg heq]
      by_cases hlt : a.name < b.name
      · rw [if_pos hlt, find_cons]
      · rw [if_neg hlt, find_cons, find_cons, ih]
        by_cases hs : a.name = s
        · rw [if_pos hs, if_pos hs, if_neg fun hb => heq (hs.trans hb.symm)]
        · rw [if_neg hs, if_neg hs]

/-- The later of two entries of one name stays. -/
theorem put_put (h : a.name = b.name) (d : Dir) : (d.put a m).put b n = d.put b n := by
  induction d using cons_cases with
  | hnil => rw [put_nil, put_nil, put_cons, if_pos h.symm]
  | hcons e k rest ih =>
    rw [put_cons, put_cons, h]
    by_cases heq : b.name = e.name
    · rw [if_pos heq, if_pos heq, put_cons, if_pos h.symm]
    · rw [if_neg heq, if_neg heq]
      by_cases hlt : b.name < e.name
      · rw [if_pos hlt, if_pos hlt, put_cons, if_pos h.symm]
      · rw [if_neg hlt, if_neg hlt, put_cons, if_neg heq, if_neg hlt, ih]

theorem put_comm_of_lt (h : a.name < b.name) (d : Dir) :
    (d.put a m).put b n = (d.put b n).put a m := by
  have hne : b.name ≠ a.name := ne_of_gt h
  have hne' : a.name ≠ b.name := ne_of_lt h
  -- Once the smaller name is in front, the larger one goes behind it.
  have hfront : ∀ rest : Dir, (m.cons a rest).put b n = m.cons a (rest.put b n) := by
    intro rest
    rw [put_cons, if_neg hne, if_neg (lt_asymm h)]
  induction d using cons_cases with
  | hnil => rw [put_nil, put_nil, hfront, put_nil, put_cons, if_neg hne', if_pos h]
  | hcons e k rest ih =>
    rcases lt_trichotomy a.name e.name with hlt | heq | hgt
    · -- The smaller name comes before everything.
      have hput : ∀ {x : Attr} {y : Node} {r : Dir}, a.name < x.name →
          (y.cons x r).put a m = m.cons a (y.cons x r) := by
        intro x y r hx
        rw [put_cons, if_neg (ne_of_lt hx), if_pos hx]
      rw [hput hlt, hfront, put_cons]
      split
      · rw [hput h]
      split
      · rw [hput h]
      · rw [hput hlt]
    · have hbe : ¬ b.name = e.name := fun hc => hne (hc.trans heq.symm)
      have hbe' : ¬ b.name < e.name := fun hc => lt_asymm h (heq ▸ hc)
      rw [put_cons, if_pos heq, hfront, put_cons b, if_neg hbe, if_neg hbe', put_cons, if_pos heq]
    · have hbehind : ∀ {x : Attr} {y : Node} {r : Dir}, e.name < x.name →
          (k.cons e r).put x y = k.cons e (r.put x y) := by
        intro x y r hx
        rw [put_cons, if_neg (ne_of_gt hx), if_neg (lt_asymm hx)]
      have hbe : e.name < b.name := lt_trans hgt h
      rw [hbehind hgt, hbehind hbe, hbehind hbe, hbehind hgt, ih]

/-- Entries of different names can be put in either order. -/
theorem put_comm (h : a.name ≠ b.name) (d : Dir) :
    (d.put a m).put b n = (d.put b n).put a m := by
  rcases lt_trichotomy a.name b.name with hlt | heq | hgt
  · exact put_comm_of_lt hlt d
  · exact absurd heq h
  · exact (put_comm_of_lt hgt d).symm

end Dir

/-! ### Adding generated files -/

/-- What adding a file makes of the entry its first component names. -/
def addChild (content : Bytes) (seg : String) : Option (Attr × Node) → List String →
    Option (Attr × Node)
  | none, [] => some (generatedFile seg, .leaf (.file content))
  | some _, [] => none
  | none, next :: segs =>
    (addFile [] content .nil (next :: segs)).toOption.map fun s => (generatedDir seg, .sub s)
  | some (_, .leaf _), _ :: _ => none
  | some (a, .sub d), next :: segs =>
    (addFile [] content d (next :: segs)).toOption.map fun s => (a, .sub s)

theorem toOption_map {α β : Type} (f : α → β) (x : Except String α) :
    (x.map f).toOption = x.toOption.map f := by
  cases x <;> rfl

/-- The whole path is only there for the messages. -/
theorem addFile_path (p : Path) (content : Bytes) (segs : List String) :
    ∀ d, (addFile p content d segs).toOption = (addFile [] content d segs).toOption := by
  induction segs with
  | nil => intro d; rfl
  | cons seg segs ih =>
    intro d
    cases segs with
    | nil =>
      rw [addFile, addFile]
      cases d.find seg <;> rfl
    | cons =>
      rw [addFile, addFile]
      cases d.find seg with
      | none => simp only [toOption_map, ih]
      | some e =>
        obtain ⟨a, node⟩ := e
        cases node with
        | leaf => rfl
        | sub => simp only [toOption_map, ih]

theorem addFile_cons (p : Path) (content : Bytes) (d : Dir) (seg : String) (segs : List String) :
    (addFile p content d (seg :: segs)).toOption
      = (addChild content seg (d.find seg) segs).map fun e => d.put e.1 e.2 := by
  rw [addFile_path]
  cases segs with
  | nil =>
    rw [addFile]
    cases d.find seg <;> rfl
  | cons =>
    rw [addFile]
    cases d.find seg with
    | none => simp only [toOption_map, addChild, Option.map_map, Function.comp_def]
    | some e =>
      obtain ⟨a, node⟩ := e
      cases node with
      | leaf => rfl
      | sub => simp only [toOption_map, addChild, Option.map_map, Function.comp_def]

/-- An entry keeps its name. -/
theorem addChild_name {content : Bytes} {seg : String} {old : Option (Attr × Node)}
    {segs : List String} {e : Attr × Node} (hold : ∀ e', old = some e' → e'.1.name = seg)
    (h : addChild content seg old segs = some e) : e.1.name = seg := by
  cases old with
  | none =>
    cases segs with
    | nil =>
      obtain rfl : _ = e := by simpa [addChild] using h
      rfl
    | cons =>
      simp only [addChild, Option.map_eq_some_iff] at h
      obtain ⟨s, -, rfl⟩ := h
      rfl
  | some e' =>
    obtain ⟨a, node⟩ := e'
    have ha : a.name = seg := hold _ rfl
    cases segs with
    | nil => simp [addChild] at h
    | cons =>
      cases node with
      | leaf => simp [addChild] at h
      | sub =>
        simp only [addChild, Option.map_eq_some_iff] at h
        obtain ⟨s, -, rfl⟩ := h
        exact ha

theorem find_name {d : Dir} {seg : String} : ∀ {e : Attr × Node}, d.find seg = some e →
    e.1.name = seg := by
  induction d using Dir.cons_cases with
  | hnil => intro e h; simp [Dir.find] at h
  | hcons b m rest ih =>
    intro e h
    rw [Dir.find_cons] at h
    split at h
    · rename_i hb
      obtain rfl : (b, m) = e := by simpa using h
      exact hb
    · exact ih h

/-- Add two files one after the other. -/
def addTwo (d : Dir) (xs : List String) (c : Bytes) (ys : List String) (c' : Bytes) : Option Dir :=
  (addFile [] c d xs).toOption.bind fun d => (addFile [] c' d ys).toOption

/-- Two files below the same entry. -/
theorem addChild_comm {c c' : Bytes} {s : String} {xs ys : List String}
    (ih : ∀ d, addTwo d xs c ys c' = addTwo d ys c' xs c) (old : Option (Attr × Node)) :
    ((addChild c s old xs).bind fun e => addChild c' s (some e) ys)
      = (addChild c' s old ys).bind fun e => addChild c s (some e) xs := by
  -- A path that ends here takes the entry for itself.
  have hends : ∀ (c c' : Bytes) (zs : List String),
      ((addChild c s old []).bind fun e => addChild c' s (some e) zs) = none := by
    intro c c' zs
    cases old with
    | none => cases zs <;> rfl
    | some => rfl
  have hends' : ∀ (c c' : Bytes) (zs : List String),
      ((addChild c s old zs).bind fun e => addChild c' s (some e) []) = none := by
    intro c c' zs
    cases addChild c s old zs <;> rfl
  cases xs with
  | nil => rw [hends, hends']
  | cons x xs =>
    cases ys with
    | nil => rw [hends', hends]
    | cons y ys =>
      -- Otherwise both go on in the same directory, old or new.
      have hsub : ∀ (c c' : Bytes) (x y : String) (xs ys : List String) (a : Attr) (d : Dir),
          (((addFile [] c d (x :: xs)).toOption.map fun r => (a, Node.sub r)).bind
            fun e => addChild c' s (some e) (y :: ys))
          = (addTwo d (x :: xs) c (y :: ys) c').map fun r => (a, Node.sub r) := by
        intro c c' x y xs ys a d
        rw [addTwo]
        cases (addFile [] c d (x :: xs)).toOption <;> rfl
      cases old with
      | none => rw [addChild, addChild, hsub, hsub, ih]
      | some e =>
        obtain ⟨a, node⟩ := e
        cases node with
        | leaf => rfl
        | sub => rw [addChild, addChild, hsub, hsub, ih]

/-- **Two files can be added in either order.** -/
theorem addTwo_comm (c c' : Bytes) (xs : List String) :
    ∀ (ys : List String) (d : Dir), addTwo d xs c ys c' = addTwo d ys c' xs c := by
  have hroot : ∀ (c c' : Bytes) (zs : List String) (d : Dir), addTwo d zs c [] c' = none := by
    intro c c' zs d
    rw [addTwo]
    cases (addFile [] c d zs).toOption <;> rfl
  induction xs with
  | nil => intro ys d; rw [hroot]; rfl
  | cons s xs ih =>
    intro ys d
    cases ys with
    | nil => rw [hroot]; rfl
    | cons t ys =>
      -- The first file changes one entry of the directory, the second then another.
      have htwo : ∀ (c c' : Bytes) (s t : String) (xs ys : List String),
          addTwo d (s :: xs) c (t :: ys) c' = (addChild c s (d.find s) xs).bind fun e =>
            (addChild c' t ((d.put e.1 e.2).find t) ys).map fun e' =>
              (d.put e.1 e.2).put e'.1 e'.2 := by
        intro c c' s t xs ys
        rw [addTwo, addFile_cons]
        cases addChild c s (d.find s) xs with
        | none => rfl
        | some => exact addFile_cons [] c' _ t ys
      have hname : ∀ {c : Bytes} {s : String} {xs : List String} {e : Attr × Node},
          addChild c s (d.find s) xs = some e → e.1.name = s :=
        fun h => addChild_name (fun e' he' => find_name he') h
      by_cases hst : s = t
      · subst hst
        have hsame : ∀ (c c' : Bytes) (xs ys : List String),
            addTwo d (s :: xs) c (s :: ys) c'
              = ((addChild c s (d.find s) xs).bind fun e => addChild c' s (some e) ys).map
                fun e' => d.put e'.1 e'.2 := by
          intro c c' xs ys
          rw [htwo]
          cases he : addChild c s (d.find s) xs with
          | none => rfl
          | some e =>
            have hs := hname he
            simp only [Option.bind_some, Dir.find_put, if_pos hs]
            cases he' : addChild c' s (some e) ys with
            | none => rfl
            | some e' =>
              have hs' : e'.1.name = s :=
                addChild_name (fun e'' h => by obtain rfl := Option.some.inj h; exact hs) he'
              simp only [Option.map_some]
              rw [Dir.put_put (hs.trans hs'.symm)]
        rw [hsame, hsame, addChild_comm (fun d => ih ys d)]
      · have hother : ∀ (c c' : Bytes) (s t : String) (xs ys : List String), s ≠ t →
            addTwo d (s :: xs) c (t :: ys) c' = (addChild c s (d.find s) xs).bind fun e =>
              (addChild c' t (d.find t) ys).map fun e' => (d.put e.1 e.2).put e'.1 e'.2 := by
          intro c c' s t xs ys hne
          rw [htwo]
          cases he : addChild c s (d.find s) xs with
          | none => rfl
          | some e =>
            have hs : e.1.name ≠ t := fun hc => hne ((hname he).symm.trans hc)
            simp only [Option.bind_some, Dir.find_put, if_neg hs]
        rw [hother _ _ _ _ _ _ hst, hother _ _ _ _ _ _ fun h => hst h.symm]
        cases he : addChild c s (d.find s) xs with
        | none => cases addChild c' t (d.find t) ys <;> rfl
        | some e =>
          cases he' : addChild c' t (d.find t) ys with
          | none => rfl
          | some e' =>
            have hne : e.1.name ≠ e'.1.name := by rw [hname he, hname he']; exact hst
            simp only [Option.bind_some, Option.map_some]
            rw [Dir.put_comm hne]

/-! ### All generated files -/

theorem overlayTrie_eq_foldl (files : List (Path × Bytes)) :
    ∀ d, (overlayTrie d files).toOption = files.foldl (fun (o : Option Dir) x =>
      o.bind fun d => (addFile [] x.2 d (cleanRooted x.1)).toOption) (some d) := by
  have hnone : ∀ files : List (Path × Bytes), files.foldl (fun (o : Option Dir) x =>
      o.bind fun d => (addFile [] x.2 d (cleanRooted x.1)).toOption) none = none := by
    intro files
    induction files with
    | nil => rfl
    | cons x files ih => exact ih
  induction files with
  | nil => intro d; rfl
  | cons x files ih =>
    intro d
    rw [overlayTrie, List.foldl_cons, Option.bind_some, ← addFile_path (cleanRooted x.1)]
    cases addFile (cleanRooted x.1) x.2 d (cleanRooted x.1) with
    | error => exact (hnone files).symm
    | ok d' => exact ih d'

/-- **The overlaid tree does not depend on the order of the generated files.** -/
theorem overlayTree_perm (root : Dir) {files files' : List (Path × Bytes)}
    (h : files.Perm files') :
    (overlayTree root files).toOption = (overlayTree root files').toOption := by
  have htrie : (overlayTrie .nil files).toOption = (overlayTrie .nil files').toOption := by
    rw [overlayTrie_eq_foldl, overlayTrie_eq_foldl]
    refine h.foldl_eq' ?_ _
    intro x _ y _ o
    cases o with
    | none => rfl
    | some d => exact addTwo_comm x.2 y.2 (cleanRooted x.1) (cleanRooted y.1) d
  rw [overlayTree, overlayTree]
  cases he : overlayTrie .nil files with
  | error =>
    rw [he] at htrie
    cases he' : overlayTrie .nil files' with
    | error => rfl
    | ok => rw [he'] at htrie; simp [Except.toOption] at htrie
  | ok d =>
    rw [he] at htrie
    cases he' : overlayTrie .nil files' with
    | error => rw [he'] at htrie; simp [Except.toOption] at htrie
    | ok d' =>
      rw [he'] at htrie
      obtain rfl : d = d' := by simpa [Except.toOption] using htrie
      rfl

end JobsIroh.Tree
