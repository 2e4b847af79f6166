/-
Stored file trees.

A directory object lists its entries in name order; an entry carries the metadata and
either a leaf or a directory of its own.  Here a tree is that structure itself, with
the files' bytes in place, and the key of a tree is computed from it the way the
builders do: a directory's key from its entries, each with the key of its content.
Keys do not collide, one level at a time; that two trees with one key are one tree is
proved from that.

A path is the list of its components, what `strings.Split(p, "/")` returns: it may
hold `""`, `"."` and `".."`, and an absolute path starts with `""`.
-/
import JobsIroh.Wire
import Mathlib.Data.String.Basic

namespace JobsIroh.Tree

abbrev Path := List String

instance lawfulBEqPath : LawfulBEq Path := inferInstance

/-- The metadata of an entry; the type bits of its mode are in what it holds. -/
structure Attr where
  name : String
  perm : Nat
  uid : Nat := 0
  gid : Nat := 0
  mtime : Int := 0
  xattrs : List (String × Bytes) := []
  deriving DecidableEq, Repr

/-- What an entry that is no directory holds. -/
inductive Leaf where
  | file (data : Bytes)
  | link (target : Path)
  /-- A device, fifo or socket. -/
  | special (type rdev : Nat)
  deriving DecidableEq, Repr

/-- The entries of a directory, in order. -/
inductive Dir where
  | nil
  | leaf (a : Attr) (l : Leaf) (rest : Dir)
  | sub (a : Attr) (d : Dir) (rest : Dir)
  deriving DecidableEq, Repr

inductive Node where
  | leaf (l : Leaf)
  | sub (d : Dir)
  deriving DecidableEq, Repr

/-- What a node is, with what a leaf holds: nothing for a directory. -/
def Node.kind : Node → Option Leaf
  | .leaf l => some l
  | .sub _ => none

namespace Dir

def names : Dir → List String
  | .nil => []
  | .leaf a _ rest => a.name :: rest.names
  | .sub a _ rest => a.name :: rest.names

def find (n : String) : Dir → Option (Attr × Node)
  | .nil => none
  | .leaf a l rest => if a.name = n then some (a, .leaf l) else rest.find n
  | .sub a d rest => if a.name = n then some (a, .sub d) else rest.find n

/-- The entry at a path, no link being followed. -/
def get : Dir → Path → Option (Attr × Node)
  | _, [] => none
  | d, [n] => d.find n
  | d, n :: m :: p =>
    match d.find n with
    | some (_, .sub d') => d'.get (m :: p)
    | _ => none

/-- The entry at a path: its metadata, its type and, for a leaf, what it holds. -/
def entry (d : Dir) (p : Path) : Option (Attr × Option Leaf) :=
  (d.get p).map fun e => (e.1, e.2.kind)

/-- A name that a directory can have an entry of. -/
def validName (n : String) : Prop := n ≠ "" ∧ n ≠ "." ∧ n ≠ ".."

instance (n : String) : Decidable (validName n) := inferInstanceAs (Decidable (_ ∧ _ ∧ _))

/-- Names are valid and strictly increasing, as the directory builder has them. -/
def WF : Dir → Prop
  | .nil => True
  | .leaf a _ rest => validName a.name ∧ (∀ n ∈ rest.names, a.name < n) ∧ rest.WF
  | .sub a d rest => validName a.name ∧ (∀ n ∈ rest.names, a.name < n) ∧ d.WF ∧ rest.WF

instance decidableWF : (d : Dir) → Decidable d.WF
  | .nil => isTrue trivial
  | .leaf _ _ rest =>
    have := decidableWF rest
    inferInstanceAs (Decidable (_ ∧ _ ∧ _))
  | .sub _ d rest =>
    have := decidableWF d
    have := decidableWF rest
    inferInstanceAs (Decidable (_ ∧ _ ∧ _ ∧ _))

end Dir

/-! ### Keys -/

/-- What a stored entry holds: the key of its content, or the content itself. -/
inductive Content (κ : Type) where
  | file (key : κ)
  | link (target : Path)
  | special (type rdev : Nat)
  | dir (key : κ)
  deriving DecidableEq, Repr

structure Stored (κ : Type) where
  attr : Attr
  content : Content κ
  deriving DecidableEq, Repr

/-- The builders of files and directories, without collisions. -/
structure Keys (κ : Type) where
  fileKey : Bytes → κ
  dirKey : List (Stored κ) → κ
  fileKey_inj : ∀ {a b}, fileKey a = fileKey b → a = b
  dirKey_inj : ∀ {a b}, dirKey a = dirKey b → a = b

variable {κ : Type} (K : Keys κ)

def Leaf.content : Leaf → Content κ
  | .file data => .file (K.fileKey data)
  | .link target => .link target
  | .special type rdev => .special type rdev

namespace Dir

def stored : Dir → List (Stored κ)
  | .nil => []
  | .leaf a l rest => ⟨a, l.content K⟩ :: rest.stored
  | .sub a d rest => ⟨a, .dir (K.dirKey d.stored)⟩ :: rest.stored

def key (d : Dir) : κ := K.dirKey (d.stored K)

variable {K}

theorem content_inj {l l' : Leaf} (h : l.content K = l'.content K) : l = l' := by
  cases l <;> cases l' <;> simp only [Leaf.content, reduceCtorEq, Content.file.injEq,
    Content.link.injEq, Content.special.injEq] at h
  · rw [K.fileKey_inj h]
  · rw [h]
  · rw [h.1, h.2]

theorem content_ne_dir (l : Leaf) (k : κ) : l.content K ≠ .dir k := by
  cases l <;> simp [Leaf.content]

theorem stored_inj (d : Dir) : ∀ {d' : Dir}, d.stored K = d'.stored K → d = d' := by
  induction d with
  | nil =>
    intro d' h
    cases d' <;> simp [stored] at h
    rfl
  | leaf a l rest ih =>
    intro d' h
    cases d' with
    | nil => simp [stored] at h
    | leaf =>
      simp only [stored, List.cons.injEq, Stored.mk.injEq] at h
      rw [h.1.1, content_inj h.1.2, ih h.2]
    | sub =>
      simp only [stored, List.cons.injEq, Stored.mk.injEq] at h
      exact absurd h.1.2 (content_ne_dir l _)
  | sub a d rest ihd ih =>
    intro d' h
    cases d' with
    | nil => simp [stored] at h
    | leaf a' l' =>
      simp only [stored, List.cons.injEq, Stored.mk.injEq] at h
      exact absurd h.1.2.symm (content_ne_dir l' _)
    | sub =>
      simp only [stored, List.cons.injEq, Stored.mk.injEq, Content.dir.injEq] at h
      rw [h.1.1, ihd (K.dirKey_inj h.1.2), ih h.2]

/-- **Two trees with one key are one tree.** -/
theorem key_inj {d d' : Dir} : d.key K = d'.key K ↔ d = d' := by
  constructor
  · intro h
    exact stored_inj d (K.dirKey_inj h)
  · intro h
    rw [h]

end Dir

/-! ### Looking entries up -/

namespace Dir

@[simp] theorem get_nil_path (d : Dir) : d.get [] = none := by cases d <;> rfl

theorem get_cons (d : Dir) (n : String) (p : Path) :
    d.get (n :: p) = match d.find n with
      | none => none
      | some (a, node) =>
        match p, node with
        | [], node => some (a, node)
        | _ :: _, .sub d' => d'.get p
        | _ :: _, .leaf _ => none := by
  cases p with
  | nil =>
    rw [get]
    cases hf : d.find n with
    | none | some => rfl
  | cons =>
    rw [get]
    cases hf : d.find n with
    | none => rfl
    | some e =>
      obtain ⟨a, node⟩ := e
      cases node <;> rfl

@[simp] theorem entry_nil_path (d : Dir) : d.entry [] = none := by simp [entry]

@[simp] theorem entry_nil (p : Path) : Dir.nil.entry p = none := by
  cases p with
  | nil => simp
  | cons => simp [entry, get_cons, find]

theorem entry_leaf (a : Attr) (l : Leaf) (rest : Dir) (n : String) (p : Path) :
    (Dir.leaf a l rest).entry (n :: p)
      = if a.name = n then (if p = [] then some (a, some l) else none)
        else rest.entry (n :: p) := by
  by_cases hn : a.name = n
  · rw [if_pos hn, entry, get_cons, find, if_pos hn]
    cases p <;> simp [Node.kind]
  · rw [if_neg hn, entry, entry, get_cons, get_cons, find, if_neg hn]

theorem entry_sub (a : Attr) (d rest : Dir) (n : String) (p : Path) :
    (Dir.sub a d rest).entry (n :: p)
      = if a.name = n then (if p = [] then some (a, none) else d.entry p)
        else rest.entry (n :: p) := by
  by_cases hn : a.name = n
  · rw [if_pos hn, entry, get_cons, find, if_pos hn]
    cases p <;> simp [Node.kind, entry]
  · rw [if_neg hn, entry, entry, get_cons, get_cons, find, if_neg hn]

/-- A directory has an entry under the first component of any path in it. -/
theorem mem_names_of_entry {n : String} {p : Path} (d : Dir)
    (h : (d.entry (n :: p)).isSome = true) : n ∈ d.names := by
  induction d with
  | nil => simp at h
  | leaf a l rest ih =>
    rw [entry_leaf] at h
    by_cases hn : a.name = n
    · simp [names, hn]
    · rw [if_neg hn] at h
      simp [names, ih h]
  | sub a d rest _ ih =>
    rw [entry_sub] at h
    by_cases hn : a.name = n
    · simp [names, hn]
    · rw [if_neg hn] at h
      simp [names, ih h]

theorem entry_isSome_of_mem_names {n : String} (d : Dir) (h : n ∈ d.names) :
    (d.entry [n]).isSome = true := by
  induction d with
  | nil => simp [names] at h
  | leaf a l rest ih =>
    rw [entry_leaf]
    by_cases hn : a.name = n
    · simp [hn]
    · rw [if_neg hn]
      exact ih ((List.mem_cons.mp h).resolve_left fun h => hn h.symm)
  | sub a d rest _ ih =>
    rw [entry_sub]
    by_cases hn : a.name = n
    · simp [hn]
    · rw [if_neg hn]
      exact ih ((List.mem_cons.mp h).resolve_left fun h => hn h.symm)

theorem entry_none_of_not_mem {n : String} {p : Path} {d : Dir} (h : n ∉ d.names) :
    d.entry (n :: p) = none := by
  by_contra hne
  exact h (mem_names_of_entry d (Option.isSome_iff_ne_none.mpr hne))

/-- The path of an entry goes through directories. -/
theorem entry_dir_of_append {d : Dir} :
    ∀ {p q : Path}, p ≠ [] → q ≠ [] → (d.entry (p ++ q)).isSome = true →
      ∃ a d', d.get p = some (a, .sub d') ∧ d.entry (p ++ q) = d'.entry q := by
  intro p
  induction p generalizing d with
  | nil => intro q hp; exact absurd rfl hp
  | cons n p ih =>
    intro q _ hq h
    rw [List.cons_append] at h ⊢
    have hne : p ++ q ≠ [] := by simp [hq]
    obtain ⟨m, r, hmr⟩ := List.exists_cons_of_ne_nil hne
    rw [entry, get_cons] at h
    cases hf : d.find n with
    | none => rw [hf] at h; simp at h
    | some e =>
      obtain ⟨a, node⟩ := e
      rw [hf, hmr] at h
      cases node with
      | leaf => simp at h
      | sub d' =>
        have hget : d.get (n :: (p ++ q)) = d'.get (p ++ q) := by
          rw [get_cons, hf, hmr]
        have hentry : d.entry (n :: (p ++ q)) = d'.entry (p ++ q) := by
          rw [entry, entry, hget]
        cases p with
        | nil =>
          refine ⟨a, d', ?_, ?_⟩
          · rw [get_cons, hf]
          · rw [hentry, List.nil_append]
        | cons k p =>
          have hsub : (d'.entry ((k :: p) ++ q)).isSome = true := by
            rw [entry, hmr]; exact h
          obtain ⟨a', d'', hd, he⟩ := ih (by simp) hq hsub
          refine ⟨a', d'', ?_, by rw [hentry, he]⟩
          rw [get_cons, hf]
          exact hd

theorem entry_isSome_of_prefix {d : Dir} {p q : Path} (hpq : p <+: q) (hp : p ≠ [])
    (h : (d.entry q).isSome = true) : (d.entry p).isSome = true := by
  obtain ⟨s, rfl⟩ := hpq
  by_cases hs : s = []
  · rw [hs, List.append_nil] at h
    exact h
  · obtain ⟨a, d', hd, -⟩ := entry_dir_of_append hp hs h
    simp [entry, hd]

/-! ### A tree is what its paths lead to -/

theorem head_name_eq {a a' : Attr} {d d' rest rest' : Dir}
    (hne : ∀ n ∈ rest.names, a.name < n) (hne' : ∀ n ∈ rest'.names, a'.name < n)
    (hd : d.names = a.name :: rest.names) (hd' : d'.names = a'.name :: rest'.names)
    (h : ∀ p, d.entry p = d'.entry p) : a.name = a'.name := by
  by_contra hne''
  have h₁ : a.name ∈ d'.names := by
    refine mem_names_of_entry (p := []) d' ?_
    rw [← h]
    exact entry_isSome_of_mem_names d (by rw [hd]; exact List.mem_cons_self)
  have h₂ : a'.name ∈ d.names := by
    refine mem_names_of_entry (p := []) d ?_
    rw [h]
    exact entry_isSome_of_mem_names d' (by rw [hd']; exact List.mem_cons_self)
  rw [hd'] at h₁
  rw [hd] at h₂
  have hlt := hne' _ ((List.mem_cons.mp h₁).resolve_left hne'')
  have hlt' := hne _ ((List.mem_cons.mp h₂).resolve_left fun h => hne'' h.symm)
  exact absurd hlt (lt_asymm hlt')

/-- **Well-formed trees with the same entries at all paths are equal.** -/
theorem ext_entry (d : Dir) :
    ∀ {d' : Dir}, d.WF → d'.WF → (∀ p, d.entry p = d'.entry p) → d = d' := by
  -- What the rest of a directory holds does not have the head's name.
  have hrest : ∀ {n : String} {r r' : Dir}, (∀ m ∈ r.names, n < m) → (∀ m ∈ r'.names, n < m) →
      (∀ m p, m ≠ n → r.entry (m :: p) = r'.entry (m :: p)) → ∀ p, r.entry p = r'.entry p := by
    intro n r r' hr hr' h p
    cases p with
    | nil => simp
    | cons m p =>
      by_cases hm : m = n
      · subst hm
        rw [entry_none_of_not_mem fun hc => lt_irrefl _ (hr _ hc),
          entry_none_of_not_mem fun hc => lt_irrefl _ (hr' _ hc)]
      · exact h m p hm
  induction d with
  | nil =>
    intro d' _ _ h
    cases d' with
    | nil => rfl
    | leaf a =>
      have := h [a.name]
      simp [entry_leaf] at this
    | sub a =>
      have := h [a.name]
      simp [entry_sub] at this
  | leaf a l rest ih =>
    intro d' hd hd' h
    cases d' with
    | nil =>
      have := h [a.name]
      simp [entry_leaf] at this
    | leaf a' l' rest' =>
      have hname := head_name_eq hd.2.1 hd'.2.1 rfl rfl h
      have hhead := h [a.name]
      rw [entry_leaf, entry_leaf, if_pos rfl, if_pos hname.symm] at hhead
      simp only [if_true, Option.some.injEq, Prod.mk.injEq] at hhead
      have hr : rest = rest' := by
        refine ih hd.2.2 hd'.2.2 (hrest hd.2.1 (by rw [hname]; exact hd'.2.1) ?_)
        intro m p hm
        have := h (m :: p)
        rwa [entry_leaf, entry_leaf, if_neg fun h => hm h.symm,
          if_neg fun h => hm (h.symm.trans hname.symm)] at this
      rw [hhead.1, hhead.2, hr]
    | sub =>
      have hname := head_name_eq hd.2.1 hd'.2.1 rfl rfl h
      have hhead := h [a.name]
      rw [entry_leaf, entry_sub, if_pos rfl, if_pos hname.symm] at hhead
      simp at hhead
  | sub a d rest ihd ih =>
    intro d' hd hd' h
    cases d' with
    | nil =>
      have := h [a.name]
      simp [entry_sub] at this
    | leaf =>
      have hname := head_name_eq hd.2.1 hd'.2.1 rfl rfl h
      have hhead := h [a.name]
      rw [entry_sub, entry_leaf, if_pos rfl, if_pos hname.symm] at hhead
      simp at hhead
    | sub a' d' rest' =>
      have hname := head_name_eq hd.2.1 hd'.2.1 rfl rfl h
      have hhead := h [a.name]
      rw [entry_sub, entry_sub, if_pos rfl, if_pos hname.symm] at hhead
      simp only [if_true, Option.some.injEq, Prod.mk.injEq, and_true] at hhead
      have hsub : d = d' := by
        refine ihd hd.2.2.1 hd'.2.2.1 ?_
        intro p
        cases p with
        | nil => simp
        | cons m p =>
          have := h (a.name :: m :: p)
          rwa [entry_sub, entry_sub, if_pos rfl, if_pos hname.symm, if_neg (by simp),
            if_neg (by simp)] at this
      have hr : rest = rest' := by
        refine ih hd.2.2.2 hd'.2.2.2 (hrest hd.2.1 (by rw [hname]; exact hd'.2.1) ?_)
        intro m p hm
        have := h (m :: p)
        rwa [entry_sub, entry_sub, if_neg fun h => hm h.symm,
          if_neg fun h => hm (h.symm.trans hname.symm)] at this
      rw [hhead, hsub, hr]

end Dir

end JobsIroh.Tree
