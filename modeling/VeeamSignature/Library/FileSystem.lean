import Mathlib.Data.List.Basic
import Mathlib.Logic.Function.Basic

/-!
# File systems

A table of inodes with directories and symbolic links.  A path is resolved one
component at a time, and the resolution hands on the entries it has looked up:
a change of the table that keeps these entries and the links keeps the
resolution.
-/

namespace VeeamSignature.Files

abbrev Inode := ℕ

abbrev Name := String

/-- The components of an absolute path. -/
abbrev Path := List Name

inductive Node (γ : Type*)
  | regular (content : γ)
  | directory (entries : List (Name × Inode))
  | link (absolute : Bool) (components : List Name)
  | special

namespace Node

variable {γ : Type*}

def entries? : Node γ → Option (List (Name × Inode))
  | directory entries => some entries
  | _ => none

def link? : Node γ → Option (Bool × List Name)
  | link absolute components => some (absolute, components)
  | _ => none

def content? : Node γ → Option γ
  | regular content => some content
  | _ => none

def withEntry (name : Name) (i : Inode) : Node γ → Node γ
  | directory entries => directory ((name, i) :: entries)
  | node => node

def without (name : Name) : Node γ → Node γ
  | directory entries => directory (entries.filter fun entry => entry.1 ≠ name)
  | node => node

def withContent (content : γ) : Node γ → Node γ
  | regular _ => regular content
  | node => node

end Node

inductive Errno
  | noEntry
  | notDirectory
  | isDirectory
  | notEmpty
  | busy
  | loop
  | overflow
  | other (message : String)
  deriving DecidableEq

def Errno.message : Errno → String
  | .noEntry => "No such file or directory"
  | .notDirectory => "Not a directory"
  | .isDirectory => "Is a directory"
  | .notEmpty => "Directory not empty"
  | .busy => "Device or resource busy"
  | .loop => "Too many levels of symbolic links"
  | .overflow => "Value too large for defined data type"
  | .other message => message

/-- The inodes from `fresh` on have never been used. -/
structure FileSystem (γ : Type*) where
  root : Inode
  node : Inode → Option (Node γ)
  fresh : Inode
  unused : ∀ i, fresh ≤ i → node i = none

/-- Where the last component of a path is looked up, what is there, and all the
entries looked up on the way. -/
structure Location where
  directory : Inode
  name : Name
  inode : Option Inode
  looked : List (Inode × Name)

def Location.after (directory : Inode) (name : Name) (l : Location) : Location :=
  { l with looked := (directory, name) :: l.looked }

namespace FileSystem

variable {γ : Type*} (fs : FileSystem γ)

/-! ## Resolving a path -/

def entries? (i : Inode) : Option (List (Name × Inode)) := (fs.node i).bind Node.entries?

def link? (i : Inode) : Option (Bool × List Name) := (fs.node i).bind Node.link?

def content? (i : Inode) : Option γ := (fs.node i).bind Node.content?

def entry (directory : Inode) (name : Name) : Except Errno (Option Inode) :=
  match fs.entries? directory with
  | some entries => .ok (entries.lookup name)
  | none => .error .notDirectory

/-- Walk along the components; at a link that is followed, `jump` takes over. -/
def locateWith (follow : Bool) (jump : Inode → List Name → Except Errno Location) :
    Inode → List Name → Except Errno Location
  | directory, [] => .ok ⟨directory, ".", some directory, []⟩
  | directory, name :: rest =>
      match fs.entry directory name with
      | .error e => .error e
      | .ok none =>
          if rest = [] then .ok ⟨directory, name, none, [(directory, name)]⟩
          else .error .noEntry
      | .ok (some inode) =>
          match fs.link? inode with
          | some (absolute, components) =>
              if rest = [] ∧ follow = false then
                .ok ⟨directory, name, some inode, [(directory, name)]⟩
              else
                (jump (if absolute then fs.root else directory) (components ++ rest)).map
                  (.after directory name)
          | none =>
              if rest = [] then .ok ⟨directory, name, some inode, [(directory, name)]⟩
              else (locateWith follow jump inode rest).map (.after directory name)

/-- Walk along the components with a number of links that may be followed. -/
def locateWithin (follow : Bool) : ℕ → Inode → List Name → Except Errno Location
  | 0 => fs.locateWith follow fun _ _ => .error .loop
  | budget + 1 => fs.locateWith follow (locateWithin follow budget)

def linkBudget : ℕ := 40

/-- Resolve a path up to the entry it names; `follow` tells whether a link
there is followed. -/
def locate (follow : Bool) (path : Path) : Except Errno Location :=
  fs.locateWithin follow linkBudget fs.root path

def resolve (path : Path) : Except Errno Inode :=
  match fs.locate true path with
  | .error e => .error e
  | .ok l =>
      match l.inode with
      | none => .error .noEntry
      | some i => .ok i

/-- The bytes of the regular file that a path names. -/
def fileAt (path : Path) : Option γ :=
  match fs.resolve path with
  | .error _ => none
  | .ok i => fs.content? i

/-! ## Changes -/

def update (i : Inode) (f : Node γ → Node γ) : FileSystem γ where
  root := fs.root
  node := Function.update fs.node i ((fs.node i).map f)
  fresh := fs.fresh
  unused := by
    intro j hj
    by_cases hij : j = i
    · subst hij
      rw [Function.update_self, fs.unused j hj]
      rfl
    · rw [Function.update_of_ne hij, fs.unused j hj]

def unlink (directory : Inode) (name : Name) : FileSystem γ :=
  fs.update directory (.without name)

def setContent (i : Inode) (content : γ) : FileSystem γ := fs.update i (.withContent content)

def create (directory : Inode) (name : Name) (content : γ) : FileSystem γ where
  root := fs.root
  node := Function.update (fs.update directory (.withEntry name fs.fresh)).node fs.fresh
    (some (.regular content))
  fresh := fs.fresh + 1
  unused := by
    intro j hj
    rw [Function.update_of_ne (Nat.ne_of_gt hj)]
    exact (fs.update directory _).unused j (Nat.le_of_succ_le hj)

/-- Remove what a path names: a file, a link, or an empty directory. -/
def remove (path : Path) : Except Errno (FileSystem γ) :=
  match fs.locate false path with
  | .error .noEntry => .ok fs
  | .error .notDirectory => .ok fs
  | .error e => .error e
  | .ok l =>
      match l.inode with
      | none => .ok fs
      | some i =>
          if l.name = "." ∨ l.name = ".." then .error .busy
          else
            match fs.node i with
            | some (.directory entries) =>
                if entries.all fun entry => entry.1 = "." ∨ entry.1 = ".." then
                  .ok (fs.unlink l.directory l.name)
                else .error .notEmpty
            | _ => .ok (fs.unlink l.directory l.name)

/-- Open a path for writing: create the file, or empty it. -/
def openWrite (path : Path) (empty : γ) : Except Errno (Inode × FileSystem γ) :=
  match fs.locate true path with
  | .error e => .error e
  | .ok l =>
      match l.inode with
      | none => .ok (fs.fresh, fs.create l.directory l.name empty)
      | some i =>
          match fs.node i with
          | some (.regular _) => .ok (i, fs.setContent i empty)
          | some .special => .ok (i, fs)
          | some (.directory _) => .error .isDirectory
          | some (.link _ _) => .error .loop
          | none => .error .noEntry

end FileSystem

/-! ## One step of a resolution -/

section Walk

variable {γ : Type*} {fs fs' fs'' : FileSystem γ} {follow : Bool} {path : Path}
  {looked : List (Inode × Name)} {l : Location}
  {jump jump' : Inode → List Name → Except Errno Location} {directory : Inode}

inductive Walk (fs : FileSystem γ) (follow : Bool)
    (jump : Inode → List Name → Except Errno Location) (directory : Inode) :
    List Name → Location → Prop
  | here : Walk fs follow jump directory [] ⟨directory, ".", some directory, []⟩
  | missing {name : Name} (entry : fs.entry directory name = .ok none) :
      Walk fs follow jump directory [name] ⟨directory, name, none, [(directory, name)]⟩
  | last {name : Name} {i : Inode} (entry : fs.entry directory name = .ok (some i))
      (stay : fs.link? i = none ∨ follow = false) :
      Walk fs follow jump directory [name] ⟨directory, name, some i, [(directory, name)]⟩
  | link {name : Name} {rest : List Name} {i : Inode} {absolute : Bool} {components : List Name}
      {l : Location} (entry : fs.entry directory name = .ok (some i))
      (link : fs.link? i = some (absolute, components)) (followed : rest ≠ [] ∨ follow = true)
      (jumped : jump (if absolute then fs.root else directory) (components ++ rest) = .ok l) :
      Walk fs follow jump directory (name :: rest) (l.after directory name)
  | down {name : Name} {rest : List Name} {i : Inode} {l : Location}
      (entry : fs.entry directory name = .ok (some i)) (link : fs.link? i = none)
      (more : rest ≠ []) (walked : fs.locateWith follow jump i rest = .ok l) :
      Walk fs follow jump directory (name :: rest) (l.after directory name)

theorem map_after_eq_ok {result : Except Errno Location} {name : Name}
    (h : result.map (.after directory name) = .ok l) :
    ∃ l', result = .ok l' ∧ l'.after directory name = l := by
  cases result with
  | error e => cases h
  | ok l' => exact ⟨l', rfl, Except.ok.inj h⟩

theorem locateWith_eq_ok_iff :
    fs.locateWith follow jump directory path = .ok l ↔ Walk fs follow jump directory path l := by
  constructor
  · intro h
    cases path with
    | nil =>
        obtain rfl := Except.ok.inj h
        exact .here
    | cons name rest =>
        simp only [FileSystem.locateWith] at h
        cases hentry : fs.entry directory name with
        | error e => simp only [hentry, reduceCtorEq] at h
        | ok target =>
            cases target with
            | none =>
                simp only [hentry] at h
                split_ifs at h with hrest
                subst hrest
                obtain rfl := Except.ok.inj h
                exact .missing hentry
            | some inode =>
                simp only [hentry] at h
                cases hlink : fs.link? inode with
                | none =>
                    simp only [hlink] at h
                    split_ifs at h with hrest
                    · subst hrest
                      obtain rfl := Except.ok.inj h
                      exact .last hentry (Or.inl hlink)
                    · obtain ⟨l', hl', rfl⟩ := map_after_eq_ok h
                      exact .down hentry hlink hrest hl'
                | some target =>
                    obtain ⟨absolute, components⟩ := target
                    simp only [hlink] at h
                    by_cases hrest : rest = [] ∧ follow = false
                    · rw [if_pos hrest] at h
                      obtain ⟨rfl, hfollow⟩ := hrest
                      obtain rfl := Except.ok.inj h
                      exact .last hentry (Or.inr hfollow)
                    · rw [if_neg hrest] at h
                      obtain ⟨l', hl', rfl⟩ := map_after_eq_ok h
                      refine .link hentry hlink ?_ hl'
                      rwa [not_and_or, Bool.not_eq_false] at hrest
  · intro h
    cases h with
    | here => rfl
    | missing hentry => simp [FileSystem.locateWith, hentry]
    | @last name i hentry hstay =>
        cases hlink : fs.link? i with
        | none => simp [FileSystem.locateWith, hentry, hlink]
        | some target =>
            have hfollow : follow = false := by simpa [hlink] using hstay
            simp [FileSystem.locateWith, hentry, hlink, hfollow]
    | @link name rest i absolute components l hentry hlink hfollowed hjumped =>
        have hmore : ¬ (rest = [] ∧ follow = false) := by
          rwa [not_and_or, Bool.not_eq_false]
        simp only [FileSystem.locateWith, hentry, hlink, if_neg hmore, hjumped]
        rfl
    | down hentry hlink hmore hwalked =>
        simp only [FileSystem.locateWith, hentry, hlink, if_neg hmore, hwalked]
        rfl

end Walk

/-! ## What keeps a resolution -/

section Frame

variable {γ : Type*} {fs fs' fs'' : FileSystem γ} {follow : Bool} {path : Path}
  {looked : List (Inode × Name)} {l : Location}

/-- The links are the same, and so are the given entries. -/
structure Keeps (fs fs' : FileSystem γ) (looked : List (Inode × Name)) : Prop where
  root : fs'.root = fs.root
  entry : ∀ directory name, (directory, name) ∈ looked →
    fs'.entry directory name = fs.entry directory name
  link : ∀ i, fs'.link? i = fs.link? i

theorem Keeps.refl (fs : FileSystem γ) (looked : List (Inode × Name)) : Keeps fs fs looked :=
  ⟨rfl, fun _ _ _ => rfl, fun _ => rfl⟩

theorem Keeps.trans (h : Keeps fs fs' looked) (h' : Keeps fs' fs'' looked) :
    Keeps fs fs'' looked :=
  ⟨h'.root.trans h.root, fun d n hmem => (h'.entry d n hmem).trans (h.entry d n hmem),
    fun i => (h'.link i).trans (h.link i)⟩

theorem Keeps.tail {directory : Inode} {name : Name}
    (h : Keeps fs fs' ((directory, name) :: looked)) : Keeps fs fs' looked :=
  ⟨h.root, fun d n hmem => h.entry d n (List.mem_cons_of_mem _ hmem), h.link⟩

/-- A walk that looks up kept entries only is the same in both file systems. -/
theorem Keeps.locateWith {jump jump' : Inode → List Name → Except Errno Location}
    (hjump : ∀ d p l, jump d p = .ok l → Keeps fs fs' l.looked → jump' d p = .ok l)
    {directory : Inode} (h : fs.locateWith follow jump directory path = .ok l)
    (hkeeps : Keeps fs fs' l.looked) : fs'.locateWith follow jump' directory path = .ok l := by
  induction path generalizing directory l with
  | nil => exact h
  | cons name rest ih =>
      rw [locateWith_eq_ok_iff] at h ⊢
      cases h with
      | missing hentry => exact .missing ((hkeeps.entry _ _ List.mem_cons_self).trans hentry)
      | last hentry hstay =>
          refine .last ((hkeeps.entry _ _ List.mem_cons_self).trans hentry) ?_
          rwa [hkeeps.link]
      | link hentry hlink hfollowed hjumped =>
          refine .link ((hkeeps.entry _ _ List.mem_cons_self).trans hentry)
            ((hkeeps.link _).trans hlink) hfollowed ?_
          rw [hkeeps.root]
          exact hjump _ _ _ hjumped hkeeps.tail
      | down hentry hlink hmore hwalked =>
          exact .down ((hkeeps.entry _ _ List.mem_cons_self).trans hentry)
            ((hkeeps.link _).trans hlink) hmore (ih hwalked hkeeps.tail)

theorem Keeps.locateWithin {budget : ℕ} {directory : Inode}
    (h : fs.locateWithin follow budget directory path = .ok l) (hkeeps : Keeps fs fs' l.looked) :
    fs'.locateWithin follow budget directory path = .ok l := by
  induction budget generalizing directory path l with
  | zero => exact Keeps.locateWith (fun _ _ _ h => by cases h) h hkeeps
  | succ budget ih => exact Keeps.locateWith (fun _ _ _ h hkeeps => ih h hkeeps) h hkeeps

theorem Keeps.locate (h : fs.locate follow path = .ok l) (hkeeps : Keeps fs fs' l.looked) :
    fs'.locate follow path = .ok l := by
  rw [FileSystem.locate, hkeeps.root]
  exact Keeps.locateWithin h hkeeps

end Frame

/-! ## The entries of a resolution -/

section Entries

variable {γ : Type*} {fs fs' : FileSystem γ} {path : Path} {l l' : Location}
  {jump jump' : Inode → List Name → Except Errno Location} {directory : Inode}

/-- A walk that ends at an inode has looked up present entries only. -/
theorem locateWith_present {follow : Bool}
    (hjump : ∀ d p l, jump d p = .ok l → l.inode ≠ none → ∀ entry ∈ l.looked,
      ∃ i, fs.entry entry.1 entry.2 = .ok (some i))
    (h : fs.locateWith follow jump directory path = .ok l) (hinode : l.inode ≠ none) :
    ∀ entry ∈ l.looked, ∃ i, fs.entry entry.1 entry.2 = .ok (some i) := by
  induction path generalizing directory l with
  | nil =>
      obtain rfl := Except.ok.inj h
      intro entry hentry
      cases hentry
  | cons name rest ih =>
      cases locateWith_eq_ok_iff.mp h with
      | missing => exact absurd rfl hinode
      | last hentry => exact List.forall_mem_singleton.mpr ⟨_, hentry⟩
      | link hentry hlink hfollowed hjumped =>
          exact List.forall_mem_cons.mpr ⟨⟨_, hentry⟩, hjump _ _ _ hjumped hinode⟩
      | down hentry hlink hmore hwalked =>
          exact List.forall_mem_cons.mpr ⟨⟨_, hentry⟩, ih hwalked hinode⟩

theorem locateWithin_present {follow : Bool} {budget : ℕ}
    (h : fs.locateWithin follow budget directory path = .ok l) (hinode : l.inode ≠ none) :
    ∀ entry ∈ l.looked, ∃ i, fs.entry entry.1 entry.2 = .ok (some i) := by
  induction budget generalizing directory path l with
  | zero => exact locateWith_present (fun _ _ _ h => by cases h) h hinode
  | succ budget ih => exact locateWith_present (fun _ _ _ h hinode => ih h hinode) h hinode

theorem locateWith_unfollowed
    (hjump : ∀ d p l, jump d p = .ok l → l.inode ≠ none →
      ∃ l', jump' d p = .ok l' ∧ l'.inode ≠ none)
    (h : fs.locateWith true jump directory path = .ok l) (hinode : l.inode ≠ none) :
    ∃ l', fs.locateWith false jump' directory path = .ok l' ∧ l'.inode ≠ none := by
  simp only [locateWith_eq_ok_iff]
  induction path generalizing directory l with
  | nil => exact ⟨_, .here, by simp⟩
  | cons name rest ih =>
      cases locateWith_eq_ok_iff.mp h with
      | missing => exact absurd rfl hinode
      | last hentry => exact ⟨_, .last hentry (Or.inr rfl), by simp⟩
      | link hentry hlink hfollowed hjumped =>
          by_cases hrest : rest = []
          · subst hrest
            exact ⟨_, .last hentry (Or.inr rfl), by simp⟩
          · obtain ⟨l', hl', hinode'⟩ := hjump _ _ _ hjumped hinode
            exact ⟨_, .link hentry hlink (Or.inl hrest) hl', hinode'⟩
      | down hentry hlink hmore hwalked =>
          obtain ⟨l', hl', hinode'⟩ := ih hwalked hinode
          exact ⟨_, .down hentry hlink hmore (locateWith_eq_ok_iff.mpr hl'), hinode'⟩

theorem locateWithin_unfollowed {budget : ℕ}
    (h : fs.locateWithin true budget directory path = .ok l) (hinode : l.inode ≠ none) :
    ∃ l', fs.locateWithin false budget directory path = .ok l' ∧ l'.inode ≠ none := by
  induction budget generalizing directory path l with
  | zero => exact locateWith_unfollowed (fun _ _ _ h => by cases h) h hinode
  | succ budget ih => exact locateWith_unfollowed (fun _ _ _ h hinode => ih h hinode) h hinode

theorem locateWith_entry {follow : Bool}
    (hjump : ∀ d p l, jump d p = .ok l →
      l.name = "." ∧ l.inode ≠ none ∨ fs.entry l.directory l.name = .ok l.inode)
    (h : fs.locateWith follow jump directory path = .ok l) :
    l.name = "." ∧ l.inode ≠ none ∨ fs.entry l.directory l.name = .ok l.inode := by
  induction path generalizing directory l with
  | nil =>
      obtain rfl := Except.ok.inj h
      exact Or.inl ⟨rfl, by simp⟩
  | cons name rest ih =>
      cases locateWith_eq_ok_iff.mp h with
      | missing hentry => exact Or.inr hentry
      | last hentry => exact Or.inr hentry
      | link hentry hlink hfollowed hjumped =>
          have hend := hjump _ _ _ hjumped
          exact hend
      | down hentry hlink hmore hwalked =>
          have hend := ih hwalked
          exact hend

theorem locateWithin_entry {follow : Bool} {budget : ℕ}
    (h : fs.locateWithin follow budget directory path = .ok l) :
    l.name = "." ∧ l.inode ≠ none ∨ fs.entry l.directory l.name = .ok l.inode := by
  induction budget generalizing directory path l with
  | zero => exact locateWith_entry (fun _ _ _ h => by cases h) h
  | succ budget ih => exact locateWith_entry (fun _ _ _ h => ih h) h

structure Unlinked (fs fs' : FileSystem γ) (parent : Inode) (name : Name) : Prop where
  root : fs'.root = fs.root
  gone : fs'.entry parent name = .ok none
  entry : ∀ d n, (d, n) ≠ (parent, name) → fs'.entry d n = fs.entry d n
  link : ∀ i, fs'.link? i = fs.link? i

theorem Unlinked.locateWith {parent : Inode} {name : Name} (hfs : Unlinked fs fs' parent name)
    (hname : name ≠ ".")
    (hjump : ∀ d p l l', jump d p = .ok l → l.directory = parent ∧ l.name = name →
      jump' d p = .ok l' → l'.inode = none)
    (h : fs.locateWith false jump directory path = .ok l)
    (hl : l.directory = parent ∧ l.name = name)
    (h' : fs'.locateWith true jump' directory path = .ok l') : l'.inode = none := by
  induction path generalizing directory l l' with
  | nil =>
      obtain rfl := Except.ok.inj h
      exact absurd hl.2.symm hname
  | cons first rest ih =>
      by_cases hhere : (directory, first) = (parent, name)
      · obtain ⟨rfl, rfl⟩ := Prod.mk.inj hhere
        have hnone : ∀ i, fs'.entry directory first ≠ .ok (some i) := by
          intro i hi
          rw [hfs.gone] at hi
          cases hi
        cases locateWith_eq_ok_iff.mp h' with
        | missing => rfl
        | last hentry => exact absurd hentry (hnone _)
        | link hentry => exact absurd hentry (hnone _)
        | down hentry => exact absurd hentry (hnone _)
      · have hsame := hfs.entry directory first hhere
        cases locateWith_eq_ok_iff.mp h with
        | missing => exact absurd (Prod.ext hl.1 hl.2) hhere
        | last => exact absurd (Prod.ext hl.1 hl.2) hhere
        | link hentry hlink hfollowed hjumped =>
            cases locateWith_eq_ok_iff.mp h' with
            | missing hentry' => simp [hsame, hentry] at hentry'
            | last hentry' hstay' =>
                obtain rfl : _ = _ := Option.some.inj (Except.ok.inj
                  ((hsame.trans hentry).symm.trans hentry'))
                simp [hfs.link, hlink] at hstay'
            | link hentry' hlink' hfollowed' hjumped' =>
                obtain rfl : _ = _ := Option.some.inj (Except.ok.inj
                  ((hsame.trans hentry).symm.trans hentry'))
                rw [hfs.link, hlink] at hlink'
                obtain ⟨rfl, rfl⟩ := Prod.mk.inj (Option.some.inj hlink')
                rw [hfs.root] at hjumped'
                have hnone := hjump _ _ _ _ hjumped hl hjumped'
                exact hnone
            | down hentry' hlink' =>
                obtain rfl : _ = _ := Option.some.inj (Except.ok.inj
                  ((hsame.trans hentry).symm.trans hentry'))
                simp [hfs.link, hlink] at hlink'
        | down hentry hlink hmore hwalked =>
            cases locateWith_eq_ok_iff.mp h' with
            | missing => exact absurd rfl hmore
            | last => exact absurd rfl hmore
            | link hentry' hlink' =>
                obtain rfl : _ = _ := Option.some.inj (Except.ok.inj
                  ((hsame.trans hentry).symm.trans hentry'))
                simp [hfs.link, hlink] at hlink'
            | down hentry' hlink' hmore' hwalked' =>
                obtain rfl : _ = _ := Option.some.inj (Except.ok.inj
                  ((hsame.trans hentry).symm.trans hentry'))
                have hnone := ih hwalked hl hwalked'
                exact hnone

theorem Unlinked.locateWithin {budget : ℕ} {parent : Inode} {name : Name}
    (hfs : Unlinked fs fs' parent name) (hname : name ≠ ".")
    (h : fs.locateWithin false budget directory path = .ok l)
    (hl : l.directory = parent ∧ l.name = name)
    (h' : fs'.locateWithin true budget directory path = .ok l') : l'.inode = none := by
  induction budget generalizing directory path l l' with
  | zero => exact hfs.locateWith hname (fun _ _ _ _ h => by cases h) h hl h'
  | succ budget ih =>
      exact hfs.locateWith hname (fun _ _ _ _ h hl h' => ih h hl h') h hl h'

end Entries

/-! ## What a change keeps -/

section Changes

variable {γ : Type*} {fs fs' : FileSystem γ} {i j : Inode} {f : Node γ → Node γ}

theorem lookup_filter_ne {entries : List (Name × Inode)} {name : Name} (n : Name) :
    (entries.filter fun entry => entry.1 ≠ name).lookup n =
      if n = name then none else entries.lookup n := by
  induction entries with
  | nil => simp
  | cons entry rest ih =>
      obtain ⟨first, inode⟩ := entry
      by_cases hfirst : first = name
      · subst hfirst
        rw [List.filter_cons_of_neg (by simp), ih]
        by_cases hn : n = first
        · rw [if_pos hn, if_pos hn]
        · have hbeq : (n == first) = false := beq_false_of_ne hn
          simp only [if_neg hn, List.lookup_cons, hbeq]
      · rw [List.filter_cons_of_pos (by simpa using hfirst)]
        by_cases hn : n = first
        · subst hn
          simp only [List.lookup_cons, beq_self_eq_true, if_neg hfirst]
        · have hbeq : (n == first) = false := beq_false_of_ne hn
          simp only [List.lookup_cons, hbeq, ih]

theorem node_update_of_ne (h : j ≠ i) : (fs.update i f).node j = fs.node j :=
  Function.update_of_ne h _ _

theorem node_update_self : (fs.update i f).node i = (fs.node i).map f := Function.update_self _ _ _

theorem entries?_update_of_ne (h : j ≠ i) : (fs.update i f).entries? j = fs.entries? j := by
  rw [FileSystem.entries?, node_update_of_ne h, FileSystem.entries?]

theorem entries?_update_self :
    (fs.update i f).entries? i = ((fs.node i).map f).bind Node.entries? := by
  rw [FileSystem.entries?, node_update_self]

theorem link?_update (hf : ∀ node, (f node).link? = node.link?) (j : Inode) :
    (fs.update i f).link? j = fs.link? j := by
  by_cases h : j = i
  · subst h
    rw [FileSystem.link?, node_update_self, FileSystem.link?, Option.bind_map]
    exact congrArg _ (funext hf)
  · rw [FileSystem.link?, node_update_of_ne h, FileSystem.link?]

theorem content?_update (hf : j = i → ∀ node, (f node).content? = node.content?) :
    (fs.update i f).content? j = fs.content? j := by
  by_cases h : j = i
  · subst h
    rw [FileSystem.content?, node_update_self, FileSystem.content?, Option.bind_map]
    exact congrArg _ (funext (hf rfl))
  · rw [FileSystem.content?, node_update_of_ne h, FileSystem.content?]

theorem entry_congr {d : Inode} (h : fs'.entries? d = fs.entries? d) (n : Name) :
    fs'.entry d n = fs.entry d n := by
  rw [FileSystem.entry, FileSystem.entry, h]

theorem entry_unlink {parent : Inode} {name : Name} {d : Inode} {n : Name}
    (h : (d, n) ≠ (parent, name)) : (fs.unlink parent name).entry d n = fs.entry d n := by
  by_cases hd : d = parent
  · subst hd
    have hn : n ≠ name := fun heq => h (heq ▸ rfl)
    rw [FileSystem.entry, FileSystem.entry, FileSystem.unlink, entries?_update_self,
      FileSystem.entries?]
    cases fs.node d with
    | none => rfl
    | some node =>
        cases node with
        | directory entries =>
            simp only [Option.map_some, Option.bind_some, Node.without, Node.entries?,
              lookup_filter_ne, if_neg hn]
        | regular => rfl
        | link => rfl
        | special => rfl
  · exact entry_congr (entries?_update_of_ne hd) n

theorem unlinked_unlink {parent : Inode} {name : Name} {target : Option Inode}
    (h : fs.entry parent name = .ok target) : Unlinked fs (fs.unlink parent name) parent name where
  root := rfl
  gone := by
    rw [FileSystem.entry, FileSystem.unlink, entries?_update_self]
    rw [FileSystem.entry, FileSystem.entries?] at h
    cases hnode : fs.node parent with
    | none => simp [hnode] at h
    | some node =>
        cases node with
        | directory entries =>
            simp only [Option.map_some, Option.bind_some, Node.without, Node.entries?,
              lookup_filter_ne, if_pos]
        | regular => simp [hnode, Node.entries?] at h
        | link => simp [hnode, Node.entries?] at h
        | special => simp [hnode, Node.entries?] at h
  entry := fun _ _ hne => entry_unlink hne
  link := link?_update fun node => by cases node <;> rfl

theorem unlink_keeps {parent : Inode} {name : Name} {looked : List (Inode × Name)}
    (h : (parent, name) ∉ looked) : Keeps fs (fs.unlink parent name) looked where
  root := rfl
  entry := fun d n hmem => entry_unlink fun heq => h (heq ▸ hmem)
  link := link?_update fun node => by cases node <;> rfl

theorem content?_unlink (parent : Inode) (name : Name) (j : Inode) :
    (fs.unlink parent name).content? j = fs.content? j :=
  content?_update fun _ node => by cases node <;> rfl

theorem setContent_keeps (i : Inode) (content : γ) (looked : List (Inode × Name)) :
    Keeps fs (fs.setContent i content) looked where
  root := rfl
  entry := by
    intro d n _
    refine entry_congr ?_ n
    by_cases hd : d = i
    · subst hd
      rw [FileSystem.setContent, entries?_update_self, FileSystem.entries?, Option.bind_map]
      exact congrArg _ (funext fun node => by cases node <;> rfl)
    · exact entries?_update_of_ne hd
  link := link?_update fun node => by cases node <;> rfl

theorem content?_setContent {content : γ} (h : j ≠ i) :
    (fs.setContent i content).content? j = fs.content? j :=
  content?_update fun heq => absurd heq h

theorem content?_setContent_self (content : γ) :
    (fs.setContent i content).content? i = (fs.content? i).map fun _ => content := by
  rw [FileSystem.content?, FileSystem.setContent, node_update_self, FileSystem.content?]
  cases fs.node i with
  | none => rfl
  | some node => cases node <;> rfl

theorem lt_fresh {content : γ} (h : fs.content? j = some content) : j < fs.fresh := by
  by_contra hle
  rw [FileSystem.content?, fs.unused j (Nat.le_of_not_lt hle)] at h
  cases h

theorem node_create_of_ne {parent : Inode} {name : Name} {content : γ} (h : j ≠ fs.fresh) :
    (fs.create parent name content).node j =
      (fs.update parent (.withEntry name fs.fresh)).node j :=
  Function.update_of_ne h _ _

theorem node_create_self {parent : Inode} {name : Name} {content : γ} :
    (fs.create parent name content).node fs.fresh = some (.regular content) :=
  Function.update_self _ _ _

theorem content?_create {parent : Inode} {name : Name} {content : γ} (h : j ≠ fs.fresh) :
    (fs.create parent name content).content? j = fs.content? j := by
  have hupdate : (fs.update parent (.withEntry name fs.fresh)).content? j = fs.content? j :=
    content?_update fun _ node => by cases node <;> rfl
  rw [← hupdate, FileSystem.content?, node_create_of_ne h]
  rfl

theorem create_keeps {parent : Inode} {name : Name} {content : γ} {looked : List (Inode × Name)}
    (hnone : fs.entry parent name = .ok none)
    (hpresent : ∀ entry ∈ looked, ∃ i, fs.entry entry.1 entry.2 = .ok (some i)) :
    Keeps fs (fs.create parent name content) looked where
  root := rfl
  entry := by
    intro d n hmem
    obtain ⟨i, hi⟩ := hpresent _ hmem
    have hfresh : d ≠ fs.fresh := by
      rintro rfl
      rw [FileSystem.entry, FileSystem.entries?, fs.unused _ (Nat.le_refl _)] at hi
      cases hi
    have hnode : (fs.create parent name content).entries? d =
        (fs.update parent (.withEntry name fs.fresh)).entries? d := by
      rw [FileSystem.entries?, node_create_of_ne hfresh]
      rfl
    by_cases hd : d = parent
    · subst hd
      have hn : n ≠ name := by
        rintro rfl
        rw [hnone] at hi
        cases hi
      rw [FileSystem.entry, hnode, entries?_update_self, FileSystem.entry, FileSystem.entries?]
      cases fs.node d with
      | none => rfl
      | some node =>
          cases node with
          | directory entries =>
              have hbeq : (n == name) = false := beq_false_of_ne hn
              simp only [Option.map_some, Option.bind_some, Node.withEntry, Node.entries?,
                List.lookup_cons, hbeq]
          | regular => rfl
          | link => rfl
          | special => rfl
    · exact entry_congr (hnode.trans (entries?_update_of_ne hd)) n
  link := by
    intro j
    have hupdate : (fs.update parent (.withEntry name fs.fresh)).link? j = fs.link? j :=
      link?_update (fun node => by cases node <;> rfl) j
    by_cases hj : j = fs.fresh
    · subst hj
      rw [FileSystem.link?, node_create_self, FileSystem.link?, fs.unused _ (Nat.le_refl _)]
      rfl
    · rw [← hupdate, FileSystem.link?, node_create_of_ne hj]
      rfl

end Changes

/-! ## Removing and opening -/

section Operations

variable {γ : Type*} {fs fs' : FileSystem γ} {path : Path} {o : Inode} {empty : γ}
  {looked : List (Inode × Name)}

theorem exists_location {i : Inode} (h : fs.resolve path = .ok i) :
    ∃ l, fs.locate true path = .ok l ∧ l.inode = some i := by
  rw [FileSystem.resolve] at h
  cases hl : fs.locate true path with
  | error e => simp [hl] at h
  | ok l =>
      simp only [hl] at h
      cases hi : l.inode with
      | none => simp [hi] at h
      | some j =>
          simp only [hi] at h
          obtain rfl := Except.ok.inj h
          exact ⟨l, rfl, hi⟩

theorem Keeps.resolve {l : Location} {i : Inode} (hl : fs.locate true path = .ok l)
    (hi : l.inode = some i) (h : Keeps fs fs' l.looked) : fs'.resolve path = .ok i := by
  simp [FileSystem.resolve, Keeps.locate hl h, hi]

inductive Removed (fs : FileSystem γ) (path : Path) : FileSystem γ → Prop
  | nothing (missing : ∀ l, fs.locate false path = .ok l → l.inode = none) : Removed fs path fs
  | unlinked {l : Location} (located : fs.locate false path = .ok l) (name : l.name ≠ ".") :
      Removed fs path (fs.unlink l.directory l.name)

theorem removed_of_eq (h : fs.remove path = .ok fs') : Removed fs path fs' := by
  rw [FileSystem.remove] at h
  cases hlocate : fs.locate false path with
  | error e =>
      have hsame : fs' = fs := by
        cases e <;> simp_all
      subst hsame
      exact .nothing fun l hl => by simp [hlocate] at hl
  | ok l =>
      simp only [hlocate] at h
      cases hinode : l.inode with
      | none =>
          simp only [hinode] at h
          obtain rfl := Except.ok.inj h
          apply Removed.nothing
          intro l' hl'
          obtain rfl : l = l' := Except.ok.inj (hlocate.symm.trans hl')
          exact hinode
      | some i =>
          simp only [hinode] at h
          split_ifs at h with hname
          have hunlink : fs' = fs.unlink l.directory l.name := by
            split at h
            · split_ifs at h with hempty
              exact (Except.ok.inj h).symm
            · exact (Except.ok.inj h).symm
          subst hunlink
          exact .unlinked hlocate fun heq => hname (Or.inl heq)

inductive Opened (fs : FileSystem γ) (path : Path) (empty : γ) : Inode → FileSystem γ → Prop
  | created {l : Location} (located : fs.locate true path = .ok l) (missing : l.inode = none) :
      Opened fs path empty fs.fresh (fs.create l.directory l.name empty)
  | emptied {o : Inode} (resolved : fs.resolve path = .ok o) :
      Opened fs path empty o (fs.setContent o empty)
  | special {o : Inode} (resolved : fs.resolve path = .ok o) : Opened fs path empty o fs

theorem opened_of_eq (h : fs.openWrite path empty = .ok (o, fs')) : Opened fs path empty o fs' := by
  rw [FileSystem.openWrite] at h
  cases hlocate : fs.locate true path with
  | error e => simp [hlocate] at h
  | ok l =>
      simp only [hlocate] at h
      cases hinode : l.inode with
      | none =>
          simp only [hinode] at h
          obtain ⟨rfl, rfl⟩ := Prod.mk.inj (Except.ok.inj h)
          exact .created hlocate hinode
      | some i =>
          have hresolve : fs.resolve path = .ok i := by simp [FileSystem.resolve, hlocate, hinode]
          simp only [hinode] at h
          cases hnode : fs.node i with
          | none => simp [hnode] at h
          | some node =>
              cases node with
              | regular content =>
                  simp only [hnode] at h
                  obtain ⟨rfl, rfl⟩ := Prod.mk.inj (Except.ok.inj h)
                  exact .emptied hresolve
              | special =>
                  simp only [hnode] at h
                  obtain ⟨rfl, rfl⟩ := Prod.mk.inj (Except.ok.inj h)
                  exact .special hresolve
              | directory entries => simp [hnode] at h
              | link absolute components => simp [hnode] at h

theorem eq_of_content?_openWrite (h : fs.openWrite path empty = .ok (o, fs')) {content : γ}
    (hcontent : fs'.content? o = some content) : content = empty := by
  rw [FileSystem.openWrite] at h
  split at h
  · cases h
  · split at h
    · obtain ⟨rfl, rfl⟩ := Prod.mk.inj (Except.ok.inj h)
      rw [FileSystem.content?, node_create_self] at hcontent
      exact (Option.some.inj hcontent).symm
    · split at h
      · obtain ⟨rfl, rfl⟩ := Prod.mk.inj (Except.ok.inj h)
        rw [content?_setContent_self] at hcontent
        obtain ⟨-, -, rfl⟩ := Option.map_eq_some_iff.mp hcontent
        rfl
      case h_2 hspecial =>
        obtain ⟨rfl, rfl⟩ := Prod.mk.inj (Except.ok.inj h)
        rw [FileSystem.content?, hspecial] at hcontent
        cases hcontent
      · cases h
      · cases h
      · cases h

theorem Removed.resolve_ne (h : Removed fs path fs') (i : Inode) (hi : fs.resolve path = .ok i) :
    ∀ j, fs'.resolve path ≠ .ok j := by
  obtain ⟨l, hl, hinode⟩ := exists_location hi
  obtain ⟨l₀, hl₀, hinode₀⟩ := locateWithin_unfollowed hl (by simp [hinode])
  cases h with
  | nothing hmissing => exact absurd (hmissing l₀ hl₀) hinode₀
  | @unlinked l₁ hlocated hname =>
      intro j hj
      have hentry := (locateWithin_entry hlocated).resolve_left fun h => hname h.1
      have hgone := unlinked_unlink hentry
      rw [FileSystem.resolve] at hj
      cases hl' : (fs.unlink l₁.directory l₁.name).locate true path with
      | error e => simp [hl'] at hj
      | ok l' =>
          have hnone : l'.inode = none := hgone.locateWithin hname hlocated ⟨rfl, rfl⟩ hl'
          simp [hl', hnone] at hj

theorem Removed.keeps (h : Removed fs path fs')
    (hapart : ∀ l, fs.locate false path = .ok l → (l.directory, l.name) ∉ looked) :
    Keeps fs fs' looked ∧ ∀ i, fs'.content? i = fs.content? i := by
  cases h with
  | nothing => exact ⟨.refl fs looked, fun _ => rfl⟩
  | unlinked hlocated => exact ⟨unlink_keeps (hapart _ hlocated), content?_unlink _ _⟩

theorem Opened.keeps (h : Opened fs path empty o fs')
    (hpresent : ∀ entry ∈ looked, ∃ i, fs.entry entry.1 entry.2 = .ok (some i)) :
    Keeps fs fs' looked ∧ ∀ i, i ≠ o → fs'.content? i = fs.content? i := by
  cases h with
  | @created l hlocated hmissing =>
      have hentry : fs.entry l.directory l.name = .ok none :=
        hmissing ▸ (locateWithin_entry hlocated).resolve_left fun h => h.2 hmissing
      exact ⟨create_keeps hentry hpresent, fun i hi => content?_create hi⟩
  | emptied => exact ⟨setContent_keeps _ _ _, fun i hi => content?_setContent hi⟩
  | special => exact ⟨.refl fs looked, fun _ _ => rfl⟩

end Operations

/-! ## Finding again what was opened -/

section ReadBack

variable {γ : Type*} {fs fs' : FileSystem γ} {path : Path} {l : Location} {directory : Inode}
  {parent o : Inode} {name : Name} {content : γ}

/-- A missing entry now names an inode that is no link; what was there is kept. -/
structure Created (fs fs' : FileSystem γ) (parent : Inode) (name : Name) (o : Inode) : Prop where
  root : fs'.root = fs.root
  entry : fs'.entry parent name = .ok (some o)
  kept : ∀ d n i, fs.entry d n = .ok (some i) → fs'.entry d n = .ok (some i)
  link : ∀ i, fs'.link? i = fs.link? i
  plain : fs'.link? o = none

theorem Created.locateWith {jump jump' : Inode → List Name → Except Errno Location}
    (hfs : Created fs fs' parent name o)
    (hjump : ∀ d p l, jump d p = .ok l → l.inode = none →
      l.directory = parent ∧ l.name = name → jump' d p = .ok { l with inode := some o })
    (h : fs.locateWith true jump directory path = .ok l) (hnone : l.inode = none)
    (hl : l.directory = parent ∧ l.name = name) :
    fs'.locateWith true jump' directory path = .ok { l with inode := some o } := by
  induction path generalizing directory l with
  | nil =>
      obtain rfl := Except.ok.inj h
      cases hnone
  | cons first rest ih =>
      rw [locateWith_eq_ok_iff] at h ⊢
      cases h with
      | missing =>
          obtain ⟨rfl, rfl⟩ := hl
          exact .last hfs.entry (.inl hfs.plain)
      | last => cases hnone
      | @link _ _ i absolute components l hentry hlink hfollowed hjumped =>
          have hjumped' := hjump _ _ _ hjumped hnone hl
          rw [← hfs.root] at hjumped'
          exact .link (hfs.kept _ _ _ hentry) ((hfs.link i).trans hlink) hfollowed hjumped'
      | down hentry hlink hmore hwalked =>
          exact .down (hfs.kept _ _ _ hentry) ((hfs.link _).trans hlink) hmore
            (ih hwalked hnone hl)

theorem Created.locateWithin {budget : ℕ} (hfs : Created fs fs' parent name o)
    (h : fs.locateWithin true budget directory path = .ok l) (hnone : l.inode = none)
    (hl : l.directory = parent ∧ l.name = name) :
    fs'.locateWithin true budget directory path = .ok { l with inode := some o } := by
  induction budget generalizing directory path l with
  | zero => exact hfs.locateWith (fun _ _ _ h => by cases h) h hnone hl
  | succ budget ih => exact hfs.locateWith (fun _ _ _ h hnone hl => ih h hnone hl) h hnone hl

theorem entry_create (h : fs.entry parent name = .ok none) :
    (fs.create parent name content).entry parent name = .ok (some fs.fresh) := by
  have hparent : parent ≠ fs.fresh := by
    rintro rfl
    rw [FileSystem.entry, FileSystem.entries?, fs.unused _ (Nat.le_refl _)] at h
    cases h
  rw [FileSystem.entry, FileSystem.entries?] at h
  rw [FileSystem.entry, FileSystem.entries?, node_create_of_ne hparent, node_update_self]
  cases hnode : fs.node parent with
  | none => simp [hnode] at h
  | some node =>
      cases node with
      | directory entries => simp [Node.withEntry, Node.entries?]
      | regular => simp [hnode, Node.entries?] at h
      | link => simp [hnode, Node.entries?] at h
      | special => simp [hnode, Node.entries?] at h

theorem created_create (h : fs.entry parent name = .ok none) :
    Created fs (fs.create parent name content) parent name fs.fresh where
  root := rfl
  entry := entry_create h
  kept := by
    intro d n i hentry
    have hkeeps : Keeps fs (fs.create parent name content) [(d, n)] :=
      create_keeps h (List.forall_mem_singleton.mpr ⟨i, hentry⟩)
    exact (hkeeps.entry d n (List.mem_singleton_self _)).trans hentry
  link := (create_keeps h fun _ hentry => absurd hentry List.not_mem_nil).link
  plain := by
    rw [FileSystem.link?, node_create_self]
    rfl

/-- After a path has been opened for writing, it names the opened file. -/
theorem Opened.resolve (h : Opened fs path content o fs') : fs'.resolve path = .ok o := by
  cases h with
  | @created l hlocated hmissing =>
      have hentry : fs.entry l.directory l.name = .ok none :=
        hmissing ▸ (locateWithin_entry hlocated).resolve_left fun h => h.2 hmissing
      have hlocated' : (fs.create l.directory l.name content).locate true path =
          .ok { l with inode := some fs.fresh } :=
        (created_create hentry).locateWithin hlocated hmissing ⟨rfl, rfl⟩
      simp [FileSystem.resolve, hlocated']
  | emptied hresolved =>
      obtain ⟨l, hl, hi⟩ := exists_location hresolved
      exact (setContent_keeps o content l.looked).resolve hl hi
  | special hresolved => exact hresolved

end ReadBack

end VeeamSignature.Files
