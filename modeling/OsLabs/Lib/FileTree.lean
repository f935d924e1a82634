/-
# A file system that does not change, and the resolution of paths in it

A `FileTree` is a directory with its entries in the order in which `readdir` lists them, a
symbolic link with the path it holds, or a file of another type.  A node is named by its
location: the names that lead to it from the root.  The current directory of a process is a
location too.

`walk` resolves a path as the system does: component by component, with search permission
checked in each directory, `.` and `..`, symbolic links followed (all of them but the last
component of a path that is not to be followed), at most 40 of them, and a trailing slash that
stands for "and it is a directory".  Paths are byte strings, shorter than PATH_MAX.

The lemmas say how the resolution of a path changes when a slash (`walk_append_slash`) or a
slash and a name (`walk_append_name`) is put behind it.
-/
import Mathlib.Data.List.Basic
import Mathlib.Tactic.Common

namespace OsLabs

/-! ## 1. Trees -/

abbrev Bytes : Type := List UInt8

/-- The name of a directory entry. -/
abbrev Name : Type := Bytes

/-- The location of a node: the names on the way to it from the root. -/
abbrev Loc : Type := List Name

/-- The file types that `st_mode` distinguishes. -/
inductive Mode
  | reg | dir | blk | chr | fifo | lnk | sock
deriving DecidableEq, Repr

/-- The types of the nodes that are neither directories nor symbolic links. -/
inductive Kind
  | reg | blk | chr | fifo | sock
deriving DecidableEq, Repr

def Kind.mode : Kind → Mode
  | .reg => .reg
  | .blk => .blk
  | .chr => .chr
  | .fifo => .fifo
  | .sock => .sock

/-- What `lstat` says of a node: its inode number and its type. -/
structure Stat where
  ino : Nat
  mode : Mode
deriving DecidableEq, Repr

/-- A node with what is below it.  A directory has its read and search permissions. -/
inductive FileTree
  | file (ino : Nat) (kind : Kind)
  | link (ino : Nat) (target : Bytes)
  | dir (ino : Nat) (readable searchable : Bool) (entries : List (Name × FileTree))

namespace FileTree

def stat : FileTree → Stat
  | .file ino kind => ⟨ino, kind.mode⟩
  | .link ino _ => ⟨ino, .lnk⟩
  | .dir ino _ _ _ => ⟨ino, .dir⟩

def isDir : FileTree → Bool
  | .dir _ _ _ _ => true
  | _ => false

def isSearchable : FileTree → Bool
  | .dir _ _ x _ => x
  | _ => false

/-- The entry of a directory under a name. -/
def entry (n : Name) : List (Name × FileTree) → Option FileTree
  | [] => none
  | (m, t) :: es => if m = n then some t else entry n es

def child (n : Name) : FileTree → Option FileTree
  | .dir _ _ _ es => entry n es
  | _ => none

/-- The node at a location below this one. -/
def at? (t : FileTree) : Loc → Option FileTree
  | [] => some t
  | n :: loc => (t.child n).bind fun u => u.at? loc

def slash : UInt8 := 47

def dot : UInt8 := 46

def NAME_MAX : Nat := 255

/-- What can be the name of an entry, apart from `.` and `..`. -/
structure ValidName (n : Name) : Prop where
  ne_nil : n ≠ []
  no_slash : slash ∉ n
  no_nul : (0 : UInt8) ∉ n
  ne_dot : n ≠ [dot]
  ne_dotdot : n ≠ [dot, dot]
  length_le : n.length ≤ NAME_MAX

/-- A property of a node that every node below it has too. -/
inductive Everywhere (P : FileTree → Prop) : FileTree → Prop
  | file {ino : Nat} {kind : Kind} : P (.file ino kind) → Everywhere P (.file ino kind)
  | link {ino : Nat} {target : Bytes} : P (.link ino target) → Everywhere P (.link ino target)
  | dir {ino : Nat} {r x : Bool} {es : List (Name × FileTree)} : P (.dir ino r x es) →
      (∀ e ∈ es, Everywhere P e.2) → Everywhere P (.dir ino r x es)

/-- The names of a directory are valid and distinct. -/
def NamesOk : FileTree → Prop
  | .dir _ _ _ es => (es.map Prod.fst).Nodup ∧ ∀ e ∈ es, ValidName e.1
  | _ => True

/-- A directory can be opened and entered. -/
def Accessible : FileTree → Prop
  | .dir _ r x _ => r = true ∧ x = true
  | _ => True

variable {P : FileTree → Prop} {t u : FileTree} {loc l : Loc} {n : Name}

theorem Everywhere.self (h : Everywhere P t) : P t := by
  cases h with
  | file h => exact h
  | link h => exact h
  | dir h _ => exact h

theorem mem_of_entry {es : List (Name × FileTree)} (h : entry n es = some t) : (n, t) ∈ es := by
  induction es with
  | nil => simp [entry] at h
  | cons e es ih =>
    obtain ⟨m, u⟩ := e
    rw [entry] at h
    split at h
    · rename_i hm
      rw [Option.some.injEq] at h
      simp [hm, h]
    · exact List.mem_cons_of_mem _ (ih h)

theorem entry_of_mem {es : List (Name × FileTree)} (hnd : (es.map Prod.fst).Nodup)
    (h : (n, t) ∈ es) : entry n es = some t := by
  induction es with
  | nil => simp at h
  | cons e es ih =>
    obtain ⟨m, u⟩ := e
    rw [List.map_cons, List.nodup_cons] at hnd
    rw [entry]
    rcases List.mem_cons.mp h with heq | hin
    · rw [Prod.mk.injEq] at heq
      simp [heq]
    · have hne : m ≠ n := by
        rintro rfl
        exact hnd.1 (List.mem_map.mpr ⟨(m, t), hin, rfl⟩)
      rw [if_neg hne]
      exact ih hnd.2 hin

theorem Everywhere.child (h : Everywhere P t) (hc : t.child n = some u) : Everywhere P u := by
  cases h with
  | file _ => simp [FileTree.child] at hc
  | link _ => simp [FileTree.child] at hc
  | dir _ hes => exact hes (n, u) (mem_of_entry hc)

theorem Everywhere.at? (h : Everywhere P t) (hl : t.at? loc = some u) : Everywhere P u := by
  induction loc generalizing t with
  | nil =>
    rw [FileTree.at?, Option.some.injEq] at hl
    exact hl ▸ h
  | cons n loc ih =>
    obtain ⟨v, hv, hu⟩ := Option.bind_eq_some_iff.mp hl
    exact ih (h.child hv) hu

theorem at?_append (t : FileTree) (loc l : Loc) :
    t.at? (loc ++ l) = (t.at? loc).bind fun u => u.at? l := by
  induction loc generalizing t with
  | nil => rfl
  | cons n loc ih =>
    rw [List.cons_append, at?, at?, Option.bind_assoc]
    exact congrArg _ (funext fun u => ih u)

theorem at?_child (h : t.at? loc = some u) (n : Name) : t.at? (loc ++ [n]) = u.child n := by
  rw [at?_append, h]
  simp [at?]

end FileTree

/-- **A file system**: a root directory, with valid names throughout. -/
structure FileSystem where
  root : FileTree
  root_isDir : root.isDir = true
  namesOk : root.Everywhere FileTree.NamesOk

/-! ## 2. Paths -/

open FileTree (slash dot)

/-- A component of a path; `slash` is a slash at its end. -/
inductive Comp
  | dot
  | dotdot
  | name (n : Name)
  | slash
deriving DecidableEq, Repr

def toComp (n : Name) : Comp :=
  if n = [dot] then .dot else if n = [dot, dot] then .dotdot else .name n

/-- The stretches of a path between slashes; `acc` is what has been read of the first. -/
def segments (acc : Name) : Bytes → List Name
  | [] => if acc = [] then [] else [acc]
  | c :: cs =>
    if c = slash then (if acc = [] then [] else [acc]) ++ segments [] cs
    else segments (acc ++ [c]) cs

def components (path : Bytes) : List Comp :=
  (segments [] path).map toComp ++ if path.getLast? = some slash then [.slash] else []

theorem segments_append_slash (acc : Name) (path : Bytes) :
    segments acc (path ++ [slash]) = segments acc path := by
  induction path generalizing acc with
  | nil => simp [segments]
  | cons c cs ih =>
    rw [List.cons_append, segments, segments]
    split
    · rw [ih]
    · exact ih _

theorem segments_of_no_slash {acc n : Name} (h : slash ∉ n) (hne : acc ++ n ≠ []) :
    segments acc n = [acc ++ n] := by
  induction n generalizing acc with
  | nil => simpa [segments] using hne
  | cons c cs ih =>
    obtain ⟨hc, hcs⟩ := not_or.mp (mt List.mem_cons.mpr h)
    rw [segments, if_neg (Ne.symm hc), ih hcs (by simp)]
    simp

theorem segments_append_name {acc n : Name} (h : slash ∉ n) (hne : n ≠ []) (path : Bytes) :
    segments acc (path ++ slash :: n) = segments acc path ++ [n] := by
  induction path generalizing acc with
  | nil =>
    have hn : segments [] n = [n] := segments_of_no_slash h hne
    simp [segments, hn]
  | cons c cs ih =>
    rw [List.cons_append, segments, segments]
    split
    · rw [ih, List.append_assoc]
    · exact ih

theorem components_append_slash (path : Bytes) :
    components (path ++ [slash]) = (segments [] path).map toComp ++ [.slash] := by
  simp [components, segments_append_slash]

theorem toComp_valid {n : Name} (h : FileTree.ValidName n) : toComp n = .name n := by
  rw [toComp, if_neg h.ne_dot, if_neg h.ne_dotdot]

theorem getLast?_valid {n : Name} (h : FileTree.ValidName n) : n.getLast? ≠ some slash := fun hl =>
  h.no_slash (List.mem_of_getLast? hl)

theorem components_append_name {n : Name} (h : FileTree.ValidName n) (path : Bytes) :
    components (path ++ slash :: n) = (segments [] path).map toComp ++ [.name n] := by
  have hlast : (path ++ slash :: n).getLast? ≠ some slash := by
    obtain ⟨c, hc⟩ : ∃ c, n.getLast? = some c := by
      cases hn : n.getLast? with
      | none => exact absurd (List.getLast?_eq_none_iff.mp hn) h.ne_nil
      | some c => exact ⟨c, rfl⟩
    have hlast' : (path ++ slash :: n).getLast? = n.getLast? := by
      rw [List.getLast?_append, List.getLast?_cons, hc]
      simp
    rw [hlast']
    exact getLast?_valid h
  rw [components, if_neg hlast, segments_append_name h.no_slash h.ne_nil, List.map_append,
    List.append_nil]
  simp [toComp_valid h]

theorem components_valid {n : Name} (h : FileTree.ValidName n) : components n = [.name n] := by
  rw [components, if_neg (getLast?_valid h),
    segments_of_no_slash h.no_slash (by simpa using h.ne_nil)]
  simp [toComp_valid h]

/-! ## 3. Resolution -/

namespace FileSystem

variable (fs : FileSystem)

def isDir (loc : Loc) : Bool := (fs.root.at? loc).any FileTree.isDir

def searchable (loc : Loc) : Bool := (fs.root.at? loc).any FileTree.isSearchable

/-- Where a path starts. -/
def startOf (cwd : Loc) (path : Bytes) : Loc := if path.head? = some slash then [] else cwd

/-- Resolve the components from `cur` on.  `follow dir target rest` goes on behind a symbolic
link that holds `target`. -/
def walkWith (follow : Loc → Bytes → List Comp → Option Loc) (nofollow : Bool) :
    Loc → List Comp → Option Loc
  | cur, [] => some cur
  | cur, .slash :: cs => if fs.isDir cur then walkWith follow nofollow cur cs else none
  | cur, .dot :: cs => if fs.searchable cur then walkWith follow nofollow cur cs else none
  | cur, .dotdot :: cs =>
    if fs.searchable cur then walkWith follow nofollow cur.dropLast cs else none
  | cur, .name n :: cs =>
    if fs.searchable cur then
      match fs.root.at? (cur ++ [n]) with
      | none => none
      | some (.link _ target) =>
        if cs = [] ∧ nofollow = true then some (cur ++ [n]) else follow cur target cs
      | some _ => walkWith follow nofollow (cur ++ [n]) cs
    else none

/-- Resolution with at most `links` symbolic links followed. -/
def walk : Nat → Bool → Loc → List Comp → Option Loc
  | 0, nofollow => fs.walkWith (fun _ _ _ => none) nofollow
  | links + 1, nofollow =>
    fs.walkWith (fun cur target cs =>
      if target = [] then none
      else walk links nofollow (startOf cur target) (components target ++ cs)) nofollow

def PATH_MAX : Nat := 4096

def MAXSYMLINKS : Nat := 40

/-- The location a path leads to; with `nofollow`, a symbolic link at its end is the result. -/
def resolve (cwd : Loc) (nofollow : Bool) (path : Bytes) : Option Loc :=
  if path = [] ∨ PATH_MAX ≤ path.length then none
  else fs.walk MAXSYMLINKS nofollow (startOf cwd path) (components path)

/-- `lstat`: the node and what is said of it. -/
def lstat (cwd : Loc) (path : Bytes) : Option (Loc × Stat) :=
  (fs.resolve cwd true path).bind fun loc => (fs.root.at? loc).map fun t => (loc, t.stat)

/-- `opendir`, and the names that `readdir` lists until it returns NULL. -/
def opendir (cwd : Loc) (path : Bytes) : Option (List Name) :=
  (fs.resolve cwd false path).bind fun loc =>
    match fs.root.at? loc with
    | some (.dir _ true _ es) => some ([dot] :: [dot, dot] :: es.map Prod.fst)
    | _ => none

/-- `chdir`: the new current directory. -/
def chdir (cwd : Loc) (path : Bytes) : Option Loc :=
  (fs.resolve cwd false path).bind fun loc => if fs.searchable loc then some loc else none

/-! ## 4. Paths made longer -/

variable {fs} {cur cwd d loc : Loc} {cs tail : List Comp} {links : Nat} {nf nf' : Bool}
  {path : Bytes} {n : Name} {t u : FileTree}

/-- What `walk` does behind a symbolic link. -/
def followLink (fs : FileSystem) : Nat → Bool → Loc → Bytes → List Comp → Option Loc
  | 0, _, _, _, _ => none
  | links + 1, nofollow, cur, target, cs =>
    if target = [] then none
    else fs.walk links nofollow (startOf cur target) (components target ++ cs)

theorem walk_eq (fs : FileSystem) (links : Nat) (nf : Bool) :
    fs.walk links nf = fs.walkWith (fs.followLink links nf) nf := by
  cases links <;> rfl

/-- A path that ends with a slash leads to a directory, and leads there without the slash when
symbolic links are followed. -/
theorem walkWith_of_slash {follow follow' : Loc → Bytes → List Comp → Option Loc}
    (hfollow : ∀ cur target cs, follow cur target (cs ++ [.slash]) = some d →
      follow' cur target cs = some d ∧ fs.isDir d = true)
    (h : fs.walkWith follow nf cur (cs ++ [.slash]) = some d) :
    fs.walkWith follow' false cur cs = some d ∧ fs.isDir d = true := by
  induction cs generalizing cur with
  | nil =>
    rw [List.nil_append, walkWith] at h
    split at h
    · rename_i hdir
      rw [walkWith, Option.some.injEq] at h
      exact ⟨by rw [walkWith, h], h ▸ hdir⟩
    · simp at h
  | cons c cs ih =>
    cases c with
    | name n =>
      rw [List.cons_append, walkWith] at h
      rw [walkWith]
      split at h
      · rename_i hs
        rw [if_pos hs]
        cases hat : fs.root.at? (cur ++ [n]) with
        | none => simp [hat] at h
        | some t =>
          simp only [hat] at h ⊢
          cases t with
          | link ino target =>
            simp only at h ⊢
            rw [if_neg (by simp)] at h ⊢
            exact hfollow _ _ _ h
          | file ino kind => exact ih h
          | dir ino r x es => exact ih h
      · simp at h
    | _ =>
      rw [List.cons_append, walkWith] at h
      rw [walkWith]
      split at h
      · rename_i hs
        rw [if_pos hs]
        exact ih h
      · simp at h

theorem walk_of_slash (links : Nat) : ∀ {cur : Loc} {cs : List Comp},
    fs.walk links nf cur (cs ++ [.slash]) = some d →
      fs.walk links false cur cs = some d ∧ fs.isDir d = true := by
  induction links with
  | zero =>
    intro cur cs h
    exact walkWith_of_slash (fun _ _ _ hnone => by simp at hnone) h
  | succ links ih =>
    intro cur cs h
    rw [walk_eq] at h ⊢
    refine walkWith_of_slash (fun cur target cs hf => ?_) h
    rw [followLink] at hf ⊢
    split at hf
    · simp at hf
    · rename_i hne
      rw [if_neg hne]
      rw [← List.append_assoc] at hf
      exact ih hf

/-- **More components.**  What a path leads to, if it is a directory, is where the rest of a
longer path goes on. -/
theorem walkWith_append {follow follow' : Loc → Bytes → List Comp → Option Loc} {r : Option Loc}
    (hfollow : ∀ cur target cs, follow cur target cs = some d →
      follow' cur target (cs ++ tail) = r)
    (htail : tail = [] → nf' = false) (hend : fs.walkWith follow' nf' d tail = r)
    (hd : fs.isDir d = true) (h : fs.walkWith follow nf cur cs = some d) :
    fs.walkWith follow' nf' cur (cs ++ tail) = r := by
  induction cs generalizing cur with
  | nil =>
    rw [walkWith, Option.some.injEq] at h
    exact h ▸ hend
  | cons c cs ih =>
    cases c with
    | name n =>
      rw [walkWith] at h
      rw [List.cons_append, walkWith]
      split at h
      · rename_i hs
        rw [if_pos hs]
        cases hat : fs.root.at? (cur ++ [n]) with
        | none => simp [hat] at h
        | some t =>
          simp only [hat] at h ⊢
          cases t with
          | link ino target =>
            simp only at h ⊢
            have hnot : ¬ (cs ++ tail = [] ∧ nf' = true) := by
              rintro ⟨hnil, hnf⟩
              simp [htail (List.append_eq_nil_iff.mp hnil).2] at hnf
            rw [if_neg hnot]
            split at h
            · -- a link at the end is no directory
              rw [Option.some.injEq] at h
              simp [isDir, ← h, hat, FileTree.isDir] at hd
            · exact hfollow _ _ _ h
          | file ino kind => exact ih h
          | dir ino r x es => exact ih h
      · simp at h
    | _ =>
      rw [walkWith] at h
      rw [List.cons_append, walkWith]
      split at h
      · rename_i hs
        rw [if_pos hs]
        exact ih h
      · simp at h

theorem walk_append (links : Nat) {r : Option Loc} (htail : tail = [] → nf' = false)
    (hend : ∀ links, fs.walk links nf' d tail = r) (hd : fs.isDir d = true) :
    ∀ {cur : Loc} {cs : List Comp}, fs.walk links nf cur cs = some d →
      fs.walk links nf' cur (cs ++ tail) = r := by
  induction links with
  | zero =>
    intro cur cs h
    exact walkWith_append (fun _ _ _ hnone => by simp at hnone) htail (hend 0) hd h
  | succ links ih =>
    intro cur cs h
    rw [walk_eq] at h ⊢
    refine walkWith_append (fun cur target cs hf => ?_) htail
      (by rw [← walk_eq]; exact hend _) hd h
    rw [followLink] at hf ⊢
    split at hf
    · simp at hf
    · rename_i hne
      rw [if_neg hne, ← List.append_assoc]
      exact ih hf

theorem isDir_of_at? (h : fs.root.at? loc = some t) (ht : t.isDir = true) :
    fs.isDir loc = true := by
  rw [isDir, h]
  exact ht

theorem walk_slash (hd : fs.isDir d = true) (links : Nat) (nf : Bool) :
    fs.walk links nf d [.slash] = some d := by
  rw [walk_eq, walkWith, if_pos hd, walkWith]

/-- Looking up an entry of a directory. -/
theorem walk_name (hs : fs.searchable d = true) (hn : fs.root.at? (d ++ [n]) = some u)
    (hu : nf = true ∨ u.isDir = true) (links : Nat) :
    fs.walk links nf d [.name n] = some (d ++ [n]) := by
  rw [walk_eq, walkWith, if_pos hs, hn]
  cases u with
  | link ino target =>
    rcases hu with hnf | hdir
    · simp [hnf]
    · simp [FileTree.isDir] at hdir
  | file ino kind => simp [walkWith]
  | dir ino r x es => simp [walkWith]

/-! ## 5. The calls on longer paths -/

theorem startOf_append (hne : path ≠ []) (tail : Bytes) :
    startOf cwd (path ++ tail) = startOf cwd path := by
  unfold startOf
  rw [List.head?_append_of_ne_nil _ hne]

theorem resolve_eq (hne : path ≠ []) (hlen : path.length < PATH_MAX) :
    fs.resolve cwd nf path = fs.walk MAXSYMLINKS nf (startOf cwd path) (components path) :=
  if_neg (not_or.mpr ⟨hne, Nat.not_le.mpr hlen⟩)

theorem resolve_cases (h : fs.resolve cwd nf path = some d) :
    (path ≠ [] ∧ path.length < PATH_MAX) ∧
      fs.walk MAXSYMLINKS nf (startOf cwd path) (components path) = some d := by
  unfold resolve at h
  split at h
  · simp at h
  · rename_i hc
    obtain ⟨hne, hlen⟩ := not_or.mp hc
    exact ⟨⟨hne, Nat.not_le.mp hlen⟩, h⟩

theorem lstat_eq_some (h : fs.resolve cwd true path = some loc) (ht : fs.root.at? loc = some t) :
    fs.lstat cwd path = some (loc, t.stat) := by
  rw [lstat, h]
  simp [ht]

theorem lstat_cases {st : Stat} (h : fs.lstat cwd path = some (loc, st)) :
    fs.resolve cwd true path = some loc ∧ ∃ t, fs.root.at? loc = some t ∧ t.stat = st := by
  obtain ⟨loc', hres, h⟩ := Option.bind_eq_some_iff.mp h
  obtain ⟨t, ht, h⟩ := Option.map_eq_some_iff.mp h
  rw [Prod.mk.injEq] at h
  exact ⟨h.1 ▸ hres, t, h.1 ▸ ht, h.2⟩

theorem opendir_eq {ino : Nat} {x : Bool} {es : List (Name × FileTree)}
    (h : fs.resolve cwd false path = some loc)
    (ht : fs.root.at? loc = some (.dir ino true x es)) :
    fs.opendir cwd path = some ([dot] :: [dot, dot] :: es.map Prod.fst) := by
  rw [opendir, h]
  simp [ht]

theorem chdir_eq (h : fs.resolve cwd false path = some loc) (hs : fs.searchable loc = true) :
    fs.chdir cwd path = some loc := by
  rw [chdir, h]
  simp [hs]

/-- The walk along a path with a slash or a slash and a name behind it passes where the path
itself leads to. -/
theorem walk_base (h : fs.resolve cwd nf path = some d) (hd : fs.isDir d = true)
    {r : Option Loc} (hne : tail ≠ []) (hend : ∀ links, fs.walk links nf' d tail = r) :
    fs.walk MAXSYMLINKS nf' (startOf cwd path) ((segments [] path).map toComp ++ tail) = r := by
  obtain ⟨-, hw⟩ := resolve_cases h
  rw [components] at hw
  have htail : tail = [] → nf' = false := fun hnil => absurd hnil hne
  split at hw
  · exact walk_append _ htail hend hd (walk_of_slash _ hw).1
  · rw [List.append_nil] at hw
    exact walk_append _ htail hend hd hw

/-- A directory is found under its path, whether the path is followed or not. -/
theorem resolve_follow (h : fs.resolve cwd true path = some d) (hd : fs.isDir d = true) :
    fs.resolve cwd false path = some d := by
  obtain ⟨⟨hne, hlen⟩, hw⟩ := resolve_cases h
  rw [resolve_eq hne hlen, ← List.append_nil (components path)]
  refine walk_append _ (fun _ => rfl) (fun links => ?_) hd hw
  rw [walk_eq, walkWith]

/-- **A directory is found under its path with a slash.** -/
theorem resolve_append_slash (h : fs.resolve cwd nf path = some d) (hd : fs.isDir d = true)
    (hlen : path.length + 1 < PATH_MAX) : fs.resolve cwd nf' (path ++ [slash]) = some d := by
  obtain ⟨⟨hne, -⟩, -⟩ := resolve_cases h
  rw [resolve_eq (by simp) (by simpa using hlen), startOf_append hne, components_append_slash]
  exact walk_base h hd (by simp) fun links => walk_slash hd links nf'

/-- **An entry of a directory is found under the directory's path, a slash and its name.** -/
theorem resolve_append_name (h : fs.resolve cwd nf path = some d) (ht : fs.root.at? d = some t)
    (hs : t.isSearchable = true) (hn : FileTree.ValidName n) (hc : t.child n = some u)
    (hlen : path.length + 1 + n.length < PATH_MAX) :
    fs.resolve cwd true (path ++ slash :: n) = some (d ++ [n]) := by
  obtain ⟨⟨hne, -⟩, -⟩ := resolve_cases h
  have hd : fs.isDir d = true := by
    cases t with
    | dir ino r x es => exact isDir_of_at? ht rfl
    | _ => simp [FileTree.isSearchable] at hs
  have hsearch : fs.searchable d = true := by
    rw [searchable, ht]
    exact hs
  have hlen' : (path ++ slash :: n).length < PATH_MAX := by
    rw [List.length_append, List.length_cons]
    omega
  rw [resolve_eq (by simp) hlen', startOf_append hne, components_append_name hn]
  exact walk_base h hd (by simp) fun links =>
    walk_name hsearch ((FileTree.at?_child ht n).trans hc) (Or.inl rfl) links

/-- An entry of the current directory is found under its name. -/
theorem resolve_name (ht : fs.root.at? cwd = some t) (hs : t.isSearchable = true)
    (hn : FileTree.ValidName n) (hc : t.child n = some u) (hu : nf = true ∨ u.isDir = true) :
    fs.resolve cwd nf n = some (cwd ++ [n]) := by
  have hlen : n.length < PATH_MAX := Nat.lt_of_le_of_lt hn.length_le (by decide)
  have hstart : startOf cwd n = cwd := by
    refine if_neg fun hhead => hn.no_slash ?_
    exact List.mem_of_head? hhead
  have hsearch : fs.searchable cwd = true := by
    rw [searchable, ht]
    exact hs
  rw [resolve_eq hn.ne_nil hlen, hstart, components_valid hn]
  exact walk_name hsearch ((FileTree.at?_child ht n).trans hc) hu _

/-- And nothing else is found under a name. -/
theorem resolve_name_cases (hn : FileTree.ValidName n) (h : fs.resolve cwd true n = some loc) :
    fs.searchable cwd = true ∧ loc = cwd ++ [n] := by
  have hlen : n.length < PATH_MAX := Nat.lt_of_le_of_lt hn.length_le (by decide)
  have hstart : startOf cwd n = cwd := by
    refine if_neg fun hhead => hn.no_slash ?_
    exact List.mem_of_head? hhead
  rw [resolve_eq hn.ne_nil hlen, hstart, components_valid hn, walk_eq, walkWith] at h
  split at h
  · rename_i hs
    refine ⟨hs, ?_⟩
    split at h
    · exact absurd h (by simp)
    · rw [if_pos ⟨rfl, rfl⟩, Option.some.injEq] at h
      exact h.symm
    · rw [walkWith, Option.some.injEq] at h
      exact h.symm
  · exact absurd h (by simp)

theorem lstat_name_cases {node : Loc × Stat} (hn : FileTree.ValidName n)
    (h : fs.lstat cwd n = some node) : fs.searchable cwd = true ∧ node.1 = cwd ++ [n] :=
  resolve_name_cases hn (lstat_cases h).1

/-- What stands at the place of an entry is found under its name. -/
theorem lstat_name (hs : fs.searchable cwd = true) (hn : FileTree.ValidName n)
    (hat : fs.root.at? (cwd ++ [n]) = some u) : fs.lstat cwd n = some (cwd ++ [n], u.stat) := by
  obtain ⟨t, ht⟩ : ∃ t, fs.root.at? cwd = some t := by
    rw [FileTree.at?_append] at hat
    obtain ⟨t, ht, -⟩ := Option.bind_eq_some_iff.mp hat
    exact ⟨t, ht⟩
  have hsearch : t.isSearchable = true := by
    rw [searchable, ht] at hs
    exact hs
  have hc : t.child n = some u := (FileTree.at?_child ht n).symm.trans hat
  exact lstat_eq_some (resolve_name ht hsearch hn hc (Or.inl rfl)) hat

theorem opendir_cases {names : List Name} (h : fs.opendir cwd path = some names) :
    ∃ loc ino x es, fs.resolve cwd false path = some loc ∧
      fs.root.at? loc = some (.dir ino true x es) ∧
      names = [dot] :: [dot, dot] :: es.map Prod.fst := by
  obtain ⟨loc, hres, h⟩ := Option.bind_eq_some_iff.mp h
  split at h
  · rename_i ino x es hat
    exact ⟨loc, ino, x, es, hres, hat, (Option.some.inj h).symm⟩
  · exact absurd h (by simp)

/-- A directory that cannot be entered. -/
theorem chdir_eq_none (h : fs.resolve cwd false path = some loc)
    (hs : fs.searchable loc = false) : fs.chdir cwd path = none := by
  rw [chdir, h]
  simp [hs]

/-- `..` leads to the directory above. -/
theorem resolve_dotdot (hs : fs.searchable cwd = true) :
    fs.resolve cwd nf [dot, dot] = some cwd.dropLast := by
  have hstart : startOf cwd [dot, dot] = cwd := if_neg (by decide)
  have hcomp : components [dot, dot] = [.dotdot] := by decide
  rw [resolve_eq (by simp) (by decide), hstart, hcomp, walk_eq, walkWith, if_pos hs, walkWith]

end FileSystem

end OsLabs
