/-
# Loading and unloading the modules with a file in /proc

`fortune.c`, `single_file.c` and `seq_file.c` make a directory in /proc, a file in the directory
and a symbolic link beside it, and undo what they have made when a step fails and when they are
unloaded.  They differ in names and in a buffer, and `single_file.c` and `seq_file.c`, which are
built together, have the same names.

`init_module` of one module runs while others load and unload: here the calls to the kernel are
the steps, in any order.  A name that is taken makes a call fail as a lack of memory does, so of
two modules with one name for their directories the first holds it until it has removed the rest
of what it has made.  Whatever is removed belongs to the module that removes it, and an unloaded
module has left nothing (`modules_own_entries`).
-/
import OsLabs.Lib.Machine
import Mathlib.Logic.Function.Basic

namespace OsLabs.Loading

/-! ## 1. The modules -/

/-- What the modules differ in: three names, and whether there is a buffer. -/
structure Image where
  dirname : String
  filename : String
  symlink : String
  buffer : Bool
deriving DecidableEq, Repr

inductive Module
  | fortune | singleFile | seqFile
deriving DecidableEq, Repr

def image : Module → Image
  | .fortune => ⟨"fortuneDir", "fortuneFile", "fortuneLink", true⟩
  | .singleFile => ⟨"seq_dir", "seq_file", "seq_symlink", true⟩
  | .seqFile => ⟨"seq_dir", "seq_file", "seq_symlink", false⟩

/-- The next call of `md_init`, or the next statement of `freeMemory` (`ct_init` and `free_all` in
the other two). -/
inductive Pc
  | unloaded
  | vmalloc | procMkdir | procCreate | procSymlink
  | loaded
  | removeLink | removeFile | removeDir | vfree
deriving DecidableEq, Repr

/-- The globals of a module: which of its pointers are not NULL. -/
structure Globals where
  pc : Pc
  buf : Bool
  dir : Bool
  file : Bool
  link : Bool
deriving DecidableEq, Repr

/-- An entry of /proc, with the module that has made it. -/
inductive Node (ι : Type)
  | dir (m : ι)
  | link (m : ι)
deriving DecidableEq, Repr

structure State (ι : Type) where
  glob : ι → Globals
  /-- the entries of /proc -/
  root : String → Option (Node ι)
  /-- the entries of the directory that the module has made -/
  sub : ι → List String
  /-- blocks of `vmalloc` that are not freed -/
  blocks : ι → Nat
  /-- an entry that `remove_proc_entry` was asked for was not there, was another module's, or was
  a directory that was not empty -/
  warned : Bool

inductive Action (ι : Type)
  | insmod (m : ι)
  | rmmod (m : ι)
  /-- the next step of the module; `ok`: there is memory for it -/
  | run (m : ι) (ok : Bool)
deriving DecidableEq, Repr

def State.init (ι : Type) : State ι where
  glob := fun _ => ⟨.unloaded, false, false, false, false⟩
  root := fun _ => none
  sub := fun _ => []
  blocks := fun _ => 0
  warned := false

namespace State

variable {ι : Type} [DecidableEq ι]

def set (s : State ι) (m : ι) (g : Globals) : State ι :=
  { s with glob := Function.update s.glob m g }

/-- `remove_proc_entry(name, NULL)` -/
def removeEntry (s : State ι) (m : ι) (name : String) : State ι :=
  match s.root name with
  | none => { s with warned := true }
  | some (.dir o) =>
    { s with root := Function.update s.root name none, sub := Function.update s.sub o []
             warned := s.warned || decide (o ≠ m) || decide (s.sub o ≠ []) }
  | some (.link o) =>
    { s with root := Function.update s.root name none, warned := s.warned || decide (o ≠ m) }

/-- `remove_proc_entry(name, dir)`, for the directory of the module. -/
def removeFile (s : State ι) (m : ι) (name : String) : State ι :=
  { s with sub := Function.update s.sub m ((s.sub m).erase name)
           warned := s.warned || decide (name ∉ s.sub m) }

/-- The next step of `md_init` or `freeMemory`. -/
def run (img : Image) (s : State ι) (m : ι) (ok : Bool) : Option (State ι) :=
  let g := s.glob m
  match g.pc with
  | .unloaded | .loaded => none
  | .vmalloc =>
    if ok then
      some { s.set m { g with pc := .procMkdir, buf := true } with
        blocks := Function.update s.blocks m (s.blocks m + 1) }
    else some (s.set m { g with pc := .unloaded })
  | .procMkdir =>
    if ok ∧ s.root img.dirname = none then
      some { s.set m { g with pc := .procCreate, dir := true } with
        root := Function.update s.root img.dirname (some (.dir m)) }
    else some (s.set m { g with pc := .removeLink })
  | .procCreate =>
    if ok ∧ img.filename ∉ s.sub m then
      some { s.set m { g with pc := .procSymlink, file := true } with
        sub := Function.update s.sub m (img.filename :: s.sub m) }
    else some (s.set m { g with pc := .removeLink })
  | .procSymlink =>
    if ok ∧ s.root img.symlink = none then
      some { s.set m { g with pc := .loaded, link := true } with
        root := Function.update s.root img.symlink (some (.link m)) }
    else some (s.set m { g with pc := .removeLink })
  | .removeLink =>
    some ((if g.link then s.removeEntry m img.symlink else s).set m { g with pc := .removeFile })
  | .removeFile =>
    some ((if g.file then s.removeFile m img.filename else s).set m { g with pc := .removeDir })
  | .removeDir =>
    some ((if g.dir then s.removeEntry m img.dirname else s).set m
      { g with pc := if img.buffer then .vfree else .unloaded })
  | .vfree =>
    some { s.set m { g with pc := .unloaded } with
      blocks := Function.update s.blocks m (if g.buf then s.blocks m - 1 else s.blocks m) }

def step (image : ι → Image) (s : State ι) : Action ι → Option (State ι)
  | .insmod m =>
    if (s.glob m).pc = .unloaded then
      some (s.set m
        ⟨if (image m).buffer then .vmalloc else .procMkdir, false, false, false, false⟩)
    else none
  | .rmmod m =>
    if (s.glob m).pc = .loaded then some (s.set m { s.glob m with pc := .removeLink }) else none
  | .run m ok => s.run (image m) m ok

end State

/-- The modules `ι`, loaded and unloaded in any order. -/
def loader {ι : Type} [DecidableEq ι] (image : ι → Image) : Machine (State ι) (Action ι) where
  init := State.init ι
  step := State.step image

/-! ## 2. What a module has -/

section Invariant

/-- The directory is there. -/
def Globals.hasDir (g : Globals) : Prop :=
  g.dir = true ∧ g.pc ∈ [.procCreate, .procSymlink, .loaded, .removeLink, .removeFile, .removeDir]

/-- The file is there. -/
def Globals.hasFile (g : Globals) : Prop :=
  g.file = true ∧ g.pc ∈ [.procSymlink, .loaded, .removeLink, .removeFile]

/-- The link is there. -/
def Globals.hasLink (g : Globals) : Prop := g.link = true ∧ g.pc ∈ [.loaded, .removeLink]

/-- The buffer is there. -/
def Globals.hasBuf (g : Globals) : Prop := g.buf = true ∧ g.pc ∉ [.unloaded, .vmalloc]

instance (g : Globals) : Decidable g.hasFile := inferInstanceAs (Decidable (_ ∧ _))

instance (g : Globals) : Decidable g.hasBuf := inferInstanceAs (Decidable (_ ∧ _))

/-- The pointers that are not NULL, as far as the module has got. -/
structure Globals.Ok (img : Image) (g : Globals) : Prop where
  link_file : g.link = true → g.file = true
  file_dir : g.file = true → g.dir = true
  fresh : g.pc ∈ [.vmalloc, .procMkdir] → g.dir = false
  create : g.pc = .procCreate → g.dir = true ∧ g.file = false
  symlink : g.pc = .procSymlink → g.file = true ∧ g.link = false
  loaded : g.pc = .loaded → g.link = true
  buf : g.pc ∉ [.unloaded, .vmalloc] → (g.buf = true ↔ img.buffer = true)
  vmalloc : g.pc = .vmalloc → img.buffer = true

theorem Globals.Ok.file_of_dir {img : Image} {g : Globals} (h : g.Ok img) (hdir : g.dir = false) :
    g.file = false := by
  by_contra hfile
  exact absurd (h.file_dir (by simpa using hfile)) (by simp [hdir])

theorem Globals.Ok.link_of_file {img : Image} {g : Globals} (h : g.Ok img)
    (hfile : g.file = false) : g.link = false := by
  by_contra hlink
  exact absurd (h.link_file (by simpa using hlink)) (by simp [hfile])

variable {ι : Type} {image : ι → Image} {s s' : State ι} {m : ι}

/-- What is in /proc and in memory is what the module has. -/
structure Own (img : Image) (s : State ι) (m : ι) : Prop where
  ok : (s.glob m).Ok img
  dir : ∀ name, s.root name = some (.dir m) ↔ (s.glob m).hasDir ∧ name = img.dirname
  link : ∀ name, s.root name = some (.link m) ↔ (s.glob m).hasLink ∧ name = img.symlink
  sub : s.sub m = if (s.glob m).hasFile then [img.filename] else []
  blocks : s.blocks m = if (s.glob m).hasBuf then 1 else 0

structure Inv (image : ι → Image) (s : State ι) : Prop where
  own : ∀ m, Own (image m) s m
  warned : s.warned = false

theorem inv_init (image : ι → Image) : Inv image (State.init ι) where
  own m := by
    refine ⟨⟨?_, ?_, ?_, ?_, ?_, ?_, ?_, ?_⟩, ?_, ?_, ?_, ?_⟩ <;>
      simp [State.init, Globals.hasDir, Globals.hasLink, Globals.hasFile, Globals.hasBuf]
  warned := rfl

/-- A step of `m` concerns what `m` has. -/
theorem Inv.change (h : Inv image s) (m : ι) (hglob : ∀ o, o ≠ m → s'.glob o = s.glob o)
    (hdir : ∀ o, o ≠ m → ∀ name, s'.root name = some (.dir o) ↔ s.root name = some (.dir o))
    (hlink : ∀ o, o ≠ m → ∀ name, s'.root name = some (.link o) ↔ s.root name = some (.link o))
    (hsub : ∀ o, o ≠ m → s'.sub o = s.sub o) (hblocks : ∀ o, o ≠ m → s'.blocks o = s.blocks o)
    (hown : Own (image m) s' m) (hwarned : s'.warned = false) : Inv image s' where
  own o := by
    by_cases ho : o = m
    · exact ho ▸ hown
    · have hold := h.own o
      refine ⟨?_, fun name => ?_, fun name => ?_, ?_, ?_⟩
      · rw [hglob o ho]
        exact hold.ok
      · rw [hglob o ho, hdir o ho]
        exact hold.dir name
      · rw [hglob o ho, hlink o ho]
        exact hold.link name
      · rw [hglob o ho, hsub o ho]
        exact hold.sub
      · rw [hglob o ho, hblocks o ho]
        exact hold.blocks
  warned := hwarned

/-- A new entry is nobody else's. -/
theorem update_some_iff {root : String → Option (Node ι)} {n : String} {nd nd' : Node ι}
    (hfree : root n = none) (hne : nd' ≠ nd) (name : String) :
    Function.update root n (some nd) name = some nd' ↔ root name = some nd' := by
  rcases eq_or_ne name n with rfl | hn
  · simp [hfree, Ne.symm hne]
  · rw [Function.update_of_ne hn]

/-- An entry that is gone was nobody else's. -/
theorem update_none_iff {root : String → Option (Node ι)} {n : String} {nd nd' : Node ι}
    (hthere : root n = some nd) (hne : nd' ≠ nd) (name : String) :
    Function.update root n none name = some nd' ↔ root name = some nd' := by
  rcases eq_or_ne name n with rfl | hn
  · simp [hthere, Ne.symm hne]
  · rw [Function.update_of_ne hn]

/-! ## 3. What the steps do to it -/

variable [DecidableEq ι] {g : Globals}

@[simp] theorem set_glob_self (s : State ι) (m : ι) (g : Globals) : (s.set m g).glob m = g := by
  simp [State.set]

theorem set_glob_of_ne (s : State ι) {m o : ι} (g : Globals) (ho : o ≠ m) :
    (s.set m g).glob o = s.glob o := by
  simp [State.set, ho]

/-- The module goes on, and has what it had. -/
theorem Inv.keep (h : Inv image s) (hok : g.Ok (image m))
    (hdir : g.hasDir ↔ (s.glob m).hasDir) (hfile : g.hasFile ↔ (s.glob m).hasFile)
    (hlink : g.hasLink ↔ (s.glob m).hasLink) (hbuf : g.hasBuf ↔ (s.glob m).hasBuf) :
    Inv image (s.set m g) := by
  have hold := h.own m
  refine h.change m (fun o ho => set_glob_of_ne s g ho) (fun _ _ _ => Iff.rfl)
    (fun _ _ _ => Iff.rfl) (fun _ _ => rfl) (fun _ _ => rfl) ⟨?_, ?_, ?_, ?_, ?_⟩ h.warned
  · rw [set_glob_self]
    exact hok
  · rw [set_glob_self, hdir]
    exact hold.dir
  · rw [set_glob_self, hlink]
    exact hold.link
  · simp only [set_glob_self, hfile]
    exact hold.sub
  · simp only [set_glob_self, hbuf]
    exact hold.blocks

/-- The module has a new entry in /proc: its directory, or its link. -/
theorem Inv.addEntry (h : Inv image s) {n : String} {nd : Node ι} (hfree : s.root n = none)
    (hnd : nd = .dir m ∨ nd = .link m) (hok : g.Ok (image m))
    (hdir : ∀ name, (g.hasDir ∧ name = (image m).dirname) ↔
      ((s.glob m).hasDir ∧ name = (image m).dirname) ∨ (nd = .dir m ∧ name = n))
    (hlink : ∀ name, (g.hasLink ∧ name = (image m).symlink) ↔
      ((s.glob m).hasLink ∧ name = (image m).symlink) ∨ (nd = .link m ∧ name = n))
    (hfile : g.hasFile ↔ (s.glob m).hasFile) (hbuf : g.hasBuf ↔ (s.glob m).hasBuf) :
    Inv image { s.set m g with root := Function.update s.root n (some nd) } := by
  have hold := h.own m
  have hother : ∀ o, o ≠ m → Node.dir o ≠ nd ∧ Node.link o ≠ nd := by
    intro o ho
    rcases hnd with rfl | rfl <;> simp [ho]
  have hnew : ∀ nd' name, Function.update s.root n (some nd) name = some nd' ↔
      s.root name = some nd' ∨ (nd = nd' ∧ name = n) := by
    intro nd' name
    by_cases hne : nd = nd'
    · subst hne
      rcases eq_or_ne name n with rfl | hn
      · simp
      · simp [hn]
    · rw [update_some_iff hfree (Ne.symm hne)]
      simp [hne]
  refine h.change m (fun o ho => set_glob_of_ne s g ho)
    (fun o ho => update_some_iff hfree (hother o ho).1)
    (fun o ho => update_some_iff hfree (hother o ho).2) (fun _ _ => rfl) (fun _ _ => rfl)
    ⟨?_, fun name => ?_, fun name => ?_, ?_, ?_⟩ h.warned
  · simpa using hok
  · simp only [set_glob_self]
    rw [hnew, hold.dir, hdir]
  · simp only [set_glob_self]
    rw [hnew, hold.link, hlink]
  · simp only [set_glob_self, hfile]
    exact hold.sub
  · simp only [set_glob_self, hbuf]
    exact hold.blocks

/-- An entry of the module is gone. -/
theorem Inv.dropEntry (h : Inv image s) {n : String} {nd : Node ι} (hthere : s.root n = some nd)
    (hnd : nd = .dir m ∨ nd = .link m) (hok : g.Ok (image m))
    (hdir : g.hasDir ↔ (s.glob m).hasDir ∧ nd ≠ .dir m)
    (hlink : g.hasLink ↔ (s.glob m).hasLink ∧ nd ≠ .link m)
    (hfile : g.hasFile ↔ (s.glob m).hasFile) (hbuf : g.hasBuf ↔ (s.glob m).hasBuf) :
    Inv image { s.set m g with root := Function.update s.root n none } := by
  have hold := h.own m
  have hother : ∀ o, o ≠ m → Node.dir o ≠ nd ∧ Node.link o ≠ nd := by
    intro o ho
    rcases hnd with rfl | rfl <;> simp [ho]
  have honce : ∀ name, s.root name = some nd → name = n := by
    intro name hname
    rcases hnd with rfl | rfl
    · rw [((hold.dir name).mp hname).2, ((hold.dir n).mp hthere).2]
    · rw [((hold.link name).mp hname).2, ((hold.link n).mp hthere).2]
  have hnew : ∀ nd' name, Function.update s.root n none name = some nd' ↔
      s.root name = some nd' ∧ nd ≠ nd' := by
    intro nd' name
    by_cases hne : nd = nd'
    · subst hne
      rcases eq_or_ne name n with rfl | hn
      · simp
      · simp only [Function.update_of_ne hn, ne_eq, not_true_eq_false, and_false, iff_false]
        exact fun hname => hn (honce name hname)
    · rw [update_none_iff hthere (Ne.symm hne)]
      simp [hne]
  refine h.change m (fun o ho => set_glob_of_ne s g ho)
    (fun o ho => update_none_iff hthere (hother o ho).1)
    (fun o ho => update_none_iff hthere (hother o ho).2) (fun _ _ => rfl) (fun _ _ => rfl)
    ⟨?_, fun name => ?_, fun name => ?_, ?_, ?_⟩ h.warned
  · simpa using hok
  · simp only [set_glob_self]
    rw [hnew, hold.dir, hdir, and_right_comm]
  · simp only [set_glob_self]
    rw [hnew, hold.link, hlink, and_right_comm]
  · simp only [set_glob_self, hfile]
    exact hold.sub
  · simp only [set_glob_self, hbuf]
    exact hold.blocks

/-- The directory of the module has another entry, or one less. -/
theorem Inv.setSub (h : Inv image s) (hok : g.Ok (image m))
    (hdir : g.hasDir ↔ (s.glob m).hasDir) (hlink : g.hasLink ↔ (s.glob m).hasLink)
    (hbuf : g.hasBuf ↔ (s.glob m).hasBuf) {l : List String}
    (hl : l = if g.hasFile then [(image m).filename] else []) :
    Inv image { s.set m g with sub := Function.update s.sub m l } := by
  have hold := h.own m
  refine h.change m (fun o ho => set_glob_of_ne s g ho) (fun _ _ _ => Iff.rfl)
    (fun _ _ _ => Iff.rfl) (fun o ho => Function.update_of_ne ho l s.sub) (fun _ _ => rfl)
    ⟨?_, ?_, ?_, ?_, ?_⟩ h.warned
  · simpa using hok
  · simp only [set_glob_self, hdir]
    exact hold.dir
  · simp only [set_glob_self, hlink]
    exact hold.link
  · simp only [set_glob_self, Function.update_self]
    exact hl
  · simp only [set_glob_self, hbuf]
    exact hold.blocks

/-- The module has a buffer, or has freed it. -/
theorem Inv.setBlocks (h : Inv image s) (hok : g.Ok (image m))
    (hdir : g.hasDir ↔ (s.glob m).hasDir) (hfile : g.hasFile ↔ (s.glob m).hasFile)
    (hlink : g.hasLink ↔ (s.glob m).hasLink) {n : Nat} (hn : n = if g.hasBuf then 1 else 0) :
    Inv image { s.set m g with blocks := Function.update s.blocks m n } := by
  have hold := h.own m
  refine h.change m (fun o ho => set_glob_of_ne s g ho) (fun _ _ _ => Iff.rfl)
    (fun _ _ _ => Iff.rfl) (fun _ _ => rfl) (fun o ho => Function.update_of_ne ho n s.blocks)
    ⟨?_, ?_, ?_, ?_, ?_⟩ h.warned
  · simpa using hok
  · simp only [set_glob_self, hdir]
    exact hold.dir
  · simp only [set_glob_self, hlink]
    exact hold.link
  · simp only [set_glob_self, hfile]
    exact hold.sub
  · simp only [set_glob_self, Function.update_self]
    exact hn

/-- A directory of the module, with nothing in it, is removed without a warning. -/
theorem removeEntry_dir {n : String} (hn : s.root n = some (.dir m)) (hsub : s.sub m = []) :
    s.removeEntry m n = { s with root := Function.update s.root n none } := by
  have hsame : Function.update s.sub m [] = s.sub := by
    rw [← hsub, Function.update_eq_self]
  simp [State.removeEntry, hn, hsub, hsame]

theorem removeEntry_link {n : String} (hn : s.root n = some (.link m)) :
    s.removeEntry m n = { s with root := Function.update s.root n none } := by
  simp [State.removeEntry, hn]

theorem removeFile_of_mem {n : String} (hn : n ∈ s.sub m) :
    s.removeFile m n = { s with sub := Function.update s.sub m ((s.sub m).erase n) } := by
  simp [State.removeFile, hn]

/-! ## 4. Every step keeps it -/

section Pointers

variable {img : Image}

theorem Globals.Ok.allocated (h : g.Ok img) (hpc : g.pc = .vmalloc) :
    Globals.Ok img { g with pc := .procMkdir, buf := true } where
  link_file := h.link_file
  file_dir := h.file_dir
  fresh _ := h.fresh (by simp [hpc])
  create hp := absurd hp (by simp)
  symlink hp := absurd hp (by simp)
  loaded hp := absurd hp (by simp)
  buf _ := by simp [h.vmalloc hpc]
  vmalloc hp := absurd hp (by simp)

theorem Globals.Ok.made (h : g.Ok img) (hpc : g.pc = .procMkdir) :
    Globals.Ok img { g with pc := .procCreate, dir := true } where
  link_file := h.link_file
  file_dir _ := rfl
  fresh hp := absurd hp (by simp)
  create _ := ⟨rfl, h.file_of_dir (h.fresh (by simp [hpc]))⟩
  symlink hp := absurd hp (by simp)
  loaded hp := absurd hp (by simp)
  buf _ := h.buf (by simp [hpc])
  vmalloc hp := absurd hp (by simp)

theorem Globals.Ok.created (h : g.Ok img) (hpc : g.pc = .procCreate) :
    Globals.Ok img { g with pc := .procSymlink, file := true } where
  link_file _ := rfl
  file_dir _ := (h.create hpc).1
  fresh hp := absurd hp (by simp)
  create hp := absurd hp (by simp)
  symlink _ := ⟨rfl, h.link_of_file (h.create hpc).2⟩
  loaded hp := absurd hp (by simp)
  buf _ := h.buf (by simp [hpc])
  vmalloc hp := absurd hp (by simp)

theorem Globals.Ok.linked (h : g.Ok img) (hpc : g.pc = .procSymlink) :
    Globals.Ok img { g with pc := .loaded, link := true } where
  link_file _ := (h.symlink hpc).1
  file_dir := h.file_dir
  fresh hp := absurd hp (by simp)
  create hp := absurd hp (by simp)
  symlink hp := absurd hp (by simp)
  loaded _ := rfl
  buf _ := h.buf (by simp [hpc])
  vmalloc hp := absurd hp (by simp)

/-- `freeMemory` looks at the pointers, and leaves them as they are. -/
theorem Globals.Ok.unwound (h : g.Ok img) {pc : Pc}
    (hpc : pc ∈ [.removeLink, .removeFile, .removeDir, .vfree, .unloaded])
    (hold : pc ≠ .unloaded → g.pc ∉ [.unloaded, .vmalloc]) :
    Globals.Ok img { g with pc := pc } := by
  have hnot : pc ∉ [.vmalloc, .procMkdir, .procCreate, .procSymlink, .loaded] := by
    simp only [List.mem_cons, List.not_mem_nil, or_false] at hpc
    rcases hpc with rfl | rfl | rfl | rfl | rfl <;> simp
  simp only [List.mem_cons, List.not_mem_nil, or_false, not_or] at hnot
  obtain ⟨hvmalloc, hmkdir, hcreate, hsymlink, hloaded⟩ := hnot
  refine ⟨h.link_file, h.file_dir, fun hp => ?_, fun hp => absurd hp hcreate,
    fun hp => absurd hp hsymlink, fun hp => absurd hp hloaded, fun hp => h.buf (hold ?_),
    fun hp => absurd hp hvmalloc⟩
  · exact absurd hp (by simp [hvmalloc, hmkdir])
  · rintro rfl
    simp at hp

end Pointers

/-- **The next step of a module.** -/
theorem Inv.run (h : Inv image s) {ok : Bool} (hst : s.run (image m) m ok = some s') :
    Inv image s' := by
  have hold := h.own m
  have hok := hold.ok
  rw [State.run] at hst
  cases hpc : (s.glob m).pc with
  | unloaded => simp [hpc] at hst
  | loaded => simp [hpc] at hst
  | vmalloc =>
    have hnone : s.blocks m = 0 := by
      rw [hold.blocks, if_neg (by simp [Globals.hasBuf, hpc])]
    simp only [hpc] at hst
    split at hst
    · obtain rfl := Option.some.inj hst
      refine h.setBlocks (hok.allocated hpc) ?_ ?_ ?_ ?_
      all_goals simp [Globals.hasDir, Globals.hasFile, Globals.hasLink, Globals.hasBuf, hpc, hnone]
    · obtain rfl := Option.some.inj hst
      refine h.keep (hok.unwound (by simp) (fun hp => absurd rfl hp)) ?_ ?_ ?_ ?_
      all_goals simp [Globals.hasDir, Globals.hasFile, Globals.hasLink, Globals.hasBuf, hpc]
  | procMkdir =>
    have hdir := hok.fresh (by simp [hpc])
    have hfile := hok.file_of_dir hdir
    simp only [hpc] at hst
    split at hst
    · rename_i hfree
      obtain rfl := Option.some.inj hst
      refine h.addEntry hfree.2 (Or.inl rfl) (hok.made hpc) ?_ ?_ ?_ ?_
      all_goals simp [Globals.hasDir, Globals.hasFile, Globals.hasLink, Globals.hasBuf, hpc]
    · obtain rfl := Option.some.inj hst
      refine h.keep (hok.unwound (by simp) (by simp [hpc])) ?_ ?_ ?_ ?_
      all_goals simp [Globals.hasDir, Globals.hasFile, Globals.hasLink, Globals.hasBuf, hpc, hdir,
        hfile, hok.link_of_file]
  | procCreate =>
    obtain ⟨hdir, hfile⟩ := hok.create hpc
    have hnone : s.sub m = [] := by
      rw [hold.sub, if_neg (by simp [Globals.hasFile, hpc])]
    simp only [hpc] at hst
    split at hst
    · obtain rfl := Option.some.inj hst
      refine h.setSub (hok.created hpc) ?_ ?_ ?_ ?_
      all_goals simp [Globals.hasDir, Globals.hasFile, Globals.hasLink, Globals.hasBuf, hpc, hnone]
    · obtain rfl := Option.some.inj hst
      refine h.keep (hok.unwound (by simp) (by simp [hpc])) ?_ ?_ ?_ ?_
      all_goals simp [Globals.hasDir, Globals.hasFile, Globals.hasLink, Globals.hasBuf, hpc, hfile,
        hok.link_of_file]
  | procSymlink =>
    obtain ⟨hfile, hlink⟩ := hok.symlink hpc
    simp only [hpc] at hst
    split at hst
    · rename_i hfree
      obtain rfl := Option.some.inj hst
      refine h.addEntry hfree.2 (Or.inr rfl) (hok.linked hpc) ?_ ?_ ?_ ?_
      all_goals simp [Globals.hasDir, Globals.hasFile, Globals.hasLink, Globals.hasBuf, hpc]
    · obtain rfl := Option.some.inj hst
      refine h.keep (hok.unwound (by simp) (by simp [hpc])) ?_ ?_ ?_ ?_
      all_goals simp [Globals.hasDir, Globals.hasFile, Globals.hasLink, Globals.hasBuf, hpc, hlink]
  | removeLink =>
    simp only [hpc] at hst
    obtain rfl := Option.some.inj hst
    have hnext : Globals.Ok (image m) { s.glob m with pc := .removeFile } :=
      hok.unwound (by simp) (by simp [hpc])
    cases hlink : (s.glob m).link with
    | true =>
      have hthere := (hold.link _).mpr ⟨⟨hlink, by simp [hpc]⟩, rfl⟩
      rw [if_pos rfl, removeEntry_link hthere]
      refine h.dropEntry hthere (Or.inr rfl) (hlink ▸ hnext) ?_ ?_ ?_ ?_
      all_goals simp [Globals.hasDir, Globals.hasFile, Globals.hasLink, Globals.hasBuf, hpc]
    | false =>
      refine h.keep (hlink ▸ hnext) ?_ ?_ ?_ ?_
      all_goals simp [Globals.hasDir, Globals.hasFile, Globals.hasLink, Globals.hasBuf, hpc, hlink]
  | removeFile =>
    simp only [hpc] at hst
    obtain rfl := Option.some.inj hst
    have hnext : Globals.Ok (image m) { s.glob m with pc := .removeDir } :=
      hok.unwound (by simp) (by simp [hpc])
    cases hfile : (s.glob m).file with
    | true =>
      have hsub : s.sub m = [(image m).filename] := by
        rw [hold.sub, if_pos ⟨hfile, by simp [hpc]⟩]
      rw [if_pos rfl, removeFile_of_mem (by simp [hsub])]
      refine h.setSub (hfile ▸ hnext) ?_ ?_ ?_ ?_
      all_goals simp [Globals.hasDir, Globals.hasFile, Globals.hasLink, Globals.hasBuf, hpc, hsub]
    | false =>
      refine h.keep (hfile ▸ hnext) ?_ ?_ ?_ ?_
      all_goals simp [Globals.hasDir, Globals.hasFile, Globals.hasLink, Globals.hasBuf, hpc, hfile]
  | removeDir =>
    have hbuf := hok.buf (by simp [hpc])
    have hnone : s.sub m = [] := by
      rw [hold.sub, if_neg (by simp [Globals.hasFile, hpc])]
    simp only [hpc] at hst
    obtain rfl := Option.some.inj hst
    have hnext : Globals.Ok (image m)
        { s.glob m with pc := if (image m).buffer then .vfree else .unloaded } :=
      hok.unwound (by split <;> simp) (by simp [hpc])
    cases hdir : (s.glob m).dir with
    | true =>
      have hthere := (hold.dir _).mpr ⟨⟨hdir, by simp [hpc]⟩, rfl⟩
      rw [if_pos rfl, removeEntry_dir hthere hnone]
      refine h.dropEntry hthere (Or.inl rfl) (hdir ▸ hnext) ?_ ?_ ?_ ?_
      all_goals cases hb : (image m).buffer <;>
        simp [Globals.hasDir, Globals.hasFile, Globals.hasLink, Globals.hasBuf, hpc, hb, hbuf]
    | false =>
      refine h.keep (hdir ▸ hnext) ?_ ?_ ?_ ?_
      all_goals cases hb : (image m).buffer <;>
        simp [Globals.hasDir, Globals.hasFile, Globals.hasLink, Globals.hasBuf, hpc, hb, hbuf, hdir]
  | vfree =>
    have hfreed : (if (s.glob m).buf then s.blocks m - 1 else s.blocks m) = 0 := by
      rw [hold.blocks]
      cases hbuf : (s.glob m).buf <;> simp [Globals.hasBuf, hbuf, hpc]
    simp only [hpc] at hst
    obtain rfl := Option.some.inj hst
    refine h.setBlocks (hok.unwound (by simp) (fun hp => absurd rfl hp)) ?_ ?_ ?_ ?_
    all_goals simp [Globals.hasDir, Globals.hasFile, Globals.hasLink, Globals.hasBuf, hpc, hfreed]

theorem Inv.insmod (h : Inv image s) (hpc : (s.glob m).pc = .unloaded) :
    Inv image (s.set m
      ⟨if (image m).buffer then .vmalloc else .procMkdir, false, false, false, false⟩) := by
  refine h.keep ⟨?_, ?_, ?_, ?_, ?_, ?_, ?_, ?_⟩ ?_ ?_ ?_ ?_
  all_goals cases hb : (image m).buffer <;>
    simp [Globals.hasDir, Globals.hasFile, Globals.hasLink, Globals.hasBuf, hpc]

theorem Inv.rmmod (h : Inv image s) (hpc : (s.glob m).pc = .loaded) :
    Inv image (s.set m { s.glob m with pc := .removeLink }) := by
  refine h.keep ((h.own m).ok.unwound (by simp) (by simp [hpc])) ?_ ?_ ?_ ?_
  all_goals simp [Globals.hasDir, Globals.hasFile, Globals.hasLink, Globals.hasBuf, hpc]

theorem Inv.step (h : Inv image s) {a : Action ι} (hst : s.step image a = some s') :
    Inv image s' := by
  cases a with
  | insmod m =>
    rw [State.step] at hst
    split at hst
    · exact Option.some.inj hst ▸ h.insmod ‹_›
    · exact absurd hst (by simp)
  | rmmod m =>
    rw [State.step] at hst
    split at hst
    · exact Option.some.inj hst ▸ h.rmmod ‹_›
    · exact absurd hst (by simp)
  | run m ok => exact h.run hst

theorem reachable_inv (hs : (loader image).Reachable s) : Inv image s :=
  Machine.reachable_rule (M := loader image) (inv_init image) (fun _ _ _ h hst => h.step hst) hs

/-! ## 5. Loading again -/

/-- The steps of a load that has memory. -/
def loadSteps (img : Image) (m : ι) : List (Action ι) :=
  .insmod m :: ((if img.buffer then [.run m true] else []) ++
    [.run m true, .run m true, .run m true])

/-- No module that is loaded, or on its way, has this name in /proc. -/
def Free (image : ι → Image) (s : State ι) (name : String) : Prop :=
  ∀ o, (s.glob o).pc ≠ .unloaded → name ≠ (image o).dirname ∧ name ≠ (image o).symlink

omit [DecidableEq ι] in
/-- A name that nobody has is free. -/
theorem Inv.root_of_free (h : Inv image s) {name : String} (hfree : Free image s name) :
    s.root name = none := by
  cases hn : s.root name with
  | none => rfl
  | some nd =>
    cases nd with
    | dir o =>
      obtain ⟨hhas, rfl⟩ := ((h.own o).dir name).mp hn
      have hpc : (s.glob o).pc ≠ .unloaded := by
        intro hpc
        simp [Globals.hasDir, hpc] at hhas
      exact absurd rfl (hfree o hpc).1
    | link o =>
      obtain ⟨hhas, rfl⟩ := ((h.own o).link name).mp hn
      have hpc : (s.glob o).pc ≠ .unloaded := by
        intro hpc
        simp [Globals.hasLink, hpc] at hhas
      exact absurd rfl (hfree o hpc).2

/-- **A load with memory and free names succeeds**, whatever was loaded before. -/
theorem Inv.load (h : Inv image s) (hpc : (s.glob m).pc = .unloaded)
    (hne : (image m).symlink ≠ (image m).dirname) (hdir : Free image s (image m).dirname)
    (hlink : Free image s (image m).symlink) :
    ∃ t, (loader image).run s (loadSteps (image m) m) = some t ∧ (t.glob m).pc = .loaded := by
  have hd := h.root_of_free hdir
  have hl := h.root_of_free hlink
  have hsub : s.sub m = [] := by
    rw [(h.own m).sub, if_neg (by simp [Globals.hasFile, hpc])]
  cases hb : (image m).buffer
  all_goals
    simp [loadSteps, hb, Machine.run_cons, loader, State.step, State.run, State.set, hpc, hd, hl,
      hsub, hne]

end Invariant

/-! ## 6. The three modules -/

/-- **The modules own what they remove.**  However loads, failures and unloads of the three
modules interleave, `remove_proc_entry` is never asked for an entry that is not there, belongs to
another module or has something in it.  A module that is not loaded has no entry and no buffer, a
module that is loaded has all of its own, and `single_file.c` and `seq_file.c`, with one name for
two directories, are never loaded both. -/
theorem modules_own_entries {s : State Module} (hs : (loader image).Reachable s) :
    s.warned = false ∧
      (∀ m, (s.glob m).pc = .unloaded →
        (∀ name, s.root name ≠ some (.dir m) ∧ s.root name ≠ some (.link m)) ∧ s.sub m = [] ∧
          s.blocks m = 0) ∧
      (∀ m, (s.glob m).pc = .loaded →
        s.root (image m).dirname = some (.dir m) ∧ s.sub m = [(image m).filename] ∧
          s.root (image m).symlink = some (.link m) ∧
          s.blocks m = if (image m).buffer then 1 else 0) ∧
      ¬ ((s.glob .singleFile).pc = .loaded ∧ (s.glob .seqFile).pc = .loaded) := by
  have h := reachable_inv hs
  have hloaded : ∀ m, (s.glob m).pc = .loaded → (s.glob m).hasDir ∧ (s.glob m).hasFile ∧
      (s.glob m).hasLink ∧ ((s.glob m).hasBuf ↔ (image m).buffer = true) := by
    intro m hpc
    have hok := (h.own m).ok
    have hlink := hok.loaded hpc
    have hfile := hok.link_file hlink
    have hdir := hok.file_dir hfile
    have hbuf := hok.buf (by simp [hpc])
    simp [Globals.hasDir, Globals.hasFile, Globals.hasLink, Globals.hasBuf, hpc, hlink, hfile,
      hdir, hbuf]
  refine ⟨h.warned, fun m hpc => ⟨fun name => ⟨?_, ?_⟩, ?_, ?_⟩, fun m hpc => ?_, ?_⟩
  · intro hn
    have hdir := (((h.own m).dir name).mp hn).1
    simp [Globals.hasDir, hpc] at hdir
  · intro hn
    have hlink := (((h.own m).link name).mp hn).1
    simp [Globals.hasLink, hpc] at hlink
  · rw [(h.own m).sub, if_neg (by simp [Globals.hasFile, hpc])]
  · rw [(h.own m).blocks, if_neg (by simp [Globals.hasBuf, hpc])]
  · obtain ⟨hdir, hfile, hlink, hbuf⟩ := hloaded m hpc
    refine ⟨((h.own m).dir _).mpr ⟨hdir, rfl⟩, ?_, ((h.own m).link _).mpr ⟨hlink, rfl⟩, ?_⟩
    · rw [(h.own m).sub, if_pos hfile]
    · simp only [(h.own m).blocks, hbuf]
  · rintro ⟨hsingle, hseq⟩
    -- there is one directory of that name, and it is the one module's or the other's
    have hone := ((h.own .singleFile).dir _).mpr ⟨(hloaded _ hsingle).1, rfl⟩
    have htwo := ((h.own .seqFile).dir _).mpr ⟨(hloaded _ hseq).1, rfl⟩
    have hname : (image .singleFile).dirname = (image .seqFile).dirname := rfl
    rw [hname, htwo] at hone
    exact absurd hone (by simp)

/-- **A module can be loaded again**, after whatever history, once no other of its names is
loaded or on its way. -/
theorem module_loads_again {s : State Module} (hs : (loader image).Reachable s) (m : Module)
    (halone : ∀ o, (image o).dirname = (image m).dirname → (s.glob o).pc = .unloaded) :
    ∃ t, (loader image).run s (loadSteps (image m) m) = some t ∧ (t.glob m).pc = .loaded := by
  have h := reachable_inv hs
  have hfree : ∀ name, name = (image m).dirname ∨ name = (image m).symlink →
      Free image s name := by
    intro name hname o hpc
    have hne : (image o).dirname ≠ (image m).dirname := fun heq => hpc (halone o heq)
    rcases hname with rfl | rfl <;> revert hne <;> cases o <;> cases m <;> decide
  refine h.load (halone m rfl) ?_ (hfree _ (Or.inl rfl)) (hfree _ (Or.inr rfl))
  cases m <;> decide

/-- `seq_file.c` is loaded while `single_file.c` loads, and fails. -/
def loadedTwice : List (Action Module) :=
  [.insmod .singleFile, .run .singleFile true, .insmod .seqFile, .run .singleFile true,
    .run .seqFile true, .run .singleFile true, .run .seqFile true, .run .singleFile true,
    .run .seqFile true, .run .seqFile true]

theorem loadedTwice_run : ∃ s, (loader image).Reachable s ∧
    (s.glob .singleFile).pc = .loaded ∧ (s.glob .seqFile).pc = .unloaded ∧
      (s.glob .fortune).pc = .unloaded := by
  obtain ⟨s, hs, h⟩ := Machine.reachable_of_run_map (M := loader image)
    (f := fun s => ((s.glob .singleFile).pc, (s.glob .seqFile).pc, (s.glob .fortune).pc))
    (b := (.loaded, .unloaded, .unloaded)) loadedTwice (by decide +kernel)
  simp only [Prod.mk.injEq] at h
  exact ⟨s, hs, h⟩

theorem modules_own_entries_loadedTwice : ∃ s, (loader image).Reachable s ∧
    s.root "seq_dir" = some (.dir .singleFile) ∧ s.sub .seqFile = [] := by
  obtain ⟨s, hs, hsingle, hseq, -⟩ := loadedTwice_run
  obtain ⟨-, hun, hload, -⟩ := modules_own_entries hs
  exact ⟨s, hs, (hload .singleFile hsingle).1, (hun .seqFile hseq).2.1⟩

theorem module_loads_again_loadedTwice : ∃ s t, (loader image).Reachable s ∧
    (s.glob .singleFile).pc = .loaded ∧
      (loader image).run s (loadSteps (image .fortune) .fortune) = some t ∧
        (t.glob .fortune).pc = .loaded := by
  obtain ⟨s, hs, hsingle, -, hfortune⟩ := loadedTwice_run
  obtain ⟨t, ht, hpc⟩ := module_loads_again hs .fortune (by
    intro o
    cases o <;> simp [image, hfortune])
  exact ⟨s, t, hs, hsingle, ht, hpc⟩

end OsLabs.Loading
