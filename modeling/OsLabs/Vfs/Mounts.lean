/-
# The file systems, mounted

`7/vfs/main.c` and `7/vfs/myvfs.c` register a file system each.  A mount makes a superblock, and
`fill_super` gives it a root: `new_inode` returns an inode with one reference, which `d_make_root`
hands to the dentry of the root, or drops if it cannot allocate the dentry.  Both modules go wrong
there: the first calls `d_genocide` with the dentry that it has not got, the second drops the
reference again.

A module can be loaded, its file system mounted any number of times and unmounted again, and the
module unloaded while nothing is mounted, in any order.  In all this no step goes wrong and an
unloaded module leaves nothing, exactly if no load fails behind the registration and no
`d_make_root` fails (`life_iff`).
-/
import OsLabs.Lib.Machine
import OsLabs.Vfs.Myfs
import Mathlib.Logic.Function.Basic

namespace OsLabs.Vfs

open Ledger

/-! ## 1. Inodes and superblocks -/

/-- A superblock; `s_root` is the dentry of its root, given by its inode. -/
structure SuperBlock where
  id : Nat
  s_root : Option Nat
deriving DecidableEq, Repr

/-- The references to each inode, the address of the next inode or superblock, and the superblocks
of the type. -/
structure Objects where
  i_count : Nat → Nat
  fresh : Nat
  fs_supers : List SuperBlock

/-- What `sget`, `new_inode` and the allocation in `d_make_root` come to. -/
structure Answers where
  sget : Bool
  new_inode : Bool
  d_make_root : Bool
deriving DecidableEq, Repr

inductive Fault
  | nullDentry
  | freedInode (i : Nat)
  | freedType
deriving DecidableEq, Repr

namespace Objects

def none : Objects := ⟨fun _ => 0, 0, []⟩

def newInode (ok : Bool) (o : Objects) : Option Nat × Objects :=
  if ok then
    (some o.fresh, { o with i_count := Function.update o.i_count o.fresh 1, fresh := o.fresh + 1 })
  else (.none, o)

def iput (i : Nat) (o : Objects) : Except Fault Objects :=
  if o.i_count i = 0 then .error (.freedInode i)
  else .ok { o with i_count := Function.update o.i_count i (o.i_count i - 1) }

/-- The dentry takes the reference to the inode over; if there is none, it is dropped. -/
def dMakeRoot (ok : Bool) (i : Nat) (o : Objects) : Except Fault (Option Nat × Objects) :=
  if ok then .ok (some i, o) else (o.iput i).map fun o => (.none, o)

/-- `d_genocide` and `shrink_dcache_parent` go through what is below a dentry. -/
def dWalk (root : Option Nat) (o : Objects) : Except Fault Objects :=
  match root with
  | .none => .error .nullDentry
  | some _ => .ok o

/-- `dput`, which does nothing for `NULL`. -/
def dput (root : Option Nat) (o : Objects) : Except Fault Objects :=
  match root with
  | .none => .ok o
  | some i => o.iput i

/-- `sb->s_root = root` -/
def setRoot (sb : Nat) (root : Option Nat) (o : Objects) : Objects :=
  { o with fs_supers := o.fs_supers.map fun s =>
      if s.id = sb then { s with s_root := root } else s }

def rootOf (sb : Nat) (o : Objects) : Option Nat :=
  (o.fs_supers.find? fun s => s.id = sb).bind SuperBlock.s_root

def killAnonSuper (sb : Nat) (o : Objects) : Except Fault Objects :=
  (o.dput (o.rootOf sb)).map fun o =>
    { o with fs_supers := o.fs_supers.filter fun s => s.id ≠ sb }

def killLitterSuper (sb : Nat) (o : Objects) : Except Fault Objects := do
  let o ← if o.rootOf sb = .none then .ok o else o.dWalk (o.rootOf sb)
  o.killAnonSuper sb

end Objects

/-- A `struct file_system_type`, and the functions that load and unload its module. -/
structure FileSystem where
  init : Kernel → Int × Module
  exit : Module → Module
  fill_super : Answers → Nat → Objects → Except Fault (Int × Objects)
  kill_sb : Nat → Objects → Except Fault Objects

/-- `mount_nodev`, which is all that the two `mount` functions call. -/
def FileSystem.mount (fs : FileSystem) (a : Answers) (o : Objects) :
    Except Fault (Int × Objects) :=
  if a.sget = false then .ok (-ENOMEM, o)
  else do
    let sb := o.fresh
    let (error, o) ← fs.fill_super a sb
      { o with fresh := o.fresh + 1, fs_supers := ⟨sb, none⟩ :: o.fs_supers }
    if error ≠ 0 then
      let o ← fs.kill_sb sb o
      return (error, o)
    else return (0, o)

/-! ## 2. The two modules -/

def mySimpleFillSuper (a : Answers) (s : Nat) (o : Objects) : Except Fault (Int × Objects) := do
  let (inode, o) := o.newInode a.new_inode
  match inode with
  | none => return (-ENOMEM, o)
  | some inode =>
    let (root, o) ← o.dMakeRoot a.d_make_root inode
    if root = none then
      let o ← o.dWalk root
      let o ← o.dWalk root
      let o ← o.dput root
      return (-ENOMEM, o)
    else return (0, o.setRoot s root)

/-- The file system of `main.c`. -/
def myfs (number : Int32) : FileSystem where
  init k := myfsInit k number
  exit := myfsExit number
  fill_super := mySimpleFillSuper
  kill_sb := Objects.killAnonSuper

def myVfsFillSb (a : Answers) (sb : Nat) (o : Objects) : Except Fault (Int × Objects) := do
  let (root_inode, o) := o.newInode a.new_inode
  match root_inode with
  | none => return (-ENOMEM, o)
  | some root_inode =>
    let (root, o) ← o.dMakeRoot a.d_make_root root_inode
    let o := o.setRoot sb root
    if root = none then
      let o ← o.iput root_inode
      return (-ENOMEM, o)
    else return (0, o)

/-- `*cache_mem_area` is the first slot of the array. -/
def myVfsInit (k : Kernel) : Int × Module :=
  let (ret, m) := Module.initial.registerFilesystem k
  if ret ≠ 0 then (ret, m)
  else
    let m := m.kmalloc k 8
    if m.slab = .null then (-ENOMEM, m.kfree)
    else
      let m := m.kmemCacheCreate k
      if m.cache = false then (-ENOMEM, (m.kmemCacheDestroy).kfree)
      else
        let m := m.kmemCacheAlloc k 0
        if m.slots 0 = none then
          (-ENOMEM, ((m.release (.object (m.slots 0))).kmemCacheDestroy).kfree)
        else (0, m)

def myVfsExit (m : Module) : Module :=
  (((m.release (.object (m.slots 0))).kmemCacheDestroy).kfree).unregisterFilesystem

/-- The file system of `myvfs.c`. -/
def myVfs : FileSystem where
  init := myVfsInit
  exit := myVfsExit
  fill_super := myVfsFillSb
  kill_sb := Objects.killLitterSuper

/-! ## 3. A root for each superblock -/

/-- Each superblock has a root of its own with the one reference to its inode, and there is no
other inode. -/
structure Rooted (o : Objects) : Prop where
  ids : (o.fs_supers.map SuperBlock.id).Nodup
  roots : (o.fs_supers.map SuperBlock.s_root).Nodup
  old : ∀ s ∈ o.fs_supers, s.id < o.fresh
  root : ∀ s ∈ o.fs_supers, ∃ i, s.s_root = some i ∧ o.i_count i = 1 ∧ i < o.fresh
  inode : ∀ i, o.i_count i ≠ 0 → ∃ s ∈ o.fs_supers, s.s_root = some i

/-- What `fill_super` does. -/
structure FillsSuper (fs : FileSystem) : Prop where
  noInode : ∀ a sb o, a.new_inode = false → fs.fill_super a sb o = .ok (-ENOMEM, o)
  filled : ∀ a sb o, a.new_inode = true → a.d_make_root = true →
    fs.fill_super a sb o = .ok (0, (o.newInode true).2.setRoot sb (some o.fresh))
  noRoot : ∀ a sb o, a.new_inode = true → a.d_make_root = false →
    ∃ e, fs.fill_super a sb o = .error e
  kill : ∀ sb o, fs.kill_sb sb o = o.killAnonSuper sb

theorem myfs_fillsSuper (number : Int32) : FillsSuper (myfs number) where
  noInode a sb o h := by
    simp only [myfs, mySimpleFillSuper, h, Objects.newInode]
    rfl
  filled a sb o h h' := by
    simp only [myfs, mySimpleFillSuper, h, h', Objects.newInode, Objects.dMakeRoot]
    rfl
  noRoot a sb o h h' := by
    refine ⟨.nullDentry, ?_⟩
    simp [myfs, mySimpleFillSuper, h, h', Objects.newInode, Objects.dMakeRoot, Objects.iput,
      Objects.dWalk, Except.map, bind, Except.bind]
  kill sb o := rfl

theorem myVfs_fillsSuper : FillsSuper myVfs where
  noInode a sb o h := by
    simp only [myVfs, myVfsFillSb, h, Objects.newInode]
    rfl
  filled a sb o h h' := by
    simp only [myVfs, myVfsFillSb, h, h', Objects.newInode, Objects.dMakeRoot]
    rfl
  noRoot a sb o h h' := by
    refine ⟨.freedInode o.fresh, ?_⟩
    simp [myVfs, myVfsFillSb, h, h', Objects.newInode, Objects.dMakeRoot, Objects.iput,
      Objects.setRoot, Except.map, bind, Except.bind]
  kill sb o := by
    simp only [myVfs, Objects.killLitterSuper]
    cases hroot : o.rootOf sb with
    | none => rfl
    | some i => rfl

variable {fs : FileSystem} {o : Objects} {s s' : SuperBlock} {a : Answers}

theorem rooted_none : Rooted .none where
  ids := List.nodup_nil
  roots := List.nodup_nil
  old _ h := absurd h List.not_mem_nil
  root _ h := absurd h List.not_mem_nil
  inode _ h := absurd rfl h

/-- A superblock is known by its address. -/
theorem Rooted.eq_of_id (ho : Rooted o) (hs : s ∈ o.fs_supers) (hs' : s' ∈ o.fs_supers)
    (hid : s.id = s'.id) : s = s' :=
  List.inj_on_of_nodup_map ho.ids hs hs' hid

theorem Rooted.rootOf (ho : Rooted o) (hs : s ∈ o.fs_supers) : o.rootOf s.id = s.s_root := by
  rw [Objects.rootOf]
  cases hfind : o.fs_supers.find? fun s' => s'.id = s.id with
  | none => exact absurd (List.find?_eq_none.mp hfind s hs) (by simp)
  | some s' =>
    have hid : s'.id = s.id := by simpa using List.find?_some hfind
    rw [ho.eq_of_id (List.mem_of_find?_eq_some hfind) hs hid]
    rfl

/-- Its address is newer than those of all the others. -/
theorem Rooted.ne_fresh (ho : Rooted o) (hs : s ∈ o.fs_supers) : s.id ≠ o.fresh :=
  Nat.ne_of_lt (ho.old s hs)

/-- A superblock that has got no root is gone without a trace. -/
theorem Rooted.kill_new (ho : Rooted o) :
    ({ o with fresh := o.fresh + 1, fs_supers := ⟨o.fresh, none⟩ :: o.fs_supers } :
      Objects).killAnonSuper o.fresh = .ok { o with fresh := o.fresh + 1 } := by
  have hall : (o.fs_supers.filter fun s => s.id ≠ o.fresh) = o.fs_supers :=
    List.filter_eq_self.mpr fun s hs => by simpa using ho.ne_fresh hs
  simp only [Objects.killAnonSuper, Objects.rootOf, Objects.dput, List.find?_cons, decide_true,
    Option.bind_some, Except.map, List.filter_cons, ne_eq, not_true_eq_false, decide_false,
    Bool.false_eq_true, if_false]
  simpa using hall

theorem Rooted.later (ho : Rooted o) : Rooted { o with fresh := o.fresh + 1 } where
  ids := ho.ids
  roots := ho.roots
  old s hs := Nat.lt_succ_of_lt (ho.old s hs)
  root s hs := by
    obtain ⟨i, hroot, hcount, hlt⟩ := ho.root s hs
    exact ⟨i, hroot, hcount, Nat.lt_succ_of_lt hlt⟩
  inode := ho.inode

/-- A superblock with a new inode. -/
theorem Rooted.push (ho : Rooted o) : Rooted
    { i_count := Function.update o.i_count (o.fresh + 1) 1
      fresh := o.fresh + 2
      fs_supers := ⟨o.fresh, some (o.fresh + 1)⟩ :: o.fs_supers } := by
  have hold : ∀ s ∈ o.fs_supers, ∀ i, s.s_root = some i → i ≠ o.fresh + 1 := by
    intro s hs i hi
    obtain ⟨j, hroot, -, hlt⟩ := ho.root s hs
    obtain rfl := Option.some.inj (hroot.symm.trans hi)
    omega
  refine ⟨List.nodup_cons.mpr ⟨fun h => ?_, ho.ids⟩, List.nodup_cons.mpr ⟨fun h => ?_, ho.roots⟩,
    fun s hs => ?_, fun s hs => ?_, fun i hi => ?_⟩
  · obtain ⟨s, hs, hid⟩ := List.mem_map.mp h
    exact ho.ne_fresh hs hid
  · obtain ⟨s, hs, hroot⟩ := List.mem_map.mp h
    exact hold s hs _ hroot rfl
  · rcases List.mem_cons.mp hs with rfl | hs
    · exact Nat.lt_succ_of_lt (Nat.lt_succ_self _)
    · exact Nat.lt_succ_of_lt (Nat.lt_succ_of_lt (ho.old s hs))
  · rcases List.mem_cons.mp hs with rfl | hs
    · exact ⟨o.fresh + 1, rfl, Function.update_self _ _ _, Nat.lt_succ_self _⟩
    · obtain ⟨i, hroot, hcount, hlt⟩ := ho.root s hs
      exact ⟨i, hroot, (Function.update_of_ne (hold s hs i hroot) _ _).trans hcount,
        Nat.lt_succ_of_lt (Nat.lt_succ_of_lt hlt)⟩
  · by_cases heq : i = o.fresh + 1
    · exact ⟨_, List.mem_cons_self, by rw [heq]⟩
    · simp only [Function.update_of_ne heq] at hi
      obtain ⟨s, hs, hroot⟩ := ho.inode i hi
      exact ⟨s, List.mem_cons_of_mem _ hs, hroot⟩

/-- **A mount** leaves a root for each superblock, if `d_make_root` does not fail. -/
theorem Rooted.mount (ho : Rooted o) (hfs : FillsSuper fs)
    (ha : a.sget = true → a.new_inode = true → a.d_make_root = true) :
    ∃ error o', fs.mount a o = .ok (error, o') ∧ Rooted o' := by
  rw [FileSystem.mount]
  cases hsget : a.sget with
  | false => exact ⟨_, o, rfl, ho⟩
  | true =>
    cases hinode : a.new_inode with
    | false =>
      refine ⟨-ENOMEM, _, ?_, ho.later⟩
      simp only [hfs.noInode a _ _ hinode, bind, Except.bind, hfs.kill, ho.kill_new]
      rfl
    | true =>
      refine ⟨0, _, ?_, ho.push⟩
      have hroots : (o.fs_supers.map fun s => if s.id = o.fresh then
          { s with s_root := some (o.fresh + 1) } else s) = o.fs_supers := by
        refine (List.map_congr_left fun s hs => if_neg (ho.ne_fresh hs)).trans ?_
        exact List.map_id _
      simp only [hfs.filled a _ _ hinode (ha hsget hinode), bind, Except.bind, Objects.newInode,
        Objects.setRoot, if_true, List.map_cons, hroots]
      rfl

/-- **Without a dentry for the root** it goes wrong. -/
theorem mount_error (hfs : FillsSuper fs) (o : Objects) (hsget : a.sget = true)
    (hinode : a.new_inode = true) (hroot : a.d_make_root = false) :
    ∃ e, fs.mount a o = .error e := by
  obtain ⟨e, he⟩ := hfs.noRoot a o.fresh
    { o with fresh := o.fresh + 1, fs_supers := ⟨o.fresh, none⟩ :: o.fs_supers } hinode hroot
  refine ⟨e, ?_⟩
  rw [FileSystem.mount, if_neg (by simp [hsget])]
  simp only [he, bind, Except.bind]

/-- **An unmount** takes the superblock and its inode away. -/
theorem Rooted.umount (ho : Rooted o) (hs : s ∈ o.fs_supers) :
    ∃ o', o.killAnonSuper s.id = .ok o' ∧ Rooted o' := by
  obtain ⟨i, hroot, hcount, hlt⟩ := ho.root s hs
  have hother : ∀ s' ∈ o.fs_supers, s'.s_root = some i → s' = s := by
    intro s' hs' hroot'
    exact List.inj_on_of_nodup_map ho.roots hs' hs (hroot'.trans hroot.symm)
  have hkill : o.killAnonSuper s.id = .ok { o with
      i_count := Function.update o.i_count i 0
      fs_supers := o.fs_supers.filter fun s' => s'.id ≠ s.id } := by
    rw [Objects.killAnonSuper, ho.rootOf hs, hroot, Objects.dput, Objects.iput,
      if_neg (by simp [hcount]), hcount]
    rfl
  refine ⟨_, hkill, ho.ids.sublist (List.filter_sublist.map _),
    ho.roots.sublist (List.filter_sublist.map _),
    fun s' hs' => ho.old s' (List.mem_of_mem_filter hs'), fun s' hs' => ?_, fun j hj => ?_⟩
  · obtain ⟨hmem, hne⟩ := List.mem_filter.mp hs'
    obtain ⟨j, hroot', hcount', hlt'⟩ := ho.root s' hmem
    have hji : j ≠ i := by
      rintro rfl
      rw [hother s' hmem hroot'] at hne
      simp at hne
    exact ⟨j, hroot', (Function.update_of_ne hji _ _).trans hcount', hlt'⟩
  · have hne : j ≠ i := by
      rintro rfl
      simp at hj
    simp only [Function.update_of_ne hne] at hj
    obtain ⟨s', hs', hroot'⟩ := ho.inode j hj
    have hid : s'.id ≠ s.id := by
      intro hid
      rw [ho.eq_of_id hs' hs hid, hroot] at hroot'
      exact hne (Option.some.inj hroot').symm
    exact ⟨s', List.mem_filter.mpr ⟨hs', by simpa using hid⟩, hroot'⟩

/-! ## 4. Loads -/

/-- What a load and an unload do: behind the registration a load succeeds exactly if nothing
fails, and one that does not leaves something. -/
structure Loads (fs : FileSystem) (number : Int32) : Prop where
  unregistered : ∀ k : Kernel, k.register_filesystem ≠ 0 →
    fs.init k = (k.register_filesystem, .initial)
  loaded : ∀ k : Kernel, k.register_filesystem = 0 → NothingFails k number →
    ∃ m, fs.init k = (0, m) ∧ play Needs ∅ (fs.exit m).log = some ∅ ∧
      (fs.exit m).registered = false
  failed : ∀ k : Kernel, k.register_filesystem = 0 → ¬ NothingFails k number →
    (fs.init k).1 ≠ 0 ∧ play Needs ∅ (fs.init k).2.log ≠ some ∅

/-- The exit of a module that holds everything. -/
theorem Holding.exit {number : Int32} {p : Ptr} {m : Module}
    (h : Holding (prepared p) p true number.toInt.toNat m) :
    play Needs ∅ (myfsExit number m).log = some ∅ ∧ (myfsExit number m).registered = false := by
  obtain ⟨hlog, hregistered⟩ := h.released
  have hexit : myfsExit number m = { ((m.freeSlots number.toInt.toNat).kmemCacheDestroy).kfree with
      registered := false
      log := (prepared p ++ (objects number.toInt.toNat).map .acquire ++
        (held number.toInt.toNat p).map .release) ++ [.release .fsType] } := by
    rw [myfsExit, Module.unregisterFilesystem, if_pos hregistered, Module.release, hlog]
    rfl
  rw [hexit, play_append, (play_prepared _ p).2]
  exact ⟨by decide, rfl⟩

theorem myfs_loads (number : Int32) : Loads (myfs number) number where
  unregistered k hreg := by
    simp [myfs, myfsInit, Module.registerFilesystem, hreg]
  loaded k hreg hnone := by
    rcases myfsInit_registered number hreg with ⟨-, m, p, hm, hheld⟩ | ⟨hsome, -⟩
    · exact ⟨m, hm, hheld.exit⟩
    · exact absurd hnone hsome
  failed k hreg hsome := by
    rcases myfsInit_registered number hreg with ⟨hnone, -⟩ | ⟨-, m, hm, hplay⟩
    · exact absurd hnone hsome
    · change (myfsInit k number).1 ≠ 0 ∧ play Needs ∅ (myfsInit k number).2.log ≠ some ∅
      rw [hm, hplay]
      exact ⟨(by decide : -ENOMEM ≠ 0), by decide⟩

/-- **`myvfs.c` loads as `main.c` does** with one object, but where this cannot be allocated. -/
theorem myVfsInit_eq (k : Kernel)
    (h : k.kmem_cache_alloc 0 = true ∨ k.kmalloc = false ∨ k.kmem_cache_create = false) :
    myVfsInit k = myfsInit k 1 := by
  have hsize : slabSize 1 = 8 := by decide
  have hone : (1 : Int32).toInt.toNat = 1 := by decide
  rw [myVfsInit, myfsInit, hsize, hone]
  by_cases hreg : k.register_filesystem = 0
  · cases hkmalloc : k.kmalloc with
    | false => simp [Module.registerFilesystem, hreg, Module.kmalloc, hkmalloc]
    | true =>
      cases hcreate : k.kmem_cache_create with
      | false =>
        simp [Module.registerFilesystem, hreg, Module.kmalloc, hkmalloc, Module.kmemCacheCreate,
          hcreate]
      | true =>
        have halloc : k.kmem_cache_alloc 0 = true := by simpa [hkmalloc, hcreate] using h
        simp [Module.registerFilesystem, hreg, Module.kmalloc, hkmalloc, Module.kmemCacheCreate,
          hcreate, allocSlots, Module.kmemCacheAlloc, halloc, Module.acquire]
  · simp [Module.registerFilesystem, hreg]

/-- There it frees an object that it has not got. -/
theorem myVfsInit_noObject {k : Kernel} (hreg : k.register_filesystem = 0)
    (hkmalloc : k.kmalloc = true) (hcreate : k.kmem_cache_create = true)
    (halloc : k.kmem_cache_alloc 0 = false) :
    (myVfsInit k).1 ≠ 0 ∧ play Needs ∅ (myVfsInit k).2.log = none := by
  simp [myVfsInit, Module.registerFilesystem, hreg, Module.kmalloc, hkmalloc,
    Module.kmemCacheCreate, hcreate, Module.kmemCacheAlloc, halloc, Module.acquire, Module.release,
    Module.kmemCacheDestroy, Module.kfree, Module.initial]
  decide

theorem myVfs_loads : Loads myVfs 1 where
  unregistered k hreg := by
    simp [myVfs, myVfsInit, Module.registerFilesystem, hreg]
  loaded k hreg hnone := by
    obtain ⟨m, hm, hexit⟩ := (myfs_loads 1).loaded k hreg hnone
    exact ⟨m, (myVfsInit_eq k (.inl (hnone.alloc 0 (by decide)))).trans hm, hexit⟩
  failed k hreg hsome := by
    by_cases h : k.kmem_cache_alloc 0 = true ∨ k.kmalloc = false ∨ k.kmem_cache_create = false
    · have hinit : myVfs.init k = (myfs 1).init k := myVfsInit_eq k h
      rw [hinit]
      exact (myfs_loads 1).failed k hreg hsome
    · simp only [not_or, Bool.not_eq_true, Bool.not_eq_false] at h
      obtain ⟨halloc, hkmalloc, hcreate⟩ := h
      obtain ⟨herror, hplay⟩ := myVfsInit_noObject hreg hkmalloc hcreate halloc
      refine ⟨herror, fun hnone => ?_⟩
      exact absurd (hplay.symm.trans hnone) (by simp)

/-! ## 5. The life of a module -/

inductive Event
  | load (k : Kernel)
  | unload
  | mount (a : Answers)
  | umount (sb : Nat)

/-- The variables of the module while it is loaded; whether the kernel has the type in its list
though the module is gone; what earlier loads have acquired and released. -/
structure Life where
  loaded : Option Module
  dangling : Bool
  log : List (Op Resource)
  objects : Objects

namespace Life

def unloaded : Life := ⟨none, false, [], .none⟩

/-- A load and a mount go through the list of types.  A module is not unloaded while its type has
a superblock. -/
def step (fs : FileSystem) (s : Life) : Event → Option (Except Fault Life)
  | .load k =>
    match s.loaded with
    | some _ => none
    | none =>
      if s.dangling then some (.error .freedType)
      else if (fs.init k).1 = 0 then some (.ok { s with loaded := some (fs.init k).2 })
      else some (.ok { s with
        dangling := (fs.init k).2.registered
        log := s.log ++ (fs.init k).2.log })
  | .unload =>
    match s.loaded with
    | none => none
    | some m =>
      if s.objects.fs_supers = [] then
        some (.ok { s with
          loaded := none
          dangling := (fs.exit m).registered
          log := s.log ++ (fs.exit m).log })
      else none
  | .mount a =>
    match s.loaded with
    | some _ => some ((fs.mount a s.objects).map fun r => { s with objects := r.2 })
    | none => if s.dangling then some (.error .freedType) else some (.ok s)
  | .umount sb =>
    if sb ∈ s.objects.fs_supers.map SuperBlock.id then
      some ((fs.kill_sb sb s.objects).map fun o => { s with objects := o })
    else none

end Life

def life (fs : FileSystem) : Machine (Except Fault Life) Event where
  init := .ok Life.unloaded
  step
    | .ok s, e => s.step fs e
    | .error _, _ => none

/-- A load that fails fails at the registration; and a mount gets a root. -/
def Meets (number : Int32) : Except Fault Life → Event → Prop
  | .ok _, .load k => k.register_filesystem ≠ 0 ∨ NothingFails k number
  | .ok s, .mount a =>
    s.loaded.isSome = true → a.sget = true → a.new_inode = true → a.d_make_root = true
  | _, _ => True

/-- Nothing has gone wrong: each superblock has its root, and a module that is not loaded has left
nothing. -/
structure Clean (s : Life) : Prop where
  rooted : Rooted s.objects
  nothing : s.loaded = none → s.dangling = false ∧ LeavesNothing s.log

def Sound (r : Except Fault Life) : Prop := ∃ s, r = .ok s ∧ Clean s

/-- And a module that is loaded has what it takes to be unloaded. -/
structure Lives (fs : FileSystem) (s : Life) : Prop where
  rooted : Rooted s.objects
  listed : s.dangling = false
  log : play Needs ∅ s.log = some ∅
  loaded : ∀ m, s.loaded = some m →
    play Needs ∅ (fs.exit m).log = some ∅ ∧ (fs.exit m).registered = false

variable {number : Int32} {r r' : Except Fault Life} {e : Event}

theorem lives_unloaded (fs : FileSystem) : Lives fs .unloaded where
  rooted := rooted_none
  listed := rfl
  log := rfl
  loaded _ h := absurd h (by simp [Life.unloaded])

theorem Lives.clean {s : Life} (hs : Lives fs s) : Clean s :=
  ⟨hs.rooted, fun _ => ⟨hs.listed, leavesNothing_iff.mpr hs.log⟩⟩

/-- **An event that meets the condition.** -/
theorem lives_step (hfs : FillsSuper fs) (hload : Loads fs number) {s : Life} (hs : Lives fs s)
    (hP : Meets number (.ok s) e) (hstep : s.step fs e = some r') :
    ∃ s', r' = .ok s' ∧ Lives fs s' := by
  cases e with
  | load k =>
    cases hm : s.loaded with
    | some m => simp [Life.step, hm] at hstep
    | none =>
      simp only [Life.step, hm, hs.listed, Bool.false_eq_true, if_false] at hstep
      by_cases hreg : k.register_filesystem = 0
      · obtain ⟨m, hinit, hexit⟩ := hload.loaded k hreg (hP.resolve_left (by simp [hreg]))
        rw [hinit, if_pos rfl] at hstep
        obtain rfl := Option.some.inj hstep
        refine ⟨_, rfl, hs.rooted, rfl, hs.log, fun m' hm' => ?_⟩
        obtain rfl := Option.some.inj hm'
        exact hexit
      · rw [hload.unregistered k hreg, if_neg hreg] at hstep
        obtain rfl := Option.some.inj hstep
        refine ⟨_, rfl, hs.rooted, rfl, ?_, fun m' hm' => absurd hm' (by simp)⟩
        rw [play_append, hs.log]
        rfl
  | unload =>
    cases hm : s.loaded with
    | none => simp [Life.step, hm] at hstep
    | some m =>
      simp only [Life.step, hm] at hstep
      split at hstep
      · obtain rfl := Option.some.inj hstep
        obtain ⟨hplay, hlisted⟩ := hs.loaded m hm
        refine ⟨_, rfl, hs.rooted, hlisted, ?_, fun m' hm' => absurd hm' (by simp)⟩
        rw [play_append, hs.log]
        exact hplay
      · exact absurd hstep (by simp)
  | mount a =>
    cases hm : s.loaded with
    | some m =>
      obtain ⟨error, o', hmount, hrooted⟩ := hs.rooted.mount hfs (a := a) (hP (by simp [hm]))
      simp only [Life.step, hm, hmount, Except.map] at hstep
      obtain rfl := Option.some.inj hstep
      exact ⟨_, rfl, hrooted, hs.listed, hs.log, fun m' hm' => hs.loaded m' (by rw [hm]; exact hm')⟩
    | none =>
      simp only [Life.step, hm, hs.listed, Bool.false_eq_true, if_false] at hstep
      obtain rfl := Option.some.inj hstep
      exact ⟨s, rfl, hs⟩
  | umount sb =>
    simp only [Life.step] at hstep
    split at hstep
    · rename_i hmem
      obtain ⟨x, hx, rfl⟩ := List.mem_map.mp hmem
      obtain ⟨o', hkill, hrooted⟩ := hs.rooted.umount hx
      rw [hfs.kill, hkill] at hstep
      obtain rfl := Option.some.inj hstep
      exact ⟨_, rfl, hrooted, hs.listed, hs.log, hs.loaded⟩
    · exact absurd hstep (by simp)

/-- **One that does not** goes wrong, or leaves something behind. -/
theorem not_sound_step (hfs : FillsSuper fs) (hload : Loads fs number) {s : Life}
    (hs : Lives fs s) (hP : ¬ Meets number (.ok s) e) (hstep : s.step fs e = some r') :
    ¬ Sound r' := by
  cases e with
  | load k =>
    obtain ⟨hreg, hsome⟩ : k.register_filesystem = 0 ∧ ¬ NothingFails k number := by
      simpa [Meets] using hP
    cases hm : s.loaded with
    | some m => simp [Life.step, hm] at hstep
    | none =>
      obtain ⟨herror, hplay⟩ := hload.failed k hreg hsome
      simp only [Life.step, hm, hs.listed, Bool.false_eq_true, if_false, if_neg herror] at hstep
      obtain rfl := Option.some.inj hstep
      rintro ⟨t, ht, hclean⟩
      obtain rfl := Except.ok.inj ht
      have hleft := leavesNothing_iff.mp (hclean.nothing rfl).2
      rw [play_append, hs.log] at hleft
      exact hplay hleft
  | mount a =>
    simp only [Meets, Classical.not_imp] at hP
    obtain ⟨hsome, hsget, hinode, hroot⟩ := hP
    obtain ⟨m, hm⟩ := Option.isSome_iff_exists.mp hsome
    obtain ⟨fault, hmount⟩ := mount_error hfs s.objects hsget hinode (by simpa using hroot)
    simp only [Life.step, hm, hmount, Except.map] at hstep
    obtain rfl := Option.some.inj hstep
    rintro ⟨t, ht, -⟩
    exact absurd ht (by simp)
  | unload => exact absurd trivial hP
  | umount sb => exact absurd trivial hP

theorem life_sound (hfs : FillsSuper fs) (hload : Loads fs number) (es : List Event) :
    (life fs).StatesMeet Sound (.ok .unloaded) es ↔
      (life fs).StepsMeet (Meets number) (.ok .unloaded) es := by
  refine (Machine.stepsMeet_iff_statesMeet (M := life fs)
    (I := fun r => ∃ s, r = .ok s ∧ Lives fs s) ?_ ?_ ?_ ⟨_, rfl, lives_unloaded fs⟩).symm
  · rintro r ⟨s, rfl, hs⟩
    exact ⟨s, rfl, hs.clean⟩
  · rintro r e r' ⟨s, rfl, hs⟩ hP hstep
    exact lives_step hfs hload hs hP hstep
  · rintro r e r' ⟨s, rfl, hs⟩ hP hstep
    exact not_sound_step hfs hload hs hP hstep

/-- **The lives of the two modules.**  Whatever is loaded, mounted, unmounted and unloaded in which
order: no step goes wrong, every superblock has a root of its own, there is no other inode, and an
unloaded module leaves nothing behind, exactly if every load that fails fails at the registration,
and every mount that gets an inode gets a root. -/
theorem life_iff (es : List Event) :
    (∀ number, (life (myfs number)).StatesMeet Sound (.ok .unloaded) es ↔
        (life (myfs number)).StepsMeet (Meets number) (.ok .unloaded) es) ∧
      ((life myVfs).StatesMeet Sound (.ok .unloaded) es ↔
        (life myVfs).StepsMeet (Meets 1) (.ok .unloaded) es) :=
  ⟨fun number => life_sound (myfs_fillsSuper number) (myfs_loads number) es,
    life_sound myVfs_fillsSuper myVfs_loads es⟩

end OsLabs.Vfs
