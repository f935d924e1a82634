/-
# Two walks through a directory

The program walks a directory twice: `myftw` and `dopath` with the full path of each file in one
global buffer, `my_myftw` and `mydopath` with names relative to the current directory.  Both
call a function for every file, `myfunc` and `counter`, which count the files of each type.

The file system does not change.  The buffer `fullpath` is the string in it and its size; a store
at or after the size is `overflow`.  What is printed is left out, and with it the `depth` of
`mydopath`, which only indents it; `malloc`, `realloc` and `closedir` succeed.
-/
import OsLabs.Lib.FileTree

namespace OsLabs.Catalog

open OsLabs
open OsLabs.FileTree (slash dot NAME_MAX)
open OsLabs.FileSystem (PATH_MAX)

/-! ## 1. Callbacks -/

/-- What the walks say of a file to the function that they call. -/
inductive FTW
  | F
  | D
  | DNR
  | NS
deriving DecidableEq, Repr

/-- A callback: it gets a path or a name, what `lstat` has stored and the type, and returns an
int.  Its own state, the counters for instance, is `σ`. -/
abbrev Handler (σ : Type) : Type := Bytes → Option Stat → FTW → σ → Int × σ

/-- A call of the callback: the node that `lstat` found and what it said of it, and the type. -/
structure Visit where
  node : Option (Loc × Stat)
  type : FTW
deriving DecidableEq, Repr

/-- The callback's state and the calls made so far. -/
structure Seen (σ : Type) where
  user : σ
  visits : List Visit

variable {σ W : Type}

def call (func : Handler σ) (pathname : Bytes) (node : Option (Loc × Stat)) (type : FTW)
    (seen : Seen σ) : Int × Seen σ :=
  let r := func pathname (node.map Prod.snd) type seen.user
  (r.1, ⟨r.2, seen.visits ++ [⟨node, type⟩]⟩)

/-- The counters of one walk. -/
structure Counters where
  nreg : Nat
  ndir : Nat
  nblk : Nat
  nchr : Nat
  nfifo : Nat
  nslink : Nat
  nsock : Nat
deriving DecidableEq, Repr

def Counters.zero : Counters := ⟨0, 0, 0, 0, 0, 0, 0⟩

/-- The switch on the type that `myfunc` and `counter` share, each with its own counters. -/
def tally (statptr : Option Stat) (type : FTW) (c : Counters) : Int × Counters :=
  match type with
  | .F =>
    match statptr.map Stat.mode with
    | some .reg => (0, { c with nreg := c.nreg + 1 })
    | some .blk => (0, { c with nblk := c.nblk + 1 })
    | some .chr => (0, { c with nchr := c.nchr + 1 })
    | some .fifo => (0, { c with nfifo := c.nfifo + 1 })
    | some .lnk => (0, { c with nslink := c.nslink + 1 })
    | some .sock => (0, { c with nsock := c.nsock + 1 })
    | some .dir => (-1, c)
    | none => (0, c)
  | .D => (0, { c with ndir := c.ndir + 1 })
  | .DNR => (-1, c)
  | .NS => (-1, c)

/-- On the counters `nreg`, `ndir`, ... -/
def myfunc : Handler Counters := fun _pathname statptr type => tally statptr type

/-- On the counters `my_nreg`, `my_ndir`, ... -/
def counter : Handler Counters := fun _pathname statptr type => tally statptr type

/-! ## 2. The loop over a directory -/

/-- Why a walk does not return: the bound on its depth, or a store outside the buffer. -/
inductive Stop
  | fuel
  | overflow
deriving DecidableEq, Repr

/-- Read the entries until `visit` returns something other than 0, without `.` and `..`. -/
def eachEntry (visit : Name → W → Except Stop (Int × W)) : List Name → W → Except Stop (Int × W)
  | [], w => .ok (0, w)
  | d_name :: names, w =>
    if d_name = [dot] ∨ d_name = [dot, dot] then eachEntry visit names w
    else do
      let r ← visit d_name w
      if r.1 ≠ 0 then .ok r else eachEntry visit names r.2

/-! ## 3. The walk with full paths -/

/-- The buffer `fullpath`: the string in it, and its size `pathlen`. -/
structure FullPath where
  str : Bytes
  pathlen : Nat
deriving DecidableEq

/-- The answers of `sysconf` about the version of the system. -/
structure SysConf where
  posix_version : Int
  xsi_version : Int

/-- The size of the buffer that `path_alloc` allocates. -/
def path_alloc (conf : SysConf) : Nat :=
  if conf.posix_version < 200112 ∧ conf.xsi_version < 4 then PATH_MAX + 1 else PATH_MAX

namespace FullPath

/-- `strcpy(&fullpath[n], src)`, with the NUL behind it. -/
def strcpy (p : FullPath) (n : Nat) (src : Bytes) : Except Stop FullPath :=
  if n + src.length < p.pathlen then .ok { p with str := p.str.take n ++ src }
  else .error .overflow

/-- `fullpath[n] = 0` -/
def cut (p : FullPath) (n : Nat) : Except Stop FullPath :=
  if n < p.pathlen then .ok { p with str := p.str.take n } else .error .overflow

/-- The size doubles when a slash and a name of NAME_MAX bytes may not fit. -/
def grow (p : FullPath) : FullPath :=
  if p.str.length + NAME_MAX + 2 > p.pathlen then { p with pathlen := p.pathlen * 2 } else p

/-- `fullpath[n++] = '/'; fullpath[n] = 0;` -/
def addSlash (p : FullPath) : Except Stop FullPath :=
  if p.str.length + 1 < p.pathlen then .ok { p with str := p.str ++ [slash] }
  else .error .overflow

end FullPath

structure Walk (σ : Type) where
  path : FullPath
  seen : Seen σ

def Walk.call (func : Handler σ) (node : Option (Loc × Stat)) (type : FTW) (w : Walk σ) :
    Int × Walk σ :=
  let r := Catalog.call func w.path.str node type w.seen
  (r.1, { w with seen := r.2 })

/-- Put the name of an entry behind the first `n` bytes of the buffer, and walk on. -/
def enter (walk : Walk σ → Except Stop (Int × Walk σ)) (n : Nat) (d_name : Name) (w : Walk σ) :
    Except Stop (Int × Walk σ) := do
  let path ← w.path.strcpy n d_name
  walk { w with path := path }

/-- `dopath` in a process whose current directory is `cwd`. -/
def dopath (fs : FileSystem) (cwd : Loc) (func : Handler σ) :
    Nat → Walk σ → Except Stop (Int × Walk σ)
  | 0, _ => .error .fuel
  | fuel + 1, w =>
    match fs.lstat cwd w.path.str with
    | none => .ok (w.call func none .NS)
    | some node =>
      if node.2.mode ≠ .dir then .ok (w.call func (some node) .F)
      else
        let r := w.call func (some node) .D
        if r.1 ≠ 0 then .ok r
        else do
          let path ← r.2.path.grow.addSlash
          let w := { r.2 with path := path }
          match fs.opendir cwd path.str with
          | none => .ok (w.call func (some node) .DNR)
          | some names =>
            let n := path.str.length
            let r ← eachEntry (enter (dopath fs cwd func fuel) n) names w
            let path ← r.2.path.cut (n - 1)
            .ok (r.1, { r.2 with path := path })

/-- `myftw` with the size that `path_alloc` returns. -/
def myftw (fs : FileSystem) (cwd : Loc) (func : Handler σ) (size : Nat) (fuel : Nat)
    (pathname : Bytes) (seen : Seen σ) : Except Stop (Int × Walk σ) := do
  let pathlen := if size ≤ pathname.length then pathname.length * 2 else size
  let path ← FullPath.strcpy ⟨[], pathlen⟩ 0 pathname
  dopath fs cwd func fuel ⟨path, seen⟩

/-! ## 4. The walk with the current directory -/

structure DirWalk (σ : Type) where
  cwd : Loc
  seen : Seen σ

namespace DirWalk

def call (func : Handler σ) (filename : Bytes) (node : Option (Loc × Stat)) (type : FTW)
    (w : DirWalk σ) : Int × DirWalk σ :=
  let r := Catalog.call func filename node type w.seen
  (r.1, { w with seen := r.2 })

/-- `chdir`; its result is ignored. -/
def chdir (fs : FileSystem) (path : Bytes) (w : DirWalk σ) : DirWalk σ :=
  { w with cwd := (fs.chdir w.cwd path).getD w.cwd }

end DirWalk

def mydopath (fs : FileSystem) (func : Handler σ) :
    Nat → Bytes → DirWalk σ → Except Stop (Int × DirWalk σ)
  | 0, _, _ => .error .fuel
  | fuel + 1, filename, w =>
    match fs.lstat w.cwd filename with
    | none => .ok (w.call func filename none .NS)
    | some node =>
      if node.2.mode ≠ .dir then .ok (w.call func filename (some node) .F)
      else
        let r := w.call func filename (some node) .D
        if r.1 ≠ 0 then .ok r
        else
          match fs.opendir w.cwd filename with
          | none => .ok (r.2.call func filename (some node) .DNR)
          | some names => do
            let r ← eachEntry (mydopath fs func fuel) names (r.2.chdir fs filename)
            .ok (r.1, r.2.chdir fs [dot, dot])

def my_myftw (fs : FileSystem) (func : Handler σ) (fuel : Nat) (filename : Bytes)
    (w : DirWalk σ) : Except Stop (Int × DirWalk σ) :=
  mydopath fs func fuel filename w

end OsLabs.Catalog
