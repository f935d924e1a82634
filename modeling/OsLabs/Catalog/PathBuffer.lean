/-
# The bytes of the path buffer

`myftw` and `dopath` keep the path of the file that they look at in one global buffer.  A call of
`dopath` makes room for a slash and one name, once, before it reads its directory; the calls that
it makes put their own names behind, and enlarge the buffer when they have to.

Here the walk is a machine that takes one statement after the other, on the bytes of the buffer
and with the calls in progress on a stack.  A store at or behind `pathlen` is a fault, with the
index.  `path_buffer_safe` says that there is none, that a string shorter than `pathlen` is in
the buffer all the time, and that a call leaves the bytes alone that its caller has put there.
-/
import OsLabs.Catalog.Walks
import OsLabs.Lib.Buffer
import OsLabs.Lib.Machine

namespace OsLabs.Catalog

open OsLabs
open OsLabs.FileTree (slash dot NAME_MAX ValidName)
open OsLabs.FileSystem (PATH_MAX)

/-! ## 1. The buffer -/

/-- What a stretch of new memory holds. -/
abbrev Junk : Type := Nat → UInt8

/-- `fullpath` and `pathlen`, which are always set together. -/
structure PathBuffer where
  pathlen : Nat
  fullpath : Buffer pathlen

namespace PathBuffer

/-- `realloc(fullpath, size)` -/
def realloc (b : PathBuffer) (size : Nat) (junk : Junk) : PathBuffer where
  pathlen := size
  fullpath := ⟨(b.fullpath.bytes ++ (List.range size).map junk).take size, by
    rw [List.length_take, List.length_append, List.length_map, List.length_range]
    omega⟩

/-- The string in the buffer. -/
def string (b : PathBuffer) : Except Int Bytes := b.fullpath.cstring 0

def store (b : PathBuffer) (off : Int) (src : Bytes) : Except Int PathBuffer :=
  (b.fullpath.store off src).map fun fullpath => ⟨b.pathlen, fullpath⟩

/-- `strcpy(&fullpath[n], src)` -/
def strcpy (b : PathBuffer) (n : Nat) (src : Bytes) : Except Int PathBuffer :=
  b.store n (src ++ [0])

/-- The check in `dopath`, when `n` is the length of the string. -/
def grow (b : PathBuffer) (n : Nat) (junk : Junk) : PathBuffer :=
  if n + NAME_MAX + 2 > b.pathlen then b.realloc (b.pathlen * 2) junk else b

/-- `fullpath[n++] = '/'; fullpath[n] = 0;` -/
def addSlash (b : PathBuffer) (n : Nat) : Except Int PathBuffer := do
  let b ← b.store n [slash]
  b.store (n + 1 : Nat) [0]

variable {b b' : PathBuffer} {str src : Bytes} {n m size : Nat} {off : Int} {junk : Junk}

theorem string_eq_ok :
    b.string = .ok str ↔ (0 : UInt8) ∉ str ∧ str ++ [0] <+: b.fullpath.bytes := by
  rw [string, Buffer.cstring_zero, ← Buffer.takeWhile_eq_iff]
  split
  · rename_i hmem
    rw [Except.ok.injEq]
    exact ⟨fun h => ⟨hmem, h⟩, fun h => h.2⟩
  · rename_i hmem
    exact ⟨fun h => absurd h (by simp), fun h => absurd h.1 hmem⟩

theorem length_lt (h : b.string = .ok str) : str.length < b.pathlen := by
  have hle := (string_eq_ok.mp h).2.length_le
  rw [List.length_append, List.length_singleton, b.fullpath.length_eq] at hle
  omega

/-- The bytes of the string. -/
theorem take_of_string (h : b.string = .ok str) (hm : m ≤ str.length) :
    b.fullpath.bytes.take m = str.take m := by
  obtain ⟨rest, hrest⟩ := (string_eq_ok.mp h).2
  rw [← hrest, List.append_assoc, List.take_append_of_le_length hm]

/-- **A store inside the buffer** leaves the bytes before it alone. -/
theorem store_ok (b : PathBuffer) (n : Nat) (src : Bytes) (hle : n + src.length ≤ b.pathlen) :
    ∃ b', b.store n src = .ok b' ∧
    b'.pathlen = b.pathlen ∧
    b'.fullpath.bytes = b.fullpath.bytes.take n ++ src ++
      b.fullpath.bytes.drop (n + src.length) ∧
    ∀ m ≤ n, b'.fullpath.bytes.take m = b.fullpath.bytes.take m := by
  obtain ⟨f, hst, hf⟩ := Buffer.store_eq_ok b.fullpath n src (by omega) (by omega)
  rw [Int.toNat_natCast] at hf
  refine ⟨⟨b.pathlen, f⟩, by rw [store, hst]; rfl, rfl, hf, fun m hm => ?_⟩
  have hlen : (b.fullpath.bytes.take n).length = n := by
    rw [List.length_take, b.fullpath.length_eq]
    omega
  rw [hf, List.append_assoc, List.take_append_of_le_length (by omega), List.take_take,
    Nat.min_eq_left hm]

/-- **`strcpy`** behind the first `n` bytes of the string. -/
theorem strcpy_ok (h : b.string = .ok str) (hn : n ≤ str.length) (hsrc : (0 : UInt8) ∉ src)
    (hle : n + src.length < b.pathlen) : ∃ b', b.strcpy n src = .ok b' ∧
      b'.pathlen = b.pathlen ∧ b'.string = .ok (str.take n ++ src) ∧
      ∀ m ≤ n, b'.fullpath.bytes.take m = b.fullpath.bytes.take m := by
  obtain ⟨b', hst, hlen, hbytes, hkept⟩ := store_ok b n (src ++ [0])
    (by rw [List.length_append, List.length_singleton]; omega)
  refine ⟨b', hst, hlen, string_eq_ok.mpr ⟨?_, ?_⟩, hkept⟩
  · rw [List.mem_append, not_or]
    exact ⟨fun hmem => (string_eq_ok.mp h).1 (List.mem_of_mem_take hmem), hsrc⟩
  · rw [hbytes, take_of_string h hn]
    exact ⟨_, by rw [List.append_assoc (str.take n)]⟩

/-- `strcpy` to the front of the buffer, whatever it holds. -/
theorem strcpy_zero (b : PathBuffer) (hsrc : (0 : UInt8) ∉ src) (hlt : src.length < b.pathlen) :
    ∃ b', b.strcpy 0 src = .ok b' ∧ b'.pathlen = b.pathlen ∧ b'.string = .ok src := by
  obtain ⟨b', hst, hlen, hbytes, -⟩ := store_ok b 0 (src ++ [0])
    (by rw [List.length_append, List.length_singleton]; omega)
  refine ⟨b', hst, hlen, string_eq_ok.mpr ⟨hsrc, ?_⟩⟩
  rw [hbytes, List.take_zero, List.nil_append]
  exact List.prefix_append _ _

/-- **The slash** goes where the NUL was. -/
theorem addSlash_ok (h : b.string = .ok str) (hle : str.length + 1 < b.pathlen) :
    ∃ b', b.addSlash str.length = .ok b' ∧ b'.pathlen = b.pathlen ∧
      b'.string = .ok (str ++ [slash]) ∧
      ∀ m ≤ str.length, b'.fullpath.bytes.take m = b.fullpath.bytes.take m := by
  obtain ⟨b₁, hst₁, hlen₁, hbytes₁, hkept₁⟩ :=
    store_ok b str.length [slash] (by rw [List.length_singleton]; omega)
  obtain ⟨b₂, hst₂, hlen₂, hbytes₂, hkept₂⟩ :=
    store_ok b₁ (str.length + 1) [0] (by rw [List.length_singleton]; omega)
  have hpre : b₁.fullpath.bytes.take (str.length + 1) = str ++ [slash] := by
    have hlen : (str ++ [slash]).length = str.length + 1 := by simp
    rw [hbytes₁, take_of_string h (Nat.le_refl _), List.take_length, ← hlen, List.take_left]
  refine ⟨b₂, ?_, hlen₂.trans hlen₁, string_eq_ok.mpr ⟨?_, ?_⟩, fun m hm => ?_⟩
  · rw [addSlash, hst₁]
    exact hst₂
  · rw [List.mem_append, not_or]
    exact ⟨(string_eq_ok.mp h).1, by decide⟩
  · rw [hbytes₂, hpre]
    exact ⟨_, rfl⟩
  · rw [hkept₂ m (by omega), hkept₁ m hm]

/-- A NUL behind the first `n` bytes of the string. -/
theorem cut_ok (h : b.string = .ok str) (hn : n ≤ str.length) : ∃ b', b.store n [0] = .ok b' ∧
    b'.pathlen = b.pathlen ∧ b'.string = .ok (str.take n) ∧
    ∀ m ≤ n, b'.fullpath.bytes.take m = b.fullpath.bytes.take m := by
  have hlt := length_lt h
  have hcpy := strcpy_ok h hn (List.not_mem_nil (a := 0)) (by rw [List.length_nil]; omega)
  rwa [List.append_nil] at hcpy

theorem realloc_ok (h : b.string = .ok str) (hsize : b.pathlen ≤ size) (junk : Junk) :
    (b.realloc size junk).string = .ok str ∧
      ∀ m ≤ b.pathlen, (b.realloc size junk).fullpath.bytes.take m =
        b.fullpath.bytes.take m := by
  have htake : ∀ m ≤ b.pathlen, (b.realloc size junk).fullpath.bytes.take m =
      b.fullpath.bytes.take m := by
    intro m hm
    rw [realloc, List.take_take, Nat.min_eq_left (by omega),
      List.take_append_of_le_length (by rw [b.fullpath.length_eq]; exact hm)]
  obtain ⟨hno, hpre⟩ := string_eq_ok.mp h
  refine ⟨string_eq_ok.mpr ⟨hno, ?_⟩, htake⟩
  have hlen := hpre.length_le
  rw [b.fullpath.length_eq] at hlen
  rw [List.prefix_iff_eq_take.mp hpre, ← htake _ hlen]
  exact List.take_prefix _ _

theorem pathlen_grow (b : PathBuffer) (n : Nat) (junk : Junk) : (b.grow n junk).pathlen =
    if n + NAME_MAX + 2 > b.pathlen then b.pathlen * 2 else b.pathlen := by
  unfold grow
  split <;> rfl

/-- **Doubling once is enough** for a slash and a name. -/
theorem grow_ok (h : b.string = .ok str) (hsize : NAME_MAX + 2 ≤ b.pathlen) (junk : Junk) :
    (b.grow str.length junk).string = .ok str ∧
      b.pathlen ≤ (b.grow str.length junk).pathlen ∧
      str.length + NAME_MAX + 2 ≤ (b.grow str.length junk).pathlen ∧
      ∀ m ≤ str.length, (b.grow str.length junk).fullpath.bytes.take m =
        b.fullpath.bytes.take m := by
  have hlt := length_lt h
  by_cases hgrow : str.length + NAME_MAX + 2 > b.pathlen
  · rw [grow, if_pos hgrow]
    have hdouble : b.pathlen ≤ b.pathlen * 2 := by omega
    obtain ⟨hstr, hkept⟩ := realloc_ok h hdouble junk
    have hlen : (b.realloc (b.pathlen * 2) junk).pathlen = b.pathlen * 2 := rfl
    exact ⟨hstr, by omega, by omega, fun m hm => hkept m (by omega)⟩
  · rw [grow, if_neg hgrow]
    exact ⟨h, Nat.le_refl _, by omega, fun _ _ => rfl⟩

end PathBuffer

/-! ## 2. The walk, statement by statement -/

/-- The next statement: of `myftw`, or of the innermost `dopath`: `lstat` and the callback; the
check, with what `lstat` has found; the slash behind the first `n` bytes; `opendir`; `readdir`;
the slash's removal, with what will be returned; or what stands behind a call that has returned
`ret`. -/
inductive Pc
  | myftw (pathname : Bytes)
  | dopath
  | grow (node : Loc × Stat)
  | addSlash (node : Loc × Stat) (n : Nat)
  | opendir (node : Loc × Stat) (n : Nat)
  | readdir
  | cut (ret : Int)
  | returned (ret : Int)
deriving DecidableEq

/-- A call of `dopath` that reads its directory: the length of its path with the slash, and the
entries still to come. -/
structure Frame where
  n : Nat
  names : List Name
deriving DecidableEq

/-- The buffer, the callback's state, the calls in progress, the innermost first, and the next
statement. -/
structure Walker (σ : Type) where
  buf : PathBuffer
  seen : Seen σ
  frames : List Frame
  pc : Pc

variable {σ : Type}

/-- The callback is called, and `dopath` returns what it returns. -/
def Walker.visit (s : Walker σ) (func : Handler σ) (str : Bytes) (node : Option (Loc × Stat))
    (type : FTW) : Walker σ :=
  let r := call func str node type s.seen
  { s with seen := r.2, pc := .returned r.1 }

/-- A step; `junk` is what the memory holds that it allocates. -/
def Walker.step (fs : FileSystem) (cwd : Loc) (func : Handler σ) (s : Walker σ) (junk : Junk) :
    Option (Except Int (Walker σ)) :=
  match s.pc, s.frames with
  | .myftw pathname, _ =>
    let buf := if s.buf.pathlen ≤ pathname.length then s.buf.realloc (pathname.length * 2) junk
      else s.buf
    some ((buf.strcpy 0 pathname).map fun buf => { s with buf := buf, pc := .dopath })
  | .dopath, _ => some do
    let str ← s.buf.string
    match fs.lstat cwd str with
    | none => return s.visit func str none .NS
    | some node =>
      if node.2.mode ≠ .dir then return s.visit func str (some node) .F
      else
        let r := call func str (some node) .D s.seen
        if r.1 ≠ 0 then return { s with seen := r.2, pc := .returned r.1 }
        else return { s with seen := r.2, pc := .grow node }
  | .grow node, _ => some do
    let str ← s.buf.string
    return { s with buf := s.buf.grow str.length junk, pc := .addSlash node str.length }
  | .addSlash node n, _ =>
    some ((s.buf.addSlash n).map fun buf => { s with buf := buf, pc := .opendir node (n + 1) })
  | .opendir node n, _ => some do
    let str ← s.buf.string
    match fs.opendir cwd str with
    | none => return s.visit func str (some node) .DNR
    | some names => return { s with frames := ⟨n, names⟩ :: s.frames, pc := .readdir }
  | .readdir, ⟨n, names⟩ :: frames =>
    match names with
    | [] => some (.ok { s with pc := .cut 0 })
    | d_name :: names =>
      if d_name = [dot] ∨ d_name = [dot, dot] then
        some (.ok { s with frames := ⟨n, names⟩ :: frames })
      else some ((s.buf.strcpy n d_name).map fun buf =>
        { s with buf := buf, frames := ⟨n, names⟩ :: frames, pc := .dopath })
  | .returned ret, _ :: _ =>
    some (.ok { s with pc := if ret ≠ 0 then .cut ret else .readdir })
  | .cut ret, ⟨n, _⟩ :: frames =>
    some ((s.buf.store ((n : Int) - 1) [0]).map fun buf =>
      { s with buf := buf, frames := frames, pc := .returned ret })
  | _, [] => none

/-- `myftw` with what `path_alloc` returns. -/
def walker (fs : FileSystem) (cwd : Loc) (func : Handler σ) (buf : PathBuffer) (pathname : Bytes)
    (seen : Seen σ) : Machine (Except Int (Walker σ)) Junk where
  init := .ok ⟨buf, seen, [], .myftw pathname⟩
  step
    | .ok s, junk => s.step fs cwd func junk
    | .error _, _ => none

/-! ## 3. The paths on the stack -/

/-- The path of each call is a beginning of the path of the next one, `len` bytes long at
last. -/
def Stacked : Nat → List Frame → Prop
  | _, [] => True
  | len, f :: frames => 1 ≤ f.n ∧ f.n ≤ len ∧ Stacked (f.n - 1) frames

/-- Room behind the path for every entry that is still to come. -/
structure Roomed (pathlen : Nat) (f : Frame) : Prop where
  room : f.n + NAME_MAX < pathlen
  names : ∀ m ∈ f.names, m ≠ [dot] → m ≠ [dot, dot] → ValidName m

/-- What the next statement needs of the string and the stack. -/
def Pc.Needs (str : Bytes) (pathlen : Nat) (frames : List Frame) : Pc → Prop
  | .myftw _ => False
  | .grow _ => str.length < PATH_MAX
  | .addSlash _ n => str.length = n ∧ n < PATH_MAX ∧ n + NAME_MAX + 2 ≤ pathlen
  | .opendir _ n => str.length = n ∧ 1 ≤ n ∧ n + NAME_MAX < pathlen ∧ Stacked (n - 1) frames
  | _ => True

/-- The state of the recursion when the string `str` is in the buffer. -/
structure WalkInv (s : Walker σ) (str : Bytes) : Prop where
  string : s.buf.string = .ok str
  pathlen : NAME_MAX + 2 ≤ s.buf.pathlen
  stacked : Stacked str.length s.frames
  roomed : ∀ f ∈ s.frames, Roomed s.buf.pathlen f
  needs : s.pc.Needs str s.buf.pathlen s.frames

variable {fs : FileSystem} {cwd : Loc} {func : Handler σ} {s s' : Walker σ} {str : Bytes}
  {junk : Junk} {len len' pathlen pathlen' n : Nat} {f : Frame} {frames : List Frame}
  {r : Except Int (Walker σ)} {node : Loc × Stat} {d_name : Name} {names : List Name}

theorem Stacked.mono (h : Stacked len frames) (hle : len ≤ len') : Stacked len' frames := by
  cases frames with
  | nil => trivial
  | cons f frames => exact ⟨h.1, Nat.le_trans h.2.1 hle, h.2.2⟩

theorem Stacked.le_of_mem (h : Stacked len frames) (hf : f ∈ frames) : 1 ≤ f.n ∧ f.n ≤ len := by
  induction frames generalizing len with
  | nil => exact absurd hf List.not_mem_nil
  | cons g frames ih =>
    obtain ⟨h1, hle, hrest⟩ := h
    rcases List.mem_cons.mp hf with rfl | hf
    · exact ⟨h1, hle⟩
    · obtain ⟨h1', hle'⟩ := ih hrest hf
      exact ⟨h1', by omega⟩

theorem Roomed.mono (h : Roomed pathlen f) (hle : pathlen ≤ pathlen') : Roomed pathlen' f :=
  ⟨Nat.lt_of_lt_of_le h.room hle, h.names⟩

/-- An entry has been read. -/
theorem roomed_tail
    (h : ∀ f ∈ ⟨n, d_name :: names⟩ :: frames, Roomed pathlen f) :
    ∀ f ∈ ⟨n, names⟩ :: frames, Roomed pathlen f := by
  intro f hf
  rcases List.mem_cons.mp hf with rfl | hf
  · obtain ⟨hroom, hnames⟩ := h _ List.mem_cons_self
    exact ⟨hroom, fun m hm => hnames m (List.mem_cons_of_mem d_name hm)⟩
  · exact h f (List.mem_cons_of_mem _ hf)

/-- The names that `readdir` lists fit. -/
theorem validName_of_opendir {path : Bytes} {names : List Name}
    (h : fs.opendir cwd path = some names) :
    ∀ m ∈ names, m ≠ [dot] → m ≠ [dot, dot] → ValidName m := by
  obtain ⟨loc, ino, x, es, -, hat, rfl⟩ := FileSystem.opendir_cases h
  intro m hm h1 h2
  obtain ⟨e, he, rfl⟩ := List.mem_map.mp
    ((List.mem_cons.mp ((List.mem_cons.mp hm).resolve_left h1)).resolve_left h2)
  exact ((fs.namesOk.at? hat).self).2 e he

/-- **What a step can do** to the buffer and the stack: it meets no fault. -/
inductive Moves (s : Walker σ) (str : Bytes) : Walker σ → Prop
  | visit {seen : Seen σ} {ret : Int} : (∀ r, s.pc ≠ .cut r) → (∀ r, s.pc ≠ .returned r) →
      s.pc ≠ .readdir → Moves s str { s with seen := seen, pc := .returned ret }
  | enter {seen : Seen σ} {node : Loc × Stat} : s.pc = .dopath → str.length < PATH_MAX →
      Moves s str { s with seen := seen, pc := .grow node }
  | grow {node : Loc × Stat} {buf : PathBuffer} : s.pc = .grow node → buf.string = .ok str →
      s.buf.pathlen ≤ buf.pathlen → str.length + NAME_MAX + 2 ≤ buf.pathlen →
      (∀ m ≤ str.length, buf.fullpath.bytes.take m = s.buf.fullpath.bytes.take m) →
      Moves s str { s with buf := buf, pc := .addSlash node str.length }
  | addSlash {node : Loc × Stat} {n : Nat} {buf : PathBuffer} : s.pc = .addSlash node n →
      buf.string = .ok (str ++ [slash]) → buf.pathlen = s.buf.pathlen →
      (∀ m ≤ str.length, buf.fullpath.bytes.take m = s.buf.fullpath.bytes.take m) →
      Moves s str { s with buf := buf, pc := .opendir node (n + 1) }
  | list {node : Loc × Stat} {n : Nat} {names : List Name} : s.pc = .opendir node n →
      (∀ m ∈ names, m ≠ [dot] → m ≠ [dot, dot] → ValidName m) →
      Moves s str { s with frames := ⟨n, names⟩ :: s.frames, pc := .readdir }
  | skip {n : Nat} {d_name : Name} {names : List Name} {frames : List Frame} :
      s.pc = .readdir → s.frames = ⟨n, d_name :: names⟩ :: frames →
      Moves s str { s with frames := ⟨n, names⟩ :: frames, pc := .readdir }
  | recurse {n : Nat} {d_name : Name} {names : List Name} {frames : List Frame}
      {buf : PathBuffer} : s.pc = .readdir → s.frames = ⟨n, d_name :: names⟩ :: frames →
      buf.string = .ok (str.take n ++ d_name) → buf.pathlen = s.buf.pathlen →
      (∀ m ≤ n, buf.fullpath.bytes.take m = s.buf.fullpath.bytes.take m) →
      Moves s str { s with buf := buf, frames := ⟨n, names⟩ :: frames, pc := .dopath }
  | finish {ret : Int} {f : Frame} {frames : List Frame} :
      s.pc = .readdir ∨ s.pc = .returned ret → s.frames = f :: frames →
      Moves s str { s with frames := f :: frames, pc := .cut ret }
  | again {ret : Int} {f : Frame} {frames : List Frame} : s.pc = .returned ret →
      s.frames = f :: frames → Moves s str { s with frames := f :: frames, pc := .readdir }
  | cut {ret : Int} {f : Frame} {frames : List Frame} {buf : PathBuffer} :
      s.pc = .cut ret → s.frames = f :: frames → buf.string = .ok (str.take (f.n - 1)) →
      buf.pathlen = s.buf.pathlen →
      (∀ m ≤ f.n - 1, buf.fullpath.bytes.take m = s.buf.fullpath.bytes.take m) →
      Moves s str { s with buf := buf, frames := frames, pc := .returned ret }

/-! What `dopath` does next, case by case. -/

theorem step_missing (hpc : s.pc = .dopath) (hstr : s.buf.string = .ok str)
    (hnode : fs.lstat cwd str = none) :
    s.step fs cwd func junk = some (.ok (s.visit func str none .NS)) := by
  rw [Walker.step, hpc, hstr]
  simp only [bind, Except.bind, hnode]
  rfl

theorem step_file (hpc : s.pc = .dopath) (hstr : s.buf.string = .ok str)
    (hnode : fs.lstat cwd str = some node) (hfile : node.2.mode ≠ .dir) :
    s.step fs cwd func junk = some (.ok (s.visit func str (some node) .F)) := by
  rw [Walker.step, hpc, hstr]
  simp only [bind, Except.bind, hnode, if_pos hfile]
  rfl

theorem step_refused (hpc : s.pc = .dopath) (hstr : s.buf.string = .ok str)
    (hnode : fs.lstat cwd str = some node) (hdir : node.2.mode = .dir)
    (hret : (call func str (some node) .D s.seen).1 ≠ 0) :
    s.step fs cwd func junk = some (.ok (s.visit func str (some node) .D)) := by
  rw [Walker.step, hpc, hstr]
  simp only [bind, Except.bind, hnode, if_neg (not_not_intro hdir), if_pos hret]
  rfl

theorem step_enter (hpc : s.pc = .dopath) (hstr : s.buf.string = .ok str)
    (hnode : fs.lstat cwd str = some node) (hdir : node.2.mode = .dir)
    (hret : (call func str (some node) .D s.seen).1 = 0) :
    s.step fs cwd func junk =
      some (.ok { s with seen := (call func str (some node) .D s.seen).2, pc := .grow node }) := by
  rw [Walker.step, hpc, hstr]
  simp only [bind, Except.bind, hnode, if_neg (not_not_intro hdir), if_neg (not_not_intro hret)]
  rfl

theorem step_grow (hpc : s.pc = .grow node) (hstr : s.buf.string = .ok str) :
    s.step fs cwd func junk =
      some (.ok { s with buf := s.buf.grow str.length junk, pc := .addSlash node str.length }) := by
  rw [Walker.step, hpc, hstr]
  rfl

theorem step_addSlash {buf : PathBuffer} (hpc : s.pc = .addSlash node n)
    (hst : s.buf.addSlash n = .ok buf) : s.step fs cwd func junk =
      some (.ok { s with buf := buf, pc := .opendir node (n + 1) }) := by
  rw [Walker.step, hpc]
  simp only [hst]
  rfl

theorem step_unreadable (hpc : s.pc = .opendir node n) (hstr : s.buf.string = .ok str)
    (hnames : fs.opendir cwd str = none) :
    s.step fs cwd func junk = some (.ok (s.visit func str (some node) .DNR)) := by
  rw [Walker.step, hpc, hstr]
  simp only [bind, Except.bind, hnames]
  rfl

theorem step_list (hpc : s.pc = .opendir node n) (hstr : s.buf.string = .ok str)
    (hnames : fs.opendir cwd str = some names) :
    s.step fs cwd func junk =
      some (.ok { s with frames := ⟨n, names⟩ :: s.frames, pc := .readdir }) := by
  rw [Walker.step, hpc, hstr]
  simp only [bind, Except.bind, hnames]
  rfl

theorem step_skip (hpc : s.pc = .readdir) (hframes : s.frames = ⟨n, d_name :: names⟩ :: frames)
    (hdots : d_name = [dot] ∨ d_name = [dot, dot]) : s.step fs cwd func junk =
      some (.ok { s with frames := ⟨n, names⟩ :: frames, pc := .readdir }) := by
  rw [Walker.step, hpc, hframes]
  simp only [if_pos hdots]

theorem step_recurse {buf : PathBuffer} (hpc : s.pc = .readdir)
    (hframes : s.frames = ⟨n, d_name :: names⟩ :: frames)
    (hdots : ¬ (d_name = [dot] ∨ d_name = [dot, dot])) (hcpy : s.buf.strcpy n d_name = .ok buf) :
    s.step fs cwd func junk =
      some (.ok { s with buf := buf, frames := ⟨n, names⟩ :: frames, pc := .dopath }) := by
  rw [Walker.step, hpc, hframes]
  simp only [if_neg hdots, hcpy]
  rfl

theorem step_returned {ret : Int} (hpc : s.pc = .returned ret) (hframes : s.frames = f :: frames) :
    s.step fs cwd func junk = some (.ok
      { s with frames := f :: frames, pc := if ret ≠ 0 then .cut ret else .readdir }) := by
  rw [Walker.step, hpc, hframes]

/-- The index in `fullpath[n-1] = 0` is not negative. -/
theorem step_cut {ret : Int} {buf : PathBuffer} (hpc : s.pc = .cut ret)
    (hframes : s.frames = f :: frames) (h1 : 1 ≤ f.n)
    (hst : s.buf.store (f.n - 1 : Nat) [0] = .ok buf) :
    s.step fs cwd func junk =
      some (.ok { s with buf := buf, frames := frames, pc := .returned ret }) := by
  have hcast : (f.n : Int) - 1 = (f.n - 1 : Nat) := by omega
  rw [Walker.step, hpc, hframes]
  simp only [hcast, hst]
  rfl

theorem moves_visit {node : Option (Loc × Stat)} {type : FTW}
    (h : (∃ node n, s.pc = .opendir node n) ∨ s.pc = .dopath) :
    Moves s str (s.visit func str node type) := by
  refine Moves.visit ?_ ?_ ?_
  all_goals rcases h with ⟨node, n, hpc⟩ | hpc <;> simp [hpc]

/-- `dopath` up to the check. -/
theorem moves_dopath (h : WalkInv s str) (hpc : s.pc = .dopath)
    (hstep : s.step fs cwd func junk = some r) : ∃ s', r = .ok s' ∧ Moves s str s' := by
  cases hnode : fs.lstat cwd str with
  | none =>
    rw [step_missing hpc h.string hnode, Option.some.injEq] at hstep
    exact ⟨_, hstep.symm, moves_visit (.inr hpc)⟩
  | some node =>
    by_cases hdir : node.2.mode = .dir
    · by_cases hret : (call func str (some node) .D s.seen).1 = 0
      · rw [step_enter hpc h.string hnode hdir hret, Option.some.injEq] at hstep
        have hlt := (FileSystem.resolve_cases (FileSystem.lstat_cases hnode).1).1.2
        exact ⟨_, hstep.symm, Moves.enter hpc hlt⟩
      · rw [step_refused hpc h.string hnode hdir hret, Option.some.injEq] at hstep
        exact ⟨_, hstep.symm, moves_visit (.inr hpc)⟩
    · rw [step_file hpc h.string hnode hdir, Option.some.injEq] at hstep
      exact ⟨_, hstep.symm, moves_visit (.inr hpc)⟩

theorem moves_opendir (h : WalkInv s str) (hpc : s.pc = .opendir node n)
    (hstep : s.step fs cwd func junk = some r) : ∃ s', r = .ok s' ∧ Moves s str s' := by
  cases hnames : fs.opendir cwd str with
  | none =>
    rw [step_unreadable hpc h.string hnames, Option.some.injEq] at hstep
    exact ⟨_, hstep.symm, moves_visit (.inl ⟨node, n, hpc⟩)⟩
  | some names =>
    rw [step_list hpc h.string hnames, Option.some.injEq] at hstep
    exact ⟨_, hstep.symm, Moves.list hpc (validName_of_opendir hnames)⟩

/-- **A name fits** behind the path of the directory that is being read. -/
theorem WalkInv.strcpy_ok (h : WalkInv s str) (hframes : s.frames = ⟨n, d_name :: names⟩ :: frames)
    (hdots : ¬ (d_name = [dot] ∨ d_name = [dot, dot])) : ValidName d_name ∧ n ≤ str.length ∧
      n + d_name.length < s.buf.pathlen ∧ ∃ buf, s.buf.strcpy n d_name = .ok buf ∧
      buf.pathlen = s.buf.pathlen ∧ buf.string = .ok (str.take n ++ d_name) ∧
      ∀ m ≤ n, buf.fullpath.bytes.take m = s.buf.fullpath.bytes.take m := by
  have hroom := h.roomed ⟨n, d_name :: names⟩ (by simp [hframes])
  have hle := (hframes ▸ h.stacked).2.1
  obtain ⟨hne₁, hne₂⟩ := not_or.mp hdots
  have hvalid := hroom.names d_name List.mem_cons_self hne₁ hne₂
  have hlt : n + d_name.length < s.buf.pathlen :=
    Nat.lt_of_le_of_lt (Nat.add_le_add_left hvalid.length_le n) hroom.room
  exact ⟨hvalid, hle, hlt, PathBuffer.strcpy_ok h.string hle hvalid.no_nul hlt⟩

/-- The loop of `dopath`. -/
theorem moves_readdir (h : WalkInv s str) (hpc : s.pc = .readdir)
    (hframes : s.frames = ⟨n, names⟩ :: frames)
    (hstep : s.step fs cwd func junk = some r) : ∃ s', r = .ok s' ∧ Moves s str s' := by
  cases names with
  | nil =>
    rw [Walker.step, hpc, hframes, Option.some.injEq] at hstep
    exact ⟨_, hstep.symm, Moves.finish (.inl hpc) hframes⟩
  | cons d_name names =>
    by_cases hdots : d_name = [dot] ∨ d_name = [dot, dot]
    · rw [step_skip hpc hframes hdots, Option.some.injEq] at hstep
      exact ⟨_, hstep.symm, Moves.skip hpc hframes⟩
    · obtain ⟨-, -, -, buf, hcpy, hlen, hstr, hkept⟩ := h.strcpy_ok hframes hdots
      rw [step_recurse hpc hframes hdots hcpy, Option.some.injEq] at hstep
      exact ⟨_, hstep.symm, Moves.recurse hpc hframes hstr hlen hkept⟩

/-- There is a frame where the statement belongs to a loop, or to what called. -/
theorem frames_of_step
    (hpc : s.pc = .readdir ∨ ∃ ret, s.pc = .cut ret ∨ s.pc = .returned ret)
    (hstep : s.step fs cwd func junk = some r) : ∃ f frames, s.frames = f :: frames := by
  cases hframes : s.frames with
  | cons f frames => exact ⟨f, frames, rfl⟩
  | nil =>
    rcases hpc with hpc | ⟨ret, hpc | hpc⟩
    all_goals
      rw [Walker.step, hpc, hframes] at hstep
      exact absurd hstep (by simp)

/-- **No step goes wrong**, and what it does is one of the moves. -/
theorem moves_of_step (h : WalkInv s str) (hstep : s.step fs cwd func junk = some r) :
    ∃ s', r = .ok s' ∧ Moves s str s' := by
  have hneeds := h.needs
  cases hpc : s.pc with
  | myftw pathname =>
    rw [hpc] at hneeds
    exact hneeds.elim
  | dopath => exact moves_dopath h hpc hstep
  | grow node =>
    rw [step_grow hpc h.string, Option.some.injEq] at hstep
    obtain ⟨hstr, hlen, hroom, hkept⟩ := PathBuffer.grow_ok h.string h.pathlen junk
    exact ⟨_, hstep.symm, Moves.grow hpc hstr hlen hroom hkept⟩
  | addSlash node n =>
    rw [hpc] at hneeds
    obtain ⟨rfl, -, hroom⟩ := hneeds
    obtain ⟨buf, hst, hlen, hstr, hkept⟩ := PathBuffer.addSlash_ok h.string (by omega)
    rw [step_addSlash hpc hst, Option.some.injEq] at hstep
    exact ⟨_, hstep.symm, Moves.addSlash hpc hstr hlen hkept⟩
  | opendir node n => exact moves_opendir h hpc hstep
  | readdir =>
    obtain ⟨f, frames, hframes⟩ := frames_of_step (.inl hpc) hstep
    exact moves_readdir h hpc hframes hstep
  | cut ret =>
    obtain ⟨f, frames, hframes⟩ := frames_of_step (.inr ⟨ret, .inl hpc⟩) hstep
    obtain ⟨h1, hle, -⟩ := hframes ▸ h.stacked
    obtain ⟨buf, hst, hlen, hstr, hkept⟩ :=
      PathBuffer.cut_ok h.string (show f.n - 1 ≤ str.length by omega)
    rw [step_cut hpc hframes h1 hst, Option.some.injEq] at hstep
    exact ⟨_, hstep.symm, Moves.cut hpc hframes hstr hlen hkept⟩
  | returned ret =>
    obtain ⟨f, frames, hframes⟩ := frames_of_step (.inr ⟨ret, .inr hpc⟩) hstep
    rw [step_returned hpc hframes, Option.some.injEq] at hstep
    by_cases hret : ret ≠ 0
    · rw [if_pos hret] at hstep
      exact ⟨_, hstep.symm, Moves.finish (.inr hpc) hframes⟩
    · rw [if_neg hret] at hstep
      exact ⟨_, hstep.symm, Moves.again hpc hframes⟩

/-- **The invariant is kept**, by every move. -/
theorem WalkInv.step (h : WalkInv s str) (hm : Moves s str s') : ∃ str', WalkInv s' str' := by
  obtain ⟨hstr, hlen, hstacked, hroomed, hneeds⟩ := h
  cases hm with
  | visit => exact ⟨str, hstr, hlen, hstacked, hroomed, trivial⟩
  | enter hpc hlt => exact ⟨str, hstr, hlen, hstacked, hroomed, hlt⟩
  | grow hpc hstr' hle hroom =>
    rw [hpc] at hneeds
    exact ⟨str, hstr', Nat.le_trans hlen hle, hstacked, fun f hf => (hroomed f hf).mono hle, rfl,
      hneeds, hroom⟩
  | addSlash hpc hstr' hle =>
    rw [hpc] at hneeds
    obtain ⟨rfl, -, hroom⟩ := hneeds
    have hlen' : (str ++ [slash]).length = str.length + 1 := by simp
    exact ⟨str ++ [slash], hstr', hle ▸ hlen, hstacked.mono (by simp), hle ▸ hroomed, hlen',
      Nat.le_add_left _ _, by simp only [hle]; omega, hstacked⟩
  | list hpc hvalid =>
    rw [hpc] at hneeds
    obtain ⟨rfl, h1, hroom, hbelow⟩ := hneeds
    refine ⟨str, hstr, hlen, ⟨h1, Nat.le_refl _, hbelow⟩, fun f hf => ?_, trivial⟩
    rcases List.mem_cons.mp hf with rfl | hf
    · exact ⟨hroom, hvalid⟩
    · exact hroomed f hf
  | skip hpc hframes =>
    rw [hframes] at hstacked hroomed
    exact ⟨str, hstr, hlen, hstacked, roomed_tail hroomed, trivial⟩
  | @recurse n d_name names frames buf hpc hframes hstr' hle =>
    rw [hframes] at hstacked hroomed
    obtain ⟨h1, hn, hbelow⟩ := hstacked
    have hlen' : n ≤ (str.take n ++ d_name).length := by
      rw [List.length_append, List.length_take_of_le hn]
      exact Nat.le_add_right _ _
    exact ⟨_, hstr', hle ▸ hlen, ⟨h1, hlen', hbelow⟩, hle ▸ roomed_tail hroomed, trivial⟩
  | finish hpc hframes =>
    exact ⟨str, hstr, hlen, hframes ▸ hstacked, hframes ▸ hroomed, trivial⟩
  | again hpc hframes =>
    exact ⟨str, hstr, hlen, hframes ▸ hstacked, hframes ▸ hroomed, trivial⟩
  | @cut ret f frames buf hpc hframes hstr' hle =>
    rw [hframes] at hstacked hroomed
    obtain ⟨h1, hn, hbelow⟩ := hstacked
    have hlen' : (str.take (f.n - 1)).length = f.n - 1 :=
      List.length_take_of_le (by omega)
    exact ⟨_, hstr', hle ▸ hlen, by rw [hlen']; exact hbelow,
      hle ▸ fun g hg => hroomed g (List.mem_cons_of_mem f hg), trivial⟩

theorem WalkInv.step_ok (h : WalkInv s str) (hstep : s.step fs cwd func junk = some r) :
    ∃ s' str', r = .ok s' ∧ Moves s str s' ∧ WalkInv s' str' := by
  obtain ⟨s', rfl, hm⟩ := moves_of_step h hstep
  obtain ⟨str', h'⟩ := h.step hm
  exact ⟨s', str', rfl, hm, h'⟩

/-- `myftw` up to the call. -/
theorem start_ok {buf : PathBuffer} {pathname : Bytes} {seen : Seen σ}
    (hsize : NAME_MAX + 2 ≤ buf.pathlen) (hne : pathname ≠ []) (hno : (0 : UInt8) ∉ pathname)
    (hstep : (walker fs cwd func buf pathname seen).step
      (.ok ⟨buf, seen, [], .myftw pathname⟩) junk = some r) :
    ∃ buf', r = .ok ⟨buf', seen, [], .dopath⟩ ∧
      WalkInv (⟨buf', seen, [], .dopath⟩ : Walker σ) pathname ∧ buf'.pathlen =
        if buf.pathlen ≤ pathname.length then pathname.length * 2 else buf.pathlen := by
  have hpos := List.length_pos_iff.mpr hne
  generalize hb : (if buf.pathlen ≤ pathname.length then
    buf.realloc (pathname.length * 2) junk else buf) = b
  have hsize' : b.pathlen =
      if buf.pathlen ≤ pathname.length then pathname.length * 2 else buf.pathlen := by
    rw [← hb]
    split <;> rfl
  have hroom : pathname.length < b.pathlen ∧ NAME_MAX + 2 ≤ b.pathlen := by
    rw [hsize']
    split <;> omega
  obtain ⟨buf', hcpy, hlen, hstr⟩ := PathBuffer.strcpy_zero b hno hroom.1
  simp only [walker, Walker.step, hb, hcpy, Option.some.injEq] at hstep
  exact ⟨buf', hstep.symm,
    ⟨hstr, hlen ▸ hroom.2, trivial, fun f hf => absurd hf (by simp), trivial⟩, hlen.trans hsize'⟩

/-! ## 4. A call keeps its caller's part of the buffer -/

/-- The statements of `dopath` before its loop, and its return. -/
def Pc.OutsideLoop : Pc → Prop
  | .myftw _ | .readdir | .cut _ => False
  | _ => True

/-- A call of `dopath` that the innermost of `frames` has made is in progress, or it has just
returned. -/
def During (frames : List Frame) (s : Walker σ) : Prop :=
  ∃ inner, s.frames = inner ++ frames ∧ (inner = [] → s.pc.OutsideLoop)

/-- It has just returned. -/
def Returned (frames : List Frame) (s : Walker σ) : Prop :=
  s.frames = frames ∧ ∃ ret, s.pc = .returned ret

theorem not_outsideLoop (h : s.pc = .readdir ∨ ∃ ret, s.pc = .cut ret) :
    ¬ s.pc.OutsideLoop := by
  rcases h with hpc | ⟨ret, hpc⟩ <;> exact hpc ▸ id

/-- A frame that is not the caller's is the call's own. -/
theorem During.inner {g : Frame} {rest : List Frame} (h : During frames s)
    (hframes : s.frames = g :: rest) (hloop : ¬ s.pc.OutsideLoop ∨ s.frames ≠ frames) :
    ∃ inner, rest = inner ++ frames := by
  obtain ⟨inner, heq, hout⟩ := h
  cases inner with
  | nil => exact absurd (hout rfl) (hloop.resolve_right (not_not_intro heq))
  | cons g' inner =>
    rw [hframes, List.cons_append, List.cons.injEq] at heq
    exact ⟨inner, heq.2⟩

/-- **The call goes on**, until it returns. -/
theorem During.step (h : During frames s) (hnot : ¬ Returned frames s) (hm : Moves s str s') :
    During frames s' := by
  have hloop : ∀ ret, s.pc = .returned ret → s.frames ≠ frames :=
    fun ret hpc hframes => hnot ⟨hframes, ret, hpc⟩
  cases hm with
  | visit | enter | grow | addSlash =>
    obtain ⟨inner, heq, -⟩ := h
    exact ⟨inner, heq, fun _ => trivial⟩
  | @list node n names hpc =>
    obtain ⟨inner, heq, -⟩ := h
    exact ⟨⟨n, names⟩ :: inner, by rw [heq]; rfl, fun hnil => absurd hnil (by simp)⟩
  | @skip n d_name names rest hpc hframes =>
    obtain ⟨inner, rfl⟩ := h.inner hframes (.inl (not_outsideLoop (.inl hpc)))
    exact ⟨⟨n, names⟩ :: inner, rfl, fun hnil => absurd hnil (by simp)⟩
  | @recurse n d_name names rest buf hpc hframes =>
    obtain ⟨inner, rfl⟩ := h.inner hframes (.inl (not_outsideLoop (.inl hpc)))
    exact ⟨⟨n, names⟩ :: inner, rfl, fun hnil => absurd hnil (by simp)⟩
  | @finish ret g rest hpc hframes =>
    obtain ⟨inner, rfl⟩ := h.inner hframes <| by
      rcases hpc with hpc | hpc
      · exact .inl (not_outsideLoop (.inl hpc))
      · exact .inr (hloop ret hpc)
    exact ⟨g :: inner, rfl, fun hnil => absurd hnil (by simp)⟩
  | @again ret g rest hpc hframes =>
    obtain ⟨inner, rfl⟩ := h.inner hframes (.inr (hloop ret hpc))
    exact ⟨g :: inner, rfl, fun hnil => absurd hnil (by simp)⟩
  | @cut ret g rest buf hpc hframes =>
    obtain ⟨inner, rfl⟩ := h.inner hframes (.inl (not_outsideLoop (.inr ⟨ret, hpc⟩)))
    exact ⟨inner, rfl, fun _ => trivial⟩

/-- **No step of the call stores into its caller's part.** -/
theorem During.take_eq (h : During (f :: frames) s) (hinv : WalkInv s str) (hm : Moves s str s') :
    s'.buf.fullpath.bytes.take f.n = s.buf.fullpath.bytes.take f.n := by
  have hmem : f ∈ s.frames := by
    obtain ⟨inner, heq, -⟩ := h
    rw [heq]
    exact List.mem_append_right inner List.mem_cons_self
  have hle := (hinv.stacked.le_of_mem hmem).2
  cases hm with
  | visit | enter | list | skip | finish | again => rfl
  | grow hpc hstr hlen hroom hkept => exact hkept f.n hle
  | addSlash hpc hstr hlen hkept => exact hkept f.n hle
  | @recurse n d_name names rest buf hpc hframes hstr hlen hkept =>
    obtain ⟨inner, rfl⟩ := h.inner hframes (.inl (not_outsideLoop (.inl hpc)))
    have hbelow := (hframes ▸ hinv.stacked).2.2
    have hf := (hbelow.le_of_mem (List.mem_append_right inner List.mem_cons_self)).2
    exact hkept f.n (Nat.le_trans hf (Nat.sub_le n 1))
  | @cut ret g rest buf hpc hframes hstr hlen hkept =>
    obtain ⟨inner, rfl⟩ := h.inner hframes (.inl (not_outsideLoop (.inr ⟨ret, hpc⟩)))
    have hbelow := (hframes ▸ hinv.stacked).2.2
    exact hkept f.n (hbelow.le_of_mem (List.mem_append_right inner List.mem_cons_self)).2

/-! ## 5. Whole runs -/

section Runs

variable {buf : PathBuffer} {pathname : Bytes} {seen : Seen σ} {x : Except Int (Walker σ)}

/-- **The reachable states**: the start, and those of the recursion. -/
theorem walkInv_of_reachable (hsize : NAME_MAX + 2 ≤ buf.pathlen) (hne : pathname ≠ [])
    (hno : (0 : UInt8) ∉ pathname)
    (hx : (walker fs cwd func buf pathname seen).Reachable x) :
    x = .ok ⟨buf, seen, [], .myftw pathname⟩ ∨ ∃ s str, x = .ok s ∧ WalkInv s str := by
  refine Machine.reachable_rule (I := fun x : Except Int (Walker σ) =>
    x = .ok ⟨buf, seen, [], .myftw pathname⟩ ∨ ∃ s str, x = .ok s ∧ WalkInv s str) (.inl rfl) ?_ hx
  rintro x junk x' (rfl | ⟨s, str, rfl, h⟩) hstep
  · obtain ⟨buf', rfl, h, -⟩ := start_ok hsize hne hno hstep
    exact .inr ⟨_, pathname, rfl, h⟩
  · obtain ⟨s', str', rfl, -, h'⟩ := h.step_ok hstep
    exact .inr ⟨s', str', rfl, h'⟩

/-- **A call and its caller's part**: as long as it has not returned, and when it has. -/
theorem kept_during (h : WalkInv s str) (hpc : s.pc = .dopath) (hframes : s.frames = f :: frames)
    {as : List Junk} (has : (walker fs cwd func buf pathname seen).StepsMeet
      (fun x _ => ∀ u, x = .ok u → ¬ Returned (f :: frames) u) (.ok s) as) :
    (walker fs cwd func buf pathname seen).StatesMeet
      (fun x => ∃ u, x = .ok u ∧ u.buf.fullpath.bytes.take f.n = s.buf.fullpath.bytes.take f.n)
      (.ok s) as := by
  have hstart : During (f :: frames) s := ⟨[], hframes, fun _ => by rw [hpc]; trivial⟩
  refine Machine.StatesMeet.mono ?_ (Machine.statesMeet_of_stepsMeet
    (I := fun x => ∃ u str, x = .ok u ∧ WalkInv u str ∧ During (f :: frames) u ∧
      u.buf.fullpath.bytes.take f.n = s.buf.fullpath.bytes.take f.n)
    ?_ ⟨s, str, rfl, h, hstart, rfl⟩ has)
  · rintro x ⟨u, -, rfl, -, -, hkept⟩
    exact ⟨u, rfl, hkept⟩
  · rintro x junk x' ⟨u, str, rfl, hu, hduring, hkept⟩ hnot hstep
    obtain ⟨u', str', rfl, hm, hu'⟩ := hu.step_ok hstep
    exact ⟨u', str', rfl, hu', hduring.step (hnot u rfl) hm,
      (hduring.take_eq hu hm).trans hkept⟩

/-- **The path buffer.**  Started with a size of at least `NAME_MAX + 2`, on any path but the
empty one, in any file system and with any callback, the walk never stores outside the buffer.
From the call of `dopath` on, it holds a string that is shorter than `pathlen`; one doubling has
always made room for a slash, a name and the NUL, and the length of a path that gets them is far
below the limit of an `int`; and a recursive call leaves the path of its caller alone, with the
slash, until it returns. -/
theorem path_buffer_safe (fs : FileSystem) (cwd : Loc) (func : Handler σ) (seen : Seen σ)
    (hsize : NAME_MAX + 2 ≤ buf.pathlen) (hne : pathname ≠ []) (hno : (0 : UInt8) ∉ pathname)
    (hx : (walker fs cwd func buf pathname seen).Reachable x) : ∃ s, x = .ok s ∧
      (s.pc ≠ .myftw pathname → ∃ str, s.buf.string = .ok str ∧ str.length < s.buf.pathlen) ∧
      (∀ node n, s.pc = .addSlash node n → n < PATH_MAX ∧ n + NAME_MAX + 2 ≤ s.buf.pathlen) ∧
      ∀ f frames, s.pc = .dopath → s.frames = f :: frames → ∀ as,
        (walker fs cwd func buf pathname seen).StepsMeet
          (fun x _ => ∀ u, x = .ok u → ¬ Returned (f :: frames) u) x as →
        (walker fs cwd func buf pathname seen).StatesMeet
          (fun x => ∃ u, x = .ok u ∧
            u.buf.fullpath.bytes.take f.n = s.buf.fullpath.bytes.take f.n) x as := by
  rcases walkInv_of_reachable hsize hne hno hx with rfl | ⟨s, str, rfl, h⟩
  · refine ⟨_, rfl, fun hpc => absurd rfl hpc, ?_, ?_⟩
    · intro node n hpc
      exact absurd hpc (by simp)
    · intro f frames hpc
      exact absurd hpc (by simp)
  · refine ⟨s, rfl, fun _ => ⟨str, h.string, PathBuffer.length_lt h.string⟩, ?_, ?_⟩
    · intro node n hpc
      have hneeds := h.needs
      rw [hpc] at hneeds
      exact hneeds.2
    · intro f frames hpc hframes as has
      exact kept_during h hpc hframes has

/-- The walk of the sample from its root, when it calls `dopath` for the first entry: the size
has been doubled. -/
theorem path_buffer_safe_sample : ∃ x,
    (walker sample [] myfunc ⟨257, .zero 257⟩ [slash] ⟨.zero, []⟩).Reachable x ∧
      ∃ s, x = .ok s ∧ s.buf.pathlen = 514 ∧ s.frames = [⟨2, [[108]]⟩] ∧
      (∃ str, s.buf.string = .ok str ∧ str.length < s.buf.pathlen) ∧
      ∀ as, (walker sample [] myfunc ⟨257, .zero 257⟩ [slash] ⟨.zero, []⟩).StepsMeet
          (fun x _ => ∀ u, x = .ok u → ¬ Returned [⟨2, [[108]]⟩] u) x as →
        (walker sample [] myfunc ⟨257, .zero 257⟩ [slash] ⟨.zero, []⟩).StatesMeet
          (fun x => ∃ u, x = .ok u ∧
            u.buf.fullpath.bytes.take 2 = s.buf.fullpath.bytes.take 2) x as := by
  obtain ⟨x, hx, heq⟩ := Machine.reachable_of_run_map
    (M := walker sample [] myfunc ⟨257, .zero 257⟩ [slash] ⟨.zero, []⟩)
    (f := fun x => x.toOption.map fun s => (s.pc, s.frames, s.buf.pathlen))
    (b := some (.dopath, [⟨2, [[108]]⟩], 514)) (List.replicate 8 fun _ => 255) (by decide +kernel)
  obtain ⟨s, rfl, hstr, -, hkept⟩ := path_buffer_safe sample [] myfunc ⟨.zero, []⟩
    (by decide) (by decide) (by decide) hx
  simp only [Except.toOption, Option.map_some, Option.some.injEq, Prod.mk.injEq] at heq
  obtain ⟨hpc, hframes, hlen⟩ := heq
  exact ⟨_, hx, s, rfl, hlen, hframes, hstr (by simp [hpc]), hkept _ _ hpc hframes⟩

end Runs

end OsLabs.Catalog
