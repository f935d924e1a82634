/-
# proc: the whole report

`main` prints eleven sections about a process, each from a file or a directory of its own, and
looks at no result of `fopen` and `opendir`: what could not be opened is read all the same, and
the program dies with the whole report in its buffer.  So the report is complete, and every
section of it right, exactly when everything can be opened and what the single sections ask for
holds (`report_iff`).

What is shown of the process does not change while it is read.  `fread` returns nothing of a
directory that was opened as a file.  `readdir` returns "." and ".." among the other names.
-/
import OsLabs.Proc.Descriptors
import OsLabs.Proc.Maps
import OsLabs.Proc.Stat

namespace OsLabs.Proc

/-! ## 1. The program -/

/-- What the file system has at a path: the bytes of the file that `fopen` opens, the names in
the directory that `opendir` opens, and the target of the link; and whether a file can be
created. -/
structure ProcFs where
  fopen : Bytes → Option Bytes
  opendir : Bytes → Option (List Bytes)
  links : Bytes → Option Bytes
  create : Bytes → Bool

/-- Why the program does not return. -/
inductive Crash
  | stop (s : Stop)
  | overflow
  | null (path : Bytes)
deriving DecidableEq, Repr

/-- The files that are read. -/
inductive File
  | environ | stat | cmdline | cwd | exe | root | maps | io | comm
deriving DecidableEq, Repr

def File.name : File → String
  | .environ => "/environ"
  | .stat => "/stat"
  | .cmdline => "/cmdline"
  | .cwd => "/cwd"
  | .exe => "/exe"
  | .root => "/root"
  | .maps => "/maps"
  | .io => "/io"
  | .comm => "/comm"

/-- The path of a file, cut to `PATH_MAX_LEN`. -/
def File.path (f : File) (proc : Bytes) : Bytes :=
  (ascii "/proc/" ++ proc ++ ascii f.name).take (PATH_MAX_LEN - 1)

/-- `/proc/<pid>/task`, cut to `PATH_MAX_LEN`. -/
def taskPath (proc : Bytes) : Bytes :=
  (ascii "/proc/" ++ proc ++ ascii "/task").take (PATH_MAX_LEN - 1)

/-- A stream or a directory; `NULL` is followed. -/
def opened {α : Type} (path : Bytes) : Option α → Except Crash α
  | none => .error (.null path)
  | some x => .ok x

variable (fs : ProcFs) (proc : Bytes)

/-- A section that is printed from the contents of a file. -/
def ofFile {α : Type} (f : File) (print : Bytes → Result α) : Except Crash α := do
  let content ← opened (f.path proc) (fs.fopen (f.path proc))
  (print content).mapError .stop

/-- `fprintf_sym_cwd`, `fprintf_sym_exe` and `fprintf_sym_root`, from what can be read of the link
itself and from its target. -/
def fprintfSym (heading arrow : String) (link : Option Bytes) (content : Bytes) : Result Bytes := do
  let block := content.take BUF_SIZE
  let buf ← access .buf ((Buffer.zero (BUF_SIZE + 1)).store 0 block)
  let _ ← access .buf (buf.store block.length [0])
  let str ←
    match link with
    | none => .ok (Buffer.zero (BUF_SIZE + 1))
    | some target => access .str ((Buffer.zero (BUF_SIZE + 1)).store 0 (target.take BUF_SIZE))
  let text ← access .str (str.cstring 0)
  return ascii heading ++ (ascii arrow ++ text ++ [newline])

def fprintfSymCwd : Except Crash Bytes :=
  ofFile fs proc .cwd (fprintfSym "CWD SYMLINK\n" "cwd -> " (fs.links (File.cwd.path proc)))

def fprintfSymExe : Except Crash Bytes :=
  ofFile fs proc .exe (fprintfSym "EXE SYMLINK\n" "exe -> " (fs.links (File.exe.path proc)))

def fprintfSymRoot : Except Crash Bytes :=
  ofFile fs proc .root (fprintfSym "ROOT SYMLINK\n" "root -> " (fs.links (File.root.path proc)))

/-- `fprintf_io`, from the contents of `/proc/<pid>/io`. -/
def fprintfIo (content : Bytes) : Result Bytes := do
  let out ← printBlocks (Buffer.zero _) (Strtok.blocks BUF_SIZE content)
  return ascii "IO\n" ++ out

/-- `fprintf_comm`, from the contents of `/proc/<pid>/comm`. -/
def fprintfComm (content : Bytes) : Result Bytes := do
  let block := content.take BUF_SIZE
  let buf ← access .buf ((Buffer.zero (BUF_SIZE + 1)).store 0 block)
  let buf ← access .buf (buf.store block.length [0])
  let text ← access .buf (buf.cstring 0)
  return ascii "COMM\n" ++ (text ++ [newline])

/-- `fprintf_task`, from the names that `readdir` returns: the lines behind the heading. -/
def fprintfTask (names : List Bytes) : List Bytes :=
  (names.filter isDescriptor).map (· ++ [newline])

/-- The sections, in their order.  Of `stat`, `fd`, `maps` and `task` it is what stands behind the
headings. -/
structure Report where
  environ : Bytes
  stat : List Bytes
  cmdline : Bytes
  fd : List Bytes
  cwd : Bytes
  exe : Bytes
  root : Bytes
  maps : MapsSection
  io : Bytes
  comm : Bytes
  task : List Bytes

/-- `main`, with what `addr_begin` and `addr_end` hold at first. -/
def main (junk : Addrs) (out : Bytes) : Except Crash Report := do
  let _ ← opened out (if fs.create out then some () else none)
  let environ ← ofFile fs proc .environ fprintfEnviron
  let stat ← ofFile fs proc .stat fprintfStat
  let cmdline ← ofFile fs proc .cmdline fprintfCmdline
  let fds ← opened (fdPath proc) (fs.opendir (fdPath proc))
  let fd ← (fprintfFd fs.links proc fds).mapError Crash.stop
  let cwd ← fprintfSymCwd fs proc
  let exe ← fprintfSymExe fs proc
  let root ← fprintfSymRoot fs proc
  let content ← opened (File.maps.path proc) (fs.fopen (File.maps.path proc))
  let maps ← (fprintfMaps junk content).mapError fun _ => Crash.overflow
  let io ← ofFile fs proc .io fprintfIo
  let comm ← ofFile fs proc .comm fprintfComm
  let tasks ← opened (taskPath proc) (fs.opendir (taskPath proc))
  return ⟨environ, stat, cmdline, fd, cwd, exe, root, maps, io, comm, fprintfTask tasks⟩

/-! ## 2. The sections of the report -/

section Sections

variable {fs proc}

theorem bind_eq_ok_iff {ε α β : Type} {x : Except ε α} {f : α → Except ε β} {b : β} :
    (x >>= f) = .ok b ↔ ∃ a, x = .ok a ∧ f a = .ok b := by
  cases x with
  | error e => exact iff_of_false (by simp [bind, Except.bind]) fun ⟨_, h, _⟩ => by simp at h
  | ok a => exact ⟨fun h => ⟨a, rfl, h⟩, fun ⟨_, h, hf⟩ => by cases h; exact hf⟩

theorem opened_eq_ok_iff {α : Type} {path : Bytes} {o : Option α} {x : α} :
    opened path o = .ok x ↔ o = some x := by
  cases o with
  | none => simp [opened]
  | some y => simp [opened]

theorem mapError_eq_ok_iff {ε ε' α : Type} {x : Except ε α} {g : ε → ε'} {a : α} :
    x.mapError g = .ok a ↔ x = .ok a := by
  cases x with
  | error e => simp [Except.mapError]
  | ok b => simp [Except.mapError]

theorem ofFile_eq_ok_iff {α : Type} {f : File} {print : Bytes → Result α} {a : α} :
    ofFile fs proc f print = .ok a ↔
      ∃ content, fs.fopen (f.path proc) = some content ∧ print content = .ok a := by
  simp only [ofFile, bind_eq_ok_iff, opened_eq_ok_iff, mapError_eq_ok_iff]

/-- **The report is its sections**: `main` returns what every one of them prints. -/
theorem main_eq_ok_iff {junk : Addrs} {out : Bytes} {r : Report} :
    main fs proc junk out = .ok r ↔ fs.create out = true ∧
      ofFile fs proc .environ fprintfEnviron = .ok r.environ ∧
      ofFile fs proc .stat fprintfStat = .ok r.stat ∧
      ofFile fs proc .cmdline fprintfCmdline = .ok r.cmdline ∧
      (∃ fds, fs.opendir (fdPath proc) = some fds ∧ fprintfFd fs.links proc fds = .ok r.fd) ∧
      fprintfSymCwd fs proc = .ok r.cwd ∧ fprintfSymExe fs proc = .ok r.exe ∧
      fprintfSymRoot fs proc = .ok r.root ∧
      (∃ content, fs.fopen (File.maps.path proc) = some content ∧
        fprintfMaps junk content = .ok r.maps) ∧
      ofFile fs proc .io fprintfIo = .ok r.io ∧ ofFile fs proc .comm fprintfComm = .ok r.comm ∧
      ∃ tasks, fs.opendir (taskPath proc) = some tasks ∧ fprintfTask tasks = r.task := by
  have hcreate : (∃ u, (if fs.create out then some () else none) = some u) ↔
      fs.create out = true := by
    cases fs.create out <;> simp
  simp only [main, bind_eq_ok_iff, opened_eq_ok_iff, mapError_eq_ok_iff, pure, Except.pure,
    Except.ok.injEq]
  constructor
  · rintro ⟨u, hout, environ, henviron, stat, hstat, cmdline, hcmdline, fds, hfds, fd, hfd, cwd,
      hcwd, exe, hexe, root, hroot, content, hcontent, maps, hmaps, io, hio, comm, hcomm, tasks,
      htasks, rfl⟩
    exact ⟨hcreate.mp ⟨u, hout⟩, henviron, hstat, hcmdline, ⟨fds, hfds, hfd⟩, hcwd, hexe, hroot,
      ⟨content, hcontent, hmaps⟩, hio, hcomm, tasks, htasks, rfl⟩
  · rintro ⟨hout, henviron, hstat, hcmdline, ⟨fds, hfds, hfd⟩, hcwd, hexe, hroot,
      ⟨content, hcontent, hmaps⟩, hio, hcomm, tasks, htasks, htask⟩
    obtain ⟨u, hu⟩ := hcreate.mpr hout
    refine ⟨u, hu, _, henviron, _, hstat, _, hcmdline, fds, hfds, _, hfd, _, hcwd, _, hexe, _,
      hroot, content, hcontent, _, hmaps, _, hio, _, hcomm, tasks, htasks, ?_⟩
    rw [htask]

/-- `fprintf_io` prints the whole file, a newline for every NUL. -/
theorem fprintfIo_ok (content : Bytes) :
    fprintfIo content = .ok (ascii "IO\n" ++ nulToNewline content) := by
  have hpos : 0 < BUF_SIZE := by decide
  have hprint := printBlocks_ok (Strtok.blocks BUF_SIZE content) (length_of_mem_blocks hpos content)
    (Buffer.zero _)
  rw [Strtok.flatten_blocks hpos] at hprint
  rw [fprintfIo, ok_bind hprint]
  rfl

/-- `fprintf_comm` prints the first block up to its first NUL. -/
theorem fprintfComm_ok (content : Bytes) : fprintfComm content =
    .ok (ascii "COMM\n" ++ ((content.take BUF_SIZE).takeWhile (· ≠ 0) ++ [newline])) := by
  obtain ⟨b₁, b₂, hst₁, -, hst₂, hstr⟩ := (Buffer.zero (BUF_SIZE + 1)).store_terminate
    (content.take BUF_SIZE) (by rw [List.length_take]; omega)
  rw [fprintfComm, access_bind hst₁, access_bind hst₂, access_bind hstr]
  rfl

/-- Bytes stored in a clear buffer are a string. -/
theorem zero_store_string {n : Nat} (data : Bytes) (h : data.length < n) :
    ∃ b, (Buffer.zero n).store 0 data = .ok b ∧
      b.cstring 0 = .ok (data.takeWhile (· ≠ 0)) := by
  obtain ⟨b, hst, hb⟩ := (Buffer.zero n).store_eq_ok 0 data (Int.le_refl 0) (by omega)
  obtain ⟨k, hk⟩ : ∃ k, n - data.length = k + 1 := ⟨n - data.length - 1, by omega⟩
  rw [Int.toNat_zero, List.take_zero, List.nil_append, Nat.zero_add, Buffer.zero,
    List.drop_replicate, hk, List.replicate_succ] at hb
  exact ⟨b, hst, Buffer.cstring_zero_of_append hb⟩

/-- **The buffer of a link is clear**, so its target is printed, and nothing where it is gone. -/
theorem fprintfSym_ok (heading arrow : String) {link : Option Bytes}
    (h : ∀ target ∈ link, target.length < BUF_SIZE ∧ (0 : UInt8) ∉ target) (content : Bytes) :
    fprintfSym heading arrow link content =
      .ok (ascii heading ++ (ascii arrow ++ link.getD [] ++ [newline])) := by
  obtain ⟨b₁, b₂, hst₁, -, hst₂, -⟩ := (Buffer.zero (BUF_SIZE + 1)).store_terminate
    (content.take BUF_SIZE) (by rw [List.length_take]; omega)
  rw [fprintfSym, access_bind hst₁, access_bind hst₂]
  cases link with
  | none =>
    have hstr : (Buffer.zero (BUF_SIZE + 1)).cstring 0 = .ok [] :=
      Buffer.cstring_zero_of_append (p := []) (q := List.replicate BUF_SIZE 0)
        List.replicate_succ
    dsimp only
    rw [ok_bind rfl, access_bind hstr]
    rfl
  | some target =>
    obtain ⟨hlen, hnul⟩ := h target rfl
    obtain ⟨b, hst, hstr⟩ := zero_store_string (n := BUF_SIZE + 1) target (by omega)
    rw [Buffer.takeWhile_of_no_nul hnul] at hstr
    dsimp only
    rw [List.take_of_length_le (Nat.le_of_lt hlen), access_bind hst, access_bind hstr]
    rfl

/-- A name with its newline is shorter than a block. -/
theorem take_comm (t : StatText) : ((t.comm ++ [newline]).take BUF_SIZE).takeWhile (· ≠ 0) =
    t.comm ++ [newline] := by
  have hle := t.comm_le
  have hlen : (t.comm ++ [newline]).length ≤ BUF_SIZE := by
    rw [List.length_append, List.length_singleton]
    exact Nat.le_trans (Nat.add_le_add_right hle 1) (by decide)
  rw [List.take_of_length_le hlen]
  refine Buffer.takeWhile_of_no_nul fun h => ?_
  rcases List.mem_append.mp h with h | h
  · exact t.comm_noNul h
  · exact absurd (List.mem_singleton.mp h) (by decide)

end Sections

/-! ## 3. The process -/

/-- What there is to say of a process. -/
structure Process (page : Nat) where
  environ : List Bytes
  stat : StatText
  cmdline : List Bytes
  fds : List Bytes
  regions : List (Region page)
  io : Bytes
  /-- The ids of its threads. -/
  threads : List Bytes
  threads_ne : threads ≠ []
  environ_noNul : ∀ s ∈ environ, (0 : UInt8) ∉ s
  cmdline_noNul : ∀ s ∈ cmdline, (0 : UInt8) ∉ s
  io_noNul : (0 : UInt8) ∉ io

variable {page : Nat}

/-- The files are the process's, those that can be opened. -/
structure Shows (fs : ProcFs) (proc : Bytes) (p : Process page) : Prop where
  targets : Targets fs.links
  environ : ∀ c ∈ fs.fopen (File.environ.path proc), c = zstrings p.environ
  stat : ∀ c ∈ fs.fopen (File.stat.path proc), c = p.stat.content
  cmdline : ∀ c ∈ fs.fopen (File.cmdline.path proc), c = zstrings p.cmdline
  fds : ∀ names ∈ fs.opendir (fdPath proc), names = p.fds
  maps : ∀ c ∈ fs.fopen (File.maps.path proc), c = maps p.regions
  io : ∀ c ∈ fs.fopen (File.io.path proc), c = p.io
  comm : ∀ c ∈ fs.fopen (File.comm.path proc), c = p.stat.comm ++ [newline]
  tasks : ∀ names ∈ fs.opendir (taskPath proc),
    (names.filter fun d => d ∉ [ascii ".", ascii ".."]) = p.threads

/-- Everything that is opened can be. -/
structure Opens (fs : ProcFs) (proc out : Bytes) : Prop where
  create : fs.create out = true
  files : ∀ f : File, (fs.fopen (f.path proc)).isSome
  fds : (fs.opendir (fdPath proc)).isSome
  tasks : (fs.opendir (taskPath proc)).isSome

/-- A section about a link. -/
def symSection (heading arrow : String) (link : Option Bytes) : Bytes :=
  ascii heading ++ (ascii arrow ++ link.getD [] ++ [newline])

/-- **Every section is right.** -/
structure Report.Right (r : Report) (fs : ProcFs) (proc : Bytes) (p : Process page) : Prop where
  environ : r.environ = ascii "ENVIRON\n" ++ listing p.environ
  stat : p.stat.Labelled r.stat
  cmdline : r.cmdline = ascii "CMDLINE\n" ++ listing p.cmdline
  fd : r.fd = (descriptors p.fds).map fun d => fdLine d (target fs.links proc d)
  cwd : r.cwd = symSection "CWD SYMLINK\n" "cwd -> " (fs.links (File.cwd.path proc))
  exe : r.exe = symSection "EXE SYMLINK\n" "exe -> " (fs.links (File.exe.path proc))
  root : r.root = symSection "ROOT SYMLINK\n" "root -> " (fs.links (File.root.path proc))
  maps : r.maps = mapsSection p.regions
  io : r.io = ascii "IO\n" ++ p.io
  comm : r.comm = ascii "COMM\n" ++ (p.stat.comm ++ [newline] ++ [newline])
  task : r.task = p.threads.map (· ++ [newline])

/-- What the sections ask for: one argument that fits in a block, a name without a space and a
line of `stat` that fits but for its newline, targets that never get shorter, no region across the
middle of the address space, and sizes whose sum is a `long`. -/
structure Process.Plain (p : Process page) (fs : ProcFs) (proc : Bytes) : Prop where
  argument : ∃ s, p.cmdline = [s] ∧ s.length ≤ BUF_SIZE
  name : space ∉ p.stat.comm
  stat : p.stat.content.length ≤ BUF_SIZE + 1
  targets : (descriptors p.fds).Pairwise fun a b =>
    (target fs.links proc a).length ≤ (target fs.links proc b).length
  half : ∀ R ∈ p.regions, R.OneHalf
  total : totalSize p.regions < 2 ^ 63

variable {fs : ProcFs} {proc out : Bytes} {p : Process page} {r : Report} {junk : Addrs}

/-- A link's section, once what is behind the link can be opened. -/
theorem ofFile_fprintfSym (hl : Targets fs.links) {f : File} {heading arrow : String}
    {path a : Bytes} (hopen : (fs.fopen (f.path proc)).isSome) :
    ofFile fs proc f (fprintfSym heading arrow (fs.links path)) = .ok a ↔
      a = symSection heading arrow (fs.links path) := by
  obtain ⟨content, hcontent⟩ := Option.isSome_iff_exists.mp hopen
  have hsym : ∀ c, fprintfSym heading arrow (fs.links path) c =
      .ok (symSection heading arrow (fs.links path)) :=
    fun c => fprintfSym_ok heading arrow (fun t ht => hl path t ht) c
  rw [ofFile_eq_ok_iff]
  constructor
  · rintro ⟨c, -, hc⟩
    rw [hsym] at hc
    exact (Except.ok.inj hc).symm
  · rintro rfl
    exact ⟨content, hcontent, hsym content⟩

/-- `fprintf_task` prints all names but "." and "..". -/
theorem fprintfTask_eq (names : List Bytes) : fprintfTask names =
    (names.filter fun d => d ∉ [ascii ".", ascii ".."]).map (· ++ [newline]) := by
  refine congrArg (List.map (· ++ [newline])) (List.filter_congr fun d _ => ?_)
  rw [Bool.eq_iff_iff]
  simp [isDescriptor]

/-- What `main` returns was all opened. -/
theorem opens_of_main (h : main fs proc junk out = .ok r) : Opens fs proc out := by
  obtain ⟨hout, henviron, hstat, hcmdline, ⟨fds, hfds, -⟩, hcwd, hexe, hroot, ⟨maps, hmaps, -⟩,
    hio, hcomm, tasks, htasks, -⟩ := main_eq_ok_iff.mp h
  have hsome : ∀ {α : Type} {f : File} {print : Bytes → Result α} {a : α},
      ofFile fs proc f print = .ok a → (fs.fopen (f.path proc)).isSome := by
    intro α f print a hf
    obtain ⟨content, hcontent, -⟩ := ofFile_eq_ok_iff.mp hf
    rw [hcontent]
    rfl
  refine ⟨hout, fun f => ?_, by rw [hfds]; rfl, by rw [htasks]; rfl⟩
  cases f with
  | environ => exact hsome henviron
  | stat => exact hsome hstat
  | cmdline => exact hsome hcmdline
  | cwd => exact hsome hcwd
  | exe => exact hsome hexe
  | root => exact hsome hroot
  | maps => rw [hmaps]; rfl
  | io => exact hsome hio
  | comm => exact hsome hcomm

/-- A complete report is right only of a plain process. -/
theorem plain_of_right (h : Shows fs proc p) (hok : main fs proc junk out = .ok r)
    (hright : r.Right fs proc p) : p.Plain fs proc := by
  obtain ⟨-, -, hstat, hcmdline, ⟨fds, hfds, hfd⟩, -, -, -, ⟨content, hcontent, hmaps⟩, -, -, -⟩ :=
    main_eq_ok_iff.mp hok
  obtain ⟨stat, hsome, hprinted⟩ := ofFile_eq_ok_iff.mp hstat
  obtain rfl := h.stat stat hsome
  have hfits : p.stat.content.length ≤ BUF_SIZE + 1 := by
    by_contra hcut
    exact p.stat.not_labelled_of_cut (by omega) hprinted hright.stat
  obtain ⟨args, hargs, hline⟩ := ofFile_eq_ok_iff.mp hcmdline
  obtain rfl := h.cmdline args hargs
  rw [fprintfCmdline_ok, hright.cmdline, Except.ok.injEq, List.append_cancel_left_eq,
    firstString_eq_listing_iff p.cmdline_noNul] at hline
  obtain rfl := h.fds fds hfds
  rw [fprintfFd, fdLines_ok h.targets proc p.fds holds_zero, hright.fd, Except.ok.injEq,
    printed_eq_iff] at hfd
  obtain rfl := h.maps content hcontent
  rw [hright.maps, maps_iff] at hmaps
  refine ⟨hline, fun hspace => ?_, hfits, hfd.2, hmaps.1, hmaps.2⟩
  rw [p.stat.outside_of_space hspace hfits] at hprinted
  exact absurd hprinted (by simp)

/-- Of a plain process everything is printed, and right. -/
theorem main_plain (h : Shows fs proc p) (hopen : Opens fs proc out) (hp : p.Plain fs proc)
    (junk : Addrs) : ∃ r, main fs proc junk out = .ok r ∧ r.Right fs proc p := by
  have hfile : ∀ {α : Type} (f : File) {content : Bytes} {print : Bytes → Result α} {a : α},
      (∀ c ∈ fs.fopen (f.path proc), c = content) → print content = .ok a →
        ofFile fs proc f print = .ok a := by
    intro α f content print a hcontent hprint
    obtain ⟨c, hc⟩ := Option.isSome_iff_exists.mp (hopen.files f)
    obtain rfl := hcontent c hc
    exact ofFile_eq_ok_iff.mpr ⟨c, hc, hprint⟩
  obtain ⟨fds, hfds⟩ := Option.isSome_iff_exists.mp hopen.fds
  obtain ⟨tasks, htasks⟩ := Option.isSome_iff_exists.mp hopen.tasks
  obtain ⟨content, hmaps⟩ := Option.isSome_iff_exists.mp (hopen.files .maps)
  obtain ⟨stat, hstat, hlabelled⟩ := p.stat.labelled_of_fits hp.name hp.stat
  have hargs := (firstString_eq_listing_iff p.cmdline_noNul).mpr hp.argument
  have hfd : printed fs.links proc [] (descriptors p.fds) =
      (descriptors p.fds).map fun d => fdLine d (target fs.links proc d) :=
    (printed_eq_iff _ _).mpr ⟨fun d _ => Nat.zero_le _, hp.targets⟩
  refine ⟨⟨ascii "ENVIRON\n" ++ listing p.environ, stat, ascii "CMDLINE\n" ++ listing p.cmdline,
    (descriptors p.fds).map fun d => fdLine d (target fs.links proc d),
    symSection "CWD SYMLINK\n" "cwd -> " (fs.links (File.cwd.path proc)),
    symSection "EXE SYMLINK\n" "exe -> " (fs.links (File.exe.path proc)),
    symSection "ROOT SYMLINK\n" "root -> " (fs.links (File.root.path proc)),
    mapsSection p.regions, ascii "IO\n" ++ p.io,
    ascii "COMM\n" ++ (p.stat.comm ++ [newline] ++ [newline]), p.threads.map (· ++ [newline])⟩,
    main_eq_ok_iff.mpr ⟨hopen.create, hfile .environ h.environ ?_, hfile .stat h.stat hstat,
      hfile .cmdline h.cmdline ?_, ⟨fds, hfds, ?_⟩,
      (ofFile_fprintfSym h.targets (hopen.files .cwd)).mpr rfl,
      (ofFile_fprintfSym h.targets (hopen.files .exe)).mpr rfl,
      (ofFile_fprintfSym h.targets (hopen.files .root)).mpr rfl,
      ⟨content, hmaps, ?_⟩, hfile .io h.io ?_, hfile .comm h.comm ?_, tasks, htasks, ?_⟩,
    ⟨rfl, hlabelled, rfl, rfl, rfl, rfl, rfl, rfl, rfl, rfl, rfl⟩⟩
  · rw [fprintfEnviron_ok, nulToNewline_zstrings p.environ_noNul]
  · rw [fprintfCmdline_ok, hargs]
  · rw [h.fds fds hfds, fprintfFd, fdLines_ok h.targets proc p.fds holds_zero, hfd]
  · rw [h.maps content hmaps]
    exact (maps_iff p.regions junk).mpr ⟨hp.half, hp.total⟩
  · rw [fprintfIo_ok, nulToNewline_of_no_nul p.io_noNul]
  · rw [fprintfComm_ok, take_comm]
  · rw [fprintfTask_eq, h.tasks tasks htasks]

/-- **The whole report.**  Of every process, whatever of it can be opened, `main` leaves a report
with every section right exactly when everything can be opened and the process is plain. -/
theorem report_iff (h : Shows fs proc p) (junk : Addrs) (out : Bytes) :
    (∃ r, main fs proc junk out = .ok r ∧ r.Right fs proc p) ↔
      Opens fs proc out ∧ p.Plain fs proc := by
  constructor
  · rintro ⟨r, hok, hright⟩
    exact ⟨opens_of_main hok, plain_of_right h hok hright⟩
  · rintro ⟨hopen, hp⟩
    exact main_plain h hopen hp junk

/-- A process "init" of one thread, with its terminal and a heap. -/
def init : Process 4096 where
  environ := [ascii "HOME=/"]
  stat :=
    { pid := ascii "1"
      comm := ascii "init"
      rest := List.replicate 50 (ascii "0")
      comm_le := by decide
      comm_noNul := by decide
      length_rest := List.length_replicate
      plain := by decide }
  cmdline := [ascii "init"]
  fds := [ascii ".", ascii "..", ascii "0"]
  regions := [heap]
  io := ascii "rchar: 0"
  threads := [ascii "1"]
  threads_ne := by decide
  environ_noNul := by decide
  cmdline_noNul := by decide
  io_noNul := by decide

/-- What its files contain. -/
def initContent : File → Bytes
  | .environ => zstrings init.environ
  | .stat => init.stat.content
  | .cmdline => zstrings init.cmdline
  | .maps => maps init.regions
  | .io => init.io
  | .comm => init.stat.comm ++ [newline]
  | .cwd | .exe | .root => []

/-- The files of "init", and its terminal. -/
def initFs : ProcFs where
  fopen path := ([.environ, .stat, .cmdline, .cwd, .exe, .root, .maps, .io, .comm].find?
    fun f : File => f.path (ascii "1") = path).map initContent
  opendir path :=
    if path = fdPath (ascii "1") then some init.fds
    else if path = taskPath (ascii "1") then some [ascii ".", ascii "..", ascii "1"]
    else none
  links path := if path = ascii "/proc/1/fd/0" then some (ascii "/dev/tty") else none
  create _ := true

theorem initFs_fopen (f : File) : initFs.fopen (f.path (ascii "1")) = some (initContent f) := by
  cases f <;> decide

theorem shows_init : Shows initFs (ascii "1") init := by
  have hfile : ∀ f : File, ∀ c ∈ initFs.fopen (f.path (ascii "1")), c = initContent f := by
    intro f c hc
    rw [initFs_fopen f] at hc
    exact (Option.some.inj hc).symm
  have hfds : initFs.opendir (fdPath (ascii "1")) = some init.fds := by decide
  have htasks : initFs.opendir (taskPath (ascii "1")) =
      some [ascii ".", ascii "..", ascii "1"] := by decide
  refine ⟨?_, hfile .environ, hfile .stat, hfile .cmdline, ?_, hfile .maps, hfile .io, hfile .comm,
    ?_⟩
  · intro path t ht
    simp only [initFs] at ht
    split at ht
    · obtain rfl := Option.some.inj ht
      decide
    · exact absurd ht (by simp)
  · intro names hnames
    rw [hfds] at hnames
    exact (Option.some.inj hnames).symm
  · intro names hnames
    rw [htasks] at hnames
    obtain rfl := Option.some.inj hnames
    decide

theorem report_iff_init :
    ∃ r, main initFs (ascii "1") (0, 0) (ascii "out.txt") = .ok r ∧
      r.Right initFs (ascii "1") init := by
  refine (report_iff shows_init (0, 0) (ascii "out.txt")).mpr ⟨⟨rfl, fun f => ?_, ?_, ?_⟩, ?_⟩
  · rw [initFs_fopen f]
    rfl
  · decide
  · decide
  · exact ⟨⟨ascii "init", rfl, by decide⟩, by decide, by decide, by decide, by decide, by decide⟩

end OsLabs.Proc
