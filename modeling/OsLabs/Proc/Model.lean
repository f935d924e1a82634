/-
# proc: the sections about a process

`3/proc/main.c` prints what `/proc/<pid>/` says about a process, one function per file.  A
function is modelled from the contents of its file to what it prints; every access to a buffer
or to the table `stats` is checked, and one outside is an error that names the array and the
first index outside.

`fread` returns whole blocks up to the end of the file.
-/
import OsLabs.Lib.Buffer
import OsLabs.Lib.Numeral
import OsLabs.Lib.Strtok

namespace OsLabs.Proc

open Strtok

abbrev Bytes : Type := List UInt8

def BUF_SIZE : Nat := 4096

def PATH_MAX_LEN : Nat := 128

/-- The arrays of the program, to name an access outside one of them. -/
inductive Arr
  | buf | str | stats
deriving DecidableEq, Repr

/-- Why a function does not return. -/
inductive Stop
  | outside (a : Arr) (i : Int)
  | endless
deriving DecidableEq, Repr

abbrev Result (α : Type) : Type := Except Stop α

/-- The bytes of a text of the program. -/
def ascii (s : String) : Bytes := s.toList.map fun c => UInt8.ofNat c.toNat

def newline : UInt8 := 10

def space : UInt8 := 32

def dash : UInt8 := 45

/-- An access to the array `a`. -/
def access {α : Type} (a : Arr) (x : Except Int α) : Result α := x.mapError (.outside a)

/-! ## 1. Files of strings -/

/-- The translation of NULs, made in place. -/
def nulToNewline (block : Bytes) : Bytes := block.map fun c => if c = 0 then newline else c

/-- A block that `fread` has returned, with its NULs translated and one behind it: the string in
`buf`, and `buf`. -/
def fillBuf (buf : Buffer (BUF_SIZE + 1)) (block : Bytes) :
    Result (Bytes × Buffer (BUF_SIZE + 1)) := do
  let buf ← access .buf (buf.store 0 block)
  let buf ← access .buf (buf.store 0 (nulToNewline block))
  let buf ← access .buf (buf.store block.length [0])
  let text ← access .buf (buf.cstring 0)
  return (text, buf)

/-- The loop of `fprintf_environ`, over the blocks of the file. -/
def printBlocks (buf : Buffer (BUF_SIZE + 1)) : List Bytes → Result Bytes
  | [] => .ok []
  | block :: rest => do
    let (text, buf) ← fillBuf buf block
    let out ← printBlocks buf rest
    return text ++ out

/-- `fprintf_environ`, from the contents of `/proc/<pid>/environ`. -/
def fprintfEnviron (content : Bytes) : Result Bytes := do
  let out ← printBlocks (Buffer.zero _) (blocks BUF_SIZE content)
  return ascii "ENVIRON\n" ++ out

/-- `fprintf_cmdline`, from the contents of `/proc/<pid>/cmdline`. -/
def fprintfCmdline (content : Bytes) : Result Bytes := do
  let block := content.take BUF_SIZE
  let buf ← access .buf ((Buffer.zero (BUF_SIZE + 1)).store 0 block)
  let buf ← access .buf (buf.store block.length [0])
  let text ← access .buf (buf.cstring 0)
  return ascii "CMDLINE\n" ++ (text ++ [newline])

/-! ## 2. The fields of `stat` -/

def stats : List String := [
  "pid", "comm", "state", "ppid", "pgrp", "session", "tty_nr", "tpgid", "flags", "minflt",
  "cminflt", "majflt", "cmajflt", "utime", "stime", "cutime", "cstime", "priority", "nice",
  "num_threads", "itrealvalue", "starttime", "vsize", "rss", "rsslim", "startcode", "endcode",
  "startstack", "kstkesp", "kstkeip", "signal", "blocked", "sigignore", "sigcatch", "wchan",
  "nswap", "cnswap", "exit_signal", "processor", "rt_priority", "policy",
  "delayacct_blkio_ticks", "guest_time", "cguest_time", "start_data", "end_data", "start_brk",
  "arg_start", "arg_end", "env_start", "env_end", "env_code"]

/-- A line of the section: `"%s: %s\n"`. -/
def statLine (label : String) (pch : Bytes) : Bytes :=
  ascii label ++ ascii ": " ++ pch ++ [newline]

/-- The loop of `fprintf_stat`, over the tokens that `strtok` returns. -/
def statLines (i : Nat) : List Bytes → Result (List Bytes)
  | [] => .ok []
  | pch :: rest =>
    match stats[i]? with
    | none => .error (.outside .stats i)
    | some label => (statLines (i + 1) rest).map (statLine label pch :: ·)

/-- `fprintf_stat`, from the contents of `/proc/<pid>/stat`: the lines behind the heading. -/
def fprintfStat (content : Bytes) : Result (List Bytes) := do
  let buf ← access .buf ((Buffer.zero (BUF_SIZE + 1)).store 0 (content.take BUF_SIZE))
  let text ← access .buf (buf.cstring 0)
  statLines 0 (tokens (· == space) text)

/-! ## 3. The descriptors -/

/-- `/proc/<pid>/fd`, cut to `PATH_MAX_LEN`. -/
def fdPath (proc : Bytes) : Bytes :=
  (ascii "/proc/" ++ proc ++ ascii "/fd").take (PATH_MAX_LEN - 1)

/-- The path of a descriptor, cut to `BUF_SIZE`. -/
def linkPath (proc d_name : Bytes) : Bytes :=
  (fdPath proc ++ ascii "/" ++ d_name).take (BUF_SIZE - 1)

/-- A line of the section: `"%s -> %s\n"`. -/
def fdLine (d_name str : Bytes) : Bytes := d_name ++ ascii " -> " ++ str ++ [newline]

/-- The entry of the directory is neither "." nor "..". -/
def isDescriptor (d_name : Bytes) : Bool := d_name != ascii "." && d_name != ascii ".."

/-- `readlink(path, str, BUF_SIZE)`, where the link has a target; where it is gone, -1 is returned
and `str` left as it is. -/
def readlink (str : Buffer BUF_SIZE) : Option Bytes → Result (Buffer BUF_SIZE)
  | none => .ok str
  | some target => access .str (str.store 0 (target.take BUF_SIZE))

/-- The loop of `fprintf_fd`, over the names that `readdir` returns; `links` is the targets of the
links. -/
def fdLines (links : Bytes → Option Bytes) (proc : Bytes) (str : Buffer BUF_SIZE) :
    List Bytes → Result (List Bytes)
  | [] => .ok []
  | d_name :: rest =>
    if isDescriptor d_name then do
      let str ← readlink str (links (linkPath proc d_name))
      let text ← access .str (str.cstring 0)
      let lines ← fdLines links proc str rest
      return fdLine d_name text :: lines
    else fdLines links proc str rest

/-- `fprintf_fd`: the lines behind the heading. -/
def fprintfFd (links : Bytes → Option Bytes) (proc : Bytes) (names : List Bytes) :
    Result (List Bytes) :=
  fdLines links proc (Buffer.zero BUF_SIZE) names

/-! ## 4. The page map -/

/-- What `fprintf_page` prints of a page. -/
structure PageLine where
  address : Nat
  pfn : UInt64
  softDirty : UInt64
  fileShared : UInt64
  swapped : UInt64
  present : UInt64
deriving DecidableEq, Repr

/-- One bit of an entry. -/
def bit (data : UInt64) (k : UInt64) : UInt64 := (data >>> k) &&& (1 : UInt64)

/-- `fprintf_page`. -/
def fprintfPage (address : Nat) (data : UInt64) : PageLine where
  address := address
  pfn := data &&& (((1 : UInt64) <<< (55 : UInt64)) - 1)
  softDirty := bit data 55
  fileShared := bit data 61
  swapped := bit data 62
  present := bit data 63

/-- The loop over the pages from `i` to `last`, in `uint64_t`.  Where `i += page` goes round, `i`
never leaves the values below `last` any more. -/
def pageLoop (page i last : Nat) : Result (List Nat) :=
  if _h : i < last then
    if _hp : 0 < page ∧ i + page < 2 ^ 64 then (pageLoop page (i + page) last).map (i :: ·)
    else .error .endless
  else .ok []
termination_by last - i

/-- The addresses of the pages that a row is printed for: those from the first to the second
number of its first column. -/
def rowPages (page : Nat) (row : Bytes) : Result (List Nat) :=
  match strtok (· == space) row with
  | none => .ok []
  | some (addresses, _) =>
    match strtok (· == dash) addresses with
    | none => .ok []
    | some (start_str, rest) =>
      match strtok (· == dash) rest with
      | none => .ok []
      | some (end_str, _) => pageLoop page (strtoul16 start_str) (strtoul16 end_str)

/-- The rows of some pages, the first of which is the `n`-th of all.  `pread` is what can be read of
`/proc/<pid>/pagemap` at an offset, if anything; where nothing is read, the row shows what `offset`
has held before, which is `stale`. -/
def pageLines (page : Nat) (pread : Nat → Option UInt64) (stale : Nat → UInt64) (n : Nat) :
    List Nat → List PageLine
  | [] => []
  | i :: pages =>
    fprintfPage i ((pread (i / page * 8)).getD (stale n)) ::
      pageLines page pread stale (n + 1) pages

/-- The loop over the rows of a block. -/
def pageRows (page : Nat) (pread : Nat → Option UInt64) (stale : Nat → UInt64) (n : Nat) :
    List Bytes → Result (List PageLine)
  | [] => .ok []
  | row :: rest => do
    let pages ← rowPages page row
    let lines ← pageRows page pread stale (n + pages.length) rest
    return pageLines page pread stale n pages ++ lines

/-- The loop of `fprintf_pagemap_info`, over the blocks of the file. -/
def pageBlocks (page : Nat) (pread : Nat → Option UInt64) (stale : Nat → UInt64) (n : Nat)
    (buf : Buffer (BUF_SIZE + 1)) : List Bytes → Result (List PageLine)
  | [] => .ok []
  | block :: rest => do
    let (text, buf) ← fillBuf buf block
    let lines ← pageRows page pread stale n (tokens (· == newline) text)
    let out ← pageBlocks page pread stale (n + lines.length) buf rest
    return lines ++ out

/-- `fprintf_pagemap_info`, from the contents of `/proc/<pid>/maps`: the lines behind the
headings.  `page` is the page size that `sysconf` returns. -/
def fprintfPagemapInfo (page : Nat) (pread : Nat → Option UInt64) (stale : Nat → UInt64)
    (content : Bytes) : Result (List PageLine) :=
  pageBlocks page pread stale 0 (Buffer.zero _) (blocks BUF_SIZE content)

end OsLabs.Proc
