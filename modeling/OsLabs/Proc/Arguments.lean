/-
# proc: the lists of strings

`environ` and `cmdline` have one format, strings with a NUL behind each.  `fprintf_environ` reads
block after block and prints a newline for every NUL; `fprintf_cmdline` reads one block and
prints it with `%s`, which stops at the first NUL.  So it prints what the other would print
exactly when there is one string, of at most `BUF_SIZE` bytes (`arguments_iff`).
-/
import OsLabs.Proc.Model

namespace OsLabs.Proc

open Strtok

/-! ## 1. A block in the buffer -/

variable {block text : Bytes} {buf : Buffer (BUF_SIZE + 1)}

/-- An access inside the array, and what comes behind it. -/
theorem access_bind {α β : Type} {a : Arr} {x : Except Int α} {y : α} (h : x = .ok y)
    (f : α → Result β) : (access a x >>= f) = f y := by
  rw [h]
  rfl

theorem ok_bind {α β : Type} {x : Result α} {y : α} (h : x = .ok y) (f : α → Result β) :
    (x >>= f) = f y := by
  rw [h]
  rfl

theorem length_nulToNewline (block : Bytes) : (nulToNewline block).length = block.length :=
  List.length_map _

theorem nulToNewline_append (u v : Bytes) :
    nulToNewline (u ++ v) = nulToNewline u ++ nulToNewline v := List.map_append

theorem nulToNewline_no_nul (block : Bytes) : (0 : UInt8) ∉ nulToNewline block := by
  intro h
  obtain ⟨c, -, hc⟩ := List.mem_map.mp h
  split at hc
  · exact absurd hc (by decide)
  · rename_i hne
    exact hne hc

/-- **The string in the buffer is the block**, its NULs translated. -/
theorem fillBuf_ok (buf : Buffer (BUF_SIZE + 1)) (h : block.length ≤ BUF_SIZE) :
    ∃ buf', fillBuf buf block = .ok (nulToNewline block, buf') := by
  obtain ⟨b₁, hst₁, -⟩ := buf.store_eq_ok 0 block (Int.le_refl 0) (by omega)
  obtain ⟨b₂, b₃, hst₂, -, hst₃, hstr⟩ := b₁.store_terminate (nulToNewline block)
    (by rw [length_nulToNewline]; omega)
  rw [length_nulToNewline] at hst₃
  rw [Buffer.takeWhile_of_no_nul (nulToNewline_no_nul block)] at hstr
  refine ⟨b₃, ?_⟩
  rw [fillBuf, access_bind hst₁, access_bind hst₂, access_bind hst₃, access_bind hstr]
  rfl

theorem length_of_mem_blocks {n : Nat} (hn : 0 < n) (s : Bytes) :
    ∀ block ∈ blocks n s, block.length ≤ n := by
  induction s using blocks_rule hn with
  | hnil => simp [blocks_nil]
  | hcons s hs ih =>
    rw [blocks_cons hn hs, List.forall_mem_cons]
    exact ⟨List.length_take_le _ _, ih⟩

/-! ## 2. What is printed -/

/-- The blocks are joined without a seam. -/
theorem printBlocks_ok (bs : List Bytes) (h : ∀ block ∈ bs, block.length ≤ BUF_SIZE)
    (buf : Buffer (BUF_SIZE + 1)) : printBlocks buf bs = .ok (nulToNewline bs.flatten) := by
  induction bs generalizing buf with
  | nil => rfl
  | cons block bs ih =>
    obtain ⟨hblock, hbs⟩ := List.forall_mem_cons.mp h
    obtain ⟨buf', hfill⟩ := fillBuf_ok buf hblock
    rw [printBlocks, ok_bind hfill]
    dsimp only
    rw [ok_bind (ih hbs buf'), List.flatten_cons, nulToNewline_append]
    rfl

/-- **`fprintf_environ` prints the whole file**, a newline for every NUL. -/
theorem fprintfEnviron_ok (content : Bytes) :
    fprintfEnviron content = .ok (ascii "ENVIRON\n" ++ nulToNewline content) := by
  have hpos : 0 < BUF_SIZE := by decide
  have hprint := printBlocks_ok (blocks BUF_SIZE content) (length_of_mem_blocks hpos content)
    (Buffer.zero _)
  rw [flatten_blocks hpos] at hprint
  rw [fprintfEnviron, ok_bind hprint]
  rfl

/-- **`fprintf_cmdline` prints the first block up to its first NUL.** -/
theorem fprintfCmdline_ok (content : Bytes) : fprintfCmdline content =
    .ok (ascii "CMDLINE\n" ++ ((content.take BUF_SIZE).takeWhile (· ≠ 0) ++ [newline])) := by
  obtain ⟨b₁, b₂, hst₁, -, hst₂, hstr⟩ := (Buffer.zero (BUF_SIZE + 1)).store_terminate
    (content.take BUF_SIZE) (by rw [List.length_take]; omega)
  rw [fprintfCmdline, access_bind hst₁, access_bind hst₂, access_bind hstr]
  rfl

/-- The strings of the list, a newline behind each. -/
def listing (l : List Bytes) : Bytes := l.flatMap (· ++ [newline])

theorem nulToNewline_of_no_nul {s : Bytes} (h : (0 : UInt8) ∉ s) : nulToNewline s = s := by
  have hid : ∀ c ∈ s, (if c = (0 : UInt8) then newline else c) = id c := by
    intro c hc
    refine if_neg fun h0 => h ?_
    rw [← h0]
    exact hc
  rw [nulToNewline, List.map_congr_left hid, List.map_id]

theorem nulToNewline_zstrings {l : List Bytes} (h : ∀ s ∈ l, (0 : UInt8) ∉ s) :
    nulToNewline (zstrings l) = listing l := by
  induction l with
  | nil => rfl
  | cons s l ih =>
    obtain ⟨hs, hl⟩ := List.forall_mem_cons.mp h
    have hcons : zstrings (s :: l) = s ++ [0] ++ zstrings l := rfl
    rw [hcons, nulToNewline_append, nulToNewline_append, ih hl, nulToNewline_of_no_nul hs]
    rfl

theorem length_listing (l : List Bytes) : (listing l).length = (zstrings l).length := by
  induction l with
  | nil => rfl
  | cons s l ih =>
    have hcons : listing (s :: l) = s ++ [newline] ++ listing l := rfl
    have hcons' : zstrings (s :: l) = s ++ [0] ++ zstrings l := rfl
    rw [hcons, hcons']
    simp only [List.length_append, List.length_singleton, ih]

theorem zstrings_cons (s : Bytes) (l : List Bytes) :
    zstrings (s :: l) = s ++ 0 :: zstrings l := by
  simp [zstrings]

theorem eq_nil_of_length_zstrings {l : List Bytes} (h : (zstrings l).length = 0) : l = [] := by
  cases l with
  | nil => rfl
  | cons s l =>
    rw [zstrings_cons, List.length_append, List.length_cons] at h
    omega

/-- What `%s` prints of the first block is not longer than the first string, nor than the
block. -/
theorem length_firstString_le (s : Bytes) (l : List Bytes) :
    (((zstrings (s :: l)).take BUF_SIZE).takeWhile (· ≠ 0)).length ≤ min s.length BUF_SIZE := by
  have hle := (List.takeWhile_prefix (fun c : UInt8 => decide (c ≠ 0))
    (l := (zstrings (s :: l)).take BUF_SIZE)).length_le
  rw [List.length_take] at hle
  rcases Nat.lt_or_ge s.length BUF_SIZE with hlt | hge
  · have hget : ((zstrings (s :: l)).take BUF_SIZE)[s.length]? = some 0 := by
      rw [List.getElem?_take_of_lt hlt, zstrings_cons,
        List.getElem?_append_right (Nat.le_refl _)]
      simp
    have := Buffer.length_takeWhile_le (p := fun c : UInt8 => decide (c ≠ 0)) hget (by simp)
    omega
  · omega

/-- A single string that fits is printed whole. -/
theorem firstString_singleton {s : Bytes} (h : (0 : UInt8) ∉ s) (hs : s.length ≤ BUF_SIZE) :
    ((zstrings [s]).take BUF_SIZE).takeWhile (· ≠ 0) = s := by
  rw [zstrings_singleton, List.take_append]
  have hself : s.take BUF_SIZE = s := List.take_of_length_le hs
  rw [hself]
  rcases Nat.lt_or_ge s.length BUF_SIZE with hlt | hge
  · obtain ⟨k, hk⟩ : ∃ k, BUF_SIZE - s.length = k + 1 := ⟨BUF_SIZE - s.length - 1, by omega⟩
    rw [hk, List.take_succ_cons, List.take_nil]
    exact (Buffer.takeWhile_eq_iff.mpr ⟨h, List.prefix_refl _⟩).2
  · have h0 : BUF_SIZE - s.length = 0 := by omega
    rw [h0, List.take_zero, List.append_nil, Buffer.takeWhile_of_no_nul h]

/-- The first string of the first block, printed, is the whole list exactly when there is one
string and it fits. -/
theorem firstString_eq_listing_iff {l : List Bytes} (h : ∀ s ∈ l, (0 : UInt8) ∉ s) :
    ((zstrings l).take BUF_SIZE).takeWhile (· ≠ 0) ++ [newline] = listing l ↔
      ∃ s, l = [s] ∧ s.length ≤ BUF_SIZE := by
  constructor
  · intro heq
    have hlength := congrArg List.length heq
    rw [length_listing, List.length_append, List.length_singleton] at hlength
    match l with
    | [] => simp [zstrings] at hlength
    | s :: l =>
      have hfirst := length_firstString_le s l
      rw [zstrings_cons] at hlength hfirst
      rw [List.length_append, List.length_cons] at hlength
      have hnil : l = [] := eq_nil_of_length_zstrings (by omega)
      exact ⟨s, by rw [hnil], by omega⟩
  · rintro ⟨s, rfl, hs⟩
    rw [firstString_singleton (h s (List.mem_singleton_self s)) hs]
    simp [listing]

/-- **The argument list.**  For every list of strings, `fprintf_environ` prints them all in
order, a newline behind each; `fprintf_cmdline` prints what it would print exactly when there is
one string and it fits in a block. -/
theorem arguments_iff (l : List Bytes) (h : ∀ s ∈ l, (0 : UInt8) ∉ s) :
    fprintfEnviron (zstrings l) = .ok (ascii "ENVIRON\n" ++ listing l) ∧
      (fprintfCmdline (zstrings l) = .ok (ascii "CMDLINE\n" ++ listing l) ↔
        ∃ s, l = [s] ∧ s.length ≤ BUF_SIZE) := by
  refine ⟨by rw [fprintfEnviron_ok, nulToNewline_zstrings h], ?_⟩
  rw [fprintfCmdline_ok, Except.ok.injEq, List.append_cancel_left_eq]
  exact firstString_eq_listing_iff h

/-- The arguments of "ls -l". -/
def lsArguments : List Bytes := [[108, 115], [45, 108]]

theorem arguments_iff_ls :
    fprintfEnviron (zstrings lsArguments) = .ok (ascii "ENVIRON\n" ++ listing lsArguments) ∧
      (fprintfCmdline (zstrings lsArguments) = .ok (ascii "CMDLINE\n" ++ listing lsArguments) ↔
        ∃ s, lsArguments = [s] ∧ s.length ≤ BUF_SIZE) :=
  arguments_iff lsArguments (by decide)

/-- **The arguments are cut off**: of "ls -l" only "ls" is printed. -/
theorem arguments_cut : ¬ ∀ l : List Bytes, (∀ s ∈ l, (0 : UInt8) ∉ s) →
    ∃ out, fprintfEnviron (zstrings l) = .ok (ascii "ENVIRON\n" ++ out) ∧
      fprintfCmdline (zstrings l) = .ok (ascii "CMDLINE\n" ++ out) := by
  intro h
  have hnul : ∀ s ∈ lsArguments, (0 : UInt8) ∉ s := by decide
  obtain ⟨out, henv, hcmd⟩ := h lsArguments hnul
  rw [fprintfEnviron_ok, nulToNewline_zstrings hnul, Except.ok.injEq,
    List.append_cancel_left_eq] at henv
  rw [fprintfCmdline_ok, Except.ok.injEq, List.append_cancel_left_eq, ← henv,
    firstString_eq_listing_iff hnul] at hcmd
  obtain ⟨s, hs, -⟩ := hcmd
  exact absurd (congrArg List.length hs) (by simp [lsArguments])

end OsLabs.Proc
