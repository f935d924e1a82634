/-
# proc: the sizes of the regions

`fprintf_maps` reads `maps` line by line, takes the size of a region from its first column, and
adds the sizes up.  The addresses are read with `%lx` into a `long`, so the upper half of them is
negative, and the sizes and their sum are computed in `long`.  They are right exactly when no
region lies across the middle of the address space and the sum is a `long` (`maps_iff`).

The number of pages is the size divided by 4096; `fprintf_pagemap_info` asks `sysconf` for the size
of a page.  Where that is 4096, the number is that of the rows which it prints for the line, if the
line comes through (`pages_agree`).

Arithmetic that leaves `long` is an error; `getline` finds memory.
-/
import OsLabs.Proc.PageMap
import Mathlib.Data.List.Induction
import Mathlib.Data.Nat.ModEq

namespace OsLabs.Proc

/-! ## 1. `fprintf_maps` -/

/-- A difference or a sum that is no `long`. -/
structure Overflow where
deriving DecidableEq, Repr

/-- The lines that `getline` returns: each with its newline, the last one maybe without. -/
def getlines : Bytes → List Bytes
  | [] => []
  | c :: s =>
    if c = newline then [c] :: getlines s
    else
      match getlines s with
      | [] => [[c]]
      | buf :: rest => (c :: buf) :: rest

/-- An `unsigned long` that is stored in a `long`. -/
def toLong (n : Nat) : Int := if n < 2 ^ 63 then n else n - 2 ^ 64

/-- The result of an operation on `long`. -/
def long (i : Int) : Except Overflow Int :=
  if -2 ^ 63 ≤ i ∧ i < 2 ^ 63 then .ok i else .error ⟨⟩

/-- The conversion `%lx`: the number, and the text behind it.  It fails where there is neither a
digit nor a prefix. -/
def scanHex (s : Bytes) : Option (Nat × Bytes) :=
  let body := (signOf (s.dropWhile isSpace)).2
  let rest := (digits 16 0 (dropHexPrefix body)).2
  if rest = body then none else some (strtoul16 s, rest)

/-- `addr_begin` and `addr_end`. -/
abbrev Addrs : Type := Int × Int

/-- `sscanf(buf, "%lx-%lx", &addr_begin, &addr_end)`: a number that is not there leaves its
variable as it was. -/
def sscanf (buf : Bytes) (addrs : Addrs) : Addrs :=
  match scanHex buf with
  | none => addrs
  | some (start, []) => (toLong start, addrs.2)
  | some (start, c :: rest) =>
    if c = dash then (toLong start, ((scanHex rest).map fun r => toLong r.1).getD addrs.2)
    else (toLong start, addrs.2)

/-- What is printed of a line: `"%8ld   %4ld   %s"`. -/
structure MapsLine where
  rec_bytes : Int
  pages : Int
  buf : Bytes
deriving DecidableEq, Repr

/-- The loop of `fprintf_maps`, over the lines that `getline` returns. -/
def mapsLoop (addrs : Addrs) (bytes : Int) : List Bytes → Except Overflow (List MapsLine × Int)
  | [] => .ok ([], bytes)
  | line :: rest => do
    let buf := line.takeWhile (· ≠ 0)
    let addrs := sscanf buf addrs
    let rec_bytes ← long (addrs.2 - addrs.1)
    let bytes ← long (bytes + rec_bytes)
    let (lines, total) ← mapsLoop addrs bytes rest
    return (⟨rec_bytes, rec_bytes.tdiv 4096, buf⟩ :: lines, total)

/-- The section, behind its headings. -/
structure MapsSection where
  lines : List MapsLine
  bytes : Int
  pages : Int
deriving DecidableEq, Repr

/-- `fprintf_maps`, from the contents of `/proc/<pid>/maps`; `junk` is what the two addresses hold
before anything is stored in them. -/
def fprintfMaps (junk : Addrs) (content : Bytes) : Except Overflow MapsSection := do
  let (lines, bytes) ← mapsLoop junk 0 (getlines content)
  return ⟨lines, bytes, bytes.tdiv 4096⟩

/-! ## 2. Lines -/

variable {page n : Nat} {s w v rest : Bytes} {addrs : Addrs} {bytes : Int}

/-- No byte is lost between the lines. -/
theorem flatten_getlines (s : Bytes) : (getlines s).flatten = s := by
  induction s with
  | nil => rfl
  | cons c s ih =>
    rw [getlines]
    split
    · rw [List.flatten_cons, ih]
      rfl
    · cases h : getlines s with
      | nil =>
        rw [h] at ih
        rw [← ih]
        rfl
      | cons buf rest =>
        rw [h] at ih
        rw [← ih]
        rfl

/-- **A line** is what stands before the first newline, and the newline. -/
theorem getlines_line (h : newline ∉ w) (v : Bytes) :
    getlines (w ++ newline :: v) = (w ++ [newline]) :: getlines v := by
  induction w with
  | nil => rw [List.nil_append, getlines, if_pos rfl]; rfl
  | cons c w ih =>
    obtain ⟨hc, hw⟩ := not_or.mp (List.mem_cons.not.mp h)
    rw [List.cons_append, getlines, if_neg (Ne.symm hc), ih hw]
    rfl

theorem maps_cons (R : Region page) (Rs : List (Region page)) :
    maps (R :: Rs) = R.text ++ newline :: maps Rs := by
  simp [maps]

/-- The lines of the file are those of the regions. -/
theorem getlines_maps (Rs : List (Region page)) :
    getlines (maps Rs) = Rs.map fun R => R.text ++ [newline] := by
  induction Rs with
  | nil => rfl
  | cons R Rs ih =>
    have hline : newline ∉ R.text := fun hmem => absurd (R.newline_not_mem_text _ hmem) (by decide)
    rw [maps_cons, getlines_line hline, ih, List.map_cons]

/-! ## 3. The addresses of a line -/

/-- What may stand behind a number: nothing, a dash or a space. -/
def Ends (v : Bytes) : Prop := ∀ c ∈ v.head?, c = dash ∨ c = space

theorem Ends.not_digit {c : UInt8} (h : Ends (c :: rest)) : digitOf 16 c = none := by
  rcases h c rfl with rfl | rfl
  · exact digitOf_dash
  · exact digitOf_space

/-- Neither blanks, a sign nor a prefix stand before the number. -/
theorem hex_front (h : IsHex w) (hne : w ≠ []) (hv : Ends v) :
    (w ++ v).dropWhile isSpace = w ++ v ∧ signOf (w ++ v) = (false, w ++ v) ∧
      dropHexPrefix (w ++ v) = w ++ v := by
  obtain ⟨c, w, rfl⟩ := List.exists_cons_of_ne_nil hne
  have hc := h c List.mem_cons_self
  refine ⟨List.dropWhile_cons_of_neg fun hsp => ?_, signOf_of_ne ?_ ?_ _, ?_⟩
  · rw [digitOf, digitVal_of_isSpace hsp] at hc
    exact absurd hc (by simp)
  · rintro rfl
    exact absurd hc (by decide)
  · rintro rfl
    exact absurd hc (by decide)
  · unfold dropHexPrefix
    split
    · rename_i x cs heq
      refine (if_neg ?_).trans heq.symm
      -- the second byte is another digit, or what stands behind the number
      cases w with
      | nil =>
        obtain ⟨-, rfl⟩ := List.cons.inj heq
        rcases hv x rfl with rfl | rfl <;> decide
      | cons d w =>
        obtain ⟨-, htail⟩ := List.cons.inj heq
        obtain ⟨rfl, -⟩ := List.cons.inj htail
        have hd := h d (List.mem_cons_of_mem _ List.mem_cons_self)
        rintro (rfl | rfl)
        · exact absurd hd (by decide)
        · exact absurd hd (by decide)
    · rfl

theorem digits_hex (h : IsHex w) (hv : Ends v) : digits 16 0 (w ++ v) = (hexValue w, v) := by
  have hw : digits 16 0 w = (hexValue w, []) := by
    rw [digits_of_isHex h, Nat.zero_mul, Nat.zero_add]
  rw [digits_append, hw, if_pos rfl]
  cases v with
  | nil => rfl
  | cons c v => rw [digits, hv.not_digit]

/-- **A number in hexadecimal** is read up to its end. -/
theorem scanHex_hex (h : IsHex w) (hne : w ≠ []) (hlt : hexValue w < 2 ^ 64) (hv : Ends v) :
    scanHex (w ++ v) = some (hexValue w, v) := by
  obtain ⟨hblank, hsign, hpre⟩ := hex_front h hne hv
  have hdigits := digits_hex h hv
  have hvalue : strtoul16 (w ++ v) = hexValue w := by
    rw [strtoul16, hblank, hsign]
    dsimp only
    rw [hpre, hdigits]
    dsimp only
    rw [if_neg (Nat.not_le.mpr hlt)]
    rfl
  rw [scanHex, hblank, hsign]
  dsimp only
  rw [hpre, hdigits, if_neg (fun heq => hne (List.self_eq_append_left.mp heq)), hvalue]

/-- The addresses of a region, as they are stored. -/
def Region.longs (R : Region page) : Addrs :=
  (toLong (hexValue R.start_str), toLong (hexValue R.end_str))

/-- **The first column of a line** is read into the two addresses. -/
theorem sscanf_text (R : Region page) (addrs : Addrs) (w : Bytes) :
    sscanf (R.text ++ w) addrs = R.longs := by
  have htext : R.text ++ w = R.start_str ++ (dash :: (R.end_str ++ (space :: (R.rest ++ w)))) := by
    simp [Region.text, Region.addresses]
  have hstart := scanHex_hex (v := dash :: (R.end_str ++ (space :: (R.rest ++ w)))) R.start_hex
    R.start_ne (Nat.lt_trans R.start_lt_end R.end_lt) (by simp [Ends])
  have hend := scanHex_hex (v := space :: (R.rest ++ w)) R.end_hex R.end_ne R.end_lt
    (by simp [Ends])
  rw [htext, sscanf, hstart]
  dsimp only
  rw [if_pos rfl, hend]
  rfl

/-! ## 4. Sizes -/

/-- The size of a region. -/
def Region.size (R : Region page) : Nat := hexValue R.end_str - hexValue R.start_str

/-- The region does not lie across the middle of the address space. -/
def Region.OneHalf (R : Region page) : Prop :=
  hexValue R.start_str < 2 ^ 63 ↔ hexValue R.end_str < 2 ^ 63

instance (R : Region page) : Decidable R.OneHalf := inferInstanceAs (Decidable (_ ↔ _))

/-- What the line of a region is to say. -/
def Region.mapsLine (R : Region page) : MapsLine := ⟨R.size, R.size / 4096, R.text ++ [newline]⟩

/-- The size of all regions. -/
def totalSize (Rs : List (Region page)) : Nat := (Rs.map Region.size).sum

/-- **What the section is to say.** -/
def mapsSection (Rs : List (Region page)) : MapsSection :=
  ⟨Rs.map Region.mapsLine, totalSize Rs, totalSize Rs / 4096⟩

theorem Region.oneHalf_iff (R : Region page) : R.longs.2 - R.longs.1 = R.size ↔ R.OneHalf := by
  have hlt := R.start_lt_end
  unfold Region.longs toLong Region.size Region.OneHalf
  dsimp only
  split <;> split <;> omega

theorem long_eq_ok_iff {i j : Int} : long i = .ok j ↔ (-2 ^ 63 ≤ i ∧ i < 2 ^ 63) ∧ i = j := by
  unfold long
  split
  · rename_i h
    rw [and_iff_right h, Except.ok.injEq]
  · rename_i h
    exact iff_of_false (by simp) fun h' => h h'.1

theorem totalSize_cons (R : Region page) (Rs : List (Region page)) :
    totalSize (R :: Rs) = R.size + totalSize Rs := List.sum_cons

/-- A step of the loop: the size of the region, and the sum so far. -/
theorem mapsLoop_cons (R : Region page) (addrs : Addrs) (bytes : Int) (rest : List Bytes) :
    mapsLoop addrs bytes ((R.text ++ [newline]) :: rest) =
      (long (R.longs.2 - R.longs.1)).bind fun rec_bytes =>
        (long (bytes + rec_bytes)).bind fun sum => (mapsLoop R.longs sum rest).map fun r =>
          (⟨rec_bytes, rec_bytes.tdiv 4096, R.text ++ [newline]⟩ :: r.1, r.2) := by
  have hline : (R.text ++ [newline]).takeWhile (· ≠ 0) = R.text ++ [newline] := by
    refine Buffer.takeWhile_of_no_nul fun hmem => ?_
    rcases List.mem_append.mp hmem with hmem | hmem
    · exact R.nul_not_mem_text hmem
    · exact absurd (List.mem_singleton.mp hmem) (by decide)
  rw [mapsLoop, hline, sscanf_text]
  rfl

theorem Region.size_lt (R : Region page) (h : R.OneHalf) : R.size < 2 ^ 63 := by
  have hlt := R.start_lt_end
  have hend := R.end_lt
  unfold Region.OneHalf at h
  unfold Region.size
  omega

/-- Where the size of the first region is right and the sum is a `long`, the loop goes on. -/
theorem mapsLoop_right {R : Region page} (hhalf : R.OneHalf) (h0 : 0 ≤ bytes)
    (hsum : bytes + R.size < 2 ^ 63) (addrs : Addrs) (rest : List Bytes) :
    mapsLoop addrs bytes ((R.text ++ [newline]) :: rest) =
      (mapsLoop R.longs (bytes + R.size) rest).map fun r => (R.mapsLine :: r.1, r.2) := by
  have hsize := R.size_lt hhalf
  have hrec : long (R.size : Int) = .ok (R.size : Int) := long_eq_ok_iff.mpr ⟨by omega, rfl⟩
  have hnext : long (bytes + R.size) = .ok (bytes + R.size) :=
    long_eq_ok_iff.mpr ⟨by omega, rfl⟩
  rw [mapsLoop_cons, R.oneHalf_iff.mpr hhalf, hrec]
  dsimp only [Except.bind]
  rw [hnext]
  dsimp only [Except.bind]
  rfl

/-- What the loop says of the first region. -/
theorem mapsLoop_first {R : Region page} {rest : List Bytes} {line : MapsLine}
    {lines : List MapsLine} {total : Int}
    (h : mapsLoop addrs bytes ((R.text ++ [newline]) :: rest) = .ok (line :: lines, total)) :
    line.rec_bytes = R.longs.2 - R.longs.1 ∧
      long (bytes + line.rec_bytes) = .ok (bytes + line.rec_bytes) := by
  rw [mapsLoop_cons] at h
  cases hrec : long (R.longs.2 - R.longs.1) with
  | error e =>
    rw [hrec] at h
    exact absurd h (by simp [Except.bind])
  | ok r =>
    obtain ⟨-, rfl⟩ := long_eq_ok_iff.mp hrec
    rw [hrec] at h
    dsimp only [Except.bind] at h
    cases hsum : long (bytes + (R.longs.2 - R.longs.1)) with
    | error e =>
      rw [hsum] at h
      exact absurd h (by simp)
    | ok sum =>
      obtain ⟨-, rfl⟩ := long_eq_ok_iff.mp hsum
      rw [hsum] at h
      dsimp only at h
      cases hrest : mapsLoop R.longs (bytes + (R.longs.2 - R.longs.1)) rest with
      | error e =>
        rw [hrest] at h
        exact absurd h (by simp [Except.map])
      | ok r =>
        rw [hrest] at h
        obtain ⟨hlines, -⟩ := Prod.mk.inj (Except.ok.inj h)
        obtain ⟨rfl, -⟩ := List.cons.inj hlines
        exact ⟨rfl, hsum⟩

/-- **The loop over the regions**: it says of each what it is to say, and adds up their sizes,
exactly when each lies in one half and the sum is a `long`. -/
theorem mapsLoop_eq_ok_iff (Rs : List (Region page)) (addrs : Addrs) {bytes : Int}
    (h0 : 0 ≤ bytes) (hlt : bytes < 2 ^ 63) :
    mapsLoop addrs bytes (Rs.map fun R => R.text ++ [newline]) =
        .ok (Rs.map Region.mapsLine, bytes + totalSize Rs) ↔
      (∀ R ∈ Rs, R.OneHalf) ∧ bytes + totalSize Rs < 2 ^ 63 := by
  induction Rs generalizing addrs bytes with
  | nil => simpa [mapsLoop, totalSize] using hlt
  | cons R Rs ih =>
    rw [List.map_cons, List.map_cons, List.forall_mem_cons, totalSize_cons, Int.natCast_add,
      ← Int.add_assoc]
    by_cases hfirst : R.OneHalf ∧ bytes + R.size < 2 ^ 63
    · obtain ⟨hhalf, hsum⟩ := hfirst
      rw [mapsLoop_right hhalf h0 hsum, and_iff_right hhalf, ← ih R.longs (by omega) hsum]
      cases mapsLoop R.longs (bytes + R.size) (Rs.map fun R => R.text ++ [newline]) with
      | error e => simp [Except.map]
      | ok r => simp [Except.map, Prod.ext_iff]
    · constructor
      · intro h
        obtain ⟨hrec, hsum⟩ := mapsLoop_first h
        have hhalf : R.OneHalf := R.oneHalf_iff.mp hrec.symm
        exact absurd ⟨hhalf, (long_eq_ok_iff.mp hsum).1.2⟩ hfirst
      · rintro ⟨⟨hhalf, -⟩, hlt⟩
        exact absurd ⟨hhalf, by omega⟩ hfirst

/-! ## 5. The section -/

/-- **The MAPS section.**  For every list of regions, every size, every number of pages and the
sums at the end are right, and no sum leaves `long`, exactly when no region lies across the
middle of the address space and all of them together have less than 2^63 bytes. -/
theorem maps_iff (Rs : List (Region page)) (junk : Addrs) :
    fprintfMaps junk (maps Rs) = .ok (mapsSection Rs) ↔
      (∀ R ∈ Rs, R.OneHalf) ∧ totalSize Rs < 2 ^ 63 := by
  have hloop := mapsLoop_eq_ok_iff Rs junk (Int.le_refl 0) (by decide)
  rw [Int.zero_add] at hloop
  have hcast : (totalSize Rs : Int) < 2 ^ 63 ↔ totalSize Rs < 2 ^ 63 := by omega
  rw [← hcast, ← hloop, fprintfMaps, getlines_maps]
  cases mapsLoop junk 0 (Rs.map fun R => R.text ++ [newline]) with
  | error e => simp [bind, Except.bind]
  | ok r =>
    obtain ⟨lines, bytes⟩ := r
    simp only [bind, Except.bind, pure, Except.pure, Except.ok.injEq, mapsSection,
      MapsSection.mk.injEq, Prod.mk.injEq]
    constructor
    · rintro ⟨hlines, hbytes, -⟩
      exact ⟨hlines, hbytes⟩
    · rintro ⟨hlines, hbytes⟩
      exact ⟨hlines, hbytes, by rw [hbytes]; rfl⟩

/-! ## 6. The pages of both sections -/

theorem dvd_size (R : Region page) : page ∣ R.size := Nat.dvd_sub R.end_aligned R.start_aligned

/-- A region has as many pages as there are in its size. -/
theorem length_pages (R : Region page) : R.pages.length * page = R.size := by
  obtain ⟨n, hn⟩ := dvd_size R
  have hpos := R.page_pos
  have hcount : (page * n + (page - 1)) / page = n := by
    rw [Nat.mul_add_div hpos, Nat.div_eq_of_lt (by omega), Nat.add_zero]
  have hlen : R.pages.length = (R.size + (page - 1)) / page := by
    rw [Region.pages, pagesBetween, List.length_map, List.length_range, Region.size]
  rw [hlen, hn, hcount, Nat.mul_comm]

/-- The rows that are printed for the single lines; there are `n` rows before them. -/
def lineRows (pread : Nat → Option UInt64) (stale : Nat → UInt64) (n : Nat) :
    List (Region page) → List (List PageLine)
  | [] => []
  | R :: Rs =>
    pageLines page pread stale n R.pages :: lineRows pread stale (n + R.pages.length) Rs

variable {pread : Nat → Option UInt64} {stale : Nat → UInt64}

theorem lineRows_take (Rs : List (Region page)) (n k : Nat) :
    (lineRows pread stale n Rs).take k = lineRows pread stale n (Rs.take k) := by
  induction Rs generalizing n k with
  | nil => rw [List.take_nil, lineRows, List.take_nil]
  | cons R Rs ih =>
    cases k with
    | zero => rfl
    | succ k => rw [lineRows, List.take_succ_cons, ih, List.take_succ_cons, lineRows]

theorem flatten_lineRows (Rs : List (Region page)) (n : Nat) :
    (lineRows pread stale n Rs).flatten =
      pageLines page pread stale n (Rs.flatMap Region.pages) := by
  induction Rs generalizing n with
  | nil => rfl
  | cons R Rs ih => rw [lineRows, List.flatten_cons, ih, List.flatMap_cons, pageLines_append]

/-- The rows of a line are of as many pages as there are in its size. -/
theorem lineRows_sizes (Rs : List (Region page)) (n : Nat) :
    (lineRows pread stale n Rs).map (fun rows => rows.length * page) = Rs.map Region.size := by
  induction Rs generalizing n with
  | nil => rfl
  | cons R Rs ih =>
    rw [lineRows, List.map_cons, ih, length_pageLines, length_pages, List.map_cons]

/-- Whole pages add up. -/
theorem length_flatten_lineRows (Rs : List (Region page)) (n : Nat) :
    (lineRows pread stale n Rs).flatten.length * page = totalSize Rs := by
  induction Rs generalizing n with
  | nil => exact Nat.zero_mul page
  | cons R Rs ih =>
    rw [lineRows, List.flatten_cons, List.length_append, Nat.add_mul, ih, length_pageLines,
      length_pages, totalSize_cons]

/-- The first lines of a file whose lines come through do so too. -/
theorem AllThrough.take {k : Nat} {Rs : List (Region page)} (h : AllThrough k Rs) (n : Nat) :
    AllThrough k (Rs.take n) := by
  intro before R behind heq
  refine h before R (behind ++ Rs.drop n) ?_
  rw [← List.cons_append, ← List.append_assoc, ← heq, List.take_append_drop]

/-- **The two sections agree.**  Where the sizes are right and every line comes through, there is a
group of `rows` for each line, such that `fprintf_pagemap_info` prints the first `n` groups of a
file of the first `n` lines.  The rows of a line, times the size of a page, are the bytes that
`fprintf_maps` says; and where a page has 4096 bytes, they are as many as it says pages, in every
line and in all. -/
theorem pages_agree (page : Nat) (Rs : List (Region page)) (junk : Addrs)
    (pread : Nat → Option UInt64) (stale : Nat → UInt64) (hhalf : ∀ R ∈ Rs, R.OneHalf)
    (hsum : totalSize Rs < 2 ^ 63) (hthrough : AllThrough 0 Rs) :
    ∃ (s : MapsSection) (rows : List (List PageLine)), fprintfMaps junk (maps Rs) = .ok s ∧
      (∀ n, fprintfPagemapInfo page pread stale (maps (Rs.take n)) =
        .ok (rows.take n).flatten) ∧
      s.lines.map MapsLine.rec_bytes = rows.map (fun r => ((r.length * page : Nat) : Int)) ∧
      s.bytes = ((rows.flatten.length * page : Nat) : Int) ∧
      (page = 4096 → s.lines.map MapsLine.pages = rows.map (fun r => (r.length : Int)) ∧
        s.pages = rows.flatten.length) := by
  have hmaps := (maps_iff Rs junk).mpr ⟨hhalf, hsum⟩
  have hsizes := @lineRows_sizes page pread stale Rs 0
  have htotal := @length_flatten_lineRows page pread stale Rs 0
  refine ⟨mapsSection Rs, lineRows pread stale 0 Rs, hmaps, fun n => ?_, ?_, ?_, ?_⟩
  · rw [fprintfPagemapInfo_ok, rowsPages_of_allThrough (hthrough.take n), lineRows_take,
      flatten_lineRows]
    rfl
  · have hcast := congrArg (List.map fun k : Nat => (k : Int)) hsizes
    rw [List.map_map, List.map_map] at hcast
    rw [mapsSection, List.map_map]
    exact hcast.symm
  · rw [htotal]
    rfl
  · rintro rfl
    constructor
    · have hcast := congrArg (List.map fun k : Nat => ((k / 4096 : Nat) : Int)) hsizes
      rw [List.map_map, List.map_map] at hcast
      rw [mapsSection, List.map_map]
      refine Eq.trans ?_ (hcast.symm.trans (List.map_congr_left fun r _ => ?_))
      · exact List.map_congr_left fun R _ => rfl
      · rw [Function.comp_apply, Nat.mul_div_cancel _ (by decide)]
    · show ((totalSize Rs / 4096 : Nat) : Int) = _
      rw [← htotal, Nat.mul_div_cancel _ (by decide)]

/-- A line that ends in the block it starts in comes through. -/
theorem comesThrough_of_le (R : Region page) {r : Nat} (h : R.text.length ≤ r) :
    R.ComesThrough r := by
  have hlen := R.length_text
  rw [Region.ComesThrough, if_pos (by omega), List.drop_eq_nil_of_le h, Strtok.blocks_nil]
  exact fun row hrow => absurd hrow List.not_mem_nil

/-- Three pages of a process. -/
def heap : Region 4096 where
  start_str := ascii "4000"
  end_str := ascii "7000"
  rest := ascii "rw-p"
  start_hex := by decide
  end_hex := by decide
  start_ne := by decide
  start_aligned := by decide
  end_aligned := by decide
  start_lt_end := by decide
  end_lt := by decide
  rest_newline := by decide
  rest_nul := by decide

/-- A page of the kernel. -/
def vsyscall : Region 4096 where
  start_str := ascii "ffffffffff600000"
  end_str := ascii "ffffffffff601000"
  rest := ascii "--xp"
  start_hex := by decide
  end_hex := by decide
  start_ne := by decide
  start_aligned := by decide
  end_aligned := by decide
  start_lt_end := by decide
  end_lt := by decide
  rest_newline := by decide
  rest_nul := by decide

/-- The entry of a page of the kernel cannot be read. -/
theorem pages_agree_heap_vsyscall :
    ∃ (s : MapsSection) (rows : List (List PageLine)),
      fprintfMaps (0, 0) (maps [heap, vsyscall]) = .ok s ∧
      (∀ n, fprintfPagemapInfo 4096 (fun _ => none) (fun _ => 0) (maps ([heap, vsyscall].take n)) =
        .ok (rows.take n).flatten) ∧
      s.lines.map MapsLine.rec_bytes = rows.map (fun r => ((r.length * 4096 : Nat) : Int)) ∧
      s.bytes = ((rows.flatten.length * 4096 : Nat) : Int) ∧
      (4096 = 4096 → s.lines.map MapsLine.pages = rows.map (fun r => (r.length : Int)) ∧
        s.pages = rows.flatten.length) := by
  refine pages_agree 4096 [heap, vsyscall] (0, 0) _ _ (by decide) (by decide) ?_
  intro before R behind heq
  have hlen := congrArg (fun Rs => (maps Rs).length) heq
  have hshort : (maps [heap, vsyscall]).length = 54 := by decide
  have happend : ∀ Rs Rs' : List (Region 4096), maps (Rs ++ Rs') = maps Rs ++ maps Rs' :=
    fun Rs Rs' => List.flatMap_append
  simp only [hshort, happend, List.length_append, length_maps_cons] at hlen
  have hroom : room (0 + (maps before).length) = BUF_SIZE - (maps before).length := by
    rw [room, Nat.zero_add, Nat.mod_eq_of_lt (by show _ < 4096; omega)]
  refine comesThrough_of_le R ?_
  rw [hroom]
  show R.text.length ≤ 4096 - _
  omega

end OsLabs.Proc
