/-
# proc: the page map

`fprintf_pagemap_info` prints a row for every page of every region in `maps`.  It reads the file in
blocks and cuts every block into rows, so a line that a block's end falls into is read in two
pieces or more (`fprintfPagemapInfo_ok`).  Where the end falls into an address, the pieces name
another region or none; where it falls behind the addresses, what the next block begins with is
taken for a row of its own.  And a page whose entry cannot be read has a row all the same.

`pagemap_iff` says of a line and its place in the file when it comes through (`ComesThrough`).
-/
import OsLabs.Proc.Regions

namespace OsLabs.Proc

open Strtok

variable {page i : Nat} {w : Bytes} {l : List Nat}

namespace Region

variable (R : Region page)

/-! ## 1. A line that a block's end falls into -/

/-- The line's pieces, if `r` bytes are left of the block it starts in. -/
def rows (r : Nat) : List Bytes := R.text.take r :: blocks BUF_SIZE (R.text.drop r)

/-- The line comes through, with `r` bytes left of the block it starts in:

* the block's end is behind the addresses, and no later piece names a page;
* or it is in the addresses, which end in the next block, and no piece behind that block names a
  page.  It is in the first address, and the digits before it are zeros; or it is in the second,
  the region is the page at 0, and the digits before it are not all zeros. -/
def ComesThrough (r : Nat) : Prop :=
  if R.addresses.length ≤ r then ∀ w ∈ blocks BUF_SIZE (R.text.drop r), Silent w
  else R.addresses.length ≤ r + BUF_SIZE ∧
    ((r < R.start_str.length ∧ hexValue (R.start_str.take r) = 0) ∨
      (R.start_str.length + 1 < r ∧ hexValue R.start_str = 0 ∧ hexValue R.end_str = page ∧
        hexValue (R.end_str.take (r - (R.start_str.length + 1))) ≠ 0)) ∧
    ∀ w ∈ blocks BUF_SIZE (R.text.drop (r + BUF_SIZE)), Silent w

theorem take_ne_nil {l : Bytes} {i : Nat} (hi : 0 < i) (h : i < l.length) : l.take i ≠ [] := by
  rw [← List.length_pos_iff, List.length_take]
  omega

theorem drop_ne_nil {l : Bytes} {i : Nat} (h : i < l.length) : l.drop i ≠ [] := by
  rw [← List.length_pos_iff, List.length_drop]
  omega

/-- Two rows, the first without a page. -/
theorem rowsPages_second {a b : Bytes} (ha : rowPages page a = .ok []) :
    rowsPages page [a, b] = rowPages page b := by
  rw [rowsPages_cons ha, rowsPages]
  cases hb : rowPages page b with
  | error e => rfl
  | ok l =>
    rw [ok_bind rfl, rowsPages, ok_bind rfl, List.append_nil]
    rfl

/-- Two rows, the second without a page. -/
theorem rowsPages_first {a b : Bytes} (hb : rowPages page b = .ok []) :
    rowsPages page [a, b] = rowPages page a := by
  cases ha : rowPages page a with
  | error e => rw [rowsPages_cons_error ha]
  | ok l =>
    rw [rowsPages_cons ha, rowsPages_cons hb]
    simp [rowsPages, Except.map]

/-- A piece that begins with a column of the line. -/
theorem rowPages_piece {n : Nat} (hne : w ≠ []) (hw : ∀ x ∈ w, (x == space) = false)
    (hn : w.length ≤ n) : rowPages page ((w ++ space :: R.rest).take n) = rowPages page w := by
  rw [List.take_append, List.take_of_length_le hn]
  refine rowPages_append hne hw ?_
  cases n - w.length with
  | zero => exact Or.inl rfl
  | succ k => exact Or.inr ⟨R.rest.take k, rfl⟩

/-- The block's end is behind the addresses. -/
theorem rows_of_addresses_le {r : Nat} (h : R.addresses.length ≤ r) :
    rowsPages page (R.rows r) = .ok R.pages ↔
      ∀ w ∈ blocks BUF_SIZE (R.text.drop r), Silent w := by
  have hfirst : rowPages page (R.text.take r) = .ok R.pages := by
    rw [text, R.rowPages_piece (by simp [addresses]) R.addresses_no_space h, R.rowPages_addresses]
  have hmap := map_append_eq_ok (x := rowsPages page (blocks BUF_SIZE (R.text.drop r)))
    (p := R.pages) (q := [])
  rw [List.append_nil] at hmap
  rw [rows, rowsPages_cons hfirst, hmap, rowsPages_eq_nil_iff]
  exact forall₂_congr fun w _ => rowPages_eq_nil_iff R.page_pos

/-- The block's end is in the first address. -/
theorem rows_of_lt_start {r n : Nat} (hr : 0 < r) (h : r < R.start_str.length)
    (hn : R.addresses.length ≤ r + n) :
    rowsPages page [R.text.take r, (R.text.drop r).take n] = .ok R.pages ↔
      hexValue (R.start_str.take r) = 0 := by
  have hle : r ≤ R.start_str.length := Nat.le_of_lt h
  have htake : R.start_str.take r ≠ [] := take_ne_nil hr h
  have hdrop : R.start_str.drop r ≠ [] := drop_ne_nil h
  -- the second piece starts in the middle of the address
  have hval : hexValue R.start_str =
      hexValue (R.start_str.take r) * 16 ^ (R.start_str.drop r).length +
        hexValue (R.start_str.drop r) := by
    have := hexValue_append (isHex_take R.start_hex r) (isHex_drop R.start_hex r)
    rwa [List.take_append_drop] at this
  have hstart := R.start_lt_end
  have hend := R.end_lt
  have hlt : hexValue (R.start_str.drop r) < hexValue R.end_str := by omega
  have hfirst : R.text.take r = R.start_str.take r := by
    rw [text, addresses, List.append_assoc, List.take_append_of_le_length hle]
  have hsecond : R.text.drop r =
      (R.start_str.drop r ++ dash :: R.end_str) ++ space :: R.rest := by
    rw [text, addresses, List.append_assoc, List.drop_append_of_le_length hle, List.append_assoc]
  have hsep : ∀ x ∈ R.start_str.drop r ++ dash :: R.end_str, (x == space) = false := by
    intro x hx
    refine R.addresses_no_space x ?_
    rcases List.mem_append.mp hx with hx | hx
    · exact List.mem_append_left _ (List.mem_of_mem_drop hx)
    · exact List.mem_append_right _ hx
  have hlen : (R.start_str.drop r ++ dash :: R.end_str).length ≤ n := by
    rw [R.length_addresses] at hn
    rw [List.length_append, List.length_drop, List.length_cons]
    omega
  rw [hfirst, rowsPages_second (rowPages_number (isHex_take R.start_hex r) htake).1, hsecond,
    R.rowPages_piece (by simp) hsep hlen,
    rowPages_range (isHex_drop R.start_hex r) hdrop R.end_hex R.end_ne,
    strtoul16_hex (isHex_drop R.start_hex r) (by omega), R.strtoul16_end]
  constructor
  · intro hok
    obtain ⟨hl, -⟩ := (pageLoop_eq_ok_iff R.page_pos).mp hok
    obtain ⟨l', hl'⟩ := R.pages_eq_cons
    rw [hl', pagesBetween_lt R.page_pos hlt] at hl
    have hhead := (List.cons.inj hl).1
    rw [hhead] at hval
    have hzero : hexValue (R.start_str.take r) * 16 ^ (R.start_str.drop r).length = 0 := by omega
    exact (Nat.mul_eq_zero.mp hzero).resolve_right (Nat.ne_of_gt (Nat.pow_pos (by decide)))
  · intro hzero
    rw [hzero, Nat.zero_mul, Nat.zero_add] at hval
    rw [← hval, R.pageLoop_pages]

/-- The block's end is before or behind the dash. -/
theorem rows_of_dash {r n : Nat} (h : r = R.start_str.length ∨ r = R.start_str.length + 1)
    (hn : R.addresses.length ≤ r + n) :
    rowsPages page [R.text.take r, (R.text.drop r).take n] = .ok [] := by
  rw [R.length_addresses] at hn
  rcases h with rfl | rfl
  · have hfirst : R.text.take R.start_str.length = R.start_str := by
      rw [text, addresses, List.append_assoc, List.take_left]
    have hsecond : R.text.drop R.start_str.length = (dash :: R.end_str) ++ space :: R.rest := by
      rw [text, addresses, List.append_assoc, List.drop_left]
    rw [hfirst, hsecond, rowsPages_second (rowPages_number R.start_hex R.start_ne).1,
      R.rowPages_piece (by simp) (fun x hx => R.addresses_no_space x (List.mem_append_right _ hx))
        (by rw [List.length_cons]; omega), (rowPages_number R.end_hex R.end_ne).2.2]
  · have hlen : R.start_str.length + 1 = (R.start_str ++ [dash]).length := by simp
    rw [R.text_eq, hlen, List.take_left, List.drop_left,
      rowsPages_second (rowPages_number R.start_hex R.start_ne).2.1,
      R.rowPages_piece R.end_ne (isHex_not_sep R.end_hex digitOf_space) (by omega),
      (rowPages_number R.end_hex R.end_ne).1]

/-- The block's end is in the second address. -/
theorem rows_of_lt_end {j n : Nat} (hj : 0 < j) (h : j < R.end_str.length)
    (hn : R.addresses.length ≤ R.start_str.length + 1 + j + n) :
    rowsPages page [R.text.take (R.start_str.length + 1 + j),
        (R.text.drop (R.start_str.length + 1 + j)).take n] = .ok R.pages ↔
      hexValue R.start_str = 0 ∧ hexValue R.end_str = page ∧
        hexValue (R.end_str.take j) ≠ 0 := by
  have hle : j ≤ R.end_str.length := Nat.le_of_lt h
  have htake : R.end_str.take j ≠ [] := take_ne_nil hj h
  have hdrop : R.end_str.drop j ≠ [] := drop_ne_nil h
  have hlen : R.start_str.length + 1 + j = (R.start_str ++ [dash]).length + j := by simp
  have hfirst : R.text.take (R.start_str.length + 1 + j) =
      R.start_str ++ dash :: R.end_str.take j := by
    rw [R.text_eq, hlen, List.take_length_add_append, List.take_append_of_le_length hle]
    simp
  have hsecond : R.text.drop (R.start_str.length + 1 + j) =
      R.end_str.drop j ++ space :: R.rest := by
    rw [R.text_eq, hlen, List.drop_length_add_append, List.drop_append_of_le_length hle]
  have hnone : rowPages page ((R.end_str.drop j ++ space :: R.rest).take n) = .ok [] := by
    have hlen : (R.end_str.drop j).length ≤ n := by
      rw [R.length_addresses] at hn
      rw [List.length_drop]
      omega
    rw [R.rowPages_piece hdrop (isHex_not_sep (isHex_drop R.end_hex j) digitOf_space) hlen,
      (rowPages_number (isHex_drop R.end_hex j) hdrop).1]
  -- the first piece ends with the beginning of the address, which is at most a sixteenth of it
  have hsixteenth : hexValue (R.end_str.take j) * 16 ≤ hexValue R.end_str := by
    have hval := hexValue_append (isHex_take R.end_hex j) (isHex_drop R.end_hex j)
    rw [List.take_append_drop] at hval
    have hpow : 16 ^ 1 ≤ 16 ^ (R.end_str.drop j).length := by
      refine Nat.pow_le_pow_right (by decide) ?_
      rw [List.length_drop]
      omega
    have hmul := Nat.mul_le_mul_left (hexValue (R.end_str.take j)) hpow
    omega
  have hend := R.end_lt
  rw [hfirst, hsecond, rowsPages_first hnone,
    rowPages_range R.start_hex R.start_ne (isHex_take R.end_hex j) htake, R.strtoul16_start,
    strtoul16_hex (isHex_take R.end_hex j) (by omega)]
  constructor
  · intro hok
    obtain ⟨hl, -⟩ := (pageLoop_eq_ok_iff R.page_pos).mp hok
    have hlast := R.last_mem_pages
    rw [hl, mem_pagesBetween R.page_pos] at hlast
    obtain ⟨n, hn⟩ := R.end_aligned
    have hstart := R.start_lt_end
    have hpos := R.page_pos
    -- the last page is below a sixteenth of the region's end
    have hone : n = 1 := by
      have hlt : hexValue R.end_str < 2 * page := by omega
      have hn0 : n ≠ 0 := by
        rintro rfl
        omega
      by_contra hne
      have h2 : 2 ≤ n := by omega
      have hmul := Nat.mul_le_mul_left page h2
      omega
    rw [hone, Nat.mul_one] at hn
    refine ⟨?_, hn, by omega⟩
    exact Nat.eq_zero_of_dvd_of_lt R.start_aligned (by omega)
  · rintro ⟨hzero, hpage, hne⟩
    have hpos := R.page_pos
    have hpages : R.pages = [0] := by
      rw [pages, hzero, hpage, pagesBetween_lt hpos hpos, pagesBetween_ge hpos (by omega)]
    rw [hzero, hpages, pageLoop_eq_ok_iff hpos, pagesBetween_lt hpos (by omega),
      pagesBetween_ge hpos (by omega)]
    exact ⟨rfl, fun x hx => by rw [List.mem_singleton.mp hx]; omega⟩

/-- A line whose addresses are cut, and end in the next block: its two first pieces, and the
others. -/
theorem rows_eq {r : Nat} (h : r < R.addresses.length) : R.rows r =
    [R.text.take r, (R.text.drop r).take BUF_SIZE] ++
      blocks BUF_SIZE (R.text.drop (r + BUF_SIZE)) := by
  have hlen := R.length_text
  rw [rows, blocks_cons (by decide) (drop_ne_nil (by omega)), List.drop_drop]
  rfl

/-- The first two pieces of a line whose addresses are cut once. -/
theorem rows_two_iff {r : Nat} (hr : 0 < r) (h : r < R.addresses.length)
    (hn : R.addresses.length ≤ r + BUF_SIZE) :
    rowsPages page [R.text.take r, (R.text.drop r).take BUF_SIZE] = .ok R.pages ↔
      (r < R.start_str.length ∧ hexValue (R.start_str.take r) = 0) ∨
        (R.start_str.length + 1 < r ∧ hexValue R.start_str = 0 ∧ hexValue R.end_str = page ∧
          hexValue (R.end_str.take (r - (R.start_str.length + 1))) ≠ 0) := by
  have haddr := R.length_addresses
  rcases Nat.lt_or_ge r R.start_str.length with hstart | hstart
  · rw [R.rows_of_lt_start hr hstart hn]
    constructor
    · intro h
      exact Or.inl ⟨hstart, h⟩
    · rintro (⟨-, h⟩ | ⟨hgt, -⟩)
      · exact h
      · omega
  · rcases Nat.lt_or_ge (R.start_str.length + 1) r with hend | hdash
    · obtain ⟨j, rfl⟩ : ∃ j, r = R.start_str.length + 1 + j :=
        ⟨r - (R.start_str.length + 1), by omega⟩
      rw [R.rows_of_lt_end (by omega) (by omega) hn, Nat.add_sub_cancel_left]
      constructor
      · intro h
        exact Or.inr ⟨hend, h⟩
      · rintro (⟨hlt, -⟩ | ⟨-, h⟩)
        · omega
        · exact h
    · rw [R.rows_of_dash (by omega) hn]
      obtain ⟨l, hl⟩ := R.pages_eq_cons
      constructor
      · intro h
        rw [hl] at h
        exact absurd (Except.ok.inj h) (by simp)
      · rintro (⟨hlt, -⟩ | ⟨hgt, -⟩) <;> omega

/-- **A line that comes through** is read as its pages. -/
theorem rows_of_comesThrough {r : Nat} (hr : 0 < r) (h : R.ComesThrough r) :
    rowsPages page (R.rows r) = .ok R.pages := by
  unfold ComesThrough at h
  split at h
  · rename_i hle
    exact (R.rows_of_addresses_le hle).mpr h
  · rename_i hlt
    obtain ⟨hn, hvalue, hsilent⟩ := h
    have hothers : rowsPages page (blocks BUF_SIZE (R.text.drop (r + BUF_SIZE))) = .ok [] :=
      rowsPages_eq_nil_iff.mpr fun w hw => (rowPages_eq_nil_iff R.page_pos).mpr (hsilent w hw)
    rw [R.rows_eq (Nat.not_le.mp hlt), rowsPages_append,
      ok_bind ((R.rows_two_iff hr (Nat.not_le.mp hlt) hn).mpr hvalue), hothers]
    exact congrArg Except.ok (List.append_nil _)

end Region

/-! ## 2. The file -/

/-- The contents of `/proc/<pid>/maps`. -/
def maps (Rs : List (Region page)) : Bytes := Rs.flatMap fun R => R.text ++ [newline]

/-- How many bytes are left of a block, `k` bytes behind the beginning of the file. -/
def room (k : Nat) : Nat := BUF_SIZE - k % BUF_SIZE

/-- The pieces of the lines, the first of which is `k` bytes behind the beginning of the file. -/
def fileRows (k : Nat) : List (Region page) → List Bytes
  | [] => []
  | R :: Rs => R.rows (room k) ++ fileRows (k + (R.text.length + 1)) Rs

variable {pread : Nat → Option UInt64} {stale : Nat → UInt64} {n : Nat}

theorem room_pos (k : Nat) : 0 < room k := by
  have := Nat.mod_lt k (show 0 < BUF_SIZE by decide)
  unfold room
  omega

theorem length_maps_cons (R : Region page) (Rs : List (Region page)) :
    (maps (R :: Rs)).length = R.text.length + 1 + (maps Rs).length := by
  rw [maps, List.flatMap_cons, List.length_append, List.length_append, List.length_singleton]
  rfl

/-- **The rows of the file.** -/
theorem tokens_maps (k : Nat) (Rs : List (Region page)) :
    tokens (· == newline) (cutAt newline BUF_SIZE (left BUF_SIZE BUF_SIZE k) (maps Rs)) =
      fileRows k Rs := by
  have hpos : 0 < BUF_SIZE := by decide
  induction Rs generalizing k with
  | nil =>
    rw [maps, List.flatMap_nil, cutAt_of_le (Nat.zero_le _)]
    rfl
  | cons R Rs ih =>
    have hmaps : maps (R :: Rs) = R.text ++ newline :: maps Rs := by
      simp [maps]
    have hne : R.text ≠ [] := by simp [Region.text]
    have hrows : tokens (· == newline)
        (cutAt newline BUF_SIZE (left BUF_SIZE BUF_SIZE k) R.text) = R.rows (room k) :=
      (tokens_cutAt_left hpos (by decide) k R.text).trans
        (tokens_cutAt_pieces hpos (by decide) (room_pos k) hne R.newline_not_mem_text)
    rw [hmaps, cutAt_append, ← left_add]
    refine (tokens_append_cutAt_sep (by decide) (by decide) _ _).trans ?_
    rw [hrows, ← left_add, Nat.add_assoc, ih, fileRows]

theorem length_pageLines (n : Nat) (pages : List Nat) :
    (pageLines page pread stale n pages).length = pages.length := by
  induction pages generalizing n with
  | nil => rfl
  | cons i pages ih => rw [pageLines, List.length_cons, ih, List.length_cons]

theorem pageLines_append (n : Nat) (pages more : List Nat) :
    pageLines page pread stale n (pages ++ more) =
      pageLines page pread stale n pages ++ pageLines page pread stale (n + pages.length) more := by
  induction pages generalizing n with
  | nil => rfl
  | cons i pages ih =>
    rw [List.cons_append, pageLines, ih, pageLines, List.length_cons, List.cons_append,
      Nat.add_assoc, Nat.add_comm 1]

theorem pageRows_eq (n : Nat) (rows : List Bytes) : pageRows page pread stale n rows =
    (rowsPages page rows).map (pageLines page pread stale n) := by
  induction rows generalizing n with
  | nil => rfl
  | cons row rows ih =>
    rw [pageRows, rowsPages]
    cases rowPages page row with
    | error e => rfl
    | ok p =>
      rw [ok_bind rfl, ok_bind rfl, ih]
      cases rowsPages page rows with
      | error e => rfl
      | ok q =>
        rw [ok_bind rfl]
        exact congrArg Except.ok (pageLines_append n p q).symm

/-- **What is printed for a file.** -/
theorem pageBlocks_eq (bs : List Bytes)
    (h : ∀ block ∈ bs, block.length ≤ BUF_SIZE ∧ (0 : UInt8) ∉ block) (n : Nat)
    (buf : Buffer (BUF_SIZE + 1)) : pageBlocks page pread stale n buf bs =
      (rowsPages page (bs.flatMap (tokens (· == newline)))).map
        (pageLines page pread stale n) := by
  induction bs generalizing n buf with
  | nil => rfl
  | cons block bs ih =>
    obtain ⟨⟨hlen, hnul⟩, hbs⟩ := List.forall_mem_cons.mp h
    obtain ⟨buf', hfill⟩ := fillBuf_ok buf hlen
    rw [nulToNewline_of_no_nul hnul] at hfill
    rw [pageBlocks, ok_bind hfill]
    dsimp only
    rw [pageRows_eq, List.flatMap_cons, rowsPages_append]
    cases rowsPages page (tokens (· == newline) block) with
    | error e => rfl
    | ok p =>
      dsimp only [Except.map]
      rw [ok_bind rfl, ok_bind rfl, ih hbs, length_pageLines]
      cases rowsPages page (bs.flatMap (tokens (· == newline))) with
      | error e => rfl
      | ok q => exact congrArg Except.ok (pageLines_append n p q).symm

theorem nul_not_mem_maps (Rs : List (Region page)) : (0 : UInt8) ∉ maps Rs := by
  intro h
  obtain ⟨R, -, hR⟩ := List.mem_flatMap.mp h
  rcases List.mem_append.mp hR with hR | hR
  · exact R.nul_not_mem_text hR
  · exact absurd (List.mem_singleton.mp hR) (by decide)

theorem fprintfPagemapInfo_ok (Rs : List (Region page)) :
    fprintfPagemapInfo page pread stale (maps Rs) =
      (rowsPages page (fileRows 0 Rs)).map (pageLines page pread stale 0) := by
  have hpos : 0 < BUF_SIZE := by decide
  have hblocks : ∀ block ∈ blocks BUF_SIZE (maps Rs),
      block.length ≤ BUF_SIZE ∧ (0 : UInt8) ∉ block := by
    intro block hblock
    refine ⟨length_of_mem_blocks hpos _ block hblock, fun hnul => ?_⟩
    have hmem := List.mem_flatten_of_mem hblock hnul
    rw [flatten_blocks hpos] at hmem
    exact nul_not_mem_maps Rs hmem
  have hrows : (blocks BUF_SIZE (maps Rs)).flatMap (tokens (· == newline)) = fileRows 0 Rs :=
    (blocks_tokens hpos (by decide) (maps Rs)).trans (tokens_maps 0 Rs)
  rw [fprintfPagemapInfo, pageBlocks_eq _ hblocks, hrows]

/-- **The listing is right**: there is one row for each page of each region, in the order of the
file, and it shows the page's entry in `pagemap`. -/
def Listed (page : Nat) (pread : Nat → Option UInt64) (stale : Nat → UInt64)
    (Rs : List (Region page)) : Prop :=
  ∃ lines, fprintfPagemapInfo page pread stale (maps Rs) = .ok lines ∧
    lines.map some =
      (Rs.flatMap Region.pages).map fun i => (pread (i / page * 8)).map (fprintfPage i)

/-- Lines that come through, the first of which is `k` bytes behind the beginning of the file. -/
def AllThrough (k : Nat) (Rs : List (Region page)) : Prop :=
  ∀ before R behind, Rs = before ++ R :: behind → R.ComesThrough (room (k + (maps before).length))

/-- **Lines that come through** are read as their pages. -/
theorem rowsPages_of_allThrough {k : Nat} {Rs : List (Region page)} (h : AllThrough k Rs) :
    rowsPages page (fileRows k Rs) = .ok (Rs.flatMap Region.pages) := by
  induction Rs generalizing k with
  | nil => rfl
  | cons R Rs ih =>
    have hfirst := R.rows_of_comesThrough (room_pos k) (h [] R Rs rfl)
    have hrest : AllThrough (k + (R.text.length + 1)) Rs := by
      intro before R' behind heq
      have hthrough := h (R :: before) R' behind (by rw [heq]; rfl)
      rwa [length_maps_cons, ← Nat.add_assoc] at hthrough
    rw [fileRows, rowsPages_append, ok_bind hfirst, ih hrest]
    rfl

end OsLabs.Proc
