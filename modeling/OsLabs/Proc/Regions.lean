/-
# proc: the regions in `maps`

A line of `maps` begins with the two ends of a region, "start-end".  `fprintf_pagemap_info` reads a
row as what it names (`rowPages_eq_ok_iff`): its first word, cut at the dashes, begins with two
numbers, and these are the first page and the end.  A whole line names the pages of its region
(`Region.rowPages_addresses`).
-/
import OsLabs.Proc.Arguments

namespace OsLabs.Proc

open Strtok

variable {page first last i : Nat} {w v : Bytes} {l : List Nat}

/-! ## 1. The pages of a region -/

/-- The addresses from `first` on, a page apart, below `last`. -/
def pagesBetween (page first last : Nat) : List Nat :=
  (List.range ((last - first + (page - 1)) / page)).map (first + page * ·)

theorem mem_pagesBetween (hp : 0 < page) :
    i ∈ pagesBetween page first last ↔ first ≤ i ∧ i < last ∧ page ∣ i - first := by
  rw [pagesBetween, List.mem_map]
  have hcount : ∀ k, k < (last - first + (page - 1)) / page ↔ first + page * k < last := by
    intro k
    rw [← Nat.succ_le_iff, Nat.le_div_iff_mul_le hp, Nat.succ_mul, Nat.mul_comm k]
    omega
  constructor
  · rintro ⟨k, hk, rfl⟩
    rw [List.mem_range, hcount] at hk
    exact ⟨Nat.le_add_right _ _, hk, by rw [Nat.add_sub_cancel_left]; exact Nat.dvd_mul_right _ _⟩
  · rintro ⟨hle, hlt, k, hk⟩
    have hi : first + page * k = i := by omega
    exact ⟨k, by rw [List.mem_range, hcount, hi]; exact hlt, hi⟩

theorem pagesBetween_ge (hp : 0 < page) (h : last ≤ first) : pagesBetween page first last = [] := by
  refine List.eq_nil_iff_forall_not_mem.mpr fun i hi => ?_
  obtain ⟨hle, hlt, -⟩ := (mem_pagesBetween hp).mp hi
  omega

theorem pagesBetween_lt (hp : 0 < page) (h : first < last) :
    pagesBetween page first last = first :: pagesBetween page (first + page) last := by
  have hcount : (last - first + (page - 1)) / page =
      (last - (first + page) + (page - 1)) / page + 1 := by
    rcases Nat.lt_or_ge last (first + page) with hlast | hlast
    · have hone : (last - first + (page - 1)) / page = 1 :=
        Nat.div_eq_of_lt_le (by omega) (by omega)
      have hzero : (last - (first + page) + (page - 1)) / page = 0 :=
        Nat.div_eq_of_lt (by omega)
      rw [hone, hzero]
    · rw [← Nat.add_div_right _ hp]
      congr 1
      omega
  rw [pagesBetween, hcount, List.range_succ_eq_map, List.map_cons, List.map_map, pagesBetween,
    Nat.mul_zero, Nat.add_zero]
  refine congrArg (first :: ·) (List.map_congr_left fun k _ => ?_)
  simp only [Function.comp_apply, Nat.succ_eq_add_one, Nat.mul_succ]
  omega

/-- **The loop lists the pages between the two addresses**, unless it steps over the end of the
address space. -/
theorem pageLoop_eq_ok_iff (hp : 0 < page) : pageLoop page i last = .ok l ↔
    l = pagesBetween page i last ∧ ∀ x ∈ l, x + page < 2 ^ 64 := by
  fun_induction pageLoop page i last generalizing l with
  | case1 i h hstep ih =>
    rw [pagesBetween_lt hp h]
    constructor
    · intro hok
      cases hl : pageLoop page (i + page) last with
      | error e =>
        rw [hl] at hok
        exact absurd hok (by simp [Except.map])
      | ok l' =>
        obtain ⟨rfl, hall⟩ := ih.mp hl
        rw [hl] at hok
        obtain rfl := Except.ok.inj hok
        exact ⟨rfl, List.forall_mem_cons.mpr ⟨hstep.2, hall⟩⟩
    · rintro ⟨rfl, hall⟩
      rw [ih.mpr ⟨rfl, (List.forall_mem_cons.mp hall).2⟩]
      rfl
  | case2 i h hstep =>
    refine iff_of_false (by simp) ?_
    rintro ⟨rfl, hall⟩
    rw [pagesBetween_lt hp h] at hall
    exact hstep ⟨hp, (List.forall_mem_cons.mp hall).1⟩
  | case3 i h =>
    rw [pagesBetween_ge hp (Nat.not_lt.mp h)]
    constructor
    · intro hok
      obtain rfl := Except.ok.inj hok
      exact ⟨rfl, fun x hx => absurd hx List.not_mem_nil⟩
    · rintro ⟨rfl, -⟩
      rfl

/-! ## 2. What a text names -/

/-- The text names the region from `a` to `b`: its first word, cut at the dashes, begins with the
numbers `a` and `b`. -/
def Names (w : Bytes) (a b : Nat) : Prop :=
  ∃ addresses more start_str rest end_str more', FirstWord (· == space) w addresses more ∧
    FirstWord (· == dash) addresses start_str rest ∧ FirstWord (· == dash) rest end_str more' ∧
    strtoul16 start_str = a ∧ strtoul16 end_str = b

/-- `l` is the pages of the region that the text names, if it names one. -/
def Named (page : Nat) (w : Bytes) (l : List Nat) : Prop :=
  (∃ a b, Names w a b ∧ l = pagesBetween page a b) ∨ ((∀ a b, ¬ Names w a b) ∧ l = [])

/-- The text names no page. -/
def Silent (w : Bytes) : Prop := ∀ a b, Names w a b → b ≤ a

/-- **A row is read as what it names.** -/
theorem rowPages_cases (page : Nat) (w : Bytes) :
    (∃ a b, Names w a b ∧ rowPages page w = pageLoop page a b) ∨
      ((∀ a b, ¬ Names w a b) ∧ rowPages page w = .ok []) := by
  have hnames : ∀ a b, Names w a b → ∃ addresses more start_str rest end_str more',
      strtok (· == space) w = some (addresses, more) ∧
        strtok (· == dash) addresses = some (start_str, rest) ∧
        strtok (· == dash) rest = some (end_str, more') := by
    rintro a b ⟨addresses, more, start_str, rest, end_str, more', h₁, h₂, h₃, -⟩
    exact ⟨_, _, _, _, _, _, strtok_eq_some_iff.mpr h₁, strtok_eq_some_iff.mpr h₂,
      strtok_eq_some_iff.mpr h₃⟩
  rw [rowPages]
  split
  · rename_i hnone
    refine .inr ⟨fun a b h => ?_, rfl⟩
    obtain ⟨_, _, _, _, _, _, h₁, -⟩ := hnames a b h
    exact absurd (hnone.symm.trans h₁) (by simp)
  · rename_i addresses more h₁
    split
    · rename_i hnone
      refine .inr ⟨fun a b h => ?_, rfl⟩
      obtain ⟨_, _, _, _, _, _, h₁', h₂, -⟩ := hnames a b h
      obtain ⟨rfl, -⟩ := Prod.mk.inj (Option.some.inj (h₁.symm.trans h₁'))
      exact absurd (hnone.symm.trans h₂) (by simp)
    · rename_i start_str rest h₂
      split
      · rename_i hnone
        refine .inr ⟨fun a b h => ?_, rfl⟩
        obtain ⟨_, _, _, _, _, _, h₁', h₂', h₃⟩ := hnames a b h
        obtain ⟨rfl, -⟩ := Prod.mk.inj (Option.some.inj (h₁.symm.trans h₁'))
        obtain ⟨-, rfl⟩ := Prod.mk.inj (Option.some.inj (h₂.symm.trans h₂'))
        exact absurd (hnone.symm.trans h₃) (by simp)
      · rename_i end_str more' h₃
        exact .inl ⟨_, _, ⟨_, _, _, _, _, _, strtok_eq_some_iff.mp h₁, strtok_eq_some_iff.mp h₂,
          strtok_eq_some_iff.mp h₃, rfl, rfl⟩, rfl⟩

/-- A text names one region at most. -/
theorem Names.unique {a b a' b' : Nat} (h : Names w a b) (h' : Names w a' b') :
    a = a' ∧ b = b' := by
  obtain ⟨_, _, _, _, _, _, h₁, h₂, h₃, rfl, rfl⟩ := h
  obtain ⟨_, _, _, _, _, _, h₁', h₂', h₃', rfl, rfl⟩ := h'
  rw [← strtok_eq_some_iff] at h₁ h₂ h₃ h₁' h₂' h₃'
  obtain ⟨rfl, -⟩ := Prod.mk.inj (Option.some.inj (h₁.symm.trans h₁'))
  obtain ⟨rfl, rfl⟩ := Prod.mk.inj (Option.some.inj (h₂.symm.trans h₂'))
  obtain ⟨rfl, -⟩ := Prod.mk.inj (Option.some.inj (h₃.symm.trans h₃'))
  exact ⟨rfl, rfl⟩

theorem rowPages_eq_ok_iff (hp : 0 < page) : rowPages page w = .ok l ↔
    Named page w l ∧ ∀ x ∈ l, x + page < 2 ^ 64 := by
  rcases rowPages_cases page w with ⟨a, b, hab, hrow⟩ | ⟨hno, hrow⟩
  · rw [hrow, pageLoop_eq_ok_iff hp]
    refine and_congr_left fun _ => ⟨fun hl => .inl ⟨a, b, hab, hl⟩, ?_⟩
    rintro (⟨a', b', hab', rfl⟩ | ⟨hno, -⟩)
    · obtain ⟨rfl, rfl⟩ := hab.unique hab'
      rfl
    · exact absurd hab (hno a b)
  · rw [hrow]
    constructor
    · intro hok
      obtain rfl := Except.ok.inj hok
      exact ⟨.inr ⟨hno, rfl⟩, fun x hx => absurd hx List.not_mem_nil⟩
    · rintro ⟨⟨a, b, hab, -⟩ | ⟨-, rfl⟩, -⟩
      · exact absurd hab (hno a b)
      · rfl

theorem rowPages_eq_nil_iff (hp : 0 < page) : rowPages page w = .ok [] ↔ Silent w := by
  rw [rowPages_eq_ok_iff hp, and_iff_left fun x hx => absurd hx List.not_mem_nil]
  constructor
  · rintro (⟨a, b, hab, hl⟩ | ⟨hno, -⟩) a' b' hab'
    · obtain ⟨rfl, rfl⟩ := hab.unique hab'
      by_contra hlt
      rw [pagesBetween_lt hp (by omega)] at hl
      exact absurd hl (by simp)
    · exact absurd hab' (hno a' b')
  · intro h
    by_cases hex : ∃ a b, Names w a b
    · obtain ⟨a, b, hab⟩ := hex
      exact .inl ⟨a, b, hab, (pagesBetween_ge hp (h a b hab)).symm⟩
    · exact .inr ⟨fun a b hab => hex ⟨a, b, hab⟩, rfl⟩

/-! ## 3. Rows -/

theorem digitOf_space : digitOf 16 space = none := by decide

theorem digitOf_dash : digitOf 16 dash = none := by decide

/-- No byte of a number is a separator. -/
theorem isHex_not_sep {c : UInt8} (h : IsHex w) (hc : digitOf 16 c = none) :
    ∀ x ∈ w, (x == c) = false := by
  intro x hx
  rw [beq_eq_false_iff_ne]
  rintro rfl
  exact h.not_mem hc hx

theorem isHex_take (h : IsHex w) (k : Nat) : IsHex (w.take k) :=
  fun c hc => h c (List.mem_of_mem_take hc)

theorem isHex_drop (h : IsHex w) (k : Nat) : IsHex (w.drop k) :=
  fun c hc => h c (List.mem_of_mem_drop hc)

/-- Only the first column counts. -/
theorem rowPages_append (hne : w ≠ []) (h : ∀ x ∈ w, (x == space) = false)
    (hv : v = [] ∨ ∃ v', v = space :: v') : rowPages page (w ++ v) = rowPages page w := by
  have hrow : strtok (· == space) (w ++ v) = some (w, v.drop 1) := by
    refine strtok_word hne h (hv.imp_right ?_)
    rintro ⟨v', rfl⟩
    exact ⟨space, v', rfl, beq_self_eq_true space⟩
  rw [rowPages, hrow, rowPages, strtok_self hne h]

/-- The two ends of a region. -/
theorem rowPages_range {S E : Bytes} (hS : IsHex S) (hSne : S ≠ []) (hE : IsHex E)
    (hEne : E ≠ []) :
    rowPages page (S ++ dash :: E) = pageLoop page (strtoul16 S) (strtoul16 E) := by
  have hcol : strtok (· == space) (S ++ dash :: E) = some (S ++ dash :: E, []) := by
    refine strtok_self (by simp) fun x hx => ?_
    rcases List.mem_append.mp hx with hx | hx
    · exact isHex_not_sep hS digitOf_space x hx
    · rcases List.mem_cons.mp hx with rfl | hx
      · decide
      · exact isHex_not_sep hE digitOf_space x hx
  have hstart : strtok (· == dash) (S ++ dash :: E) = some (S, E) :=
    strtok_word hSne (isHex_not_sep hS digitOf_dash)
      (Or.inr ⟨dash, E, rfl, beq_self_eq_true dash⟩)
  have hend : strtok (· == dash) E = some (E, []) :=
    strtok_self hEne (isHex_not_sep hE digitOf_dash)
  rw [rowPages, hcol]
  dsimp only
  rw [hstart]
  dsimp only
  rw [hend]

/-- A column with one number, and a dash before it or behind it or none, is no region. -/
theorem rowPages_number (hw : IsHex w) (hne : w ≠ []) :
    rowPages page w = .ok [] ∧ rowPages page (w ++ [dash]) = .ok [] ∧
      rowPages page (dash :: w) = .ok [] := by
  have hspace := isHex_not_sep hw digitOf_space
  have hdash := isHex_not_sep hw digitOf_dash
  have hnum : strtok (· == dash) w = some (w, []) := strtok_self hne hdash
  -- the column is the whole row, and its second number is missing
  have hrow : ∀ u : Bytes, u ≠ [] → (∀ x ∈ u, (x == space) = false) →
      strtok (· == dash) u = some (w, []) → rowPages page u = .ok [] := by
    intro u hu hsep htok
    rw [rowPages, strtok_self hu hsep]
    dsimp only
    rw [htok]
    rfl
  refine ⟨hrow w hne hspace hnum, hrow _ (by simp) ?_ ?_, hrow _ (by simp) ?_ ?_⟩
  · intro x hx
    rcases List.mem_append.mp hx with hx | hx
    · exact hspace x hx
    · rw [List.mem_singleton.mp hx]
      decide
  · exact strtok_word hne hdash (Or.inr ⟨dash, [], rfl, beq_self_eq_true dash⟩)
  · intro x hx
    rcases List.mem_cons.mp hx with rfl | hx
    · decide
    · exact hspace x hx
  · have hskip : strtok (· == dash) (dash :: w) = strtok (· == dash) w :=
      strtok_sep (by decide) w
    rw [hskip, hnum]

/-- What the loop over the rows looks up. -/
def rowsPages (page : Nat) : List Bytes → Result (List Nat)
  | [] => .ok []
  | row :: rest => do
    let pages ← rowPages page row
    let more ← rowsPages page rest
    return pages ++ more

theorem rowsPages_cons {row : Bytes} {pages : List Nat} (h : rowPages page row = .ok pages)
    (rows : List Bytes) :
    rowsPages page (row :: rows) = (rowsPages page rows).map (pages ++ ·) := by
  rw [rowsPages, ok_bind h]
  cases rowsPages page rows <;> rfl

theorem rowsPages_cons_error {row : Bytes} {e : Stop} (h : rowPages page row = .error e)
    (rows : List Bytes) : rowsPages page (row :: rows) = .error e := by
  rw [rowsPages, h]
  rfl

theorem map_append_eq_ok {x : Result (List Nat)} {p q : List Nat} :
    x.map (p ++ ·) = .ok (p ++ q) ↔ x = .ok q := by
  cases x with
  | error e => simp [Except.map]
  | ok l => simp [Except.map]

theorem rowsPages_append (rows more : List Bytes) : rowsPages page (rows ++ more) =
    rowsPages page rows >>= fun pages => (rowsPages page more).map (pages ++ ·) := by
  induction rows with
  | nil =>
    rw [List.nil_append, rowsPages, ok_bind rfl]
    cases rowsPages page more <;> rfl
  | cons row rows ih =>
    cases hrow : rowPages page row with
    | error e =>
      rw [List.cons_append, rowsPages_cons_error hrow, rowsPages_cons_error hrow]
      rfl
    | ok p =>
      rw [List.cons_append, rowsPages_cons hrow, rowsPages_cons hrow, ih]
      cases rowsPages page rows with
      | error e => rfl
      | ok q =>
        rw [ok_bind rfl]
        simp only [Except.map]
        rw [ok_bind rfl]
        cases rowsPages page more <;> simp

/-- Rows that list no page. -/
theorem rowsPages_eq_nil_iff {rows : List Bytes} :
    rowsPages page rows = .ok [] ↔ ∀ row ∈ rows, rowPages page row = .ok [] := by
  induction rows with
  | nil => exact ⟨fun _ row hrow => absurd hrow (by simp), fun _ => rfl⟩
  | cons row rows ih =>
    rw [List.forall_mem_cons, ← ih]
    cases hrow : rowPages page row with
    | error e =>
      rw [rowsPages_cons_error hrow]
      simp
    | ok p =>
      rw [rowsPages_cons hrow]
      cases rowsPages page rows with
      | error e => simp [Except.map]
      | ok q => simp [Except.map]

/-- A line of `maps`. -/
structure Region (page : Nat) where
  start_str : Bytes
  end_str : Bytes
  /-- What stands behind the addresses: permissions, offset, device, inode and path. -/
  rest : Bytes
  start_hex : IsHex start_str
  end_hex : IsHex end_str
  start_ne : start_str ≠ []
  start_aligned : page ∣ hexValue start_str
  end_aligned : page ∣ hexValue end_str
  start_lt_end : hexValue start_str < hexValue end_str
  end_lt : hexValue end_str < 2 ^ 64
  rest_newline : newline ∉ rest
  rest_nul : (0 : UInt8) ∉ rest

namespace Region

variable (R : Region page)

def addresses : Bytes := R.start_str ++ dash :: R.end_str

/-- The line, without its newline. -/
def text : Bytes := R.addresses ++ space :: R.rest

/-- The addresses of the region's pages. -/
def pages : List Nat := pagesBetween page (hexValue R.start_str) (hexValue R.end_str)

theorem end_ne : R.end_str ≠ [] := by
  intro h
  have hlt := R.start_lt_end
  rw [h] at hlt
  exact absurd hlt (Nat.not_lt_zero _)

theorem page_pos (R : Region page) : 0 < page := by
  rcases Nat.eq_zero_or_pos page with rfl | h
  · have hend := Nat.zero_dvd.mp R.end_aligned
    have hlt := R.start_lt_end
    omega
  · exact h

theorem length_addresses :
    R.addresses.length = R.start_str.length + 1 + R.end_str.length := by
  rw [addresses, List.length_append, List.length_cons]
  omega

theorem length_text : R.text.length = R.addresses.length + 1 + R.rest.length := by
  rw [text, List.length_append, List.length_cons]
  omega

/-- The line, cut behind the dash. -/
theorem text_eq : R.text = (R.start_str ++ [dash]) ++ (R.end_str ++ space :: R.rest) := by
  simp [text, addresses]

theorem strtoul16_start : strtoul16 R.start_str = hexValue R.start_str :=
  strtoul16_hex R.start_hex (Nat.lt_trans R.start_lt_end R.end_lt)

theorem strtoul16_end : strtoul16 R.end_str = hexValue R.end_str :=
  strtoul16_hex R.end_hex R.end_lt

/-- The pages of a region end before the end of the address space. -/
theorem add_page_lt (R : Region page) : ∀ x ∈ R.pages, x + page < 2 ^ 64 := by
  intro x hx
  obtain ⟨hle, hlt, hdvd⟩ := (mem_pagesBetween R.page_pos).mp hx
  have hx : page ∣ x := (Nat.dvd_sub_iff_left hle R.start_aligned).mp hdvd
  have hend := R.end_lt
  obtain ⟨m, rfl⟩ := hx
  obtain ⟨n, hn⟩ := R.end_aligned
  have hmn : m + 1 ≤ n := Nat.lt_of_mul_lt_mul_left (hn ▸ hlt)
  have hmul := Nat.mul_le_mul_left page hmn
  rw [Nat.mul_succ] at hmul
  omega

/-- **What the loop is to list.** -/
theorem pageLoop_pages :
    pageLoop page (hexValue R.start_str) (hexValue R.end_str) = .ok R.pages :=
  (pageLoop_eq_ok_iff R.page_pos).mpr ⟨rfl, R.add_page_lt⟩

theorem rowPages_addresses : rowPages page R.addresses = .ok R.pages := by
  rw [addresses, rowPages_range R.start_hex R.start_ne R.end_hex R.end_ne, R.strtoul16_start,
    R.strtoul16_end, R.pageLoop_pages]

/-- In the addresses there is nothing but digits and the dash. -/
theorem not_mem_addresses {c : UInt8} (hdigit : digitOf 16 c = none) (hdash : c ≠ dash) :
    c ∉ R.addresses := by
  intro hc
  rcases List.mem_append.mp hc with hc | hc
  · exact R.start_hex.not_mem hdigit hc
  · rcases List.mem_cons.mp hc with h | hc
    · exact hdash h
    · exact R.end_hex.not_mem hdigit hc

theorem not_mem_text {c : UInt8} (hdigit : digitOf 16 c = none) (hdash : c ≠ dash)
    (hspace : c ≠ space) (hrest : c ∉ R.rest) : c ∉ R.text := by
  intro hc
  rcases List.mem_append.mp hc with hc | hc
  · exact R.not_mem_addresses hdigit hdash hc
  · rcases List.mem_cons.mp hc with h | hc
    · exact hspace h
    · exact hrest hc

theorem addresses_no_space : ∀ x ∈ R.addresses, (x == space) = false := by
  intro x hx
  rw [beq_eq_false_iff_ne]
  rintro rfl
  exact R.not_mem_addresses digitOf_space (by decide) hx

theorem newline_not_mem_text : ∀ x ∈ R.text, (x == newline) = false := by
  intro x hx
  rw [beq_eq_false_iff_ne]
  rintro rfl
  exact R.not_mem_text (by decide) (by decide) (by decide) R.rest_newline hx

theorem nul_not_mem_text : (0 : UInt8) ∉ R.text :=
  R.not_mem_text (by decide) (by decide) (by decide) R.rest_nul

/-- A region has a first page. -/
theorem pages_eq_cons : ∃ l, R.pages = hexValue R.start_str :: l :=
  ⟨_, pagesBetween_lt R.page_pos R.start_lt_end⟩

/-- And a last one. -/
theorem last_mem_pages : hexValue R.end_str - page ∈ R.pages := by
  obtain ⟨m, hm⟩ := R.start_aligned
  obtain ⟨n, hn⟩ := R.end_aligned
  have hlt := R.start_lt_end
  have hpos := R.page_pos
  have hmn : m + 1 ≤ n := Nat.lt_of_mul_lt_mul_left (hm ▸ hn ▸ hlt)
  have hmul := Nat.mul_le_mul_left page hmn
  rw [Nat.mul_succ] at hmul
  refine (mem_pagesBetween hpos).mpr ⟨by omega, by omega, ?_⟩
  exact Nat.dvd_sub (Nat.dvd_sub R.end_aligned (Nat.dvd_refl page)) R.start_aligned

end Region

end OsLabs.Proc
