/-
# Byte buffers of a fixed size, with every access checked

A `Buffer n` is an array of `n` bytes.  An access names the signed index that the C expression
computes; one that leaves the array is an error that carries the first index outside, and
nothing is stored.  C strings are the bytes up to the first NUL, and reading one that is not
terminated inside the array is an error too.

Facts about contents are about the list of bytes: a store replaces a stretch of it
(`store_eq_ok`), and a list of NUL-terminated strings, one after the other, is `zstrings`.
-/
import Mathlib.Algebra.Group.Int.Defs
import Mathlib.Algebra.Group.Nat.Defs
import Mathlib.Algebra.GroupWithZero.Nat
import Mathlib.Tactic.Common
import Mathlib.Data.List.TakeWhile

namespace OsLabs

/-- An array of `n` bytes. -/
structure Buffer (n : Nat) where
  bytes : List UInt8
  length_eq : bytes.length = n
deriving DecidableEq

namespace Buffer

variable {n : Nat} {b b' : Buffer n} {off : Int} {p q r str src : List UInt8} {i j len : Nat}

/-- The buffer after `memset` to 0. -/
def zero (n : Nat) : Buffer n := ⟨List.replicate n 0, List.length_replicate⟩

/-- The first index at or after `off` that is not in an array of `n` bytes. -/
def outside (n : Nat) (off : Int) : Int := if off < 0 then off else max off n

/-- Replace the bytes from index `off` on by `src`. -/
def store (b : Buffer n) (off : Int) (src : List UInt8) : Except Int (Buffer n) :=
  if h : 0 ≤ off ∧ off + src.length ≤ n then
    .ok ⟨b.bytes.take off.toNat ++ src ++ b.bytes.drop (off.toNat + src.length), by
      simp only [List.length_append, List.length_take, List.length_drop, b.length_eq]
      omega⟩
  else .error (outside n off)

/-- The `len` bytes from index `off` on. -/
def load (b : Buffer n) (off : Int) (len : Nat) : Except Int (List UInt8) :=
  if 0 ≤ off ∧ off + len ≤ n then .ok ((b.bytes.drop off.toNat).take len)
  else .error (outside n off)

/-- The C string at index `off`. -/
def cstring (b : Buffer n) (off : Int) : Except Int (List UInt8) :=
  if 0 ≤ off ∧ 0 ∈ b.bytes.drop off.toNat then
    .ok ((b.bytes.drop off.toNat).takeWhile (· ≠ 0))
  else .error (outside n off)

/-- `read` of at most `size` bytes to the front of an array, when it fails and when there is
`data` to read: the number of bytes, or -1. -/
def recv (b : Buffer n) (size : Nat) : Option (List UInt8) → Except Int (Int × Buffer n)
  | none => .ok (-1, b)
  | some data => (b.store 0 (data.take size)).map fun b => (((data.take size).length : Int), b)

/-! ## 1. Stores -/

/-- **A store inside the array** replaces a stretch of its bytes. -/
theorem store_eq_ok (b : Buffer n) (off : Int) (src : List UInt8) (h : 0 ≤ off)
    (hle : off + src.length ≤ n) : ∃ b', b.store off src = .ok b' ∧
      b'.bytes = b.bytes.take off.toNat ++ src ++ b.bytes.drop (off.toNat + src.length) :=
  ⟨_, dif_pos ⟨h, hle⟩, rfl⟩

theorem store_eq_error (b : Buffer n) (off : Int) (src : List UInt8)
    (h : ¬ (0 ≤ off ∧ off + src.length ≤ n)) :
    b.store off src = .error (outside n off) := dif_neg h

/-- A store after the prefix `p`. -/
theorem store_after (src : List UInt8) (hb : b.bytes = p ++ q) (hoff : off = p.length)
    (hle : src.length ≤ q.length) :
    ∃ b', b.store off src = .ok b' ∧ b'.bytes = p ++ src ++ q.drop src.length := by
  have hn : p.length + q.length = n := by rw [← b.length_eq, hb, List.length_append]
  obtain ⟨b', hst, hb'⟩ := store_eq_ok b off src (by omega) (by omega)
  refine ⟨b', hst, ?_⟩
  have htoNat : off.toNat = p.length := by omega
  rw [hb', hb, htoNat, List.take_left, List.drop_append, List.drop_eq_nil_of_le (by omega),
    List.nil_append, Nat.add_sub_cancel_left]

theorem bytes_of_store (h : b.store off src = .ok b') : (0 ≤ off ∧ off + src.length ≤ n) ∧
    b'.bytes = b.bytes.take off.toNat ++ src ++ b.bytes.drop (off.toNat + src.length) := by
  by_cases hin : 0 ≤ off ∧ off + src.length ≤ n
  · obtain ⟨b₁, hst, hb₁⟩ := store_eq_ok b off src hin.1 hin.2
    rw [h, Except.ok.injEq] at hst
    exact ⟨hin, hst ▸ hb₁⟩
  · rw [store_eq_error b off src hin] at h
    exact absurd h (by simp)

/-- The bytes before the stretch stay. -/
theorem store_getElem?_of_lt (h : b.store off src = .ok b') (hi : (i : Int) < off) :
    b'.bytes[i]? = b.bytes[i]? := by
  obtain ⟨hin, hb'⟩ := bytes_of_store h
  have hlen := b.length_eq
  rw [hb', List.append_assoc, List.getElem?_append_left (by rw [List.length_take]; omega),
    List.getElem?_take_of_lt (by omega)]

/-- The byte that a store of one byte leaves. -/
theorem store_getElem?_self {c : UInt8} (h : b.store off [c] = .ok b') :
    b'.bytes[off.toNat]? = some c := by
  obtain ⟨hin, hb'⟩ := bytes_of_store h
  rw [List.length_singleton] at hin
  have hlen := b.length_eq
  have htake : (b.bytes.take off.toNat).length = off.toNat := by
    rw [List.length_take]
    omega
  rw [hb', List.append_assoc, List.getElem?_append_right (by omega), htake]
  simp

/-- A `read` that may fill the whole array. -/
theorem recv_some (b : Buffer n) (data : List UInt8) :
    ∃ b', b.recv n (some data) = .ok (((data.take n).length : Int), b') ∧
      b'.bytes = data.take n ++ b.bytes.drop data.length := by
  obtain ⟨b', hst, hb'⟩ := store_eq_ok b 0 (data.take n) (Int.le_refl 0)
    (by rw [List.length_take]; omega)
  refine ⟨b', by rw [recv, hst]; rfl, ?_⟩
  have hdrop : b.bytes.drop (data.take n).length = b.bytes.drop data.length := by
    rcases Nat.le_total data.length n with hle | hge
    · rw [List.take_of_length_le hle]
    · rw [List.length_take_of_le hge, List.drop_eq_nil_of_le (by rw [b.length_eq]),
        List.drop_eq_nil_of_le (by rw [b.length_eq]; exact hge)]
  rw [hb', Int.toNat_zero, List.take_zero, List.nil_append, Nat.zero_add, hdrop]

/-! ## 2. Loads and strings -/

theorem load_zero (hb : b.bytes = p ++ q) : b.load 0 p.length = .ok p := by
  have hn : p.length + q.length = n := by rw [← b.length_eq, hb, List.length_append]
  rw [load, if_pos (by omega), hb]
  simp

theorem nul_notMem_takeWhile (b : List UInt8) : (0 : UInt8) ∉ b.takeWhile (· ≠ 0) := fun h0 => by
  simpa using List.mem_takeWhile_imp h0

theorem takeWhile_of_no_nul (h : (0 : UInt8) ∉ str) : str.takeWhile (· ≠ 0) = str := by
  rw [List.takeWhile_eq_self_iff]
  intro c hc
  rw [decide_eq_true_iff]
  rintro rfl
  exact h hc

/-- **The C string at the front of a list of bytes**: it and its NUL are a prefix of the list. -/
theorem takeWhile_eq_iff {b : List UInt8} :
    ((0 : UInt8) ∈ b ∧ b.takeWhile (· ≠ 0) = str) ↔ (0 : UInt8) ∉ str ∧ str ++ [0] <+: b := by
  constructor
  · rintro ⟨hmem, rfl⟩
    have hno := nul_notMem_takeWhile b
    obtain ⟨c, rest, hrest⟩ : ∃ c rest, b.dropWhile (· ≠ 0) = c :: rest := by
      refine List.exists_cons_of_ne_nil fun hnil => hno ?_
      rw [← List.takeWhile_append_dropWhile (p := (· ≠ 0)) (l := b), hnil,
        List.append_nil] at hmem
      exact hmem
    have hc : c = 0 := by
      have hhead := List.head?_dropWhile_not (fun x : UInt8 => decide (x ≠ 0)) b
      rw [hrest] at hhead
      simpa using hhead
    rw [hc] at hrest
    refine ⟨hno, rest, ?_⟩
    rw [List.append_assoc, List.singleton_append, ← hrest]
    exact List.takeWhile_append_dropWhile
  · rintro ⟨hno, rest, rfl⟩
    refine ⟨by simp, ?_⟩
    rw [List.append_assoc, List.takeWhile_append, if_pos (by rw [takeWhile_of_no_nul hno])]
    simp

/-- **The C string at the end of a prefix.** -/
theorem cstring_after (hb : b.bytes = p ++ (str ++ 0 :: r)) (hoff : off = p.length)
    (hstr : (0 : UInt8) ∉ str) : b.cstring off = .ok str := by
  have hdrop : b.bytes.drop off.toNat = str ++ 0 :: r := by
    rw [hb, hoff, Int.toNat_natCast, List.drop_left]
  obtain ⟨hmem, htake⟩ := takeWhile_eq_iff.mpr ⟨hstr, r, rfl⟩
  rw [List.append_assoc, List.singleton_append] at hmem htake
  rw [cstring, hdrop, if_pos ⟨by omega, hmem⟩, htake]

theorem cstring_zero (b : Buffer n) : b.cstring 0 =
    if (0 : UInt8) ∈ b.bytes then .ok (b.bytes.takeWhile (· ≠ 0)) else .error (outside n 0) := by
  simp only [cstring, Int.toNat_zero, List.drop_zero, Int.le_refl, true_and]

/-- Bytes with a NUL behind them. -/
theorem cstring_zero_of_append (hb : b.bytes = p ++ 0 :: q) :
    b.cstring 0 = .ok (p.takeWhile (· ≠ 0)) := by
  rw [cstring_zero, if_pos (by simp [hb]), hb, List.takeWhile_append]
  split
  · rename_i hall
    rw [List.takeWhile_cons_of_neg (by simp), List.append_nil,
      (List.takeWhile_prefix _).eq_of_length hall]
  · rfl

/-- **A string stored with its NUL** is read back. -/
theorem store_string (b : Buffer n) (str : List UInt8) (h : str.length < n) :
    ∃ b', b.store 0 (str ++ [0]) = .ok b' ∧ b'.cstring 0 = .ok (str.takeWhile (· ≠ 0)) := by
  obtain ⟨b', hst, hb'⟩ := store_eq_ok b 0 (str ++ [0]) (Int.le_refl 0)
    (by rw [List.length_append, List.length_singleton]; omega)
  exact ⟨b', hst, cstring_zero_of_append (by simpa using hb')⟩

/-- **Bytes stored first, and the NUL behind them** afterwards. -/
theorem store_terminate (b : Buffer n) (data : List UInt8) (h : data.length < n) :
    ∃ b₁ b₂, b.store 0 data = .ok b₁ ∧ b₁.bytes = data ++ b.bytes.drop data.length ∧
      b₁.store data.length [0] = .ok b₂ ∧ b₂.cstring 0 = .ok (data.takeWhile (· ≠ 0)) := by
  obtain ⟨b₁, hst₁, hb₁⟩ := store_eq_ok b 0 data (Int.le_refl 0) (by omega)
  rw [Int.toNat_zero, List.take_zero, List.nil_append, Nat.zero_add] at hb₁
  have hroom : 1 ≤ (b.bytes.drop data.length).length := by
    rw [List.length_drop, b.length_eq]
    omega
  obtain ⟨b₂, hst₂, hb₂⟩ := store_after [0] hb₁ rfl hroom
  exact ⟨b₁, b₂, hst₁, hb₁, hst₂, cstring_zero_of_append (by simpa using hb₂)⟩

theorem recv_terminate (b : Buffer n) (data : List UInt8) (h : data.length < n) :
    ∃ b₁ b₂, b.recv n (some data) = .ok ((data.length : Int), b₁) ∧
      b₁.bytes = data ++ b.bytes.drop data.length ∧ b₁.store data.length [0] = .ok b₂ ∧
      b₂.cstring 0 = .ok (data.takeWhile (· ≠ 0)) := by
  obtain ⟨b₁, b₂, hst₁, hb₁, hst₂, hstr⟩ := store_terminate b data h
  refine ⟨b₁, b₂, ?_, hb₁, hst₂, hstr⟩
  rw [recv, List.take_of_length_le (Nat.le_of_lt h), hst₁]
  rfl

/-- Behind an array that has been filled there is no room for a NUL. -/
theorem recv_full (b : Buffer n) (data : List UInt8) (h : n ≤ data.length) :
    ∃ b₁, b.recv n (some data) = .ok ((n : Int), b₁) ∧ b₁.store n [0] = .error n := by
  obtain ⟨b₁, hrecv, -⟩ := b.recv_some data
  rw [List.length_take_of_le h] at hrecv
  refine ⟨b₁, hrecv, ?_⟩
  rw [store_eq_error _ _ _ (by rw [List.length_singleton]; omega), outside, if_neg (by omega)]
  simp

theorem length_takeWhile_le {α : Type} {p : α → Bool} : ∀ {l : List α} {i : Nat} {a : α},
    l[i]? = some a → p a = false → (l.takeWhile p).length ≤ i := by
  intro l
  induction l with
  | nil =>
    intro i a h _
    simp at h
  | cons x l ih =>
    intro i a h hp
    cases i with
    | zero =>
      rw [List.getElem?_cons_zero, Option.some.injEq] at h
      simp [h, hp]
    | succ i =>
      rw [List.getElem?_cons_succ] at h
      rw [List.takeWhile_cons]
      split
      · exact Nat.succ_le_succ (ih h hp)
      · exact Nat.zero_le _

/-- A NUL at or after `off` bounds the string there. -/
theorem cstring_of_nul (b : Buffer n) (h : 0 ≤ off) (hj : off ≤ j) (hnul : b.bytes[j]? = some 0) :
    ∃ str, b.cstring off = .ok str ∧ off + str.length ≤ j := by
  have hdrop : (b.bytes.drop off.toNat)[j - off.toNat]? = some 0 := by
    rw [List.getElem?_drop, ← hnul]
    congr 1
    omega
  refine ⟨_, if_pos ⟨h, List.mem_of_getElem? hdrop⟩, ?_⟩
  have hle := length_takeWhile_le (p := (· ≠ 0)) hdrop (by simp)
  omega

end Buffer

/-- A list of which only the first `n` entries have been written over `g`. -/
theorem prefix_take_append_iff {α : Type} {s m g : List α} (h : s <+: m) (n : Nat) :
    s <+: m.take n ++ g ↔ s.length ≤ n ∨ g.take (s.length - n) = s.drop n := by
  rcases Nat.lt_or_ge n s.length with hlt | hge
  · have htake : m.take n = s.take n := by
      obtain ⟨t, rfl⟩ := h
      rw [List.take_append_of_le_length (Nat.le_of_lt hlt)]
    conv_lhs => rw [htake, ← List.take_append_drop n s]
    rw [List.take_append_of_le_length (by rw [List.length_take]; omega), List.take_take,
      Nat.min_self, List.prefix_append_right_inj, List.prefix_iff_eq_take, List.length_drop]
    constructor
    · exact fun h => .inr h.symm
    · rintro (hle | h)
      · omega
      · exact h.symm
  · refine iff_of_true ?_ (.inl hge)
    exact (List.prefix_take_iff.mpr ⟨h, hge⟩).trans (List.prefix_append _ _)

/-! ## 3. `snprintf` and lists of strings -/

/-- What `snprintf` stores in a buffer of `size` bytes when the output is `out`, and the length
it returns, which is that of the whole output. -/
def snprintf (size : Nat) (out : List UInt8) : List UInt8 × Nat :=
  (if size = 0 then [] else out.take (size - 1) ++ [0], out.length)

theorem snprintf_of_lt (size : Nat) (out : List UInt8) (h : out.length < size) :
    snprintf size out = (out ++ [0], out.length) := by
  rw [snprintf, if_neg (by omega), List.take_of_length_le (by omega)]

theorem length_snprintf_le (size : Nat) (out : List UInt8) :
    (snprintf size out).1.length ≤ size := by
  unfold snprintf
  split
  · exact Nat.zero_le _
  · simp only [List.length_append, List.length_take, List.length_singleton]
    omega

/-- Strings one after the other, each with its NUL. -/
def zstrings (l : List (List UInt8)) : List UInt8 := l.flatMap (· ++ [0])

theorem zstrings_append (l m : List (List UInt8)) : zstrings (l ++ m) = zstrings l ++ zstrings m :=
  List.flatMap_append

theorem zstrings_singleton (s : List UInt8) : zstrings [s] = s ++ [0] := by simp [zstrings]

/-- The `k`-th string stands between the ones before and the ones after it. -/
theorem zstrings_eq {l : List (List UInt8)} {k : Nat} {s : List UInt8} (h : l[k]? = some s) :
    zstrings l = zstrings (l.take k) ++ (s ++ 0 :: zstrings (l.drop (k + 1))) := by
  obtain ⟨hk, rfl⟩ := List.getElem?_eq_some_iff.mp h
  conv_lhs => rw [← List.take_append_drop k l, List.drop_eq_getElem_cons hk]
  simp only [zstrings, List.flatMap_append, List.flatMap_cons, List.append_assoc, List.cons_append,
    List.nil_append]

theorem length_zstrings_take_succ {l : List (List UInt8)} {k : Nat} {s : List UInt8}
    (h : l[k]? = some s) :
    (zstrings (l.take (k + 1))).length = (zstrings (l.take k)).length + (s.length + 1) := by
  rw [List.take_add_one, h, zstrings_append]
  simp [zstrings]

/-! ## 4. Numbers in decimal -/

/-- What `%d` prints of a number that is not negative. -/
def decimal (n : Nat) : List UInt8 := (Nat.toDigits 10 n).map fun c => UInt8.ofNat c.toNat

theorem length_decimal_le_iff {n e : Nat} (he : 0 < e) : (decimal n).length ≤ e ↔ n < 10 ^ e := by
  rw [decimal, List.length_map]
  exact Nat.length_toDigits_le_iff (by decide) he

theorem length_decimal_le {n e : Nat} (he : 0 < e) (h : n < 10 ^ e) : (decimal n).length ≤ e :=
  (length_decimal_le_iff he).mpr h

theorem decimal_no_nul (n : Nat) : (0 : UInt8) ∉ decimal n := by
  intro h
  obtain ⟨c, hc, h0⟩ := List.mem_map.mp h
  have hdigit := Nat.isDigit_of_mem_toDigits (by decide) (by decide) hc
  rw [Char.isDigit, Bool.and_eq_true, decide_eq_true_eq, decide_eq_true_eq] at hdigit
  obtain ⟨hlow, hhigh⟩ := hdigit
  have hlow' : 48 ≤ c.toNat := hlow
  have hhigh' : c.toNat ≤ 57 := hhigh
  have h0' := congrArg UInt8.toNat h0
  rw [UInt8.toNat_ofNat', Nat.mod_eq_of_lt (by omega)] at h0'
  simp at h0'
  omega

end OsLabs
