/-
# `strtok`, and files read block by block

`strtok` skips separators, returns what stands before the next one and keeps the place behind
it.  `tokens` is what it and the calls that go on from there return until there is nothing left
(`tokens_eq_strtok`): the longest stretches without separators.

* `tokens_append_sep`: a separator between two texts separates their tokens;
* `tokens_words`: words with single separators between them are the tokens;
* `flatten_tokens`: nothing but separators is lost.

A file read in blocks of `n` bytes has its tokens cut at the blocks' ends, as if a separator
stood there (`blocks_tokens`), and a token that a block's end falls into comes out in pieces
(`tokens_cutAt_pieces`).
-/
import Mathlib.Tactic.Common
import Mathlib.Data.List.TakeWhile

namespace OsLabs.Strtok

variable {α : Type} {sep : α → Bool} {u v w s : List α} {c : α}

/-! ## 1. One call -/

/-- The next token of the text, if there is one, and the text behind the separator that ends
it. -/
def strtok (sep : α → Bool) (s : List α) : Option (List α × List α) :=
  match s.dropWhile sep with
  | [] => none
  | c :: cs => some ((c :: cs).takeWhile (!sep ·), ((c :: cs).dropWhile (!sep ·)).drop 1)

theorem strtok_sep (hc : sep c = true) (s : List α) : strtok sep (c :: s) = strtok sep s := by
  rw [strtok, List.dropWhile_cons_of_pos hc]
  rfl

theorem strtok_of_not_sep (hc : sep c = false) (s : List α) : strtok sep (c :: s) =
    some ((c :: s).takeWhile (!sep ·), ((c :: s).dropWhile (!sep ·)).drop 1) := by
  rw [strtok, List.dropWhile_cons_of_neg (by simp [hc])]

theorem takeWhile_word (h : ∀ x ∈ w, sep x = false) (v : List α) :
    (w ++ v).takeWhile (!sep ·) = w ++ v.takeWhile (!sep ·) :=
  List.takeWhile_append_of_pos fun x hx => by simp [h x hx]

theorem dropWhile_word (h : ∀ x ∈ w, sep x = false) (v : List α) :
    (w ++ v).dropWhile (!sep ·) = v.dropWhile (!sep ·) :=
  List.dropWhile_append_of_pos fun x hx => by simp [h x hx]

/-- A word at the beginning, with nothing or a separator behind it. -/
theorem strtok_word (hne : w ≠ []) (h : ∀ x ∈ w, sep x = false)
    (hv : v = [] ∨ ∃ c v', v = c :: v' ∧ sep c = true) :
    strtok sep (w ++ v) = some (w, v.drop 1) := by
  obtain ⟨x, w', rfl⟩ := List.exists_cons_of_ne_nil hne
  have hx := (List.forall_mem_cons.mp h).1
  rw [List.cons_append, strtok_of_not_sep hx, ← List.cons_append, takeWhile_word h,
    dropWhile_word h]
  rcases hv with rfl | ⟨c, v', rfl, hc⟩
  · simp
  · rw [List.takeWhile_cons_of_neg (by simp [hc]), List.dropWhile_cons_of_neg (by simp [hc]),
      List.append_nil]

/-- A text that is one word. -/
theorem strtok_self (hne : w ≠ []) (h : ∀ x ∈ w, sep x = false) : strtok sep w = some (w, []) := by
  have hword := strtok_word (v := []) hne h (Or.inl rfl)
  rwa [List.append_nil] at hword

/-- `w` is the first word of the text, and `rest` what stands behind the separator that ends it. -/
def FirstWord (sep : α → Bool) (s w rest : List α) : Prop :=
  ∃ blank tail, s = blank ++ (w ++ tail) ∧ (∀ x ∈ blank, sep x = true) ∧ w ≠ [] ∧
    (∀ x ∈ w, sep x = false) ∧ (tail = [] ∨ ∃ c v, tail = c :: v ∧ sep c = true) ∧
    rest = tail.drop 1

/-- **`strtok` returns the first word.** -/
theorem strtok_eq_some_iff {rest : List α} :
    strtok sep s = some (w, rest) ↔ FirstWord sep s w rest := by
  constructor
  · intro h
    induction s with
    | nil => exact absurd h (by simp [strtok])
    | cons c s ih =>
      cases hc : sep c with
      | true =>
        rw [strtok_sep hc] at h
        obtain ⟨blank, tail, rfl, hblank, hw⟩ := ih h
        exact ⟨c :: blank, tail, rfl, List.forall_mem_cons.mpr ⟨hc, hblank⟩, hw⟩
      | false =>
        rw [strtok_of_not_sep hc] at h
        obtain ⟨rfl, rfl⟩ := Prod.mk.inj (Option.some.inj h)
        refine ⟨[], (c :: s).dropWhile (!sep ·), List.takeWhile_append_dropWhile.symm,
          fun x hx => absurd hx List.not_mem_nil, ?_, ?_, ?_, rfl⟩
        · rw [List.takeWhile_cons_of_pos (by simp [hc])]
          exact List.cons_ne_nil _ _
        · intro x hx
          simpa using List.mem_takeWhile_imp hx
        · cases hdrop : (c :: s).dropWhile (!sep ·) with
          | nil => exact .inl rfl
          | cons d v =>
            have hd := List.head?_dropWhile_not (!sep ·) (c :: s)
            rw [hdrop] at hd
            exact .inr ⟨d, v, rfl, by simpa using hd⟩
  · rintro ⟨blank, tail, rfl, hblank, hne, hw, htail, rfl⟩
    induction blank with
    | nil => exact strtok_word hne hw htail
    | cons c blank ih =>
      obtain ⟨hc, hblank⟩ := List.forall_mem_cons.mp hblank
      rw [List.cons_append, strtok_sep hc]
      exact ih hblank

/-! ## 2. All tokens -/

/-- Put a word, if it is one, before the tokens. -/
def consWord (w : List α) (ts : List (List α)) : List (List α) := if w = [] then ts else w :: ts

/-- The word that the text starts with, which may be empty, and the tokens behind it. -/
def splitWord (sep : α → Bool) : List α → List α × List (List α)
  | [] => ([], [])
  | c :: s =>
    let (w, ts) := splitWord sep s
    if sep c then ([], consWord w ts) else (c :: w, ts)

/-- What the calls of `strtok` return one after the other, until there is no token left. -/
def tokens (sep : α → Bool) (s : List α) : List (List α) :=
  consWord (splitWord sep s).1 (splitWord sep s).2

@[simp] theorem tokens_nil : tokens sep ([] : List α) = [] := rfl

theorem splitWord_sep (hc : sep c = true) (s : List α) :
    splitWord sep (c :: s) = ([], tokens sep s) := by
  rw [splitWord]
  exact if_pos hc

theorem splitWord_of_not_sep (hc : sep c = false) (s : List α) :
    splitWord sep (c :: s) = (c :: (splitWord sep s).1, (splitWord sep s).2) := by
  rw [splitWord]
  exact if_neg (by simp [hc])

@[simp] theorem tokens_sep (hc : sep c = true) (s : List α) :
    tokens sep (c :: s) = tokens sep s := by
  rw [tokens, splitWord_sep hc]
  rfl

/-- The word is what stands before the first separator. -/
theorem splitWord_eq (s : List α) : splitWord sep s =
    (s.takeWhile (!sep ·), tokens sep ((s.dropWhile (!sep ·)).drop 1)) := by
  induction s with
  | nil => rfl
  | cons c s ih =>
    cases hc : sep c with
    | true =>
      rw [splitWord_sep hc, List.takeWhile_cons_of_neg (by simp [hc]),
        List.dropWhile_cons_of_neg (by simp [hc])]
      rfl
    | false =>
      rw [splitWord_of_not_sep hc, ih, List.takeWhile_cons_of_pos (by simp [hc]),
        List.dropWhile_cons_of_pos (by simp [hc])]

/-- **`tokens` is what successive calls of `strtok` return.** -/
theorem tokens_eq_strtok (s : List α) : tokens sep s =
    match strtok sep s with
    | none => []
    | some (t, rest) => t :: tokens sep rest := by
  induction s with
  | nil => rfl
  | cons c s ih =>
    cases hc : sep c with
    | true => rw [tokens_sep hc, strtok_sep hc, ih]
    | false =>
      rw [strtok_of_not_sep hc, tokens, splitWord_eq]
      exact if_neg (by simp [hc])

/-- The beginning of a text up to a separator. -/
theorem splitWord_append_sep (hc : sep c = true) (u v : List α) : splitWord sep (u ++ c :: v) =
    ((splitWord sep u).1, (splitWord sep u).2 ++ tokens sep v) := by
  induction u with
  | nil => rw [List.nil_append, splitWord_sep hc]; rfl
  | cons x u ih =>
    rw [List.cons_append]
    cases hx : sep x with
    | true =>
      rw [splitWord_sep hx, splitWord_sep hx, tokens, tokens, ih]
      simp only [consWord]
      split <;> rfl
    | false => rw [splitWord_of_not_sep hx, splitWord_of_not_sep hx, ih]

/-- **A separator separates.** -/
theorem tokens_append_sep (hc : sep c = true) (u v : List α) :
    tokens sep (u ++ c :: v) = tokens sep u ++ tokens sep v := by
  rw [tokens, tokens, splitWord_append_sep hc]
  simp only [consWord]
  split <;> rfl

theorem splitWord_word (h : ∀ x ∈ w, sep x = false) : splitWord sep w = (w, []) := by
  induction w with
  | nil => rfl
  | cons x w ih =>
    rw [List.forall_mem_cons] at h
    rw [splitWord_of_not_sep h.1, ih h.2]

/-- A text without separators is one token. -/
theorem tokens_word (hne : w ≠ []) (h : ∀ x ∈ w, sep x = false) : tokens sep w = [w] := by
  rw [tokens, splitWord_word h]
  exact if_neg hne

/-- Words one after the other, with a separator between two of them. -/
def spaced (c : α) : List (List α) → List α
  | [] => []
  | [w] => w
  | w :: w' :: ws => w ++ c :: spaced c (w' :: ws)

/-- **Words with single separators between them are the tokens.** -/
theorem tokens_words (hc : sep c = true) : ∀ {ws : List (List α)},
    (∀ w ∈ ws, w ≠ [] ∧ ∀ x ∈ w, sep x = false) → tokens sep (spaced c ws) = ws := by
  intro ws
  induction ws with
  | nil =>
    intro _
    rfl
  | cons w ws ih =>
    intro h
    obtain ⟨⟨hne, hw⟩, hws⟩ := List.forall_mem_cons.mp h
    cases ws with
    | nil => exact tokens_word hne hw
    | cons w' ws =>
      rw [spaced, tokens_append_sep hc, tokens_word hne hw, ih hws]
      rfl

theorem spaced_cons (w : List α) {ws : List (List α)} (h : ws ≠ []) :
    spaced c (w :: ws) = w ++ c :: spaced c ws := by
  cases ws with
  | nil => exact absurd rfl h
  | cons w' ws => rfl

/-- A text behind the last word. -/
theorem spaced_append (ws : List (List α)) (w v : List α) :
    spaced c (ws ++ [w]) ++ v = spaced c (ws ++ [w ++ v]) := by
  induction ws with
  | nil => rfl
  | cons x ws ih =>
    rw [List.cons_append, List.cons_append, spaced_cons x (by simp), spaced_cons x (by simp), ← ih]
    simp

/-- **Nothing but separators is lost.** -/
theorem flatten_tokens (sep : α → Bool) (s : List α) :
    (tokens sep s).flatten = s.filter (!sep ·) := by
  have hword : ∀ (w : List α) (ts : List (List α)),
      (consWord w ts).flatten = w ++ ts.flatten := by
    intro w ts
    unfold consWord
    split
    · rename_i h
      rw [h, List.nil_append]
    · rfl
  have hsplit : (splitWord sep s).1 ++ (splitWord sep s).2.flatten = s.filter (!sep ·) := by
    induction s with
    | nil => rfl
    | cons c s ih =>
      cases hc : sep c with
      | true =>
        rw [splitWord_sep hc, List.filter_cons_of_neg (by simp [hc]), ← ih, tokens, hword]
        rfl
      | false =>
        rw [splitWord_of_not_sep hc, List.filter_cons_of_pos (by simp [hc]), ← ih]
        rfl
  rw [tokens, hword, hsplit]

/-! ## 3. Blocks -/

/-- What reads of `n` bytes return one after the other, until one returns nothing. -/
def blocks (n : Nat) (s : List α) : List (List α) :=
  if _h : s = [] ∨ n = 0 then [] else s.take n :: blocks n (s.drop n)
termination_by s.length
decreasing_by
  rw [not_or] at _h
  have hpos := List.length_pos_iff.mpr _h.1
  rw [List.length_drop]
  omega

theorem blocks_nil (n : Nat) : blocks n ([] : List α) = [] := by
  rw [blocks, dif_pos (Or.inl rfl)]

theorem blocks_cons {n : Nat} (hn : 0 < n) (hs : s ≠ []) :
    blocks n s = s.take n :: blocks n (s.drop n) := by
  rw [blocks, dif_neg (by rw [not_or]; exact ⟨hs, by omega⟩)]

/-- The last block. -/
theorem blocks_of_le {n : Nat} (hn : 0 < n) (hs : s ≠ []) (hle : s.length ≤ n) :
    blocks n s = [s] := by
  rw [blocks_cons hn hs, List.take_of_length_le hle, List.drop_eq_nil_of_le hle, blocks_nil]

/-- **An induction over a file read in blocks.** -/
theorem blocks_rule {n : Nat} (hn : 0 < n) {P : List α → Prop} (hnil : P [])
    (hcons : ∀ s, s ≠ [] → P (s.drop n) → P s) (s : List α) : P s := by
  induction hlen : s.length using Nat.strongRecOn generalizing s with
  | _ k ih =>
    by_cases hs : s = []
    · rw [hs]
      exact hnil
    · have hpos := List.length_pos_iff.mpr hs
      refine hcons s hs (ih (s.drop n).length ?_ _ rfl)
      rw [List.length_drop]
      omega

theorem flatten_blocks {n : Nat} (hn : 0 < n) (s : List α) : (blocks n s).flatten = s := by
  induction s using blocks_rule hn with
  | hnil => rw [blocks_nil]; rfl
  | hcons s hs ih => rw [blocks_cons hn hs, List.flatten_cons, ih, List.take_append_drop]

/-- The text with `c` where one block ends and another begins; `r` bytes are left of the block
it starts in. -/
def cutAt (c : α) (n : Nat) : Nat → List α → List α
  | _, [] => []
  | 0, x :: s => c :: x :: cutAt c n (n - 1) s
  | r + 1, x :: s => x :: cutAt c n r s

/-- How many bytes are left of a block, `k` bytes behind a place where `r` are left. -/
def left (n : Nat) : Nat → Nat → Nat
  | r, 0 => r
  | 0, k + 1 => left n (n - 1) k
  | r + 1, k + 1 => left n r k

theorem cutAt_of_le {n r : Nat} (h : s.length ≤ r) : cutAt c n r s = s := by
  induction s generalizing r with
  | nil => cases r <;> rfl
  | cons x s ih =>
    cases r with
    | zero => simp at h
    | succ r =>
      rw [List.length_cons] at h
      rw [cutAt, ih (by omega)]

/-- The first cut. -/
theorem cutAt_of_lt {n r : Nat} (hn : 0 < n) (h : r < s.length) :
    cutAt c n r s = s.take r ++ c :: cutAt c n n (s.drop r) := by
  induction s generalizing r with
  | nil => simp at h
  | cons x s ih =>
    cases r with
    | zero =>
      obtain ⟨m, rfl⟩ : ∃ m, n = m + 1 := ⟨n - 1, by omega⟩
      rfl
    | succ r =>
      rw [List.length_cons] at h
      rw [cutAt, ih (by omega)]
      rfl

theorem cutAt_append {n r : Nat} (u v : List α) :
    cutAt c n r (u ++ v) = cutAt c n r u ++ cutAt c n (left n r u.length) v := by
  induction u generalizing r with
  | nil => cases r <;> rfl
  | cons x u ih =>
    cases r with
    | zero => simp only [List.cons_append, cutAt, List.length_cons, left, ih]
    | succ r => simp only [List.cons_append, cutAt, List.length_cons, left, ih]

theorem left_add (n r j k : Nat) : left n r (j + k) = left n (left n r j) k := by
  induction j generalizing r with
  | zero => rw [Nat.zero_add]; cases r <;> rfl
  | succ j ih =>
    rw [Nat.add_right_comm]
    cases r with
    | zero => rw [left, left, ih]
    | succ r => rw [left, left, ih]

/-- Between two blocks it is nothing or a whole block, and else what the remainder says. -/
theorem left_eq {n r : Nat} (hn : 0 < n) (hr : r ≤ n) (k : Nat) :
    left n r k = 0 ∧ (k + n - r) % n = 0 ∨ left n r k = n - (k + n - r) % n := by
  induction k generalizing r with
  | zero =>
    cases r with
    | zero => exact Or.inl ⟨rfl, by rw [Nat.zero_add, Nat.sub_zero, Nat.mod_self]⟩
    | succ r =>
      refine Or.inr ?_
      rw [Nat.mod_eq_of_lt (by omega), left]
      omega
  | succ k ih =>
    cases r with
    | zero =>
      have h := ih (r := n - 1) (by omega)
      rw [show k + n - (n - 1) = k + 1 by omega] at h
      rw [left, Nat.sub_zero, Nat.add_mod_right]
      exact h
    | succ r =>
      have h := ih (r := r) (by omega)
      rw [left, show k + 1 + n - (r + 1) = k + n - r by omega]
      exact h

theorem tokens_cutAt_zero {n : Nat} (hn : 0 < n) (hc : sep c = true) (s : List α) :
    tokens sep (cutAt c n 0 s) = tokens sep (cutAt c n n s) := by
  obtain ⟨m, rfl⟩ : ∃ m, n = m + 1 := ⟨n - 1, by omega⟩
  cases s with
  | nil => rfl
  | cons x s => rw [cutAt, tokens_sep hc, cutAt, Nat.add_sub_cancel]

/-- `k` bytes behind the file's beginning. -/
theorem tokens_cutAt_left {n : Nat} (hn : 0 < n) (hc : sep c = true) (k : Nat) (s : List α) :
    tokens sep (cutAt c n (left n n k) s) = tokens sep (cutAt c n (n - k % n) s) := by
  have h := left_eq hn (Nat.le_refl n) k
  rw [Nat.add_sub_cancel] at h
  rcases h with ⟨h0, hmod⟩ | hleft
  · rw [h0, hmod, Nat.sub_zero, tokens_cutAt_zero hn hc]
  · rw [hleft]

/-- A separator of the text itself. -/
theorem tokens_append_cutAt_sep {n r : Nat} {c' : α} (hc : sep c = true) (hc' : sep c' = true)
    (u v : List α) : tokens sep (u ++ cutAt c n r (c' :: v)) =
      tokens sep u ++ tokens sep (cutAt c n (left n r 1) v) := by
  cases r with
  | zero =>
    have hleft : left n 0 1 = n - 1 := by cases n <;> rfl
    rw [cutAt, tokens_append_sep hc, tokens_sep hc', hleft]
  | succ r =>
    have hleft : left n (r + 1) 1 = r := by cases r <;> rfl
    rw [cutAt, tokens_append_sep hc', hleft]

/-- **The tokens of a file read in blocks** are those of the file with its blocks' ends for
separators. -/
theorem blocks_tokens {n : Nat} (hn : 0 < n) (hc : sep c = true) (s : List α) :
    (blocks n s).flatMap (tokens sep) = tokens sep (cutAt c n n s) := by
  induction s using blocks_rule hn with
  | hnil => rw [blocks_nil, cutAt_of_le (Nat.zero_le n)]; rfl
  | hcons s hs ih =>
    rw [blocks_cons hn hs, List.flatMap_cons, ih]
    rcases Nat.lt_or_ge n s.length with hlt | hge
    · rw [cutAt_of_lt hn hlt, tokens_append_sep hc]
    · rw [cutAt_of_le hge, List.take_of_length_le hge, List.drop_eq_nil_of_le hge,
        cutAt_of_le (Nat.zero_le n), tokens_nil, List.append_nil]

/-- A word that starts with a block falls into its blocks. -/
theorem tokens_cutAt_word {n : Nat} (hn : 0 < n) (hc : sep c = true) :
    (∀ x ∈ w, sep x = false) → tokens sep (cutAt c n n w) = blocks n w := by
  induction w using blocks_rule hn with
  | hnil =>
    intro _
    rw [blocks_nil, cutAt_of_le (Nat.zero_le n)]
    rfl
  | hcons w hne ih =>
    intro h
    rcases Nat.lt_or_ge n w.length with hlt | hge
    · have htake : w.take n ≠ [] := by
        rw [← List.length_pos_iff, List.length_take]
        omega
      rw [cutAt_of_lt hn hlt, tokens_append_sep hc,
        tokens_word htake fun x hx => h x (List.mem_of_mem_take hx),
        ih fun x hx => h x (List.mem_of_mem_drop hx), blocks_cons hn hne]
      rfl
    · rw [cutAt_of_le hge, tokens_word hne h, blocks_of_le hn hne hge]

/-- **The pieces of a word**: what is left of the block it starts in, and blocks. -/
theorem tokens_cutAt_pieces {n r : Nat} (hn : 0 < n) (hc : sep c = true) (hr : 0 < r)
    (hne : w ≠ []) (h : ∀ x ∈ w, sep x = false) :
    tokens sep (cutAt c n r w) = w.take r :: blocks n (w.drop r) := by
  rcases Nat.lt_or_ge r w.length with hlt | hge
  · have htake : w.take r ≠ [] := by
      rw [← List.length_pos_iff, List.length_take]
      omega
    rw [cutAt_of_lt hn hlt, tokens_append_sep hc,
      tokens_word htake fun x hx => h x (List.mem_of_mem_take hx),
      tokens_cutAt_word hn hc fun x hx => h x (List.mem_of_mem_drop hx)]
    rfl
  · rw [cutAt_of_le hge, tokens_word hne h, List.take_of_length_le hge,
      List.drop_eq_nil_of_le hge, blocks_nil]

end OsLabs.Strtok
