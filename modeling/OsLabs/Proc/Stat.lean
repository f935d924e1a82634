/-
# proc: the fields of `stat`

`fprintf_stat` cuts the line of `/proc/<pid>/stat` at its spaces and counts the pieces to find
their labels.  The second field is the name of the process in parentheses and may contain spaces
itself; each of them makes one piece more, and the last pieces are labelled with what stands
behind the table.  So the lines are right exactly when the name has no space and the line, but
for its newline, fits in the buffer (`stat_iff`).
-/
import OsLabs.Proc.Arguments

namespace OsLabs.Proc

open Strtok

/-! ## 1. The line -/

/-- The line of `/proc/<pid>/stat`: the id of the process, its name, and 50 fields behind it. -/
structure StatText where
  pid : Bytes
  comm : Bytes
  rest : List Bytes
  comm_le : comm.length ≤ 15
  comm_noNul : (0 : UInt8) ∉ comm
  length_rest : rest.length = 50
  plain : ∀ f ∈ pid :: rest, f ≠ [] ∧ space ∉ f ∧ (0 : UInt8) ∉ f

/-- The name as it stands in the line. -/
def StatText.name (t : StatText) : Bytes := [40] ++ t.comm ++ [41]

/-- The 52 fields. -/
def StatText.fields (t : StatText) : List Bytes := t.pid :: t.name :: t.rest

/-- The contents of the file. -/
def StatText.content (t : StatText) : Bytes := spaced space t.fields ++ [newline]

/-- One line for each field, with its label. -/
def StatText.lines (t : StatText) : List Bytes := List.zipWith statLine stats t.fields

/-- **The section is right**: 52 lines are printed, each with the label of its field.  The last
one may have the newline of the file behind its field, before its own. -/
def StatText.Labelled (t : StatText) (out : List Bytes) : Prop :=
  out.length = 52 ∧
    (out.flatten = t.lines.flatten ∨ out.flatten = t.lines.flatten ++ [newline])

variable {t : StatText} {v : Bytes}

theorem length_stats : stats.length = 52 := rfl

theorem StatText.length_fields (t : StatText) : t.fields.length = 52 := by
  simp [StatText.fields, t.length_rest]

/-! ## 2. Labels and tokens -/

/-- **The labels are given out in order, and there are 52.** -/
theorem statLines_eq (toks : List Bytes) (i : Nat) (hi : i ≤ 52) : statLines i toks =
    if i + toks.length ≤ 52 then .ok (List.zipWith statLine (stats.drop i) toks)
    else .error (.outside .stats 52) := by
  induction toks generalizing i with
  | nil =>
    rw [if_pos (by simpa using hi), List.zipWith_nil_right]
    rfl
  | cons pch toks ih =>
    rw [List.length_cons, statLines]
    rcases Nat.lt_or_ge i 52 with hlt | hge
    · have hget : stats[i]? = some stats[i] := List.getElem?_eq_getElem hlt
      have hdrop : stats.drop i = stats[i] :: stats.drop (i + 1) := List.drop_eq_getElem_cons hlt
      rw [hget, hdrop, List.zipWith_cons_cons]
      dsimp only
      rw [ih (i + 1) (by omega)]
      by_cases hle : i + 1 + toks.length ≤ 52
      · rw [if_pos hle, if_pos (by omega)]
        rfl
      · rw [if_neg hle, if_neg (by omega)]
        rfl
    · obtain rfl : i = 52 := by omega
      rw [if_neg (by omega)]
      rfl

/-- The line as `strtok` finds it in the buffer. -/
theorem fprintfStat_eq {content : Bytes} (h : (0 : UInt8) ∉ content) :
    fprintfStat content = statLines 0 (tokens (· == space) (content.take BUF_SIZE)) := by
  obtain ⟨b, hst, hb⟩ := (Buffer.zero (BUF_SIZE + 1)).store_eq_ok 0 (content.take BUF_SIZE)
    (Int.le_refl 0) (by rw [List.length_take]; omega)
  have hlen : (content.take BUF_SIZE).length ≤ BUF_SIZE := List.length_take_le _ _
  have hzero : (Buffer.zero (BUF_SIZE + 1)).bytes.drop (content.take BUF_SIZE).length =
      0 :: List.replicate (BUF_SIZE - (content.take BUF_SIZE).length) 0 := by
    rw [Buffer.zero, List.drop_replicate, ← List.replicate_succ]
    congr 1
    omega
  rw [Int.toNat_zero, List.take_zero, List.nil_append, Nat.zero_add, hzero] at hb
  have hstr := Buffer.cstring_zero_of_append hb
  rw [Buffer.takeWhile_of_no_nul fun h0 => h (List.mem_of_mem_take h0)] at hstr
  rw [fprintfStat, access_bind hst, access_bind hstr]

/-- The bytes of some lines: those of their labels and those of their fields. -/
theorem length_flatten_lines (toks : List Bytes) (labels : List String)
    (h : toks.length = labels.length) :
    (List.zipWith statLine labels toks).flatten.length =
      (labels.map fun label => (ascii label).length + 3).sum + toks.flatten.length := by
  induction toks generalizing labels with
  | nil =>
    cases labels with
    | nil => rfl
    | cons label labels => simp at h
  | cons tok toks ih =>
    cases labels with
    | nil => simp at h
    | cons label labels =>
      have hlen := ih labels (by simpa using h)
      have hline : (statLine label tok).length = (ascii label).length + 3 + tok.length := by
        simp only [statLine, List.length_append, List.length_singleton,
          show (ascii ": ").length = 2 from rfl]
        omega
      simp only [List.zipWith_cons_cons, List.flatten_cons, List.length_append, hlen, hline,
        List.map_cons, List.sum_cons]
      omega

/-! ## 3. The tokens of the line -/

theorem StatText.rest_ne (t : StatText) : t.rest ≠ [] := fun h0 => by
  have hlen := t.length_rest
  rw [h0] at hlen
  exact absurd hlen (by decide)

theorem StatText.rest_eq (t : StatText) : ∃ init last, t.rest = init ++ [last] ∧
    init.length = 49 := by
  refine ⟨t.rest.dropLast, t.rest.getLast t.rest_ne,
    (List.dropLast_concat_getLast t.rest_ne).symm, ?_⟩
  rw [List.length_dropLast, t.length_rest]

theorem ne_space_of_not_mem {w : Bytes} (h : space ∉ w) : ∀ c ∈ w, (c == space) = false := by
  intro c hc
  rw [beq_eq_false_iff_ne]
  rintro rfl
  exact h hc

/-- What may stand behind the last field in the buffer. -/
def Tail (v : Bytes) : Prop := v = [] ∨ v = [newline]

theorem Tail.no_space (h : Tail v) : space ∉ v := by
  rcases h with rfl | rfl <;> decide

/-- **The line in the buffer**, if no more than its newline is cut off. -/
theorem StatText.take_content (t : StatText) (hle : t.content.length ≤ BUF_SIZE + 1) :
    ∃ v, Tail v ∧ t.content.take BUF_SIZE = spaced space t.fields ++ v := by
  have hlen : t.content.length = (spaced space t.fields).length + 1 := by simp [StatText.content]
  rcases Nat.lt_or_ge BUF_SIZE t.content.length with hcut | hfits
  · refine ⟨[], .inl rfl, ?_⟩
    rw [StatText.content, List.take_append_of_le_length (by omega), List.append_nil]
    exact List.take_of_length_le (by omega)
  · exact ⟨[newline], .inr rfl, List.take_of_length_le hfits⟩

/-- The fields behind the name are 50 tokens; the last has what stands behind the line. -/
theorem StatText.tokens_rest (t : StatText) : ∃ init last, t.rest = init ++ [last] ∧
    init.length = 49 ∧ ∀ v : Bytes, space ∉ v →
      tokens (· == space) (spaced space t.rest ++ v) = init ++ [last ++ v] := by
  obtain ⟨init, last, hrest, hlen⟩ := t.rest_eq
  refine ⟨init, last, hrest, hlen, fun v hv => ?_⟩
  have hplain : ∀ f ∈ t.rest, f ≠ [] ∧ space ∉ f := fun f hf =>
    ⟨(t.plain f (List.mem_cons_of_mem _ hf)).1, (t.plain f (List.mem_cons_of_mem _ hf)).2.1⟩
  rw [hrest, spaced_append]
  rw [hrest, List.forall_mem_append] at hplain
  refine tokens_words (by decide) ?_
  rw [List.forall_mem_append]
  constructor
  · intro f hf
    exact ⟨(hplain.1 f hf).1, ne_space_of_not_mem (hplain.1 f hf).2⟩
  · intro f hf
    obtain rfl := List.mem_singleton.mp hf
    obtain ⟨hne, hspace⟩ := hplain.2 last (List.mem_singleton_self _)
    refine ⟨List.append_ne_nil_of_left_ne_nil hne v, ne_space_of_not_mem ?_⟩
    rw [List.mem_append, not_or]
    exact ⟨hspace, hv⟩

/-- **The tokens of the line**: its fields, with as many for the name as its spaces make. -/
theorem StatText.tokens_fields (t : StatText) (v : Bytes) :
    tokens (· == space) (spaced space t.fields ++ v) =
      t.pid :: (tokens (· == space) t.name ++ tokens (· == space) (spaced space t.rest ++ v)) := by
  obtain ⟨hpid, hspace, -⟩ := t.plain t.pid (List.mem_cons_self)
  have hline : spaced space t.fields ++ v =
      t.pid ++ space :: (t.name ++ space :: (spaced space t.rest ++ v)) := by
    rw [StatText.fields, spaced_cons _ (by simp), spaced_cons _ t.rest_ne]
    simp
  rw [hline, tokens_append_sep (by decide), tokens_append_sep (by decide),
    tokens_word hpid (ne_space_of_not_mem hspace)]
  rfl

/-- The line ends in the last byte of its last field, and the newline. -/
theorem StatText.content_eq (t : StatText) :
    ∃ u c, t.content = u ++ [c, newline] ∧ c ≠ space := by
  obtain ⟨init, last, hrest, -⟩ := t.rest_eq
  have hmem : last ∈ t.pid :: t.rest := by simp [hrest]
  obtain ⟨hne, hspace, -⟩ := t.plain last hmem
  refine ⟨spaced space ((t.pid :: t.name :: init) ++ [last.dropLast]), last.getLast hne, ?_, ?_⟩
  · have hfields : t.fields = (t.pid :: t.name :: init) ++ [last] := by
      rw [StatText.fields, hrest]
      rfl
    have hspaced := spaced_append (c := space) (t.pid :: t.name :: init) last.dropLast
      [last.getLast hne]
    rw [List.dropLast_concat_getLast hne] at hspaced
    rw [StatText.content, hfields, ← hspaced, List.append_assoc]
    rfl
  · exact fun h => hspace (h ▸ List.getLast_mem hne)

/-- The name is one token, or at least two. -/
theorem StatText.tokens_name (t : StatText) :
    (space ∉ t.comm → tokens (· == space) t.name = [t.name]) ∧
      (space ∈ t.comm → 2 ≤ (tokens (· == space) t.name).length) := by
  constructor
  · intro h
    refine tokens_word (by simp [StatText.name]) (ne_space_of_not_mem ?_)
    simp only [StatText.name, List.mem_append, List.mem_singleton, not_or]
    exact ⟨⟨by decide, h⟩, by decide⟩
  · intro h
    obtain ⟨u, v, hcomm⟩ := List.append_of_mem h
    have hname : t.name = (40 :: u) ++ space :: (v ++ [41]) := by
      simp [StatText.name, hcomm]
    -- each of the two parts has a parenthesis
    have hpos : ∀ w : Bytes, (∃ c ∈ w, c ≠ space) → 1 ≤ (tokens (· == space) w).length := by
      rintro w ⟨c, hc, hne⟩
      refine List.length_pos_iff.mpr fun hnil => ?_
      have hflat := flatten_tokens (· == space) w
      rw [hnil] at hflat
      have hmem : c ∈ w.filter (!(· == space) ·) := List.mem_filter.mpr ⟨hc, by simpa using hne⟩
      rw [← hflat] at hmem
      exact absurd hmem List.not_mem_nil
    have hu := hpos (40 :: u) ⟨40, List.mem_cons_self, by decide⟩
    have hv := hpos (v ++ [41]) ⟨41, List.mem_append_right _ (List.mem_singleton_self _), by decide⟩
    rw [hname, tokens_append_sep (by decide), List.length_append]
    omega

theorem StatText.content_no_nul (t : StatText) : (0 : UInt8) ∉ t.content := by
  have hspaced : ∀ ws : List Bytes, (∀ w ∈ ws, (0 : UInt8) ∉ w) →
      (0 : UInt8) ∉ spaced space ws := by
    intro ws
    induction ws with
    | nil => exact fun _ => List.not_mem_nil
    | cons w ws ih =>
      intro h
      obtain ⟨hw, hws⟩ := List.forall_mem_cons.mp h
      by_cases hne : ws = []
      · rw [hne]
        exact hw
      · rw [spaced_cons _ hne, List.mem_append, List.mem_cons, not_or, not_or]
        exact ⟨hw, by decide, ih hws⟩
  rw [StatText.content, List.mem_append, not_or]
  refine ⟨hspaced _ ?_, by decide⟩
  rw [StatText.fields, List.forall_mem_cons, List.forall_mem_cons]
  refine ⟨(t.plain t.pid List.mem_cons_self).2.2, ?_,
    fun f hf => (t.plain f (List.mem_cons_of_mem _ hf)).2.2⟩
  simp only [StatText.name, List.mem_append, List.mem_singleton, not_or]
  exact ⟨⟨by decide, t.comm_noNul⟩, by decide⟩

/-! ## 4. The section -/

/-- What stands behind the last field stays there. -/
theorem flatten_lines_tail {fs : List Bytes} (h : fs.length = 51) (last : Bytes) (hv : Tail v) :
    (List.zipWith statLine stats (fs ++ [last ++ v])).flatten =
      (List.zipWith statLine stats (fs ++ [last])).flatten ++ v := by
  have hstats : stats = stats.take 51 ++ ["env_code"] := rfl
  have hlen : (stats.take 51).length = fs.length := by rw [h]; rfl
  have hswap : v ++ [newline] = newline :: v := by
    rcases hv with rfl | rfl <;> rfl
  rw [hstats, List.zipWith_append hlen, List.zipWith_append hlen]
  simp [statLine, hswap]

/-- A line that fits in the buffer, but for its newline, and has a name without spaces is
labelled. -/
theorem StatText.labelled_of_fits (t : StatText) (hspace : space ∉ t.comm)
    (hle : t.content.length ≤ BUF_SIZE + 1) : ∃ out, fprintfStat t.content = .ok out ∧
      t.Labelled out := by
  obtain ⟨v, hv, htake⟩ := t.take_content hle
  obtain ⟨init, last, hrest, hlen, htoks⟩ := t.tokens_rest
  have hall : tokens (· == space) (spaced space t.fields ++ v) =
      (t.pid :: t.name :: init) ++ [last ++ v] := by
    rw [t.tokens_fields, htoks v hv.no_space, t.tokens_name.1 hspace]
    rfl
  have hfields : t.fields = (t.pid :: t.name :: init) ++ [last] := by
    rw [StatText.fields, hrest]
    rfl
  have hcount : (t.pid :: t.name :: init).length = 51 := by simp [hlen]
  rw [fprintfStat_eq t.content_no_nul, htake, hall, statLines_eq _ 0 (Nat.zero_le _),
    if_pos (by simp [hlen])]
  refine ⟨_, rfl, ?_, ?_⟩
  · rw [List.length_zipWith, List.length_append, hcount]
    rfl
  · rw [List.drop_zero, flatten_lines_tail hcount last hv, StatText.lines, hfields]
    rcases hv with rfl | rfl
    · exact .inl (List.append_nil _)
    · exact .inr rfl

/-- **A space in the name** makes one token too many. -/
theorem StatText.outside_of_space (t : StatText) (hspace : space ∈ t.comm)
    (hle : t.content.length ≤ BUF_SIZE + 1) :
    fprintfStat t.content = .error (.outside .stats 52) := by
  obtain ⟨v, hv, htake⟩ := t.take_content hle
  obtain ⟨init, last, -, hlen, htoks⟩ := t.tokens_rest
  have hname := t.tokens_name.2 hspace
  rw [fprintfStat_eq t.content_no_nul, htake, t.tokens_fields, htoks v hv.no_space,
    statLines_eq _ 0 (Nat.zero_le _), if_neg]
  simp only [List.length_cons, List.length_append, List.length_nil, hlen]
  omega

/-- The bytes of the line that are not spaces are no more than those of the fields, and the
newline. -/
theorem StatText.length_nonspace_le (t : StatText) :
    (t.content.filter fun c => !(c == space)).length ≤ t.fields.flatten.length + 1 := by
  obtain ⟨init, last, hrest, -, htoks⟩ := t.tokens_rest
  have hname : (t.name.filter fun c => !(c == space)).length ≤ t.name.length :=
    List.length_filter_le _ _
  have hfields : t.fields.flatten.length =
      t.pid.length + (t.name.length + (init.flatten.length + last.length)) := by
    simp [StatText.fields, hrest]
  have htoks := htoks [newline] (by decide)
  rw [StatText.content, ← flatten_tokens, t.tokens_fields, htoks]
  simp only [List.flatten_cons, List.flatten_append, flatten_tokens, List.length_append,
    List.flatten_nil, List.length_singleton, List.length_nil]
  omega

/-- **A line that is cut** before its newline is missing a byte of its last field in what is
printed. -/
theorem StatText.not_labelled_of_cut (t : StatText) (hcut : BUF_SIZE + 1 < t.content.length)
    {out : List Bytes} (hout : fprintfStat t.content = .ok out) : ¬ t.Labelled out := by
  rintro ⟨hcount, hflat⟩
  rw [fprintfStat_eq t.content_no_nul, statLines_eq _ 0 (Nat.zero_le _)] at hout
  set toks := tokens (· == space) (t.content.take BUF_SIZE) with htoks
  split at hout
  · have hzip := Except.ok.inj hout
    rw [List.drop_zero] at hzip
    have hlen : toks.length = stats.length := by
      rw [← hzip, List.length_zipWith] at hcount
      rw [length_stats] at hcount ⊢
      omega
    have hprinted : t.lines.flatten.length ≤ out.flatten.length := by
      rcases hflat with hflat | hflat <;> rw [hflat]
      rw [List.length_append]
      exact Nat.le_add_right _ _
    rw [← hzip, length_flatten_lines toks stats hlen, StatText.lines,
      length_flatten_lines t.fields stats (by rw [t.length_fields, length_stats]), htoks,
      flatten_tokens] at hprinted
    -- two bytes that are no spaces stand behind the cut
    have htotal := t.length_nonspace_le
    obtain ⟨u, c, hcontent, hc⟩ := t.content_eq
    have hu : BUF_SIZE ≤ u.length := by
      rw [hcontent, List.length_append, List.length_cons, List.length_singleton] at hcut
      omega
    have hsplit : t.content = t.content.take BUF_SIZE ++ (u.drop BUF_SIZE ++ [c, newline]) := by
      conv_lhs => rw [← List.take_append_drop BUF_SIZE t.content]
      rw [hcontent, List.drop_append_of_le_length hu]
    have htwo : ([c, newline].filter fun c => !(c == space)) = [c, newline] := by
      have hc' : (c == space) = false := beq_eq_false_iff_ne.mpr hc
      simp [hc', show (newline == space) = false from rfl]
    rw [hsplit, List.filter_append, List.filter_append, htwo] at htotal
    simp only [List.length_append, List.length_cons, List.length_nil] at htotal
    omega
  · exact absurd hout (by simp)

/-- **The STAT section.**  The line is printed as 52 lines, each field with its label, and the
table of labels is not left, exactly when the name of the process has no space and the line, but
for its newline, fits in the buffer. -/
theorem stat_iff (t : StatText) : (∃ out, fprintfStat t.content = .ok out ∧ t.Labelled out) ↔
    space ∉ t.comm ∧ t.content.length ≤ BUF_SIZE + 1 := by
  constructor
  · rintro ⟨out, hout, hlab⟩
    have hle : t.content.length ≤ BUF_SIZE + 1 := by
      by_contra hcut
      exact t.not_labelled_of_cut (by omega) hout hlab
    refine ⟨fun hspace => ?_, hle⟩
    rw [t.outside_of_space hspace hle] at hout
    exact absurd hout (by simp)
  · rintro ⟨hspace, hle⟩
    exact t.labelled_of_fits hspace hle

/-- The line of a process of the name "a b". -/
def twoWords : StatText where
  pid := [49]
  comm := [97, 32, 98]
  rest := List.replicate 50 [48]
  comm_le := by decide
  comm_noNul := by decide
  length_rest := List.length_replicate
  plain := by decide

/-- **A name of two words** leads out of the table. -/
theorem two_words_outside :
    ¬ ∀ t : StatText, ∃ out, fprintfStat t.content = .ok out ∧ t.Labelled out := by
  intro h
  obtain ⟨out, hout, -⟩ := h twoWords
  rw [twoWords.outside_of_space (by decide) (by decide)] at hout
  exact absurd hout (by simp)

end OsLabs.Proc
