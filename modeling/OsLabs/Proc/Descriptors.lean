/-
# proc: the descriptors and their targets

`fprintf_fd` passes one buffer to every `readlink`, which puts no NUL behind the target and
leaves the buffer as it is when it fails.  What stood there from longer targets stays behind a
shorter one, and what was there last is printed for a descriptor whose link is gone.  So the
lines are right exactly when the targets never get shorter from one descriptor to the next, a
link that is gone counting as an empty target (`descriptors_iff`).
-/
import OsLabs.Proc.Arguments

namespace OsLabs.Proc

/-! ## 1. What the lines should say -/

/-- The entries of the directory that are descriptors. -/
def descriptors (names : List Bytes) : List Bytes := names.filter isDescriptor

/-- The target of a descriptor; of one whose link is gone there is nothing to say. -/
def target (links : Bytes → Option Bytes) (proc d_name : Bytes) : Bytes :=
  (links (linkPath proc d_name)).getD []

/-- What `readlink` finds is a text that leaves room for a NUL. -/
def Targets (links : Bytes → Option Bytes) : Prop :=
  ∀ path t, links path = some t → t.length < BUF_SIZE ∧ (0 : UInt8) ∉ t

variable {links : Bytes → Option Bytes} {proc d_name p t : Bytes} {str : Buffer BUF_SIZE}

theorem Targets.target (h : Targets links) (proc d_name : Bytes) :
    (Proc.target links proc d_name).length < BUF_SIZE ∧
      (0 : UInt8) ∉ Proc.target links proc d_name := by
  unfold Proc.target
  cases hl : links (linkPath proc d_name) with
  | none => exact ⟨by decide, List.not_mem_nil⟩
  | some t => exact h _ t hl

/-! ## 2. The buffer -/

/-- The buffer holds `p`, and NULs behind it. -/
def Holds (str : Buffer BUF_SIZE) (p : Bytes) : Prop :=
  (0 : UInt8) ∉ p ∧ ∃ q, 0 < q ∧ str.bytes = p ++ List.replicate q 0

/-- A target over what the buffer held. -/
def overlay (t p : Bytes) : Bytes := t ++ p.drop t.length

theorem overlay_eq_iff : overlay t p = t ↔ p.length ≤ t.length := by
  unfold overlay
  rw [List.append_right_eq_self, List.drop_eq_nil_iff]

theorem Holds.cstring (h : Holds str p) : str.cstring 0 = .ok p := by
  obtain ⟨hnul, q, hq, hb⟩ := h
  obtain ⟨k, rfl⟩ : ∃ k, q = k + 1 := ⟨q - 1, by omega⟩
  rw [List.replicate_succ] at hb
  rw [Buffer.cstring_zero_of_append hb, Buffer.takeWhile_of_no_nul hnul]

/-- **A target is stored** over what was there. -/
theorem Holds.store (h : Holds str p) (ht : t.length < BUF_SIZE) (hnul : (0 : UInt8) ∉ t) :
    ∃ str', str.store 0 (t.take BUF_SIZE) = .ok str' ∧ Holds str' (overlay t p) := by
  obtain ⟨hp, q, hq, hb⟩ := h
  have hlen := str.length_eq
  rw [hb, List.length_append, List.length_replicate] at hlen
  rw [List.take_of_length_le (Nat.le_of_lt ht)]
  obtain ⟨str', hst, hb'⟩ := str.store_eq_ok 0 t (Int.le_refl 0) (by omega)
  rw [Int.toNat_zero, List.take_zero, List.nil_append, Nat.zero_add, hb, List.drop_append,
    List.drop_replicate, ← List.append_assoc] at hb'
  refine ⟨str', hst, ?_, q - (t.length - p.length), by omega, hb'⟩
  rw [overlay, List.mem_append, not_or]
  exact ⟨hnul, fun h0 => hp (List.mem_of_mem_drop h0)⟩

/-- What `readlink` does to the buffer. -/
theorem Holds.readlink (h : Holds str p) (hl : Targets links) (proc d_name : Bytes) :
    ∃ str', Proc.readlink str (links (linkPath proc d_name)) = .ok str' ∧
      Holds str' (overlay (target links proc d_name) p) := by
  unfold target
  cases hlink : links (linkPath proc d_name) with
  | none => exact ⟨str, rfl, h⟩
  | some t =>
    obtain ⟨ht, hnul⟩ := hl _ t hlink
    obtain ⟨str', hst, h'⟩ := h.store ht hnul
    exact ⟨str', by rw [Proc.readlink, hst]; rfl, h'⟩

theorem holds_zero : Holds (Buffer.zero BUF_SIZE) [] :=
  ⟨List.not_mem_nil, BUF_SIZE, by decide, rfl⟩

/-! ## 3. The lines -/

/-- The lines that are printed when the buffer holds `p` first. -/
def printed (links : Bytes → Option Bytes) (proc : Bytes) : Bytes → List Bytes → List Bytes
  | _, [] => []
  | p, d :: ds => fdLine d (overlay (target links proc d) p) ::
      printed links proc (overlay (target links proc d) p) ds

/-- **Every descriptor gets a line**, with its target over what is left of the others. -/
theorem fdLines_ok (hl : Targets links) (proc : Bytes) (names : List Bytes) (h : Holds str p) :
    fdLines links proc str names = .ok (printed links proc p (descriptors names)) := by
  induction names generalizing str p with
  | nil => rfl
  | cons d names ih =>
    rw [fdLines, descriptors]
    by_cases hd : isDescriptor d = true
    · rw [if_pos hd, List.filter_cons_of_pos hd]
      obtain ⟨str', hread, h'⟩ := h.readlink hl proc d
      rw [ok_bind hread, access_bind h'.cstring, ok_bind (ih h')]
      rfl
    · rw [if_neg hd, List.filter_cons_of_neg hd]
      exact ih h

/-- The lines are right as long as no target is shorter than what the buffer holds. -/
theorem printed_eq_iff (ds : List Bytes) (p : Bytes) :
    printed links proc p ds = ds.map (fun d => fdLine d (target links proc d)) ↔
      (∀ d ∈ ds, p.length ≤ (target links proc d).length) ∧
        ds.Pairwise fun a b => (target links proc a).length ≤ (target links proc b).length := by
  induction ds generalizing p with
  | nil => simp [printed]
  | cons d ds ih =>
    have hline : ∀ s s' : Bytes, fdLine d s = fdLine d s' ↔ s = s' := by
      intro s s'
      rw [fdLine, fdLine, List.append_cancel_right_eq, List.append_cancel_left_eq]
    rw [printed, List.map_cons, List.cons.injEq, hline, List.forall_mem_cons,
      List.pairwise_cons]
    constructor
    · rintro ⟨heq, hrest⟩
      rw [heq, ih] at hrest
      have hle := overlay_eq_iff.mp heq
      exact ⟨⟨hle, fun d' hd' => Nat.le_trans hle (hrest.1 d' hd')⟩, hrest⟩
    · rintro ⟨⟨hle, -⟩, hrest⟩
      have heq := overlay_eq_iff.mpr hle
      exact ⟨heq, by rw [heq, ih]; exact hrest⟩

/-- **The FD section.**  For all links, whichever of them are gone, and every listing of the
directory: each descriptor gets a line; and all lines show the descriptor's own target, and
nothing where there is none, exactly when the targets never get shorter along the listing. -/
theorem descriptors_iff (hl : Targets links) (proc : Bytes) (names : List Bytes) :
    ∃ lines, fprintfFd links proc names = .ok lines ∧
      (lines = (descriptors names).map (fun d => fdLine d (target links proc d)) ↔
        (descriptors names).Pairwise fun a b =>
          (target links proc a).length ≤ (target links proc b).length) := by
  refine ⟨_, fdLines_ok hl proc names holds_zero, ?_⟩
  rw [printed_eq_iff]
  exact and_iff_right fun d _ => Nat.zero_le _

/-- Two descriptors with the targets "/dev/null" and "/". -/
def nullAndRoot (path : Bytes) : Option Bytes :=
  if path = ascii "/proc/1/fd/0" then some (ascii "/dev/null")
  else if path = ascii "/proc/1/fd/1" then some (ascii "/")
  else none

theorem nullAndRoot_targets : Targets nullAndRoot := by
  intro path t h
  unfold nullAndRoot at h
  split at h
  · obtain rfl := Option.some.inj h
    decide
  · split at h
    · obtain rfl := Option.some.inj h
      decide
    · exact absurd h (by simp)

theorem descriptors_iff_nullAndRoot : ∃ lines,
    fprintfFd nullAndRoot (ascii "1") [ascii ".", ascii "..", ascii "0", ascii "1"] = .ok lines ∧
    (lines = (descriptors [ascii ".", ascii "..", ascii "0", ascii "1"]).map
        (fun d => fdLine d (target nullAndRoot (ascii "1") d)) ↔
      (descriptors [ascii ".", ascii "..", ascii "0", ascii "1"]).Pairwise fun a b =>
        (target nullAndRoot (ascii "1") a).length ≤ (target nullAndRoot (ascii "1") b).length) :=
  descriptors_iff nullAndRoot_targets _ _

/-- **A shorter target behind a longer one**: for "/" the line says "/dev/null". -/
theorem stale_target_shown : ¬ ∀ (links : Bytes → Option Bytes) (proc : Bytes)
    (names : List Bytes), Targets links → ∃ lines, fprintfFd links proc names = .ok lines ∧
      lines = (descriptors names).map (fun d => fdLine d (target links proc d)) := by
  intro h
  obtain ⟨lines, hok, hlines⟩ := h nullAndRoot (ascii "1") [ascii "0", ascii "1"]
    nullAndRoot_targets
  have hprinted := fdLines_ok nullAndRoot_targets (ascii "1") [ascii "0", ascii "1"] holds_zero
  rw [fprintfFd, hprinted, hlines, Except.ok.injEq] at hok
  exact absurd hok (by decide)

end OsLabs.Proc
