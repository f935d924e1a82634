/-
# The statements of the walk, and the walk

The machine of `Catalog/PathBuffer.lean` takes the statements of `myftw` and `dopath` one after the
other, on the bytes of the buffer; `myftw` of the model calls itself, on the string.  The machine
gets to where `myftw` returns, whatever the memory holds that it allocates (`walker_refines`).

A call of `dopath` has a longer path than its caller, and `lstat` finds nothing behind `PATH_MAX`
bytes: so the walk ends, in every file system.
-/
import OsLabs.Catalog.PathBuffer

namespace OsLabs.Catalog

open OsLabs
open OsLabs.FileTree (slash dot NAME_MAX)
open OsLabs.FileSystem (PATH_MAX)

/-! ## 1. States and walks -/

variable {σ : Type}

/-- The walker is where `myftw` has got with the walk `w`. -/
structure Shows (s : Walker σ) (w : Walk σ) : Prop where
  inv : WalkInv s w.path.str
  pathlen : s.buf.pathlen = w.path.pathlen
  seen : s.seen = w.seen

/-- A `dopath` called by the innermost of `frames` has returned `r`. -/
def Answered (frames : List Frame) (r : Int × Walk σ) (x : Except Int (Walker σ)) : Prop :=
  ∃ s, x = .ok s ∧ s.pc = .returned r.1 ∧ s.frames = frames ∧ Shows s r.2

variable {fs : FileSystem} {cwd : Loc} {func : Handler σ} {buf : PathBuffer} {pathname : Bytes}
  {seen : Seen σ} {s s' : Walker σ} {w w' : Walk σ} {junk : Junk} {node : Loc × Stat} {f : Frame}
  {frames : List Frame} {n fuel : Nat} {d_name : Name} {names : List Name}
  {walk : Walk σ → Except Stop (Int × Walk σ)}

theorem Shows.step (h : Shows s w) (hst : s.step fs cwd func junk = some (.ok s'))
    (hstr : s'.buf.string = .ok w'.path.str) (hlen : s'.buf.pathlen = w'.path.pathlen)
    (hseen : s'.seen = w'.seen) : Shows s' w' := by
  obtain ⟨t, str, ht, -, hinv⟩ := h.inv.step_ok hst
  obtain rfl := Except.ok.inj ht
  obtain rfl : str = w'.path.str := Except.ok.inj (hinv.string.symm.trans hstr)
  exact ⟨hinv, hlen, hseen⟩

theorem FullPath.str_grow (p : FullPath) : p.grow.str = p.str := by
  unfold FullPath.grow
  split <;> rfl

theorem FullPath.pathlen_grow (p : FullPath) : p.grow.pathlen =
    if p.str.length + NAME_MAX + 2 > p.pathlen then p.pathlen * 2 else p.pathlen := by
  unfold FullPath.grow
  split <;> rfl

theorem FullPath.pathlen_addSlash {p p' : FullPath} (h : p.addSlash = .ok p') :
    p'.pathlen = p.pathlen := by
  unfold FullPath.addSlash at h
  split at h
  · rw [← Except.ok.inj h]
  · exact absurd h (by simp)

theorem Shows.roomy (h : Shows s w) : Roomy w.path := by
  have hlt := PathBuffer.length_lt h.inv.string
  have hle := h.inv.pathlen
  rw [h.pathlen] at hlt hle
  exact ⟨hlt, hle⟩

/-! ## 2. The parts of `dopath` -/

/-- A call that ends with the callback. -/
theorem leads_visit (h : Shows s w) {node : Option (Loc × Stat)} {type : FTW}
    (hst : ∀ junk, s.step fs cwd func junk = some (.ok (s.visit func w.path.str node type))) :
    (walker fs cwd func buf pathname seen).Leads (Answered s.frames (w.call func node type))
      (.ok s) := by
  have hcall : Shows (s.visit func w.path.str node type) (w.call func node type).2 :=
    h.step (hst fun _ => 0) h.inv.string h.pathlen (by simp only [Walker.visit, Walk.call, h.seen])
  have hret : (s.visit func w.path.str node type).pc = .returned (w.call func node type).1 := by
    simp only [Walker.visit, Walk.call, h.seen]
  exact .step hst (.here ⟨_, rfl, hret, rfl, hcall⟩)

/-- **The slash**: the check and the two stores. -/
theorem leads_slash (h : Shows s w) (hpc : s.pc = .grow node) :
    ∃ path, w.path.grow.addSlash = .ok path ∧ path.str = w.path.str ++ [slash] ∧
      (walker fs cwd func buf pathname seen).Leads (fun x => ∃ s', x = .ok s' ∧
        s'.pc = .opendir node path.str.length ∧ s'.frames = s.frames ∧
        Shows s' { w with path := path }) (.ok s) := by
  obtain ⟨path, hadd, hstr, hlen⟩ : ∃ path, w.path.grow.addSlash = .ok path ∧
      path.str = w.path.str ++ [slash] ∧ path.pathlen = w.path.grow.pathlen := by
    obtain ⟨path, hadd, hstr, -⟩ := grow_addSlash h.roomy
    exact ⟨path, hadd, hstr, FullPath.pathlen_addSlash hadd⟩
  refine ⟨path, hadd, hstr, ?_⟩
  have hstep : ∀ junk, s.step fs cwd func junk = _ := fun _ => step_grow hpc h.inv.string
  refine .next (fun junk => by simp [walker, hstep junk]) fun junk x hx => ?_
  obtain rfl := Option.some.inj ((hstep junk).symm.trans hx)
  -- the buffer has been enlarged, if need be
  obtain ⟨hgrown, -, hroom, -⟩ := PathBuffer.grow_ok h.inv.string h.inv.pathlen junk
  have hgrow : (s.buf.grow w.path.str.length junk).pathlen = w.path.grow.pathlen := by
    rw [PathBuffer.pathlen_grow, FullPath.pathlen_grow, h.pathlen]
  have hshows : Shows { s with
      buf := s.buf.grow w.path.str.length junk, pc := .addSlash node w.path.str.length }
      { w with path := w.path.grow } :=
    h.step (hstep junk) (by rw [FullPath.str_grow]; exact hgrown) hgrow h.seen
  obtain ⟨buf', hst, hlen', hslash, -⟩ := PathBuffer.addSlash_ok hgrown (by omega)
  have hstep' : ∀ junk', Walker.step fs cwd func { s with
      buf := s.buf.grow w.path.str.length junk, pc := .addSlash node w.path.str.length } junk' =
      _ := fun _ => step_addSlash rfl hst
  refine .step hstep' (.here ⟨_, rfl, by simp [hstr], rfl, ?_⟩)
  exact hshows.step (hstep' junk) (by rw [hstr]; exact hslash) (by rw [hlen', hgrow, hlen]) h.seen

/-- **The call for an entry**, when the walk of the entry is followed. -/
theorem leads_enter (hwalk : ∀ (s : Walker σ) w, Shows s w → s.pc = .dopath →
      n < w.path.str.length → ∃ r, walk w = .ok r ∧
        (walker fs cwd func buf pathname seen).Leads (Answered s.frames r) (.ok s))
    (h : Shows s w) (hpc : s.pc = .readdir) (hframes : s.frames = ⟨n, d_name :: names⟩ :: frames)
    (hdots : ¬ (d_name = [dot] ∨ d_name = [dot, dot])) : ∃ r, enter walk n d_name w = .ok r ∧
      (walker fs cwd func buf pathname seen).Leads (Answered (⟨n, names⟩ :: frames) r) (.ok s) := by
  obtain ⟨hvalid, hle, hlt, buf', hcpy, hlen, hstr, -⟩ := h.inv.strcpy_ok hframes hdots
  have hstep : ∀ junk, s.step fs cwd func junk = _ := fun _ => step_recurse hpc hframes hdots hcpy
  have hcall : Shows { s with buf := buf', frames := ⟨n, names⟩ :: frames, pc := .dopath }
      { w with path := { w.path with str := w.path.str.take n ++ d_name } } :=
    h.step (hstep fun _ => 0) hstr (hlen.trans h.pathlen) h.seen
  have hlonger : n < (w.path.str.take n ++ d_name).length := by
    have hpos := List.length_pos_iff.mpr hvalid.ne_nil
    rw [List.length_append, List.length_take_of_le hle]
    omega
  obtain ⟨r, hok, hleads⟩ := hwalk _ _ hcall rfl hlonger
  refine ⟨r, ?_, .step hstep hleads⟩
  rw [enter, strcpy_eq (h.pathlen ▸ hlt)]
  exact hok

/-- The loop over a directory has ended, and `dopath` is going to return `r.1`. -/
def LoopEnded (n : Nat) (frames : List Frame) (r : Int × Walk σ) (x : Except Int (Walker σ)) :
    Prop :=
  ∃ s names, x = .ok s ∧ s.pc = .cut r.1 ∧ s.frames = ⟨n, names⟩ :: frames ∧ Shows s r.2

/-- **The loop over a directory**, when the walk of each entry is followed. -/
theorem leads_entries (hwalk : ∀ (s : Walker σ) w, Shows s w → s.pc = .dopath →
      n < w.path.str.length → ∃ r, walk w = .ok r ∧
        (walker fs cwd func buf pathname seen).Leads (Answered s.frames r) (.ok s)) :
    ∀ (names : List Name) (s : Walker σ) (w : Walk σ), Shows s w → s.pc = .readdir →
      s.frames = ⟨n, names⟩ :: frames → ∃ r, eachEntry (enter walk n) names w = .ok r ∧
        (walker fs cwd func buf pathname seen).Leads (LoopEnded n frames r) (.ok s) := by
  intro names
  induction names with
  | nil =>
    intro s w h hpc hframes
    have hstep : ∀ junk, s.step fs cwd func junk =
        some (.ok { s with frames := ⟨n, []⟩ :: frames, pc := .cut 0 }) := by
      intro junk
      rw [Walker.step, hpc, hframes]
    exact ⟨(0, w), rfl, .step hstep (.here ⟨_, [], rfl, rfl, rfl,
      h.step (hstep fun _ => 0) h.inv.string h.pathlen h.seen⟩)⟩
  | cons d_name names ih =>
    intro s w h hpc hframes
    rw [eachEntry]
    by_cases hdots : d_name = [dot] ∨ d_name = [dot, dot]
    · have hstep : ∀ junk, s.step fs cwd func junk = _ := fun _ => step_skip hpc hframes hdots
      obtain ⟨r, hok, hleads⟩ := ih _ w
        (h.step (hstep fun _ => 0) h.inv.string h.pathlen h.seen) rfl rfl
      exact ⟨r, by rw [if_pos hdots, hok], .step hstep hleads⟩
    · obtain ⟨r, henter, hleads⟩ := leads_enter hwalk h hpc hframes hdots
      simp only [if_neg hdots, henter, bind, Except.bind]
      refine hleads.trans_ok ?_
      rintro - ⟨t, rfl, htpc, htframes, ht⟩
      have hreturn : ∀ junk, t.step fs cwd func junk = _ := fun _ => step_returned htpc htframes
      by_cases hret : r.1 ≠ 0
      · rw [if_pos hret] at hreturn ⊢
        exact ⟨r, rfl, .step hreturn (.here ⟨_, names, rfl, rfl, rfl,
          ht.step (hreturn fun _ => 0) ht.inv.string ht.pathlen ht.seen⟩)⟩
      · rw [if_neg hret] at hreturn ⊢
        obtain ⟨r', hok', hleads'⟩ := ih _ r.2
          (ht.step (hreturn fun _ => 0) ht.inv.string ht.pathlen ht.seen) rfl rfl
        exact ⟨r', hok', .step hreturn hleads'⟩

theorem leads_cut {ret : Int} (h : Shows s w) (hpc : s.pc = .cut ret)
    (hframes : s.frames = f :: frames) : ∃ path, w.path.cut (f.n - 1) = .ok path ∧
      (walker fs cwd func buf pathname seen).Leads
        (Answered frames (ret, { w with path := path })) (.ok s) := by
  obtain ⟨h1, hle, -⟩ := hframes ▸ h.inv.stacked
  obtain ⟨buf', hst, hlen, hstr, -⟩ :=
    PathBuffer.cut_ok h.inv.string (show f.n - 1 ≤ w.path.str.length by omega)
  have hstep : ∀ junk, s.step fs cwd func junk = _ := fun _ => step_cut hpc hframes h1 hst
  have hlt := h.roomy.str_lt
  exact ⟨_, cut_eq (by omega), .step hstep (.here ⟨_, rfl, rfl, rfl,
    h.step (hstep fun _ => 0) hstr (hlen.trans h.pathlen) h.seen⟩)⟩

/-- What `dopath` does behind the slash. -/
theorem leads_opendir (hwalk : ∀ (s : Walker σ) v, Shows s v → s.pc = .dopath →
      w.path.str.length < v.path.str.length → ∃ r, walk v = .ok r ∧
        (walker fs cwd func buf pathname seen).Leads (Answered s.frames r) (.ok s))
    (h : Shows s w) (hpc : s.pc = .opendir node w.path.str.length) :
    ∃ r, (match fs.opendir cwd w.path.str with
      | none => Except.ok (w.call func (some node) .DNR)
      | some names => do
        let r ← eachEntry (enter walk w.path.str.length) names w
        let path ← r.2.path.cut (w.path.str.length - 1)
        .ok (r.1, { r.2 with path := path })) = .ok r ∧
      (walker fs cwd func buf pathname seen).Leads (Answered s.frames r) (.ok s) := by
  cases hnames : fs.opendir cwd w.path.str with
  | none => exact ⟨_, rfl, leads_visit h fun _ => step_unreadable hpc h.inv.string hnames⟩
  | some names =>
    have hlist : ∀ junk, s.step fs cwd func junk = _ :=
      fun _ => step_list hpc h.inv.string hnames
    obtain ⟨r, hok, hloop⟩ := leads_entries hwalk names _ w
      (h.step (hlist fun _ => 0) h.inv.string h.pathlen h.seen) rfl rfl
    simp only [hok, bind, Except.bind]
    refine (Machine.Leads.step hlist hloop).trans_ok ?_
    rintro - ⟨u, names', rfl, hupc, huframes, hu⟩
    obtain ⟨path, hcut, hleads⟩ := leads_cut hu hupc huframes
    simp only [hcut]
    exact ⟨_, rfl, hleads⟩

/-! ## 3. Whole calls -/

/-- **`dopath`** returns, and the walker gets to where it returns.  Each call has a longer path,
and there is nothing to be found behind `PATH_MAX` bytes. -/
theorem leads_dopath : ∀ (fuel : Nat) (s : Walker σ) (w : Walk σ), Shows s w → s.pc = .dopath →
    0 < fuel → PATH_MAX < w.path.str.length + fuel → ∃ r, dopath fs cwd func fuel w = .ok r ∧
      (walker fs cwd func buf pathname seen).Leads (Answered s.frames r) (.ok s) := by
  intro fuel
  induction fuel with
  | zero =>
    intro s w _ _ hpos
    exact absurd hpos (Nat.lt_irrefl 0)
  | succ fuel ih =>
    intro s w h hpc _ hfuel
    rw [dopath]
    cases hnode : fs.lstat cwd w.path.str with
    | none => exact ⟨_, rfl, leads_visit h fun _ => step_missing hpc h.inv.string hnode⟩
    | some node =>
      have hshort := (FileSystem.resolve_cases (FileSystem.lstat_cases hnode).1).1.2
      by_cases hdir : node.2.mode = .dir
      · by_cases hret : (call func w.path.str (some node) .D s.seen).1 = 0
        · have hret' : (w.call func (some node) .D).1 = 0 := by rw [Walk.call, ← h.seen, hret]
          have henter : ∀ junk, s.step fs cwd func junk = _ :=
            fun _ => step_enter hpc h.inv.string hnode hdir hret
          have hentered : Shows { s with
              seen := (call func w.path.str (some node) .D s.seen).2, pc := .grow node }
              (w.call func (some node) .D).2 :=
            h.step (henter fun _ => 0) h.inv.string h.pathlen (by simp only [Walk.call, h.seen])
          obtain ⟨path, hadd, hstr, hslash⟩ := leads_slash hentered rfl
          simp only [ne_eq, hdir, hret', not_true_eq_false, if_false, hadd, bind, Except.bind]
          refine (Machine.Leads.step henter hslash).trans_ok ?_
          rintro - ⟨t, rfl, htpc, htframes, ht⟩
          -- the path with its slash is longer by one, and those of the entries by more
          have hlen : path.str.length = w.path.str.length + 1 := by simp [hstr, Walk.call]
          exact htframes ▸ leads_opendir
            (fun s v hs hspc (hlt : path.str.length < v.path.str.length) =>
              ih s v hs hspc (by omega) (by omega)) ht htpc
        · have hret' : (w.call func (some node) .D).1 ≠ 0 := by
            rw [Walk.call, ← h.seen]
            exact hret
          simp only [ne_eq, hdir, not_true_eq_false, if_false, if_pos hret']
          exact ⟨_, rfl, leads_visit h fun _ => step_refused hpc h.inv.string hnode hdir hret⟩
      · exact ⟨_, if_pos hdir, leads_visit h fun _ => step_file hpc h.inv.string hnode hdir⟩

/-- **The machine refines `myftw`**: whatever the memory holds, it gets to where the walk with the
string returns, and to nowhere else; so the walk always ends. -/
theorem walker_refines (fs : FileSystem) (cwd : Loc) (func : Handler σ) (seen : Seen σ)
    (hsize : NAME_MAX + 2 ≤ buf.pathlen) (hne : pathname ≠ []) (hno : (0 : UInt8) ∉ pathname)
    (hfuel : PATH_MAX < fuel) : ∃ r, myftw fs cwd func buf.pathlen fuel pathname seen = .ok r ∧
      (walker fs cwd func buf pathname seen).Leads (Answered [] r)
        (walker fs cwd func buf pathname seen).init ∧
      ∀ x, (walker fs cwd func buf pathname seen).Reachable x →
        (walker fs cwd func buf pathname seen).Stuck x → Answered [] r x := by
  have hstart : ∀ junk, (walker fs cwd func buf pathname seen).step
      (.ok ⟨buf, seen, [], .myftw pathname⟩) junk ≠ none := by
    intro junk
    simp [walker, Walker.step]
  have hnext : ∀ x, (∃ junk, (walker fs cwd func buf pathname seen).step
      (.ok ⟨buf, seen, [], .myftw pathname⟩) junk = some x) →
      ∃ r, myftw fs cwd func buf.pathlen fuel pathname seen = .ok r ∧
        (walker fs cwd func buf pathname seen).Leads (Answered [] r) x := by
    rintro x ⟨junk, hx⟩
    obtain ⟨buf', rfl, hinv, hlen⟩ := start_ok hsize hne hno hx
    have hlt := PathBuffer.length_lt hinv.string
    rw [hlen] at hlt
    rw [myftw, strcpy_eq (by simpa using hlt)]
    exact leads_dopath fuel _ ⟨⟨pathname, _⟩, seen⟩ ⟨hinv, hlen, rfl⟩ rfl (by omega)
      (Nat.lt_of_lt_of_le hfuel (Nat.le_add_left _ _))
  obtain ⟨r, hok, hleads⟩ := Machine.Leads.trans_ok
    (.next hstart fun junk x hx => .here ⟨junk, hx⟩) hnext
  refine ⟨r, hok, hleads, ?_⟩
  rintro x ⟨as, hrun⟩ hstuck
  refine hleads.final ?_ hrun hstuck
  rintro - ⟨s, rfl, hpc, hframes, -⟩ junk
  simp only [walker, Walker.step, hpc, hframes]

/-- The sample from its root: `myftw` returns 0 and has counted two directories, a file and a
link. -/
theorem walker_refines_sample : ∃ w,
    myftw sample [] myfunc 257 (PATH_MAX + 1) [slash] ⟨.zero, []⟩ = .ok (0, w) ∧
      w.seen.user = { Counters.zero with nreg := 1, ndir := 2, nslink := 1 } ∧
      (walker sample [] myfunc ⟨257, .zero 257⟩ [slash] ⟨.zero, []⟩).Leads (Answered [] (0, w))
        (walker sample [] myfunc ⟨257, .zero 257⟩ [slash] ⟨.zero, []⟩).init := by
  have hsize : NAME_MAX + 2 ≤ (⟨257, .zero 257⟩ : PathBuffer).pathlen := by decide
  have hno : (0 : UInt8) ∉ [slash] := by decide
  obtain ⟨⟨ret, w⟩, hr, hleads, -⟩ := walker_refines sample [] myfunc ⟨.zero, []⟩ hsize
    (List.cons_ne_nil _ _) hno (Nat.lt_succ_self PATH_MAX)
  have hcount : (myftw sample [] myfunc 257 (PATH_MAX + 1) [slash] ⟨.zero, []⟩).toOption.map
      (fun r => (r.1, r.2.seen.user)) =
        some (0, { Counters.zero with nreg := 1, ndir := 2, nslink := 1 }) := by
    decide +kernel
  rw [hr] at hcount
  obtain ⟨rfl, huser⟩ := Prod.mk.inj (Option.some.inj hcount)
  exact ⟨w, hr, huser, hleads⟩

end OsLabs.Catalog
