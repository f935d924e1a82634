/-
# Where the walk with the current directory ends

In a file system whose directories can all be read and entered, `chdir("..")` takes each call of
`mydopath` back from the directory it has entered to the one above.  For the name of an entry that
is where the call was made.  For the path that the walk starts with it need not be: the walk ends
in the directory above the start (`mydopath_cwd`), so it leaves the process where it was only if
the start lies directly there, or if the callback stops it at the start (`cwd_kept_iff`).
-/
import OsLabs.Catalog.CurrentDir

namespace OsLabs.Catalog

open OsLabs
open OsLabs.FileTree (slash dot Accessible)

variable {σ : Type} {func : Handler σ} {fs : FileSystem} {cwd loc : Loc} {path filename : Bytes}
  {n : Name} {names : List Name} {node : Loc × Stat} {fuel : Nat} {w w' : DirWalk σ} {t : FileTree}

/-! ## 1. One call -/

/-- A call that lists no directory stays where it is. -/
theorem returns_of_not_lists (hl : fs.lstat w.cwd filename = some node)
    (hnot : ∀ names, ¬ Lists fs func filename w node names) (fuel : Nat) :
    ∃ ret w', mydopath fs func (fuel + 1) filename w = .ok (ret, w') ∧ w'.cwd = w.cwd := by
  rcases mydopath_cases fs func filename w with ⟨node', names, hlists⟩ | ⟨v, node', type, hv, heq⟩
  · have hnode : node' = node := Option.some.inj (hlists.found.symm.trans hl)
    exact absurd (hnode ▸ hlists) (hnot names)
  · exact ⟨_, _, heq fuel, hv⟩

/-- The loop returns in the directory where it starts if the call on every entry does. -/
theorem eachEntry_returns {step : Name → DirWalk σ → Except Stop (Int × DirWalk σ)}
    (hstep : ∀ n ∈ names, n ≠ [dot] → n ≠ [dot, dot] → ∀ v : DirWalk σ, v.cwd = loc →
      ∃ ret v', step n v = .ok (ret, v') ∧ v'.cwd = loc) :
    ∀ w : DirWalk σ, w.cwd = loc →
      ∃ ret w', eachEntry step names w = .ok (ret, w') ∧ w'.cwd = loc := by
  induction names with
  | nil => exact fun w hw => ⟨0, w, rfl, hw⟩
  | cons n names ih =>
    intro w hw
    obtain ⟨hn, hnames⟩ := List.forall_mem_cons.mp hstep
    rw [eachEntry]
    split
    · exact ih hnames w hw
    · rename_i hdots
      obtain ⟨h1, h2⟩ := not_or.mp hdots
      obtain ⟨ret, v', hok, hv'⟩ := hn h1 h2 w hw
      rw [hok]
      simp only [bind, Except.bind]
      split
      · exact ⟨ret, v', rfl, hv'⟩
      · exact ih hnames v' hv'

/-- The callback lets the walk into the directory. -/
def LetIn (func : Handler σ) (filename : Bytes) (t : FileTree) (seen : Seen σ) : Prop :=
  t.isDir = true ∧ (func filename (some t.stat) .D seen.user).1 = 0

/-- A call that enters no directory stays where it is, too. -/
theorem returns_of_not_letIn (hl : fs.lstat w.cwd filename = some (loc, t.stat))
    (hnot : ¬ LetIn func filename t w.seen) (hfuel : 0 < fuel) :
    ∃ ret w', mydopath fs func fuel filename w = .ok (ret, w') ∧
      (LetIn func filename t w.seen → w'.cwd = loc.dropLast) ∧
      (¬ LetIn func filename t w.seen → w'.cwd = w.cwd) := by
  obtain ⟨fuel, rfl⟩ := Nat.exists_eq_add_of_lt hfuel
  have hlists : ∀ names, ¬ Lists fs func filename w (loc, t.stat) names :=
    fun names h => hnot ⟨(mode_eq_dir t).mp h.isDir, h.accepted⟩
  obtain ⟨ret, w', hok, hw'⟩ := returns_of_not_lists hl hlists _
  exact ⟨ret, w', hok, fun h => absurd h hnot, fun _ => hw'⟩

/-! ## 2. The whole walk -/

/-- Where all directories can be entered, the one above a node can be. -/
theorem up_of_accessible (hacc : fs.root.Everywhere Accessible)
    (hat : fs.root.at? loc = some t) : up fs loc = loc.dropLast := by
  rcases List.eq_nil_or_concat loc with rfl | ⟨l, m, rfl⟩
  · rw [up, List.dropLast_nil, ite_self]
  · rw [List.concat_eq_append] at hat ⊢
    rw [FileTree.at?_append] at hat
    obtain ⟨v, hv, hm⟩ := Option.bind_eq_some_iff.mp hat
    have hdir : v.isDir = true := by
      cases v with
      | dir ino r x es => rfl
      | _ => simp [FileTree.at?, FileTree.child] at hm
    rw [up_entry (searchable_of_accessible (hacc.at? hv) hv hdir), List.dropLast_concat]

/-- **Where a call ends**: above the directory that it has entered, or where it was made. -/
theorem mydopath_cwd (hacc : fs.root.Everywhere Accessible) (func : Handler σ) (t : FileTree) :
    ∀ (loc : Loc) (fuel : Nat) (filename : Bytes) (w : DirWalk σ), fs.root.at? loc = some t →
      fs.lstat w.cwd filename = some (loc, t.stat) → t.height < fuel →
      ∃ ret w', mydopath fs func fuel filename w = .ok (ret, w') ∧
        (LetIn func filename t w.seen → w'.cwd = loc.dropLast) ∧
        (¬ LetIn func filename t w.seen → w'.cwd = w.cwd) := by
  induction t using FileTree.induct with
  | file ino kind | link ino target =>
    intro loc fuel filename w hat hl hfuel
    exact returns_of_not_letIn hl (fun h => absurd h.1 (by simp [FileTree.isDir])) hfuel
  | dir ino r x es ih =>
    intro loc fuel filename w hat hl hfuel
    obtain ⟨rfl, rfl⟩ := (hacc.at? hat).self
    rw [FileTree.height] at hfuel
    obtain ⟨fuel, rfl⟩ : ∃ f, fuel = f + 1 := ⟨fuel - 1, by omega⟩
    by_cases hin : LetIn func filename (.dir ino true true es) w.seen
    · have hres := FileSystem.resolve_follow (FileSystem.lstat_cases hl).1
        (FileSystem.isDir_of_at? hat rfl)
      have hlists : Lists fs func filename w (loc, (FileTree.dir ino true true es).stat)
          ([dot] :: [dot, dot] :: es.map Prod.fst) :=
        ⟨hl, rfl, hin.2, FileSystem.opendir_eq hres hat⟩
      have hs : fs.searchable loc = true := searchable_of_accessible (hacc.at? hat) hat rfl
      -- each entry is found in the directory, and the call on it comes back there
      have hstep : ∀ n ∈ [dot] :: [dot, dot] :: es.map Prod.fst, n ≠ [dot] → n ≠ [dot, dot] →
          ∀ v : DirWalk σ, v.cwd = loc →
            ∃ ret v', mydopath fs func fuel n v = .ok (ret, v') ∧ v'.cwd = loc := by
        intro n hn h1 h2 v hv
        obtain ⟨e, he, rfl⟩ := List.mem_map.mp
          ((List.mem_cons.mp ((List.mem_cons.mp hn).resolve_left h1)).resolve_left h2)
        have hat' : fs.root.at? (loc ++ [e.1]) = some e.2 := (FileTree.at?_child hat e.1).trans
          (FileTree.entry_of_mem ((fs.namesOk.at? hat).self).1 he)
        have hl' : fs.lstat v.cwd e.1 = some (loc ++ [e.1], e.2.stat) := by
          rw [hv]
          exact FileSystem.lstat_name hs (validName_of_mem hat he) hat'
        have hheight := FileTree.height_le_heightEntries he
        obtain ⟨ret, v', hok, hlet, hnot⟩ :=
          ih e he (loc ++ [e.1]) fuel e.1 v hat' hl' (by omega)
        refine ⟨ret, v', hok, ?_⟩
        by_cases hlet' : LetIn func e.1 e.2 v.seen
        · rw [hlet hlet', List.dropLast_concat]
        · rw [hnot hlet', hv]
      obtain ⟨ret, v, hok, hv⟩ := eachEntry_returns hstep _ (hlists.cwd_entered hat)
      refine ⟨ret, v.chdir fs [dot, dot], by rw [mydopath_of_lists hlists, hok]; rfl, ?_,
        fun h => absurd hin h⟩
      intro _
      rw [cwd_chdir_dotdot (hv ▸ hs), hv, up_of_accessible hacc hat]
    · exact returns_of_not_letIn hl hin (Nat.succ_pos fuel)

/-- **Where the process is left.**  If all directories can be read and entered, the walk from a
directory returns, and the current directory is what it was exactly when the callback stops the
walk at the start, or the start lies directly in the current directory (or is the root, and the
current directory too). -/
theorem cwd_kept_iff (fs : FileSystem) (hacc : fs.root.Everywhere Accessible) (cwd : Loc)
    (path : Bytes) (node : Loc × Stat) (hl : fs.lstat cwd path = some node)
    (hdir : node.2.mode = .dir) (func : Handler σ) (seen : Seen σ) (fuel : Nat)
    (hfuel : fs.root.height < fuel) :
    ∃ ret w', my_myftw fs func fuel path ⟨cwd, seen⟩ = .ok (ret, w') ∧
      (w'.cwd = cwd ↔
        (func path (some node.2) .D seen.user).1 ≠ 0 ∨ node.1.dropLast = cwd) := by
  obtain ⟨-, t, hat, hstat⟩ := FileSystem.lstat_cases hl
  have hdir' : t.isDir = true := (mode_eq_dir t).mp (hstat ▸ hdir)
  have hheight := FileTree.height_at?_le hat
  have hl' : fs.lstat cwd path = some (node.1, t.stat) := by rw [hl, hstat]
  obtain ⟨ret, w', hok, hlet, hnot⟩ :=
    mydopath_cwd hacc func t node.1 fuel path ⟨cwd, seen⟩ hat hl' (by omega)
  refine ⟨ret, w', hok, ?_⟩
  by_cases hret : (func path (some node.2) .D seen.user).1 = 0
  · rw [hlet ⟨hdir', hstat ▸ hret⟩]
    exact ⟨Or.inr, fun h => h.resolve_left (fun hne => hne hret)⟩
  · rw [hnot fun h => hret (hstat ▸ h.2)]
    exact ⟨fun _ => Or.inl hret, fun _ => rfl⟩

/-- The walk from `a` comes back to the directory above it. -/
theorem cwd_kept_iff_child : ∃ ret w',
    my_myftw sample goOn 3 [97] ⟨[], ⟨(), []⟩⟩ = .ok (ret, w') ∧ w'.cwd = [] := by
  obtain ⟨ret, w', hok, hiff⟩ := cwd_kept_iff sample sampleTree_accessible [] [97]
    ([[97]], ⟨2, .dir⟩) (by decide) rfl goOn ⟨(), []⟩ 3 (by decide)
  exact ⟨ret, w', hok, hiff.mpr (Or.inr rfl)⟩

/-- **The walk from `.`** ends in the directory above the current one. -/
theorem cwd_lost : ¬ ∀ (fs : FileSystem), fs.root.Everywhere Accessible → ∀ (cwd : Loc)
    (path : Bytes) (node : Loc × Stat), fs.lstat cwd path = some node → node.2.mode = .dir →
    ∀ (σ : Type) (func : Handler σ) (seen : Seen σ) (fuel : Nat) (ret : Int) (w' : DirWalk σ),
      my_myftw fs func fuel path ⟨cwd, seen⟩ = .ok (ret, w') → w'.cwd = cwd := by
  intro h
  obtain ⟨ret, w', hok, hlet, -⟩ := mydopath_cwd sampleTree_accessible goOn
    (.dir 2 true true [([102], .file 3 .reg)]) [[97]] 3 [dot] ⟨[[97]], ⟨(), []⟩⟩ rfl
    (by decide : sample.lstat [[97]] [dot] = some ([[97]], ⟨2, .dir⟩)) (by decide)
  have hkept := h sample sampleTree_accessible [[97]] [dot] ([[97]], ⟨2, .dir⟩) (by decide) rfl
    Unit goOn ⟨(), []⟩ 3 ret w' hok
  rw [hlet ⟨rfl, rfl⟩] at hkept
  exact absurd hkept (by decide)

end OsLabs.Catalog
