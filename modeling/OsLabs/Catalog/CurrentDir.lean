/-
# Where the walk with the current directory looks

`mydopath` looks the entries of a directory up in the current directory.  It does not look at
what `chdir` returns: where a directory can be read but not entered, its entries are looked up in
the directory above it, and `..` leads one level too far up.

Such a directory is harmless if none of its names is found where the walk stays, and if `..` leads
nowhere from there, because it is the root or because the directory above it cannot be entered.
`lookups_iff` says that the walk looks at the right nodes, whatever the callback does, exactly
when every directory that it can read and not enter is harmless (`Permitted`).
-/
import OsLabs.Catalog.Walks

namespace OsLabs.Catalog

open OsLabs
open OsLabs.FileTree (slash dot ValidName heightEntries)

variable {σ : Type} {func : Handler σ} {fs : FileSystem} {cwd d : Loc} {path filename : Bytes}
  {n : Name} {names : List Name} {node : Loc × Stat} {fuel : Nat} {w w' : DirWalk σ}

/-! ## 1. The calls of a run -/

/-- The call finds the directory `node`, and `readdir` lists `names`. -/
structure Lists (fs : FileSystem) (func : Handler σ) (filename : Bytes) (w : DirWalk σ)
    (node : Loc × Stat) (names : List Name) : Prop where
  found : fs.lstat w.cwd filename = some node
  isDir : node.2.mode = .dir
  accepted : (w.call func filename (some node) .D).1 = 0
  opened : fs.opendir w.cwd filename = some names

/-- Behind the first `chdir`. -/
def entered (fs : FileSystem) (func : Handler σ) (filename : Bytes) (w : DirWalk σ)
    (node : Loc × Stat) : DirWalk σ :=
  (w.call func filename (some node) .D).2.chdir fs filename

/-- The call with `fuel + 1` lists the directory `d`, and calls itself on its entry `d_name`
when the entries before it have been walked. -/
def Recurses (fs : FileSystem) (func : Handler σ) (fuel : Nat) (filename : Bytes) (w : DirWalk σ)
    (d : Loc) (d_name : Name) (w' : DirWalk σ) : Prop :=
  ∃ node names before behind, Lists fs func filename w node names ∧ node.1 = d ∧
    names = before ++ d_name :: behind ∧ d_name ≠ [dot] ∧ d_name ≠ [dot, dot] ∧
    eachEntry (mydopath fs func fuel) before (entered fs func filename w node) = .ok (0, w')

/-- The calls of `mydopath` in a run that starts with the call on `path`. -/
inductive Within (fs : FileSystem) (func : Handler σ) (fuel : Nat) (path : Bytes)
    (w : DirWalk σ) : Nat → Bytes → DirWalk σ → Prop
  | start : Within fs func fuel path w fuel path w
  | recurse {fuel' : Nat} {filename : Bytes} {w' : DirWalk σ} {d : Loc} {d_name : Name}
      {w'' : DirWalk σ} : Within fs func fuel path w (fuel' + 1) filename w' →
      Recurses fs func fuel' filename w' d d_name w'' →
      Within fs func fuel path w fuel' d_name w''

/-- A call on the entry `d_name` of `d`: it looks at this entry or finds nothing, and the current
directory is the same again when it returns. -/
structure InPlace (fs : FileSystem) (func : Handler σ) (fuel : Nat) (d : Loc) (d_name : Name)
    (w : DirWalk σ) : Prop where
  child : ∀ node, fs.lstat w.cwd d_name = some node → node.1 = d ++ [d_name]
  back : ∀ ret w', mydopath fs func fuel d_name w = .ok (ret, w') → w'.cwd = w.cwd

/-- All recursive calls of the run are in place. -/
def AlwaysInPlace (fs : FileSystem) (func : Handler σ) (fuel : Nat) (path : Bytes)
    (w : DirWalk σ) : Prop :=
  ∀ fuel' filename w', Within fs func fuel path w (fuel' + 1) filename w' →
    ∀ d d_name w'', Recurses fs func fuel' filename w' d d_name w'' →
      InPlace fs func fuel' d d_name w''

/-! ## 2. The permissions -/

/-- The directories that the walk gets into: readable and searchable, like all directories from
the start down to them. -/
inductive Entered (fs : FileSystem) (cwd : Loc) (path : Bytes) : Loc → Prop
  | start {s : Loc} {ino : Nat} {es : List (Name × FileTree)} :
      fs.resolve cwd true path = some s → fs.root.at? s = some (.dir ino true true es) →
      Entered fs cwd path s
  | entry {d : Loc} {n : Name} {ino : Nat} {es : List (Name × FileTree)} :
      Entered fs cwd path d → fs.root.at? (d ++ [n]) = some (.dir ino true true es) →
      Entered fs cwd path (d ++ [n])

/-- Every directory that can be read can be entered, or else is harmless. -/
structure Permitted (fs : FileSystem) (cwd : Loc) (path : Bytes) : Prop where
  start : ∀ s ino x es, fs.resolve cwd true path = some s →
    fs.root.at? s = some (.dir ino true x es) →
    x = true ∨ ∀ e ∈ es, fs.lstat cwd e.1 = none
  below : ∀ d n ino x es, Entered fs cwd path d →
    fs.root.at? (d ++ [n]) = some (.dir ino true x es) →
    x = true ∨ (∀ e ∈ es, fs.lstat d e.1 = none) ∧
      (d = [] ∨ fs.searchable d.dropLast = false)

theorem Entered.searchable (h : Entered fs cwd path d) : fs.searchable d = true := by
  cases h with
  | start _ hat => rw [FileSystem.searchable, hat]; rfl
  | entry _ hat => rw [FileSystem.searchable, hat]; rfl

/-! ## 3. One call -/

theorem validName_of_mem {ino : Nat} {r x : Bool} {es : List (Name × FileTree)}
    (hat : fs.root.at? d = some (.dir ino r x es)) {e : Name × FileTree} (he : e ∈ es) :
    ValidName e.1 := ((fs.namesOk.at? hat).self).2 e he

theorem mydopath_of_lists (h : Lists fs func filename w node names) :
    mydopath fs func (fuel + 1) filename w =
      (eachEntry (mydopath fs func fuel) names (entered fs func filename w node)).map
        fun r => (r.1, r.2.chdir fs [dot, dot]) := by
  rw [mydopath, h.found]
  simp only [h.isDir, ne_eq, not_true_eq_false, if_false, h.accepted]
  have hcwd : (w.call func filename (some node) .D).2.cwd = w.cwd := rfl
  rw [h.opened]
  rfl

/-- A call that lists no directory ends with a call of the callback, and stays where it is. -/
theorem mydopath_cases (fs : FileSystem) (func : Handler σ) (filename : Bytes)
    (w : DirWalk σ) : (∃ node names, Lists fs func filename w node names) ∨
      ∃ (w' : DirWalk σ) (node : Option (Loc × Stat)) (type : FTW), w'.cwd = w.cwd ∧
        ∀ fuel, mydopath fs func (fuel + 1) filename w = .ok (w'.call func filename node type) := by
  cases hl : fs.lstat w.cwd filename with
  | none => exact Or.inr ⟨w, none, .NS, rfl, fun fuel => by rw [mydopath, hl]⟩
  | some node =>
    by_cases hdir : node.2.mode = .dir
    · by_cases hret : (w.call func filename (some node) .D).1 = 0
      · cases ho : fs.opendir w.cwd filename with
        | none =>
          refine Or.inr ⟨(w.call func filename (some node) .D).2, some node, .DNR, rfl, ?_⟩
          intro fuel
          rw [mydopath, hl]
          simp only [hdir, ne_eq, not_true_eq_false, if_false, hret, ho]
        | some names => exact Or.inl ⟨node, names, hl, hdir, hret, ho⟩
      · refine Or.inr ⟨w, some node, .D, rfl, fun fuel => ?_⟩
        rw [mydopath, hl]
        simp only [hdir, ne_eq, not_true_eq_false, if_false, hret, not_false_eq_true, if_true]
    · refine Or.inr ⟨w, some node, .F, rfl, fun fuel => ?_⟩
      rw [mydopath, hl]
      simp only [hdir, ne_eq, not_false_eq_true, if_true]

/-- What is listed is a directory of the tree, with the names of its entries. -/
theorem Lists.dir (h : Lists fs func filename w node names) :
    ∃ ino x es, fs.root.at? node.1 = some (.dir ino true x es) ∧
      names = [dot] :: [dot, dot] :: es.map Prod.fst ∧ (∀ e ∈ es, ValidName e.1) ∧
      fs.resolve w.cwd true filename = some node.1 ∧
      fs.resolve w.cwd false filename = some node.1 := by
  obtain ⟨hres, t, hat, hstat⟩ := FileSystem.lstat_cases h.found
  have hdir : t.isDir = true := by
    rw [← mode_eq_dir, hstat]
    exact h.isDir
  have hfollow := FileSystem.resolve_follow hres (FileSystem.isDir_of_at? hat hdir)
  obtain ⟨loc, ino, x, es, hres', hat', hnames⟩ := FileSystem.opendir_cases h.opened
  rw [hfollow, Option.some.injEq] at hres'
  rw [← hres'] at hat'
  exact ⟨ino, x, es, hat', hnames, fun e he => validName_of_mem hat' he, hres, hfollow⟩

/-- Where the entries are looked up. -/
theorem Lists.cwd_entered {ino : Nat} {r x : Bool} {es : List (Name × FileTree)}
    (h : Lists fs func filename w node names)
    (hat : fs.root.at? node.1 = some (.dir ino r x es)) :
    (entered fs func filename w node).cwd = if x = true then node.1 else w.cwd := by
  obtain ⟨-, -, -, -, -, -, -, hres⟩ := h.dir
  have hs : fs.searchable node.1 = x := by
    rw [FileSystem.searchable, hat]
    rfl
  have hcwd : (entered fs func filename w node).cwd =
      (fs.chdir w.cwd filename).getD w.cwd := rfl
  rw [hcwd]
  cases x with
  | true => rw [FileSystem.chdir_eq hres hs]; rfl
  | false => rw [FileSystem.chdir_eq_none hres hs]; rfl

/-- **The loop keeps the current directory** if the call on every entry does. -/
theorem eachEntry_cwd {step : Name → DirWalk σ → Except Stop (Int × DirWalk σ)} {c : Loc} :
    ∀ {names : List Name} {w : DirWalk σ} {ret : Int} {w' : DirWalk σ},
      (∀ n ∈ names, n ≠ [dot] → n ≠ [dot, dot] → ∀ (v : DirWalk σ) (ret : Int) (v' : DirWalk σ),
        v.cwd = c → step n v = .ok (ret, v') → v'.cwd = c) →
      w.cwd = c → eachEntry step names w = .ok (ret, w') → w'.cwd = c := by
  intro names
  induction names with
  | nil =>
    intro w ret w' _ hw hok
    obtain ⟨-, rfl⟩ := Prod.mk.inj (Except.ok.inj hok)
    exact hw
  | cons n names ih =>
    intro w ret w' hstep hw hok
    obtain ⟨hn, hnames⟩ := List.forall_mem_cons.mp hstep
    rw [eachEntry] at hok
    split at hok
    · exact ih hnames hw hok
    · rename_i hdots
      obtain ⟨h1, h2⟩ := not_or.mp hdots
      cases hr : step n w with
      | error e =>
        rw [hr] at hok
        exact absurd hok (by simp [bind, Except.bind])
      | ok r =>
        have hcwd := hn h1 h2 w r.1 r.2 hw hr
        rw [hr] at hok
        simp only [bind, Except.bind] at hok
        split at hok
        · rw [← (Prod.mk.inj (Except.ok.inj hok)).2]
          exact hcwd
        · exact ih hnames hcwd hok

/-! ## 4. With the permissions -/

/-- A call on the entry `n` of `d` that finds nothing, or is made in `d`. -/
structure Placed (fs : FileSystem) (cwd : Loc) (path : Bytes) (d : Loc) (n : Name)
    (w : DirWalk σ) : Prop where
  valid : ValidName n
  place : fs.lstat w.cwd n = none ∨ w.cwd = d ∧ Entered fs cwd path d

theorem Placed.found (h : Placed fs cwd path d n w) (hl : fs.lstat w.cwd n = some node) :
    node.1 = d ++ [n] ∧ w.cwd = d ∧ Entered fs cwd path d := by
  rcases h.place with hnone | ⟨hcwd, hd⟩
  · rw [hl] at hnone
    exact absurd hnone (by simp)
  · rw [← hcwd]
    exact ⟨(FileSystem.lstat_name_cases h.valid hl).2, rfl, hcwd ▸ hd⟩

/-- **Where the entries are looked up**: the directory itself, or a place where none of them is
found. -/
theorem lists_placed (hperm : Permitted fs cwd path)
    (hcall : filename = path ∧ w.cwd = cwd ∨ ∃ d, Placed fs cwd path d filename w)
    (h : Lists fs func filename w node names) (hn : n ∈ names) (hdot : n ≠ [dot])
    (hdotdot : n ≠ [dot, dot]) (hw' : w'.cwd = (entered fs func filename w node).cwd) :
    Placed fs cwd path node.1 n w' := by
  obtain ⟨ino, x, es, hat, rfl, hvalid, hres, -⟩ := h.dir
  rw [h.cwd_entered hat] at hw'
  have hmem : n ∈ es.map Prod.fst := by
    rcases List.mem_cons.mp hn with h | hn
    · exact absurd h hdot
    · exact (List.mem_cons.mp hn).resolve_left hdotdot
  obtain ⟨e, he, rfl⟩ := List.mem_map.mp hmem
  refine ⟨hvalid e he, ?_⟩
  rcases hcall with ⟨rfl, hcwd⟩ | ⟨d, hplaced⟩
  · rw [hcwd] at hres hw'
    cases x with
    | true => exact Or.inr ⟨hw', .start hres hat⟩
    | false =>
      rcases hperm.start _ _ _ _ hres hat with htrue | hnone
      · exact absurd htrue (by simp)
      · exact Or.inl (by rw [hw']; exact hnone e he)
  · obtain ⟨hloc, hcwd, hd⟩ := hplaced.found h.found
    rw [hloc] at hat hw' ⊢
    cases x with
    | true => exact Or.inr ⟨hw', .entry hd hat⟩
    | false =>
      rcases hperm.below _ _ _ _ _ hd hat with htrue | ⟨hnone, -⟩
      · exact absurd htrue (by simp)
      · refine Or.inl ?_
        rw [hw', if_neg (by simp), hcwd]
        exact hnone e he

/-- **`..` leads back.** -/
theorem chdir_back (hperm : Permitted fs cwd path) (hplaced : Placed fs cwd path d n w)
    (h : Lists fs func n w node names) (hw' : w'.cwd = (entered fs func n w node).cwd) :
    (w'.chdir fs [dot, dot]).cwd = w.cwd := by
  obtain ⟨ino, x, es, hat, -⟩ := h.dir
  obtain ⟨hloc, hcwd, hd⟩ := hplaced.found h.found
  rw [h.cwd_entered hat] at hw'
  rw [hloc] at hat hw'
  cases x with
  | true =>
    have hcwd' : w'.cwd = d ++ [n] := hw'
    have hs : fs.searchable w'.cwd = true := by
      rw [hcwd', FileSystem.searchable, hat]
      rfl
    rw [cwd_chdir_dotdot hs, hcwd', up_entry hd.searchable, hcwd]
  | false =>
    have hcwd' : w'.cwd = d := hw'.trans hcwd
    have hs : fs.searchable w'.cwd = true := by
      rw [hcwd']
      exact hd.searchable
    rcases hperm.below _ _ _ _ _ hd hat with htrue | ⟨-, hstay⟩
    · exact absurd htrue (by simp)
    · rw [cwd_chdir_dotdot hs, hcwd', hcwd, up]
      rcases hstay with rfl | habove
      · split <;> rfl
      · rw [if_neg (by simp [habove])]

/-- **A call in its place comes back.** -/
theorem placed_back (hperm : Permitted fs cwd path) :
    ∀ (fuel : Nat) {d : Loc} {n : Name} {w : DirWalk σ} {ret : Int} {w' : DirWalk σ},
      Placed fs cwd path d n w → mydopath fs func fuel n w = .ok (ret, w') → w'.cwd = w.cwd := by
  intro fuel
  induction fuel with
  | zero =>
    intro d n w ret w' _ hok
    exact absurd hok (by simp [mydopath])
  | succ fuel ih =>
    intro d n w ret w' hplaced hok
    rcases mydopath_cases fs func n w with ⟨node, names, h⟩ | ⟨v, node, type, hv, heq⟩
    · rw [mydopath_of_lists h] at hok
      cases hloop : eachEntry (mydopath fs func fuel) names (entered fs func n w node) with
      | error e =>
        rw [hloop] at hok
        exact absurd hok (by simp [Except.map])
      | ok r =>
        rw [hloop] at hok
        obtain ⟨-, rfl⟩ := Prod.mk.inj (Except.ok.inj hok)
        refine chdir_back hperm hplaced h (eachEntry_cwd ?_ rfl hloop)
        intro m hm h1 h2 v ret v' hv hstep
        have hm' := lists_placed hperm (Or.inr ⟨d, hplaced⟩) h hm h1 h2 hv
        exact (ih hm' hstep).trans hv
    · rw [heq] at hok
      rw [← (Prod.mk.inj (Except.ok.inj hok)).2]
      exact hv

/-- A recursive call is made where the directory's entries are looked up. -/
theorem recurses_placed (hperm : Permitted fs cwd path)
    (hcall : filename = path ∧ w.cwd = cwd ∨ ∃ d, Placed fs cwd path d filename w)
    (h : Recurses fs func fuel filename w d n w') : Placed fs cwd path d n w' := by
  obtain ⟨node, names, before, behind, hlists, rfl, hnames, h1, h2, hloop⟩ := h
  have hcwd : w'.cwd = (entered fs func filename w node).cwd := by
    refine eachEntry_cwd ?_ rfl hloop
    intro m hm hm1 hm2 v ret v' hv hstep
    have hmem : m ∈ names := by
      rw [hnames]
      exact List.mem_append_left _ hm
    have hm' := lists_placed hperm hcall hlists hmem hm1 hm2 hv
    exact (placed_back hperm fuel hm' hstep).trans hv
  exact lists_placed hperm hcall hlists (by simp [hnames]) h1 h2 hcwd

theorem alwaysInPlace_of_permitted (hperm : Permitted fs cwd path) (func : Handler σ)
    (fuel : Nat) {w : DirWalk σ} (hw : w.cwd = cwd) : AlwaysInPlace fs func fuel path w := by
  have hcalls : ∀ fuel' filename w', Within fs func fuel path w fuel' filename w' →
      filename = path ∧ w'.cwd = cwd ∨ ∃ d, Placed fs cwd path d filename w' := by
    intro fuel' filename w' hwithin
    induction hwithin with
    | start => exact Or.inl ⟨rfl, hw⟩
    | recurse _ hrec ih => exact Or.inr ⟨_, recurses_placed hperm ih hrec⟩
  intro fuel' filename w' hwithin d d_name w'' hrec
  have hplaced := recurses_placed hperm (hcalls _ _ _ hwithin) hrec
  exact ⟨fun node hl => (hplaced.found hl).1, fun ret v hok => placed_back hperm _ hplaced hok⟩

/-! ## 5. The callback that always returns 0 -/

/-- Never stop the walk. -/
def goOn : Handler Unit := fun _pathname _statptr _type user => (0, user)

variable {u u' : DirWalk Unit}

theorem Within.trans {fuel₁ fuel₂ : Nat} {p₁ p₂ : Bytes} {v : DirWalk σ}
    (h : Within fs func fuel path w fuel₁ p₁ w') (h' : Within fs func fuel₁ p₁ w' fuel₂ p₂ v) :
    Within fs func fuel path w fuel₂ p₂ v := by
  induction h' with
  | start => exact h
  | recurse _ hrec ih => exact .recurse ih hrec

/-- What holds of a run holds of the run of each of its calls. -/
theorem AlwaysInPlace.within {fuel' : Nat} (h : AlwaysInPlace fs func fuel path w)
    (hwithin : Within fs func fuel path w fuel' filename w') :
    AlwaysInPlace fs func fuel' filename w' :=
  fun _ _ _ hcall => h _ _ _ (hwithin.trans hcall)

theorem eachEntry_append_ok {step : Name → DirWalk σ → Except Stop (Int × DirWalk σ)}
    {v v' : DirWalk σ} (hloop : eachEntry step names w = .ok (0, v))
    (hstep : n = [dot] ∨ n = [dot, dot] → v' = v)
    (hstep' : n ≠ [dot] → n ≠ [dot, dot] → step n v = .ok (0, v')) :
    eachEntry step (names ++ [n]) w = .ok (0, v') := by
  induction names generalizing w with
  | nil =>
    obtain ⟨-, rfl⟩ := Prod.mk.inj (Except.ok.inj hloop)
    rw [List.nil_append, eachEntry]
    split
    · rename_i hdots
      rw [hstep hdots]
      rfl
    · rename_i hdots
      obtain ⟨h1, h2⟩ := not_or.mp hdots
      rw [hstep' h1 h2]
      rfl
  | cons m names ih =>
    rw [List.cons_append, eachEntry]
    rw [eachEntry] at hloop
    split at hloop
    · rename_i hdots
      rw [if_pos hdots]
      exact ih hloop
    · rename_i hdots
      rw [if_neg hdots]
      cases hr : step m w with
      | error e =>
        rw [hr] at hloop
        exact absurd hloop (by simp [bind, Except.bind])
      | ok r =>
        rw [hr] at hloop
        simp only [bind, Except.bind] at hloop ⊢
        split at hloop
        · rename_i hne
          exact absurd (congrArg Prod.fst (Except.ok.inj hloop)) hne
        · rename_i hzero
          rw [if_neg hzero]
          exact ih hloop

/-- A directory is listed by every call that finds it. -/
theorem lists_goOn {ino : Nat} {x : Bool} {es : List (Name × FileTree)}
    (hl : fs.lstat u.cwd filename = some (d, ⟨ino, .dir⟩))
    (hat : fs.root.at? d = some (.dir ino true x es)) :
    Lists fs goOn filename u (d, ⟨ino, .dir⟩) ([dot] :: [dot, dot] :: es.map Prod.fst) := by
  have hres := FileSystem.resolve_follow (FileSystem.lstat_cases hl).1
    (FileSystem.isDir_of_at? hat rfl)
  exact ⟨hl, rfl, rfl, FileSystem.opendir_eq hres hat⟩

/-- Where a directory cannot be entered, its entries are found nowhere in a run that is in
place. -/
theorem lstat_none_of_inPlace {ino : Nat} {es : List (Name × FileTree)}
    (hat : fs.root.at? d = some (.dir ino true false es)) (hn : ValidName n)
    (hin : InPlace fs func fuel d n w) : fs.lstat w.cwd n = none := by
  cases hl : fs.lstat w.cwd n with
  | none => rfl
  | some node =>
    obtain ⟨hs, hloc⟩ := FileSystem.lstat_name_cases hn hl
    have hchild := hin.child node hl
    rw [hloc] at hchild
    have hd : w.cwd = d := List.append_cancel_right hchild
    rw [hd, FileSystem.searchable, hat] at hs
    exact absurd hs (by simp [FileTree.isSearchable])

/-- Every beginning of the loop over the entries ends with 0, in the directory where it
started. -/
def RunsThrough (fs : FileSystem) (fuel : Nat) (filename : Bytes) (u : DirWalk Unit)
    (node : Loc × Stat) (names : List Name) : Prop :=
  ∀ before behind, names = before ++ behind →
    ∃ v, eachEntry (mydopath fs goOn fuel) before (entered fs goOn filename u node) = .ok (0, v) ∧
      v.cwd = (entered fs goOn filename u node).cwd

theorem RunsThrough.returns (h : RunsThrough fs fuel filename u node names)
    (hlists : Lists fs goOn filename u node names) :
    ∃ v : DirWalk Unit, mydopath fs goOn (fuel + 1) filename u =
        .ok (0, v.chdir fs [dot, dot]) ∧ v.cwd = (entered fs goOn filename u node).cwd := by
  obtain ⟨v, hloop, hv⟩ := h names [] (List.append_nil names).symm
  exact ⟨v, by rw [mydopath_of_lists hlists, hloop]; rfl, hv⟩

/-- The loop runs through if the call on every entry returns 0. -/
theorem runsThrough_of_returns (hlists : Lists fs goOn filename u node names)
    (hin : AlwaysInPlace fs goOn (fuel + 1) filename u)
    (hreturn : ∀ n v, Recurses fs goOn fuel filename u node.1 n v → n ∈ names →
      ∃ v', mydopath fs goOn fuel n v = .ok (0, v')) :
    RunsThrough fs fuel filename u node names := by
  intro before
  induction before using List.reverseRecOn with
  | nil =>
    intro behind _
    exact ⟨_, rfl, rfl⟩
  | append_singleton before n ih =>
    intro behind hsplit
    rw [List.append_assoc] at hsplit
    obtain ⟨v, hloop, hv⟩ := ih _ hsplit
    by_cases hdots : n = [dot] ∨ n = [dot, dot]
    · refine ⟨v, eachEntry_append_ok hloop (fun _ => rfl) (fun h1 h2 => ?_), hv⟩
      exact absurd hdots (not_or.mpr ⟨h1, h2⟩)
    · obtain ⟨h1, h2⟩ := not_or.mp hdots
      have hrec : Recurses fs goOn fuel filename u node.1 n v :=
        ⟨_, names, before, behind, hlists, rfl, hsplit, h1, h2, hloop⟩
      have hplace := hin fuel filename u .start node.1 n v hrec
      obtain ⟨v', hok⟩ := hreturn n v hrec (by simp [hsplit])
      refine ⟨v', eachEntry_append_ok hloop (fun h => absurd h hdots) (fun _ _ => hok), ?_⟩
      rw [hplace.back 0 v' hok, hv]

/-- **The run gets to every entry.** -/
theorem runsThrough (t : FileTree) : ∀ (fuel : Nat) (filename : Bytes) (u : DirWalk Unit)
    (loc : Loc) (names : List Name), fs.root.at? loc = some t → t.height ≤ fuel →
      AlwaysInPlace fs goOn (fuel + 1) filename u →
      Lists fs goOn filename u (loc, t.stat) names →
      RunsThrough fs fuel filename u (loc, t.stat) names := by
  induction t using FileTree.induct with
  | file ino kind =>
    intro fuel filename u loc names hat _ _ hlists
    obtain ⟨ino', x, es, hat', -⟩ := hlists.dir
    rw [hat] at hat'
    exact absurd hat' (by simp)
  | link ino target =>
    intro fuel filename u loc names hat _ _ hlists
    obtain ⟨ino', x, es, hat', -⟩ := hlists.dir
    rw [hat] at hat'
    exact absurd hat' (by simp)
  | dir ino r x es ih =>
    intro fuel filename u loc names hat hheight hin hlists
    obtain ⟨ino', x', es', hat', hnames, -⟩ := hlists.dir
    rw [hat] at hat'
    obtain ⟨rfl, rfl, rfl, rfl⟩ := FileTree.dir.inj (Option.some.inj hat')
    refine runsThrough_of_returns hlists hin fun n v hrec hn => ?_
    have hplace := hin fuel filename u .start loc n v hrec
    have hin' := hin.within (.recurse .start hrec)
    obtain ⟨-, -, -, -, -, -, -, h1, h2, -⟩ := hrec
    rw [hnames] at hn
    obtain ⟨e, he, rfl⟩ := List.mem_map.mp
      ((List.mem_cons.mp ((List.mem_cons.mp hn).resolve_left h1)).resolve_left h2)
    rw [FileTree.height] at hheight
    obtain ⟨fuel, rfl⟩ : ∃ f, fuel = f + 1 := ⟨fuel - 1, by omega⟩
    rcases mydopath_cases fs goOn e.1 v with ⟨node, names', hlists'⟩ | ⟨w, node, type, -, heq⟩
    · -- the call is in place, so what it lists is the entry
      have hat₁ : fs.root.at? (loc ++ [e.1]) = some e.2 :=
        (FileTree.at?_child hat e.1).trans
          (FileTree.entry_of_mem ((fs.namesOk.at? hat).self).1 he)
      have hnode : node = (loc ++ [e.1], e.2.stat) := by
        obtain ⟨-, t₁, ht₁, hstat₁⟩ := FileSystem.lstat_cases hlists'.found
        have hloc := hplace.child node hlists'.found
        rw [hloc, hat₁, Option.some.injEq] at ht₁
        rw [Prod.ext_iff]
        exact ⟨hloc, by rw [← hstat₁, ← ht₁]⟩
      have hle := FileTree.height_le_heightEntries he
      rw [hnode] at hlists'
      obtain ⟨v', hok, -⟩ := (ih e he fuel e.1 v (loc ++ [e.1]) names' hat₁ (by omega) hin'
        hlists').returns hlists'
      exact ⟨_, hok⟩
    · exact ⟨_, heq fuel⟩

theorem runsThrough_of_lstat {ino : Nat} {x : Bool} {es : List (Name × FileTree)}
    (hat : fs.root.at? d = some (.dir ino true x es)) (hheight : fs.root.height ≤ fuel)
    (hin : AlwaysInPlace fs goOn (fuel + 1) filename u)
    (hl : fs.lstat u.cwd filename = some (d, ⟨ino, .dir⟩)) :
    RunsThrough fs fuel filename u (d, ⟨ino, .dir⟩) ([dot] :: [dot, dot] :: es.map Prod.fst) :=
  runsThrough _ fuel filename u d _ hat (Nat.le_trans (FileTree.height_at?_le hat) hheight) hin
    (lists_goOn hl hat)

/-- The call on every entry of a directory that is listed. -/
theorem recurses_goOn {ino : Nat} {x : Bool} {es : List (Name × FileTree)}
    (hat : fs.root.at? d = some (.dir ino true x es)) (hheight : fs.root.height ≤ fuel)
    (hin : AlwaysInPlace fs goOn (fuel + 1) filename u)
    (hl : fs.lstat u.cwd filename = some (d, ⟨ino, .dir⟩)) {e : Name × FileTree} (he : e ∈ es) :
    ∃ v, Recurses fs goOn fuel filename u d e.1 v ∧ v.cwd = if x = true then d else u.cwd := by
  have hvalid := validName_of_mem hat he
  have hmem : e.1 ∈ es.map Prod.fst := List.mem_map.mpr ⟨e, he, rfl⟩
  obtain ⟨before, behind, hsplit⟩ := List.append_of_mem hmem
  have hnames : [dot] :: [dot, dot] :: es.map Prod.fst =
      ([dot] :: [dot, dot] :: before) ++ e.1 :: behind := by
    rw [hsplit]
    rfl
  have hlists := lists_goOn hl hat
  obtain ⟨v, hloop, hv⟩ := runsThrough_of_lstat hat hheight hin hl _ _ hnames
  exact ⟨v, ⟨_, _, _, _, hlists, rfl, hnames, hvalid.ne_dot, hvalid.ne_dotdot, hloop⟩,
    hv.trans (hlists.cwd_entered hat)⟩

/-- The call on a directory that is listed returns behind its second `chdir`. -/
theorem returns_goOn {ino : Nat} {x : Bool} {es : List (Name × FileTree)}
    (hat : fs.root.at? d = some (.dir ino true x es)) (hheight : fs.root.height ≤ fuel)
    (hin : AlwaysInPlace fs goOn (fuel + 1) filename u)
    (hl : fs.lstat u.cwd filename = some (d, ⟨ino, .dir⟩)) :
    ∃ v : DirWalk Unit, mydopath fs goOn (fuel + 1) filename u =
        .ok (0, v.chdir fs [dot, dot]) ∧ v.cwd = if x = true then d else u.cwd := by
  have hlists := lists_goOn hl hat
  obtain ⟨v, hok, hv⟩ := (runsThrough_of_lstat hat hheight hin hl).returns hlists
  exact ⟨v, hok, hv.trans (hlists.cwd_entered hat)⟩

/-- **The walk gets into every directory that it should**, with any number of calls to go. -/
theorem within_of_entered (hall : ∀ fuel, AlwaysInPlace fs goOn fuel path ⟨cwd, ⟨(), []⟩⟩)
    (h : Entered fs cwd path d) : ∀ fuel, fs.root.height ≤ fuel → ∃ fuel₀ filename ino es u,
      Within fs goOn fuel₀ path ⟨cwd, ⟨(), []⟩⟩ (fuel + 1) filename u ∧
      AlwaysInPlace fs goOn (fuel + 1) filename u ∧
      fs.root.at? d = some (.dir ino true true es) ∧
      fs.lstat u.cwd filename = some (d, ⟨ino, .dir⟩) := by
  induction h with
  | start hres hat =>
    intro fuel _
    exact ⟨fuel + 1, path, _, _, _, .start, hall _, hat, FileSystem.lstat_eq_some hres hat⟩
  | @entry d n ino es hd hat ih =>
    intro fuel hfuel
    obtain ⟨fuel₀, filename, ino', es', u, hwithin, hin, hat', hl⟩ := ih (fuel + 1) (by omega)
    have hchild : (FileTree.dir ino' true true es').child n = some (.dir ino true true es) := by
      rw [← FileTree.at?_child hat', hat]
    obtain ⟨v, hrec, hv⟩ := recurses_goOn hat' (by omega) hin hl (FileTree.mem_of_entry hchild)
    have hvalid := validName_of_mem hat' (FileTree.mem_of_entry hchild)
    refine ⟨fuel₀, n, ino, es, v, .recurse hwithin hrec, hin.within (.recurse .start hrec), hat, ?_⟩
    have hcwd : v.cwd = d := hv
    rw [hcwd]
    exact FileSystem.lstat_name hd.searchable hvalid hat

theorem permitted_of_alwaysInPlace
    (hall : ∀ fuel, AlwaysInPlace fs goOn fuel path ⟨cwd, ⟨(), []⟩⟩) : Permitted fs cwd path := by
  constructor
  · intro s ino x es hres hat
    cases x with
    | true => exact Or.inl rfl
    | false =>
      refine Or.inr fun e he => ?_
      obtain ⟨v, hrec, hv⟩ := recurses_goOn (u := ⟨cwd, ⟨(), []⟩⟩) hat (Nat.le_refl _)
        (hall _) (FileSystem.lstat_eq_some hres hat) he
      have hcwd : v.cwd = cwd := hv
      have hvalid := validName_of_mem hat he
      rw [← hcwd]
      exact lstat_none_of_inPlace hat hvalid (hall _ _ _ _ .start _ _ _ hrec)
  · intro d n ino x es hd hat
    cases x with
    | true => exact Or.inl rfl
    | false =>
      obtain ⟨fuel₀, filename, ino', es', u, hwithin, hin, hat', hl⟩ :=
        within_of_entered hall hd (fs.root.height + 1) (by omega)
      have hchild : (FileTree.dir ino' true true es').child n = some (.dir ino true false es) := by
        rw [← FileTree.at?_child hat', hat]
      have hmem := FileTree.mem_of_entry hchild
      obtain ⟨v, hrec, hv⟩ := recurses_goOn hat' (by omega) hin hl hmem
      have hcwd : v.cwd = d := hv
      have hin' := hin.within (.recurse .start hrec)
      have hl' : fs.lstat v.cwd n = some (d ++ [n], ⟨ino, .dir⟩) := by
        rw [hcwd]
        exact FileSystem.lstat_name hd.searchable (validName_of_mem hat' hmem) hat
      refine Or.inr ⟨fun e he => ?_, ?_⟩
      · obtain ⟨v', hrec', hv'⟩ := recurses_goOn hat (Nat.le_refl _) hin' hl' he
        have hcwd' : v'.cwd = d := hv'.trans hcwd
        rw [← hcwd']
        exact lstat_none_of_inPlace hat (validName_of_mem hat he)
          (hin' _ _ _ .start _ _ _ hrec')
      · -- the call comes back to `d`, where its `..` was looked up
        obtain ⟨v', hret, hv'⟩ := returns_goOn hat (Nat.le_refl _) hin' hl'
        have hcwd' : v'.cwd = d := hv'.trans hcwd
        have hback := (hin _ _ _ .start _ _ _ hrec).back _ _ hret
        have hs : fs.searchable v'.cwd = true := by
          rw [hcwd']
          exact hd.searchable
        rw [cwd_chdir_dotdot hs, hcwd', hcwd, up] at hback
        split at hback
        · refine Or.inl (List.eq_nil_of_length_eq_zero ?_)
          have hlen := congrArg List.length hback
          rw [List.length_dropLast] at hlen
          omega
        · rename_i habove
          exact Or.inr (by simpa using habove)

/-- **The walk looks at the right directory.**  For every file system, with any permissions, and
every start, all recursive calls are in place, whatever the callback does, exactly when every
directory that can be read can be entered or is harmless. -/
theorem lookups_iff (fs : FileSystem) (cwd : Loc) (path : Bytes) :
    (∀ (σ : Type) (func : Handler σ) (user : σ) (fuel : Nat),
        AlwaysInPlace fs func fuel path ⟨cwd, ⟨user, []⟩⟩) ↔ Permitted fs cwd path :=
  ⟨fun h => permitted_of_alwaysInPlace (h Unit goOn ()),
    fun h _ func _ fuel => alwaysInPlace_of_permitted h func fuel rfl⟩

/-- A directory `a` that can be read but not entered, with a file `f` in it, and another file
`f` beside `a`. -/
def lockedTree : FileTree :=
  .dir 1 true true
    [([97], .dir 2 true false [([102], .file 3 .reg)]), ([102], .file 4 .reg)]

theorem lockedTree_namesOk : lockedTree.Everywhere FileTree.NamesOk := by
  have ha : ValidName [97] := validName_singleton (by decide) (by decide) (by decide)
  have hf : ValidName [102] := validName_singleton (by decide) (by decide) (by decide)
  refine .dir ⟨by decide, by simp [ha, hf]⟩ ?_
  simp only [List.mem_cons, List.not_mem_nil, or_false, forall_eq_or_imp, forall_eq]
  refine ⟨.dir ⟨by decide, by simp [hf]⟩ ?_, .file trivial⟩
  simp only [List.mem_cons, List.not_mem_nil, or_false, forall_eq]
  exact .file trivial

def locked : FileSystem := ⟨lockedTree, rfl, lockedTree_namesOk⟩

/-- **The wrong file**: for `a/f` the walk from the root looks at `f`. -/
theorem lookups_wrong : ¬ ∀ (fs : FileSystem) (cwd : Loc) (path : Bytes) (σ : Type)
    (func : Handler σ) (user : σ) (fuel : Nat),
    AlwaysInPlace fs func fuel path ⟨cwd, ⟨user, []⟩⟩ := by
  intro h
  have hperm : Permitted locked [] [slash] :=
    permitted_of_alwaysInPlace fun fuel => h locked [] [slash] Unit goOn () fuel
  have hroot : Entered locked [] [slash] [] :=
    .start (by decide : locked.resolve [] true [slash] = some []) rfl
  rcases hperm.below [] [97] 2 false [([102], .file 3 .reg)] hroot rfl with htrue | ⟨hnone, -⟩
  · exact absurd htrue (by decide)
  · exact absurd (hnone _ (List.mem_singleton_self _)) (by decide)

end OsLabs.Catalog
