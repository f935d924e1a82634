/-
# The two walks agree

Where every directory of the tree can be opened and entered, and the paths are short enough, both
walks visit the nodes in preorder, until the callback returns something other than 0
(`dopath_preorder`, `mydopath_preorder`): `dopath` because the buffer holds the path of the
directory being read, with its slash, whenever an entry is read; `mydopath` because the current
directory is the directory being read.  So they agree, with any callback that does not look at
the path that it is given (`walkers_agree`).
-/
import OsLabs.Catalog.Model
import OsLabs.Lib.Preorder

namespace OsLabs.Catalog

open OsLabs
open OsLabs.FileTree (slash dot NAME_MAX NamesOk Accessible ValidName preorder preorderEntries
  heightEntries)
open OsLabs.FileSystem (PATH_MAX)

variable {σ W : Type} {func : Handler σ} {fs : FileSystem} {cwd loc : Loc} {t u : FileTree}
  {n : Name} {path : Bytes} {fuel : Nat} {es : List (Name × FileTree)}

/-! ## 1. Calls in preorder -/

/-- The callback does not look at the path or name that it is given. -/
def NameBlind (func : Handler σ) : Prop :=
  ∀ p q statptr type s, func p statptr type s = func q statptr type s

/-- The type that a node is visited with. -/
def ftwOf (t : FileTree) : FTW := if t.isDir then .D else .F

/-- The call for a node. -/
def visit (func : Handler σ) (p : Loc × FileTree) (seen : Seen σ) : Int × Seen σ :=
  call func [] (some (p.1, p.2.stat)) (ftwOf p.2) seen

theorem call_eq_visit (hfunc : NameBlind func) (pathname : Bytes) (p : Loc × FileTree)
    (seen : Seen σ) :
    call func pathname (some (p.1, p.2.stat)) (ftwOf p.2) seen = visit func p seen := by
  unfold visit call
  rw [hfunc pathname []]

theorem mode_eq_dir (t : FileTree) : t.stat.mode = .dir ↔ t.isDir = true := by
  cases t with
  | file ino kind => cases kind <;> simp [FileTree.stat, FileTree.isDir, Kind.mode]
  | link ino target => simp [FileTree.stat, FileTree.isDir]
  | dir ino r x es => simp [FileTree.stat, FileTree.isDir]

/-- The loop skips `.` and `..`. -/
theorem eachEntry_dots (step : Name → W → Except Stop (Int × W)) (names : List Name) (w : W) :
    eachEntry step ([dot] :: [dot, dot] :: names) w = eachEntry step names w := by
  rw [eachEntry, if_pos (Or.inl rfl), eachEntry, if_pos (Or.inr rfl)]

/-- **The loop over a directory.**  If the walk of each entry visits the entry's nodes in
preorder and keeps `inv`, the loop visits those of all entries and keeps `inv`. -/
theorem eachEntry_preorder {step : Name → W → Except Stop (Int × W)} (inv : W → Prop)
    (seen : W → Seen σ) (hnames : ∀ e ∈ es, ValidName e.1)
    (hstep : ∀ e ∈ es, ∀ w, inv w → ∃ w', step e.1 w =
      .ok ((upTo (visit func) (preorder (loc ++ [e.1]) e.2) (seen w)).1, w') ∧ inv w' ∧
      seen w' = (upTo (visit func) (preorder (loc ++ [e.1]) e.2) (seen w)).2) :
    ∀ w, inv w → ∃ w', eachEntry step (es.map Prod.fst) w =
      .ok ((upTo (visit func) (preorderEntries loc es) (seen w)).1, w') ∧ inv w' ∧
      seen w' = (upTo (visit func) (preorderEntries loc es) (seen w)).2 := by
  induction es with
  | nil =>
    intro w hw
    exact ⟨w, rfl, hw, rfl⟩
  | cons e es ih =>
    intro w hw
    obtain ⟨w', hok, hinv, hseen⟩ := hstep e (by simp) w hw
    have hvalid := hnames e (by simp)
    rw [List.map_cons, eachEntry, if_neg (not_or.mpr ⟨hvalid.ne_dot, hvalid.ne_dotdot⟩), hok]
    simp only [preorderEntries, upTo_append, bind, Except.bind]
    by_cases hret : (upTo (visit func) (preorder (loc ++ [e.1]) e.2) (seen w)).1 = 0
    · simp only [hret, ne_eq, not_true_eq_false, if_false, ← hseen]
      exact ih (fun e he => hnames e (List.mem_cons_of_mem _ he))
        (fun e he => hstep e (List.mem_cons_of_mem _ he)) w' hinv
    · simp only [hret, ne_eq, not_false_eq_true, if_true]
      exact ⟨w', rfl, hinv, hseen⟩

/-- A node and then the rest. -/
theorem upTo_dir {ino : Nat} {r x : Bool} (seen : Seen σ) :
    upTo (visit func) (preorder loc (.dir ino r x es)) seen =
      if (visit func (loc, .dir ino r x es) seen).1 ≠ 0 then
        visit func (loc, .dir ino r x es) seen
      else upTo (visit func) (preorderEntries loc es)
        (visit func (loc, .dir ino r x es) seen).2 := rfl

theorem upTo_not_dir (ht : t.isDir = false) (seen : Seen σ) :
    upTo (visit func) (preorder loc t) seen = visit func (loc, t) seen := by
  have hone : preorder loc t = [(loc, t)] := by
    cases t with
    | dir ino r x es => simp [FileTree.isDir] at ht
    | file ino kind => rfl
    | link ino target => rfl
  rw [hone, upTo, upTo]
  split
  · rfl
  · rename_i hret
    rw [ne_eq, not_not] at hret
    rw [← hret]

/-! ## 2. The walk with full paths -/

/-- What a path becomes on the way down to a node. -/
def below (path : Bytes) (rel : Loc) : Bytes := path ++ rel.flatMap (slash :: ·)

/-- The paths of the nodes of `t`, when `path` is its own, are short enough, and those of the
directories still are with a slash. -/
def ShortPaths (path : Bytes) (t : FileTree) : Prop :=
  ∀ rel u, t.at? rel = some u →
    (below path rel).length + (if u.isDir then 1 else 0) < PATH_MAX

theorem ShortPaths.self (h : ShortPaths path t) :
    path.length + (if t.isDir then 1 else 0) < PATH_MAX := by
  have h' := h [] t rfl
  simpa [below] using h'

theorem ShortPaths.child (h : ShortPaths path t) (hc : t.child n = some u) :
    ShortPaths (path ++ slash :: n) u := by
  intro rel v hv
  have hat : t.at? (n :: rel) = some v := by
    rw [FileTree.at?, hc]
    exact hv
  have h' := h (n :: rel) v hat
  simpa [below, List.append_assoc] using h'

/-- It is enough to look at the nodes one by one. -/
theorem shortPaths_of_preorder (hok : t.Everywhere NamesOk)
    (h : ∀ p ∈ preorder [] t,
      (below path p.1).length + (if p.2.isDir then 1 else 0) < PATH_MAX) :
    ShortPaths path t := fun rel u hu =>
  h (rel, u) ((FileTree.mem_preorder t [] hok).mpr ⟨rel, rfl, hu⟩)

/-- The string fits, and the buffer is not smaller than the check in `dopath` expects. -/
structure Roomy (p : FullPath) : Prop where
  str_lt : p.str.length < p.pathlen
  le_pathlen : NAME_MAX + 2 ≤ p.pathlen

variable {p p' : FullPath}

/-- **Doubling once is enough** for the slash and a name. -/
theorem grow_addSlash (h : Roomy p) : ∃ p', p.grow.addSlash = .ok p' ∧
    p'.str = p.str ++ [slash] ∧ p.pathlen ≤ p'.pathlen ∧
    p.str.length + NAME_MAX + 2 ≤ p'.pathlen := by
  obtain ⟨hlt, hle⟩ := h
  have hgrow : p.grow.str = p.str ∧ p.pathlen ≤ p.grow.pathlen ∧
      p.str.length + NAME_MAX + 2 ≤ p.grow.pathlen := by
    unfold FullPath.grow
    split
    · refine ⟨rfl, ?_, ?_⟩ <;> simp only <;> omega
    · exact ⟨rfl, by omega, by omega⟩
  refine ⟨{ p.grow with str := p.str ++ [slash] }, ?_, rfl, hgrow.2⟩
  rw [FullPath.addSlash, hgrow.1, if_pos (by omega)]

theorem strcpy_eq {m : Nat} {src : Bytes} (h : m + src.length < p.pathlen) :
    p.strcpy m src = .ok { p with str := p.str.take m ++ src } := if_pos h

theorem cut_eq {m : Nat} (h : m < p.pathlen) :
    p.cut m = .ok { p with str := p.str.take m } := if_pos h

/-- Between two entries the buffer holds the path of the directory being read, with its slash
and perhaps something behind it, and has room for any name. -/
structure Reading (dirpath : Bytes) (pathlen : Nat) (p : FullPath) : Prop where
  roomy : Roomy p
  str_eq : p.str.take dirpath.length = dirpath
  room : dirpath.length + NAME_MAX < p.pathlen
  pathlen_le : pathlen ≤ p.pathlen

/-- The name of an entry behind the path of the directory. -/
theorem Reading.strcpy {dirpath : Bytes} {pathlen : Nat} (h : Reading dirpath pathlen p)
    (hn : ValidName n) : ∃ p', p.strcpy dirpath.length n = .ok p' ∧ p'.str = dirpath ++ n ∧
      p'.pathlen = p.pathlen ∧ Roomy p' := by
  have hlen := hn.length_le
  have hroom := h.room
  refine ⟨_, strcpy_eq (by omega), ?_, rfl, ?_, h.roomy.le_pathlen⟩
  · simp only [h.str_eq]
  · simp only [h.str_eq, List.length_append]
    omega

theorem dopath_file {w : Walk σ} (hfunc : NameBlind func)
    (hat : fs.root.at? loc = some t) (ht : t.isDir = false)
    (hres : fs.resolve cwd true w.path.str = some loc) :
    dopath fs cwd func (fuel + 1) w = .ok ((upTo (visit func) (preorder loc t) w.seen).1,
      { w with seen := (upTo (visit func) (preorder loc t) w.seen).2 }) := by
  have hmode : t.stat.mode ≠ .dir := fun hdir => by simp [(mode_eq_dir t).mp hdir] at ht
  have hF : ftwOf t = .F := by simp [ftwOf, ht]
  rw [dopath, FileSystem.lstat_eq_some hres hat]
  simp only [if_pos hmode, Walk.call]
  rw [upTo_not_dir ht, ← call_eq_visit hfunc w.path.str (loc, t), hF]

theorem dopath_dir {ino : Nat} {x : Bool} {w : Walk σ} (hfunc : NameBlind func)
    (hat : fs.root.at? loc = some (.dir ino true x es))
    (hres : fs.resolve cwd true w.path.str = some loc)
    (hlen : w.path.str.length + 1 < PATH_MAX) (hroomy : Roomy w.path)
    (hnames : ∀ e ∈ es, ValidName e.1)
    (hstep : ∀ e ∈ es, ∀ w' : Walk σ, w'.path.str = w.path.str ++ slash :: e.1 →
      Roomy w'.path → ∃ w'', dopath fs cwd func fuel w' =
          .ok ((upTo (visit func) (preorder (loc ++ [e.1]) e.2) w'.seen).1, w'') ∧
        w''.seen = (upTo (visit func) (preorder (loc ++ [e.1]) e.2) w'.seen).2 ∧
        w''.path.str = w'.path.str ∧ Roomy w''.path ∧ w'.path.pathlen ≤ w''.path.pathlen) :
    ∃ w', dopath fs cwd func (fuel + 1) w =
        .ok ((upTo (visit func) (preorder loc (.dir ino true x es)) w.seen).1, w') ∧
      w'.seen = (upTo (visit func) (preorder loc (.dir ino true x es)) w.seen).2 ∧
      w'.path.str = w.path.str ∧ Roomy w'.path ∧ w.path.pathlen ≤ w'.path.pathlen := by
  have hD : w.call func (some (loc, ⟨ino, .dir⟩)) .D =
      ((visit func (loc, .dir ino true x es) w.seen).1,
        { w with seen := (visit func (loc, .dir ino true x es) w.seen).2 }) := by
    rw [← call_eq_visit hfunc w.path.str]
    rfl
  have hdir : fs.isDir loc = true := FileSystem.isDir_of_at? hat rfl
  rw [dopath, FileSystem.lstat_eq_some hres hat, upTo_dir]
  simp only [FileTree.stat, ne_eq, not_true_eq_false, if_false, hD]
  by_cases hret : (visit func (loc, .dir ino true x es) w.seen).1 = 0
  · simp only [hret, not_true_eq_false, if_false]
    generalize (visit func (loc, .dir ino true x es) w.seen).2 = seen
    obtain ⟨p₁, hadd, hstr₁, hle₁, hroom₁⟩ := grow_addSlash hroomy
    have hopen : fs.opendir cwd p₁.str = some ([dot] :: [dot, dot] :: es.map Prod.fst) := by
      rw [hstr₁]
      exact FileSystem.opendir_eq (FileSystem.resolve_append_slash hres hdir hlen) hat
    have hlen₁ : p₁.str.length = w.path.str.length + 1 := by simp [hstr₁]
    have hread : Reading p₁.str w.path.pathlen p₁ := by
      have hle := hroomy.le_pathlen
      exact ⟨⟨by omega, by omega⟩, List.take_length, by omega, hle₁⟩
    have hentry : ∀ e ∈ es, ∀ w' : Walk σ, Reading p₁.str w.path.pathlen w'.path →
        ∃ w'', enter (dopath fs cwd func fuel) p₁.str.length e.1 w' =
            .ok ((upTo (visit func) (preorder (loc ++ [e.1]) e.2) w'.seen).1, w'') ∧
          Reading p₁.str w.path.pathlen w''.path ∧
          w''.seen = (upTo (visit func) (preorder (loc ++ [e.1]) e.2) w'.seen).2 := by
      intro e he w' hw'
      obtain ⟨p₂, hcpy, hstr₂, hlen₂, hroomy₂⟩ := hw'.strcpy (hnames e he)
      obtain ⟨w'', hok, hseen, hstr, hroomy'', hle⟩ := hstep e he { w' with path := p₂ }
        (by simp [hstr₂, hstr₁]) hroomy₂
      have hroom := hw'.room
      have hpathlen := hw'.pathlen_le
      simp only at hstr hle
      refine ⟨w'', by rw [enter, hcpy]; exact hok, ⟨hroomy'', ?_, by omega, by omega⟩, hseen⟩
      rw [hstr, hstr₂, List.take_left]
    obtain ⟨w', hok, hw', hseen⟩ := eachEntry_preorder
      (fun w' : Walk σ => Reading p₁.str w.path.pathlen w'.path) Walk.seen hnames hentry
      ⟨p₁, seen⟩ hread
    have hroom := hw'.room
    have htake : w'.path.str.take w.path.str.length = w.path.str := by
      have htake' := congrArg (List.take w.path.str.length) hw'.str_eq
      rw [List.take_take, hstr₁] at htake'
      simpa using htake'
    refine ⟨{ w' with path := { w'.path with str := w.path.str } }, ?_, hseen, rfl, ?_, ?_⟩
    · simp only [hadd, hopen, eachEntry_dots, hok, bind, Except.bind]
      rw [cut_eq (by omega), hlen₁, Nat.add_sub_cancel, htake]
    · exact ⟨by simp only; omega, hw'.roomy.le_pathlen⟩
    · exact hw'.pathlen_le
  · simp only [hret, not_false_eq_true, if_true]
    exact ⟨_, rfl, rfl, rfl, hroomy, Nat.le_refl _⟩

/-- **The walk with full paths** visits the nodes in preorder, and leaves the path in the buffer
as it was. -/
theorem dopath_preorder (hfunc : NameBlind func) (t : FileTree) :
    ∀ (loc : Loc) (fuel : Nat) (w : Walk σ), fs.root.at? loc = some t →
      fs.resolve cwd true w.path.str = some loc → t.height < fuel → t.Everywhere Accessible →
      t.Everywhere NamesOk → ShortPaths w.path.str t → Roomy w.path →
      ∃ w', dopath fs cwd func fuel w =
          .ok ((upTo (visit func) (preorder loc t) w.seen).1, w') ∧
        w'.seen = (upTo (visit func) (preorder loc t) w.seen).2 ∧
        w'.path.str = w.path.str ∧ Roomy w'.path ∧ w.path.pathlen ≤ w'.path.pathlen := by
  induction t using FileTree.induct with
  | file ino kind =>
    intro loc fuel w hat hres hfuel _ _ _ hroomy
    obtain ⟨fuel, rfl⟩ := Nat.exists_eq_add_of_lt hfuel
    exact ⟨_, dopath_file hfunc hat rfl hres, rfl, rfl, hroomy, Nat.le_refl _⟩
  | link ino target =>
    intro loc fuel w hat hres hfuel _ _ _ hroomy
    obtain ⟨fuel, rfl⟩ := Nat.exists_eq_add_of_lt hfuel
    exact ⟨_, dopath_file hfunc hat rfl hres, rfl, rfl, hroomy, Nat.le_refl _⟩
  | dir ino r x es ih =>
    intro loc fuel w hat hres hfuel hacc hok hshort hroomy
    obtain ⟨rfl, rfl⟩ := hacc.self
    obtain ⟨hnd, hnames⟩ := hok.self
    rw [FileTree.height] at hfuel
    obtain ⟨fuel, rfl⟩ : ∃ f, fuel = f + 1 := ⟨fuel - 1, by omega⟩
    refine dopath_dir hfunc hat hres (by simpa [FileTree.isDir] using hshort.self) hroomy hnames ?_
    intro e he w' hstr' hroomy'
    have hc : (FileTree.dir ino true true es).child e.1 = some e.2 := FileTree.entry_of_mem hnd he
    have hshort' := hshort.child hc
    have hheight := FileTree.height_le_heightEntries he
    refine ih e he (loc ++ [e.1]) fuel w' ((FileTree.at?_child hat e.1).trans hc) ?_ (by omega)
      (hacc.child hc) (hok.child hc) (hstr' ▸ hshort') hroomy'
    rw [hstr']
    refine FileSystem.resolve_append_name hres hat rfl (hnames e he) hc ?_
    have hlen := hshort'.self
    simp only [List.length_append, List.length_cons] at hlen
    omega

/-! ## 3. The walk with the current directory -/

theorem searchable_of_accessible (hacc : t.Everywhere Accessible)
    (hat : fs.root.at? loc = some t) (ht : t.isDir = true) : fs.searchable loc = true := by
  have hself := hacc.self
  rw [FileSystem.searchable, hat]
  cases t with
  | dir ino r x es => exact hself.2
  | _ => simp [FileTree.isDir] at ht

/-- Where `chdir("..")` leads from a directory: one up, if the directory there can be entered. -/
def up (fs : FileSystem) (loc : Loc) : Loc :=
  if fs.searchable loc.dropLast = true then loc.dropLast else loc

theorem up_entry (hs : fs.searchable loc = true) (n : Name) : up fs (loc ++ [n]) = loc := by
  rw [up, List.dropLast_concat, if_pos hs]

/-- `chdir("..")` in a directory that can be entered. -/
theorem cwd_chdir_dotdot {w : DirWalk σ} (hs : fs.searchable w.cwd = true) :
    (w.chdir fs [dot, dot]).cwd = up fs w.cwd := by
  have hcwd : (w.chdir fs [dot, dot]).cwd = (fs.chdir w.cwd [dot, dot]).getD w.cwd := rfl
  have hres : fs.resolve w.cwd false [dot, dot] = some w.cwd.dropLast :=
    FileSystem.resolve_dotdot hs
  rw [hcwd, up]
  split
  · rename_i h
    rw [FileSystem.chdir_eq hres h]
    rfl
  · rename_i h
    rw [FileSystem.chdir_eq_none hres (by simpa using h)]
    rfl

theorem mydopath_file {filename : Bytes} {w : DirWalk σ} (hfunc : NameBlind func)
    (hat : fs.root.at? loc = some t) (ht : t.isDir = false)
    (hres : fs.resolve w.cwd true filename = some loc) :
    mydopath fs func (fuel + 1) filename w =
      .ok ((upTo (visit func) (preorder loc t) w.seen).1,
        { w with seen := (upTo (visit func) (preorder loc t) w.seen).2 }) := by
  have hmode : t.stat.mode ≠ .dir := fun hdir => by simp [(mode_eq_dir t).mp hdir] at ht
  have hF : ftwOf t = .F := by simp [ftwOf, ht]
  rw [mydopath, FileSystem.lstat_eq_some hres hat]
  simp only [if_pos hmode, DirWalk.call]
  rw [upTo_not_dir ht, ← call_eq_visit hfunc filename (loc, t), hF]

theorem mydopath_dir {ino : Nat} {x : Bool} {filename : Bytes} {w : DirWalk σ}
    (hfunc : NameBlind func) (hat : fs.root.at? loc = some (.dir ino true x es))
    (hs : fs.searchable loc = true) (hres : fs.resolve w.cwd true filename = some loc)
    (hnames : ∀ e ∈ es, ValidName e.1)
    (hstep : ∀ e ∈ es, ∀ w' : DirWalk σ, w'.cwd = loc →
      ∃ w'', mydopath fs func fuel e.1 w' =
          .ok ((upTo (visit func) (preorder (loc ++ [e.1]) e.2) w'.seen).1, w'') ∧
        w''.cwd = loc ∧
        w''.seen = (upTo (visit func) (preorder (loc ++ [e.1]) e.2) w'.seen).2) :
    ∃ w', mydopath fs func (fuel + 1) filename w =
        .ok ((upTo (visit func) (preorder loc (.dir ino true x es)) w.seen).1, w') ∧
      w'.seen = (upTo (visit func) (preorder loc (.dir ino true x es)) w.seen).2 ∧
      w'.cwd = if (visit func (loc, .dir ino true x es) w.seen).1 = 0 then up fs loc
        else w.cwd := by
  have hD : w.call func filename (some (loc, ⟨ino, .dir⟩)) .D =
      ((visit func (loc, .dir ino true x es) w.seen).1,
        { w with seen := (visit func (loc, .dir ino true x es) w.seen).2 }) := by
    rw [← call_eq_visit hfunc filename]
    rfl
  have hdir : fs.isDir loc = true := FileSystem.isDir_of_at? hat rfl
  rw [mydopath, FileSystem.lstat_eq_some hres hat, upTo_dir]
  simp only [FileTree.stat, ne_eq, not_true_eq_false, if_false, hD]
  by_cases hret : (visit func (loc, .dir ino true x es) w.seen).1 = 0
  · simp only [hret, not_true_eq_false, if_false, if_true]
    generalize (visit func (loc, .dir ino true x es) w.seen).2 = seen
    have hfollow := FileSystem.resolve_follow hres hdir
    have hchdir : DirWalk.chdir fs filename ⟨w.cwd, seen⟩ = ⟨loc, seen⟩ := by
      simp [DirWalk.chdir, FileSystem.chdir_eq hfollow hs]
    obtain ⟨w', hok, hcwd, hseen⟩ := eachEntry_preorder (fun w' : DirWalk σ => w'.cwd = loc)
      DirWalk.seen hnames hstep ⟨loc, seen⟩ rfl
    have hback : (w'.chdir fs [dot, dot]).cwd = up fs loc := by
      rw [cwd_chdir_dotdot (hcwd.symm ▸ hs), hcwd]
    refine ⟨w'.chdir fs [dot, dot], ?_, hseen, hback⟩
    simp only [FileSystem.opendir_eq hfollow hat, hchdir, eachEntry_dots, hok, bind, Except.bind]
  · simp only [hret, not_false_eq_true, if_true, if_false]
    exact ⟨_, rfl, rfl, rfl⟩

/-- **The walk with the current directory** visits the nodes in preorder.  Once it has entered a
directory it comes back to the directory above that one, if that one can be entered. -/
theorem mydopath_preorder (hfunc : NameBlind func) (t : FileTree) :
    ∀ (loc : Loc) (fuel : Nat) (filename : Bytes) (w : DirWalk σ), t.Everywhere Accessible →
      fs.root.at? loc = some t → fs.resolve w.cwd true filename = some loc → t.height < fuel →
      ∃ w', mydopath fs func fuel filename w =
          .ok ((upTo (visit func) (preorder loc t) w.seen).1, w') ∧
        w'.seen = (upTo (visit func) (preorder loc t) w.seen).2 ∧
        w'.cwd = if t.isDir = true ∧ (visit func (loc, t) w.seen).1 = 0 then up fs loc
          else w.cwd := by
  induction t using FileTree.induct with
  | file ino kind =>
    intro loc fuel filename w _ hat hres hfuel
    obtain ⟨fuel, rfl⟩ := Nat.exists_eq_add_of_lt hfuel
    exact ⟨_, mydopath_file hfunc hat rfl hres, rfl, by simp [FileTree.isDir]⟩
  | link ino target =>
    intro loc fuel filename w _ hat hres hfuel
    obtain ⟨fuel, rfl⟩ := Nat.exists_eq_add_of_lt hfuel
    exact ⟨_, mydopath_file hfunc hat rfl hres, rfl, by simp [FileTree.isDir]⟩
  | dir ino r x es ih =>
    intro loc fuel filename w hacc hat hres hfuel
    obtain ⟨rfl, rfl⟩ := hacc.self
    obtain ⟨hnd, hnames⟩ := (fs.namesOk.at? hat).self
    rw [FileTree.height] at hfuel
    obtain ⟨fuel, rfl⟩ : ∃ f, fuel = f + 1 := ⟨fuel - 1, by omega⟩
    have hs := searchable_of_accessible hacc hat rfl
    simp only [FileTree.isDir, true_and]
    refine mydopath_dir hfunc hat hs hres hnames ?_
    intro e he w' hcwd
    have hc : (FileTree.dir ino true true es).child e.1 = some e.2 :=
      FileTree.entry_of_mem hnd he
    have hheight := FileTree.height_le_heightEntries he
    have hres' : fs.resolve w'.cwd true e.1 = some (loc ++ [e.1]) := by
      rw [hcwd]
      exact FileSystem.resolve_name hat rfl (hnames e he) hc (Or.inl rfl)
    obtain ⟨w'', hok, hseen, hcwd'⟩ := ih e he (loc ++ [e.1]) fuel e.1 w'
      (hacc.child hc) ((FileTree.at?_child hat e.1).trans hc) hres' (by omega)
    -- whether the entry was entered or not, the walk is back in the directory
    refine ⟨w'', hok, ?_, hseen⟩
    rw [hcwd']
    split
    · exact up_entry hs e.1
    · exact hcwd

/-! ## 4. Every node once -/

/-- The visits are those of the nodes of `t`, which is at `loc`: each node once, as what it is
itself, and no node after one that is below it. -/
structure Exhaustive (loc : Loc) (t : FileTree) (visits : List Visit) : Prop where
  mem_iff : ∀ v, v ∈ visits ↔
    ∃ rel u, t.at? rel = some u ∧ v = ⟨some (loc ++ rel, u.stat), ftwOf u⟩
  once : (visits.map fun v => v.node.map Prod.fst).Nodup
  before : visits.Pairwise fun v v' => ∀ p p', v.node = some p → v'.node = some p' →
    ¬ p'.1 <+: p.1

/-- What is logged for a node. -/
def visitOf (p : Loc × FileTree) : Visit := ⟨some (p.1, p.2.stat), ftwOf p.2⟩

theorem visits_upTo (ps : List (Loc × FileTree)) (seen : Seen σ)
    (h : (upTo (visit func) ps seen).1 = 0) :
    (upTo (visit func) ps seen).2.visits = seen.visits ++ ps.map visitOf := by
  induction ps generalizing seen with
  | nil => simp [upTo]
  | cons p ps ih =>
    rw [upTo] at h ⊢
    split at h
    · rename_i hne
      exact absurd h hne
    · rename_i hzero
      rw [if_neg hzero, ih _ h]
      simp [visit, call, visitOf]

theorem exhaustive_preorder (hok : t.Everywhere NamesOk) (loc : Loc) :
    Exhaustive loc t ((preorder loc t).map visitOf) := by
  constructor
  · intro v
    constructor
    · intro hv
      obtain ⟨⟨l, u⟩, hp, rfl⟩ := List.mem_map.mp hv
      obtain ⟨rel, rfl, hu⟩ := (FileTree.mem_preorder t loc hok).mp hp
      exact ⟨rel, u, hu, rfl⟩
    · rintro ⟨rel, u, hu, rfl⟩
      exact List.mem_map.mpr ⟨(loc ++ rel, u), (FileTree.mem_preorder t loc hok).mpr
        ⟨rel, rfl, hu⟩, rfl⟩
  · have hnodup := (FileTree.nodup_preorder t loc hok).map (Option.some_injective Loc)
    simpa [List.map_map, Function.comp_def, visitOf] using hnodup
  · rw [List.pairwise_map]
    refine (FileTree.preorder_before t loc hok).imp fun hpq p p' hp hp' => ?_
    rw [visitOf, Option.some.injEq] at hp hp'
    subst hp hp'
    exact hpq

/-! ## 5. Both walks -/

/-- The buffer holds the path that it is given. -/
theorem myftw_eq {size : Nat} (hsize : NAME_MAX + 2 ≤ size) (seen : Seen σ) :
    ∃ pathlen, Roomy ⟨path, pathlen⟩ ∧ myftw fs cwd func size fuel path seen =
      dopath fs cwd func fuel ⟨⟨path, pathlen⟩, seen⟩ := by
  have hpathlen : path.length < (if size ≤ path.length then path.length * 2 else size) ∧
      NAME_MAX + 2 ≤ (if size ≤ path.length then path.length * 2 else size) := by
    split <;> omega
  refine ⟨if size ≤ path.length then path.length * 2 else size,
    ⟨hpathlen.1, hpathlen.2⟩, ?_⟩
  rw [myftw, strcpy_eq (by simpa using hpathlen.1)]
  rfl

theorem le_path_alloc (conf : SysConf) : NAME_MAX + 2 ≤ path_alloc conf := by
  unfold path_alloc
  split <;> decide

/-- A path that leads nowhere. -/
theorem walks_missing (hfunc : NameBlind func) (hnone : fs.lstat cwd path = none)
    (pathlen : Nat) (seen : Seen σ) :
    dopath fs cwd func (fuel + 1) ⟨⟨path, pathlen⟩, seen⟩ =
        .ok ((call func [] none .NS seen).1, ⟨⟨path, pathlen⟩, (call func [] none .NS seen).2⟩) ∧
      mydopath fs func (fuel + 1) path ⟨cwd, seen⟩ =
        .ok ((call func [] none .NS seen).1, ⟨cwd, (call func [] none .NS seen).2⟩) := by
  have hcall : call func path none .NS seen = call func [] none .NS seen := by
    unfold call
    rw [hfunc path []]
  constructor
  · rw [dopath, hnone]
    simp only [Walk.call, hcall]
  · rw [mydopath, hnone]
    simp only [DirWalk.call, hcall]

/-- **Both walks** visit the nodes of the tree that the path leads to in preorder.  Where it
leads nowhere, they make the same call. -/
theorem walks_eq (hfunc : NameBlind func)
    (hacc : ∀ loc t, fs.resolve cwd true path = some loc → fs.root.at? loc = some t →
      t.Everywhere Accessible)
    (hpaths : ∀ loc t, fs.resolve cwd true path = some loc → fs.root.at? loc = some t →
      ShortPaths path t) (hfuel : fs.root.height < fuel) (conf : SysConf) (seen : Seen σ) :
    ∃ r path' cwd', myftw fs cwd func (path_alloc conf) fuel path seen =
        .ok (r.1, ⟨path', r.2⟩) ∧
      my_myftw fs func fuel path ⟨cwd, seen⟩ = .ok (r.1, ⟨cwd', r.2⟩) ∧
      (∀ loc t, fs.resolve cwd true path = some loc → fs.root.at? loc = some t →
        r = upTo (visit func) (preorder loc t) seen) ∧
      ((∀ p statptr type s, (func p statptr type s).1 = 0) → r.1 = 0) := by
  obtain ⟨pathlen, hroomy, hmyftw⟩ := myftw_eq (le_path_alloc conf) seen
  rw [hmyftw, my_myftw]
  cases hl : fs.lstat cwd path with
  | none =>
    obtain ⟨fuel, rfl⟩ := Nat.exists_eq_add_of_lt hfuel
    obtain ⟨h₁, h₂⟩ := walks_missing hfunc hl pathlen seen
    refine ⟨_, _, _, h₁, h₂, fun loc t hres hat => ?_, fun hzero => hzero _ _ _ _⟩
    simp [FileSystem.lstat_eq_some hres hat] at hl
  | some node =>
    obtain ⟨hres, t, hat, -⟩ := FileSystem.lstat_cases hl
    have hheight := Nat.lt_of_le_of_lt (FileTree.height_at?_le hat) hfuel
    obtain ⟨w₁, h₁, hseen₁, -⟩ := dopath_preorder hfunc t node.1 fuel ⟨⟨path, pathlen⟩, seen⟩ hat
      hres hheight (hacc _ t hres hat) (fs.namesOk.at? hat) (hpaths _ t hres hat) hroomy
    obtain ⟨w₂, h₂, hseen₂, -⟩ := mydopath_preorder hfunc t node.1 fuel path ⟨cwd, seen⟩
      (hacc _ t hres hat) hat hres hheight
    refine ⟨upTo (visit func) (preorder node.1 t) seen, w₁.path, w₂.cwd, ?_, ?_, ?_, ?_⟩
    · rw [h₁, ← hseen₁]
    · rw [h₂, ← hseen₂]
    · intro loc u hres' hat'
      rw [hres, Option.some.injEq] at hres'
      rw [← hres', hat, Option.some.injEq] at hat'
      rw [← hres', ← hat']
    · intro hzero
      have hvisit : ∀ p s, (visit func p s).1 = 0 := fun p s => hzero _ _ _ _
      rw [upTo_of_zero hvisit]

/-! ## 6. The counters -/

/-- The counter of a file type. -/
def Counters.of (c : Counters) : Mode → Nat
  | .reg => c.nreg
  | .dir => c.ndir
  | .blk => c.nblk
  | .chr => c.nchr
  | .fifo => c.nfifo
  | .lnk => c.nslink
  | .sock => c.nsock

theorem tally_node (u : FileTree) (c : Counters) (mode : Mode) :
    (tally (some u.stat) (ftwOf u) c).1 = 0 ∧
      (tally (some u.stat) (ftwOf u) c).2.of mode =
        c.of mode + if u.stat.mode = mode then 1 else 0 := by
  cases u with
  | file ino kind => cases kind <;> cases mode <;> exact ⟨rfl, rfl⟩
  | link ino target => cases mode <;> exact ⟨rfl, rfl⟩
  | dir ino r x es => cases mode <;> exact ⟨rfl, rfl⟩

/-- **The counters** count the visits of each type. -/
theorem upTo_myfunc (ps : List (Loc × FileTree)) (seen : Seen Counters) (mode : Mode) :
    (upTo (visit myfunc) ps seen).1 = 0 ∧
      (upTo (visit myfunc) ps seen).2.user.of mode =
        seen.user.of mode + ps.countP fun p => p.2.stat.mode = mode := by
  induction ps generalizing seen with
  | nil => simp [upTo]
  | cons p ps ih =>
    obtain ⟨hzero, hof⟩ := tally_node p.2 seen.user mode
    obtain ⟨ihzero, ihof⟩ := ih (visit myfunc p seen).2
    have hret : (visit myfunc p seen).1 = 0 := hzero
    rw [upTo, if_neg (not_not.mpr hret)]
    refine ⟨ihzero, ihof.trans ?_⟩
    have hof' : (visit myfunc p seen).2.user.of mode =
        seen.user.of mode + if p.2.stat.mode = mode then 1 else 0 := hof
    rw [hof', List.countP_cons]
    simp only [decide_eq_true_eq]
    omega

theorem nameBlind_myfunc : NameBlind myfunc := fun _ _ _ _ _ => rfl

/-! ## 7. The walks agree -/

/-- **The walks agree, and visit everything.**  From any current directory and start path, where
the directories below the start can be read and entered, and with any callback that does not look
at the path it gets, `myftw` and `my_myftw` make the same calls and return the same value.  If
that is 0, as it is when the callback always returns 0, every node below the start was visited
once, and with `myfunc` and `counter` the counters of both are the numbers of nodes. -/
theorem walkers_agree (fs : FileSystem) (cwd : Loc) (path : Bytes)
    (hacc : ∀ loc t, fs.resolve cwd true path = some loc → fs.root.at? loc = some t →
      t.Everywhere Accessible)
    (hpaths : ∀ loc t, fs.resolve cwd true path = some loc → fs.root.at? loc = some t →
      ShortPaths path t)
    (conf : SysConf) (fuel : Nat) (hfuel : fs.root.height < fuel) :
    (∀ (σ : Type) (func : Handler σ), NameBlind func → ∀ user : σ,
      ∃ ret seen path' cwd',
        myftw fs cwd func (path_alloc conf) fuel path ⟨user, []⟩ = .ok (ret, ⟨path', seen⟩) ∧
        my_myftw fs func fuel path ⟨cwd, ⟨user, []⟩⟩ = .ok (ret, ⟨cwd', seen⟩) ∧
        ((∀ p statptr type s, (func p statptr type s).1 = 0) → ret = 0) ∧
        (ret = 0 → ∀ loc t, fs.resolve cwd true path = some loc → fs.root.at? loc = some t →
          Exhaustive loc t seen.visits)) ∧
    (∃ ret seen path' cwd',
      myftw fs cwd myfunc (path_alloc conf) fuel path ⟨.zero, []⟩ = .ok (ret, ⟨path', seen⟩) ∧
      my_myftw fs counter fuel path ⟨cwd, ⟨.zero, []⟩⟩ = .ok (ret, ⟨cwd', seen⟩) ∧
      ∀ loc t, fs.resolve cwd true path = some loc → fs.root.at? loc = some t → ∀ mode,
        seen.user.of mode = {rel | ∃ u, t.at? rel = some u ∧ u.stat.mode = mode}.ncard) := by
  constructor
  · intro σ func hfunc user
    obtain ⟨r, path', cwd', h₁, h₂, hr, hr'⟩ :=
      walks_eq hfunc hacc hpaths hfuel conf ⟨user, []⟩
    refine ⟨r.1, r.2, path', cwd', h₁, h₂, hr', fun hzero loc t hres hat => ?_⟩
    rw [hr loc t hres hat] at hzero ⊢
    rw [visits_upTo _ _ hzero, List.nil_append]
    exact exhaustive_preorder (fs.namesOk.at? hat) loc
  · obtain ⟨r, path', cwd', h₁, h₂, hr, -⟩ :=
      walks_eq nameBlind_myfunc hacc hpaths hfuel conf ⟨.zero, []⟩
    refine ⟨r.1, r.2, path', cwd', h₁, h₂, fun loc t hres hat mode => ?_⟩
    rw [hr loc t hres hat, (upTo_myfunc _ _ mode).2,
      FileTree.ncard_eq_countP t loc (fs.namesOk.at? hat) mode]
    cases mode <;> exact Nat.zero_add _

/-- A directory `a` with a file `f` in it, and a link to `a`. -/
def sampleTree : FileTree :=
  .dir 1 true true
    [([97], .dir 2 true true [([102], .file 3 .reg)]), ([108], .link 4 [97])]

theorem validName_singleton {c : UInt8} (hslash : c ≠ slash) (hnul : c ≠ 0) (hdot : c ≠ dot) :
    ValidName [c] where
  ne_nil := by simp
  no_slash := by simpa using hslash.symm
  no_nul := by simpa using hnul.symm
  ne_dot := by simpa using hdot
  ne_dotdot := by simp
  length_le := by
    rw [List.length_singleton]
    decide

theorem sampleTree_namesOk : sampleTree.Everywhere NamesOk := by
  have ha : ValidName [97] := validName_singleton (by decide) (by decide) (by decide)
  have hf : ValidName [102] := validName_singleton (by decide) (by decide) (by decide)
  have hl : ValidName [108] := validName_singleton (by decide) (by decide) (by decide)
  refine .dir ⟨by decide, by simp [ha, hl]⟩ ?_
  simp only [List.mem_cons, List.not_mem_nil, or_false, forall_eq_or_imp, forall_eq]
  refine ⟨.dir ⟨by decide, by simp [hf]⟩ ?_, .link trivial⟩
  simp only [List.mem_cons, List.not_mem_nil, or_false, forall_eq]
  exact .file trivial

def sample : FileSystem := ⟨sampleTree, rfl, sampleTree_namesOk⟩

theorem sampleTree_accessible : sampleTree.Everywhere Accessible := by
  refine .dir ⟨rfl, rfl⟩ ?_
  simp only [List.mem_cons, List.not_mem_nil, or_false, forall_eq_or_imp, forall_eq]
  refine ⟨.dir ⟨rfl, rfl⟩ ?_, .link trivial⟩
  simp only [List.mem_cons, List.not_mem_nil, or_false, forall_eq]
  exact .file trivial

/-- The walks of the sample from its root, stopped at the link. -/
theorem walkers_agree_sample : ∃ ret seen path' cwd',
    myftw sample [] (fun _ st _ s => (if st.map Stat.mode = some .lnk then 7 else 0, s))
      (path_alloc ⟨200809, 700⟩) 3 [slash] ⟨(), []⟩ = .ok (ret, ⟨path', seen⟩) ∧
    my_myftw sample (fun _ st _ s => (if st.map Stat.mode = some .lnk then 7 else 0, s))
      3 [slash] ⟨[], ⟨(), []⟩⟩ = .ok (ret, ⟨cwd', seen⟩) := by
  have hroot : ∀ loc t, sample.resolve [] true [slash] = some loc →
      sample.root.at? loc = some t → t = sampleTree := by
    intro loc t hres hat
    have hloc : sample.resolve [] true [slash] = some [] := by decide
    rw [hloc, Option.some.injEq] at hres
    subst hres
    rw [FileTree.at?, Option.some.injEq] at hat
    exact hat.symm
  obtain ⟨hagree, -⟩ := walkers_agree sample [] [slash]
    (fun loc t hres hat => hroot loc t hres hat ▸ sampleTree_accessible)
    (fun loc t hres hat => hroot loc t hres hat ▸
      shortPaths_of_preorder sampleTree_namesOk (by decide))
    ⟨200809, 700⟩ 3 (by decide)
  obtain ⟨ret, seen, path', cwd', h₁, h₂, -⟩ := hagree Unit
    (fun _ st _ s => (if st.map Stat.mode = some .lnk then 7 else 0, s))
    (fun _ _ _ _ _ => rfl) ()
  exact ⟨ret, seen, path', cwd', h₁, h₂⟩

end OsLabs.Catalog
