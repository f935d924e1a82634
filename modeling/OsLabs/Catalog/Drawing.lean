/-
# The tree that is drawn

`mydopath` draws the tree while it walks: a bar for each level, and a line for each file, to which
`counter` puts the name.  In the walk without the drawing nothing changes (`draws_walks`).  Where
every directory can be opened and entered, the drawing holds the whole tree: the names and the
directories, in their order, can be read back from it, if no name has a newline in it
(`drawing_reads_back`).

What `perror` prints is not on the screen but on the error stream, and left out.
-/
import OsLabs.Catalog.Walks
import OsLabs.Lib.Outline

namespace OsLabs.Catalog

open OsLabs
open OsLabs.FileTree (slash dot Accessible ValidName)

/-! ## 1. The walk, with what it prints -/

def newline : UInt8 := 10

/-- `"|\t"` -/
def bar : Bytes := [124, 9]

/-- `"--"` -/
def dashes : Bytes := [45, 45]

def space : UInt8 := 32

/-- The counters `my_nreg`, ..., and what has been printed. -/
structure Screen where
  counters : Counters
  out : Bytes

/-- What `counter` prints of a file, behind the bars and without the newline. -/
def fileLine (pathname : Bytes) : Bytes := dashes ++ space :: pathname

/-- And of a directory. -/
def dirLine (pathname : Bytes) : Bytes := dashes ++ (pathname ++ [slash])

/-- `counter`, with what it prints. -/
def counterOut : Handler Screen := fun pathname statptr type s =>
  let r := counter pathname statptr type s.counters
  let line :=
    match type with
    | .F => fileLine pathname ++ [newline]
    | .D => dirLine pathname ++ [newline]
    | .DNR | .NS => []
  (r.1, ⟨r.2, s.out ++ line⟩)

/-- `for (int i = 0; i < depth; ++i) printf("|\t");` -/
def DirWalk.indent (depth : Nat) (w : DirWalk Screen) : DirWalk Screen :=
  { w with seen := { w.seen with user :=
    { w.seen.user with out := w.seen.user.out ++ (List.replicate depth bar).flatten } } }

/-- `mydopath` with `counter`. -/
def mydopathOut (fs : FileSystem) :
    Nat → Bytes → Nat → DirWalk Screen → Except Stop (Int × DirWalk Screen)
  | 0, _, _, _ => .error .fuel
  | fuel + 1, filename, depth, w =>
    match fs.lstat w.cwd filename with
    | none => .ok (w.call counterOut filename none .NS)
    | some node =>
      let w := w.indent depth
      if node.2.mode ≠ .dir then .ok (w.call counterOut filename (some node) .F)
      else
        let r := w.call counterOut filename (some node) .D
        if r.1 ≠ 0 then .ok r
        else
          match fs.opendir w.cwd filename with
          | none => .ok (r.2.call counterOut filename (some node) .DNR)
          | some names => do
            let r ← eachEntry (fun d_name => mydopathOut fs fuel d_name (depth + 1)) names
              (r.2.chdir fs filename)
            .ok (r.1, r.2.chdir fs [dot, dot])

def my_myftwOut (fs : FileSystem) (fuel : Nat) (filename : Bytes) (w : DirWalk Screen) :
    Except Stop (Int × DirWalk Screen) :=
  mydopathOut fs fuel filename 0 w

/-! ## 2. Without the drawing -/

/-- The walk, without what it has printed. -/
def DirWalk.undrawn (w : DirWalk Screen) : DirWalk Counters :=
  ⟨w.cwd, ⟨w.seen.user.counters, w.seen.visits⟩⟩

/-- The result of a walk, without what it has printed. -/
def undrawn (r : Except Stop (Int × DirWalk Screen)) : Except Stop (Int × DirWalk Counters) :=
  r.map fun r => (r.1, r.2.undrawn)

variable {fs : FileSystem} {cwd loc : Loc} {t : FileTree} {path filename : Bytes}
  {fuel depth : Nat}

theorem undrawn_chdir (fs : FileSystem) (path : Bytes) (w : DirWalk Screen) :
    (w.chdir fs path).undrawn = w.undrawn.chdir fs path := rfl

theorem undrawn_eachEntry {step : Name → DirWalk Screen → Except Stop (Int × DirWalk Screen)}
    {step' : Name → DirWalk Counters → Except Stop (Int × DirWalk Counters)}
    (h : ∀ n w, undrawn (step n w) = step' n w.undrawn) (names : List Name) (w : DirWalk Screen) :
    undrawn (eachEntry step names w) = eachEntry step' names w.undrawn := by
  induction names generalizing w with
  | nil => rfl
  | cons n names ih =>
    rw [eachEntry, eachEntry]
    split
    · exact ih w
    · rw [← h n w]
      cases step n w with
      | error e => rfl
      | ok r =>
        by_cases hret : r.1 ≠ 0
        · simp only [undrawn, Except.map, bind, Except.bind, if_pos hret]
        · simp only [undrawn, Except.map, bind, Except.bind, if_neg hret]
          exact ih r.2

/-- **The drawing changes nothing**: without it, the walk is that of `mydopath`. -/
theorem draws_walks (fs : FileSystem) : ∀ (fuel : Nat) (filename : Bytes) (depth : Nat)
    (w : DirWalk Screen), undrawn (mydopathOut fs fuel filename depth w) =
      mydopath fs counter fuel filename w.undrawn
  | 0, _, _, _ => rfl
  | fuel + 1, filename, depth, w => by
    have hcwd : w.undrawn.cwd = w.cwd := rfl
    rw [mydopathOut, mydopath, hcwd]
    cases fs.lstat w.cwd filename with
    | none => rfl
    | some node =>
      dsimp only
      by_cases hdir : node.2.mode ≠ .dir
      · rw [if_pos hdir, if_pos hdir]
        rfl
      · rw [if_neg hdir, if_neg hdir]
        generalize hv : (w.indent depth).call counterOut filename (some node) .D = v
        have hcall : w.undrawn.call counter filename (some node) .D = (v.1, v.2.undrawn) := by
          rw [← hv]
          rfl
        have hopen : (w.indent depth).cwd = w.cwd := rfl
        rw [hcall, hopen]
        dsimp only
        by_cases hret : v.1 ≠ 0
        · rw [if_pos hret, if_pos hret]
          rfl
        · rw [if_neg hret, if_neg hret]
          cases fs.opendir w.cwd filename with
          | none => rfl
          | some names =>
            have hloop := undrawn_eachEntry (fun n w => draws_walks fs fuel n (depth + 1) w) names
              (v.2.chdir fs filename)
            rw [undrawn_chdir] at hloop
            dsimp only
            rw [← hloop]
            cases eachEntry (fun d_name => mydopathOut fs fuel d_name (depth + 1)) names
              (v.2.chdir fs filename) with
            | error e => rfl
            | ok r => rfl

/-! ## 3. The lines of the drawing -/

mutual

/-- The names and directories of a tree. -/
def sketch (name : Name) : FileTree → Sketch Name
  | .file _ _ => .leaf name
  | .link _ _ => .leaf name
  | .dir _ _ _ es => .node name (sketchEntries es)

def sketchEntries : List (Name × FileTree) → List (Sketch Name)
  | [] => []
  | (n, t) :: es => sketch n t :: sketchEntries es

end

/-- The line of an entry: a bar for each level, and the name. -/
def entryLine (e : Entry Name) : Bytes :=
  (List.replicate e.depth bar).flatten ++
    if e.inner then dirLine e.label else fileLine e.label

/-- The text of an outline. -/
def draw (es : List (Entry Name)) : Bytes := es.flatMap fun e => entryLine e ++ [newline]

theorem draw_append (es es' : List (Entry Name)) : draw (es ++ es') = draw es ++ draw es' :=
  List.flatMap_append

theorem draw_cons (e : Entry Name) (es : List (Entry Name)) :
    draw (e :: es) = entryLine e ++ [newline] ++ draw es := List.flatMap_cons

/-- What is drawn of a file. -/
theorem out_file (w : DirWalk Screen) (node : Option (Loc × Stat)) :
    ((w.indent depth).call counterOut filename node .F).2.seen.user.out =
      w.seen.user.out ++ draw [⟨depth, false, filename⟩] := by
  simp [DirWalk.call, call, counterOut, DirWalk.indent, draw, entryLine]

/-- The line of a directory. -/
theorem out_dir (w : DirWalk Screen) (node : Option (Loc × Stat)) :
    ((w.indent depth).call counterOut filename node .D).2.seen.user.out =
      w.seen.user.out ++ draw [⟨depth, true, filename⟩] := by
  simp [DirWalk.call, call, counterOut, DirWalk.indent, draw, entryLine]

/-- **The loop over a directory** draws its entries one after another, and leaves the current
directory where it was. -/
theorem eachEntry_draws (step : Name → DirWalk Screen → Except Stop (Int × DirWalk Screen))
    {es : List (Name × FileTree)} (hnames : ∀ e ∈ es, ValidName e.1)
    (hstep : ∀ e ∈ es, ∀ w, w.cwd = loc → ∃ w', step e.1 w = .ok (0, w') ∧ w'.cwd = loc ∧
      w'.seen.user.out = w.seen.user.out ++ draw ((sketch e.1 e.2).outline depth)) :
    ∀ w : DirWalk Screen, w.cwd = loc → ∃ w', eachEntry step (es.map Prod.fst) w = .ok (0, w') ∧
      w'.cwd = loc ∧
      w'.seen.user.out = w.seen.user.out ++ draw (Sketch.outlines depth (sketchEntries es)) := by
  induction es with
  | nil =>
    intro w hw
    exact ⟨w, rfl, hw, by simp [sketchEntries, Sketch.outlines, draw]⟩
  | cons e es ih =>
    intro w hw
    obtain ⟨w', hok, hcwd, hout⟩ := hstep e List.mem_cons_self w hw
    obtain ⟨w'', hloop, hcwd', hout'⟩ := ih (fun e he => hnames e (List.mem_cons_of_mem _ he))
      (fun e he => hstep e (List.mem_cons_of_mem _ he)) w' hcwd
    have hvalid := hnames e List.mem_cons_self
    refine ⟨w'', ?_, hcwd', ?_⟩
    · rw [List.map_cons, eachEntry, if_neg (not_or.mpr ⟨hvalid.ne_dot, hvalid.ne_dotdot⟩), hok]
      exact hloop
    · rw [hout', hout, sketchEntries, Sketch.outlines, draw_append, List.append_assoc]

/-- A file is counted. -/
theorem counterOut_file (ht : t.isDir = false) (w : DirWalk Screen) :
    (w.call counterOut filename (some (loc, t.stat)) .F).1 = 0 := by
  cases t with
  | file ino kind => cases kind <;> rfl
  | link ino target => rfl
  | dir ino r x es => simp [FileTree.isDir] at ht

theorem mydopathOut_file (hat : fs.root.at? loc = some t) (ht : t.isDir = false)
    {w : DirWalk Screen} (hres : fs.resolve w.cwd true filename = some loc) (depth : Nat) :
    ∃ w', mydopathOut fs (fuel + 1) filename depth w = .ok (0, w') ∧ w'.cwd = w.cwd ∧
      w'.seen.user.out = w.seen.user.out ++ draw [⟨depth, false, filename⟩] := by
  have hmode : t.stat.mode ≠ .dir := fun hdir => by simp [(mode_eq_dir t).mp hdir] at ht
  refine ⟨((w.indent depth).call counterOut filename (some (loc, t.stat)) .F).2, ?_, rfl,
    out_file w _⟩
  rw [mydopathOut, FileSystem.lstat_eq_some hres hat]
  dsimp only
  rw [if_pos hmode, ← counterOut_file ht (w.indent depth)]

/-- **What is drawn of a tree**: its outline. -/
theorem mydopathOut_draws (t : FileTree) :
    ∀ (loc : Loc) (fuel : Nat) (filename : Bytes) (depth : Nat) (w : DirWalk Screen),
      t.Everywhere Accessible → fs.root.at? loc = some t →
      fs.resolve w.cwd true filename = some loc → t.height < fuel →
      ∃ w', mydopathOut fs fuel filename depth w = .ok (0, w') ∧
        w'.cwd = (if t.isDir = true then up fs loc else w.cwd) ∧
        w'.seen.user.out =
          w.seen.user.out ++ draw ((sketch filename t).outline depth) := by
  induction t using FileTree.induct with
  | file ino kind =>
    intro loc fuel filename depth w _ hat hres hfuel
    obtain ⟨fuel, rfl⟩ := Nat.exists_eq_add_of_lt hfuel
    exact mydopathOut_file hat rfl hres depth
  | link ino target =>
    intro loc fuel filename depth w _ hat hres hfuel
    obtain ⟨fuel, rfl⟩ := Nat.exists_eq_add_of_lt hfuel
    exact mydopathOut_file hat rfl hres depth
  | dir ino r x es ih =>
    intro loc fuel filename depth w hacc hat hres hfuel
    obtain ⟨rfl, rfl⟩ := hacc.self
    obtain ⟨hnd, hnames⟩ := (fs.namesOk.at? hat).self
    rw [FileTree.height] at hfuel
    obtain ⟨fuel, rfl⟩ : ∃ f, fuel = f + 1 := ⟨fuel - 1, by omega⟩
    have hs := searchable_of_accessible hacc hat rfl
    have hfollow := FileSystem.resolve_follow hres (FileSystem.isDir_of_at? hat rfl)
    generalize hv : (w.indent depth).call counterOut filename (some (loc, ⟨ino, .dir⟩)) .D = v
    have hret : ¬ v.1 ≠ 0 := by
      rw [← hv]
      exact not_not_intro rfl
    have hchdir : (v.2.chdir fs filename).cwd = loc := by
      have hcwd : v.2.cwd = w.cwd := by
        rw [← hv]
        rfl
      rw [DirWalk.chdir, hcwd, FileSystem.chdir_eq hfollow hs]
      rfl
    have hout : (v.2.chdir fs filename).seen.user.out =
        w.seen.user.out ++ draw [⟨depth, true, filename⟩] := by
      rw [← hv]
      exact out_dir w _
    -- the walk of an entry draws it, and comes back to the directory
    have hstep : ∀ e ∈ es, ∀ w', w'.cwd = loc → ∃ w'',
        mydopathOut fs fuel e.1 (depth + 1) w' = .ok (0, w'') ∧ w''.cwd = loc ∧
        w''.seen.user.out =
          w'.seen.user.out ++ draw ((sketch e.1 e.2).outline (depth + 1)) := by
      intro e he w' hcwd
      have hc : (FileTree.dir ino true true es).child e.1 = some e.2 :=
        FileTree.entry_of_mem hnd he
      have hheight := FileTree.height_le_heightEntries he
      have hres' : fs.resolve w'.cwd true e.1 = some (loc ++ [e.1]) := by
        rw [hcwd]
        exact FileSystem.resolve_name hat rfl (hnames e he) hc (Or.inl rfl)
      obtain ⟨w'', hok, hcwd', hout⟩ := ih e he (loc ++ [e.1]) fuel e.1 (depth + 1) w'
        (hacc.child hc) ((FileTree.at?_child hat e.1).trans hc) hres' (by omega)
      refine ⟨w'', hok, ?_, hout⟩
      rw [hcwd']
      split
      · exact up_entry hs e.1
      · exact hcwd
    obtain ⟨w', hloop, hcwd', hout'⟩ := eachEntry_draws
      (fun d_name => mydopathOut fs fuel d_name (depth + 1)) hnames hstep _ hchdir
    have hback : (w'.chdir fs [dot, dot]).cwd = up fs loc := by
      rw [cwd_chdir_dotdot (hcwd'.symm ▸ hs), hcwd']
    refine ⟨w'.chdir fs [dot, dot], ?_, hback, ?_⟩
    · rw [mydopathOut, FileSystem.lstat_eq_some hres hat]
      have hopen : (w.indent depth).cwd = w.cwd := rfl
      simp only [FileTree.stat, ne_eq, not_true_eq_false, if_false, hv, if_neg hret, hopen,
        FileSystem.opendir_eq hfollow hat, eachEntry_dots, hloop, bind, Except.bind]
    · have hsame : (w'.chdir fs [dot, dot]).seen.user.out = w'.seen.user.out := rfl
      rw [hsame, hout', hout, sketch, Sketch.outline, draw_cons, List.append_assoc, draw_cons]
      simp [draw]

/-! ## 4. Reading the drawing -/

/-- What stands behind the dashes: a name with a slash, or a blank and a name. -/
def readName (line : Bytes) : Option (Entry Name) :=
  if line.getLast? = some slash then some ⟨0, true, line.dropLast⟩
  else if line.head? = some space then some ⟨0, false, line.tail⟩
  else none

/-- What a line of the drawing says. -/
def readEntry : Bytes → Option (Entry Name)
  | 124 :: 9 :: line => (readEntry line).map fun e => { e with depth := e.depth + 1 }
  | 45 :: 45 :: line => readName line
  | _ => none

/-- The tree that a text shows. -/
def readDrawing (text : Bytes) : Option (List (Nat × Sketch Name)) :=
  (readLines newline readEntry text).map readOutline

/-- The line of such an entry can be read. -/
structure Legible (e : Entry Name) : Prop where
  no_newline : newline ∉ e.label
  no_slash : e.inner = false → e.label.getLast? ≠ some slash

theorem readEntry_name {e : Entry Name} (h : Legible e) :
    readEntry (if e.inner then dirLine e.label else fileLine e.label) =
      some ⟨0, e.inner, e.label⟩ := by
  cases hinner : e.inner with
  | true =>
    have hline : readEntry (dirLine e.label) = readName (e.label ++ [slash]) := rfl
    rw [if_pos rfl, hline, readName, if_pos (by simp), List.dropLast_concat]
  | false =>
    have hlast : (space :: e.label).getLast? ≠ some slash := by
      cases hl : e.label with
      | nil => decide
      | cons c cs =>
        rw [List.getLast?_cons_cons, ← hl]
        exact h.no_slash hinner
    have hline : readEntry (fileLine e.label) = readName (space :: e.label) := rfl
    rw [if_neg (by decide), hline, readName, if_neg hlast, if_pos List.head?_cons]
    rfl

/-- **A line is read back.** -/
theorem readEntry_entryLine {e : Entry Name} (h : Legible e) :
    newline ∉ entryLine e ∧ readEntry (entryLine e) = some e := by
  obtain ⟨depth, inner, label⟩ := e
  induction depth with
  | zero =>
    refine ⟨?_, readEntry_name h⟩
    have hlabel : (10 : UInt8) ∉ label := h.no_newline
    cases inner with
    | true => simp [entryLine, dirLine, dashes, hlabel, newline, slash]
    | false => simp [entryLine, fileLine, dashes, hlabel, newline, space]
  | succ depth ih =>
    obtain ⟨hnl, hread⟩ := ih ⟨h.no_newline, h.no_slash⟩
    have hline : entryLine ⟨depth + 1, inner, label⟩ =
        124 :: 9 :: entryLine ⟨depth, inner, label⟩ := rfl
    rw [hline, readEntry, hread]
    refine ⟨?_, rfl⟩
    rw [List.mem_cons, List.mem_cons, not_or, not_or]
    exact ⟨by decide, by decide, hnl⟩

theorem readDrawing_draw {es : List (Entry Name)} (h : ∀ e ∈ es, Legible e) :
    readDrawing (draw es) = some (readOutline es) := by
  rw [readDrawing, draw, readLines_print fun e he => readEntry_entryLine (h e he)]
  rfl

/-- No entry of a directory has a newline in its name. -/
def OneLine : FileTree → Prop
  | .dir _ _ _ es => ∀ e ∈ es, newline ∉ e.1
  | _ => True

/-- Every line of the drawing can be read. -/
theorem legible_sketch (t : FileTree) : ∀ (name : Name) (depth : Nat),
    t.Everywhere FileTree.NamesOk → t.Everywhere OneLine → newline ∉ name →
    (t.isDir = false → name.getLast? ≠ some slash) →
    ∀ e ∈ (sketch name t).outline depth, Legible e := by
  induction t using FileTree.induct with
  | file ino kind =>
    intro name depth _ _ hnl hslash e he
    obtain rfl := List.mem_singleton.mp he
    exact ⟨hnl, fun _ => hslash rfl⟩
  | link ino target =>
    intro name depth _ _ hnl hslash e he
    obtain rfl := List.mem_singleton.mp he
    exact ⟨hnl, fun _ => hslash rfl⟩
  | dir ino r x es ih =>
    intro name depth hok hone hnl hslash e he
    obtain ⟨-, hnames⟩ := hok.self
    have hlines : ∀ e ∈ es, newline ∉ e.1 := hone.self
    have hbelow : ∀ e ∈ es, e.2.Everywhere FileTree.NamesOk ∧ e.2.Everywhere OneLine := by
      cases hok with
      | dir _ hoks =>
        cases hone with
        | dir _ hones => exact fun e he => ⟨hoks e he, hones e he⟩
    rw [sketch, Sketch.outline, List.mem_cons] at he
    rcases he with rfl | he
    · exact ⟨hnl, fun h => by simp at h⟩
    · clear hok hone hnl hslash
      induction es with
      | nil => exact absurd he List.not_mem_nil
      | cons d es ihes =>
        rw [sketchEntries, Sketch.outlines, List.mem_append] at he
        rcases he with he | he
        · have hd := List.mem_cons_self (a := d) (l := es)
          exact ih d hd d.1 _ (hbelow d hd).1 (hbelow d hd).2 (hlines d hd)
            (fun _ hlast => (hnames d hd).no_slash (List.mem_of_getLast? hlast)) e he
        · exact ihes (fun e he => ih e (List.mem_cons_of_mem _ he))
            (fun e he => hnames e (List.mem_cons_of_mem _ he))
            (fun e he => hlines e (List.mem_cons_of_mem _ he))
            (fun e he => hbelow e (List.mem_cons_of_mem _ he)) he

/-- What is found under a path with a slash behind it is a directory. -/
theorem no_slash_of_file (hat : fs.root.at? loc = some t) (ht : t.isDir = false)
    (hres : fs.resolve cwd true path = some loc) : path.getLast? ≠ some slash := by
  intro hlast
  obtain ⟨-, hwalk⟩ := FileSystem.resolve_cases hres
  rw [components, if_pos hlast] at hwalk
  have hdir := (FileSystem.walk_of_slash _ hwalk).2
  rw [FileSystem.isDir, hat] at hdir
  rw [Option.any_some, ht] at hdir
  exact absurd hdir (by decide)

/-- **The drawing shows the tree.**  Where every directory of the tree can be opened and entered
and no name in it has a newline, what `my_myftw` prints is read back as the tree itself: each file
and directory under its name, below the directory that it is in, in the order of the listings.
And the walk is the one without the drawing. -/
theorem drawing_reads_back (hacc : t.Everywhere Accessible)
    (hone : t.Everywhere OneLine) (hpath : newline ∉ path)
    (hres : fs.resolve cwd true path = some loc) (hat : fs.root.at? loc = some t)
    (hfuel : t.height < fuel) (c : Counters) : ∃ w',
      my_myftwOut fs fuel path ⟨cwd, ⟨⟨c, []⟩, []⟩⟩ = .ok (0, w') ∧
        readDrawing w'.seen.user.out = some [(0, sketch path t)] ∧
        my_myftw fs counter fuel path ⟨cwd, ⟨c, []⟩⟩ = .ok (0, w'.undrawn) := by
  obtain ⟨w', hok, -, hout⟩ := mydopathOut_draws t loc fuel path 0
    ⟨cwd, ⟨⟨c, []⟩, []⟩⟩ hacc hat hres hfuel
  have hwalk := draws_walks fs fuel path 0 ⟨cwd, ⟨⟨c, []⟩, []⟩⟩
  rw [hok] at hwalk
  refine ⟨w', hok, ?_, hwalk.symm⟩
  have hlegible := legible_sketch t path 0 (fs.namesOk.at? hat) hone hpath
    fun ht => no_slash_of_file hat ht hres
  have hread := readOutline_outline (sketch path t) 0 [] fun t ht => by simp [readOutline] at ht
  rw [List.append_nil] at hread
  rw [hout, List.nil_append, readDrawing_draw hlegible, hread]
  rfl

theorem sampleTree_oneLine : sampleTree.Everywhere OneLine := by
  refine .dir (by simp [OneLine, newline]) ?_
  simp only [List.mem_cons, List.not_mem_nil, or_false, forall_eq_or_imp, forall_eq]
  refine ⟨.dir (by simp [OneLine, newline]) ?_, .link trivial⟩
  simp only [List.mem_cons, List.not_mem_nil, or_false, forall_eq]
  exact .file trivial

/-- The drawing of the sample from its root. -/
theorem drawing_reads_back_sample : ∃ w',
    my_myftwOut sample 3 [slash] ⟨[], ⟨⟨.zero, []⟩, []⟩⟩ = .ok (0, w') ∧
      readDrawing w'.seen.user.out = some [(0, sketch [slash] sampleTree)] := by
  obtain ⟨w', hok, hread, -⟩ := drawing_reads_back sampleTree_accessible sampleTree_oneLine
    (by decide) (show sample.resolve [] true [slash] = some [] by decide) rfl
    (show sampleTree.height < 3 by decide) Counters.zero
  exact ⟨w', hok, hread⟩

end OsLabs.Catalog
