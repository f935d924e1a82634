/-
# proc_info: the list of the processes

`md_init` goes once around the circular list of tasks and prints a line for each.  A line has the
names of the task's root and current directory, which are read through `task->fs`.  A task that
has exited and waits for its parent has no `fs` any more: there the loop follows a `NULL`
pointer.  So the list is printed, every task once, exactly when every task on it has its `fs`
(`listing_iff`).

The list does not change, and every task has a parent.  A `task_struct` has the fields that are
printed or followed.
-/
import OsLabs.Lib.Circle

namespace OsLabs.ProcInfo

open Function

/-! ## 1. `md_init` -/

/-- The names in a `struct dentry`: the short one in it, and the one that `d_name` points to. -/
structure Dentry where
  d_iname : String
  d_name : String
deriving DecidableEq, Repr

/-- What the paths of a `struct fs_struct` lead to. -/
structure FsStruct where
  root : Dentry
  pwd : Dentry
deriving DecidableEq, Repr

/-- A `struct task_struct`, with the addresses of its parent and of the next task; `fs` may be
`NULL`. -/
structure TaskStruct (ι : Type) where
  comm : String
  pid : Int
  parent : ι
  state : Nat
  flags : Nat
  prio : Int
  fs : Option FsStruct
  policy : Nat
  next : ι

/-- The tasks by their addresses.  From `init_task` the list leads back to it. -/
structure Tasks (ι : Type) where
  task : ι → TaskStruct ι
  init_task : ι
  circular : init_task ∈ periodicPts fun t => (task t).next

/-- What `printk` gets for a task. -/
structure Line (ι : Type) where
  taskp : ι
  task : String
  pid : Int
  parent : String
  ppid : Int
  state : Nat
  flags : Nat
  prio : Int
  root : String
  policy : Nat
  pwd : String
deriving DecidableEq, Repr

/-- The task whose `fs` is followed and `NULL`. -/
structure NullPointer (ι : Type) where
  task : ι
deriving DecidableEq, Repr

variable {ι : Type}

namespace Tasks

def next_task (k : Tasks ι) (task : ι) : ι := (k.task task).next

/-- The line of a task whose `fs` is there. -/
def lineOf (k : Tasks ι) (task : ι) (fs : FsStruct) : Line ι where
  taskp := task
  task := (k.task task).comm
  pid := (k.task task).pid
  parent := (k.task (k.task task).parent).comm
  ppid := (k.task (k.task task).parent).pid
  state := (k.task task).state
  flags := (k.task task).flags
  prio := (k.task task).prio
  root := fs.root.d_iname
  policy := (k.task task).policy
  pwd := fs.pwd.d_name

/-- The arguments of `printk` for a task. -/
def printTask (k : Tasks ι) (task : ι) : Except (NullPointer ι) (Line ι) :=
  match (k.task task).fs with
  | some fs => .ok (k.lineOf task fs)
  | none => .error ⟨task⟩

variable [DecidableEq ι]

/-- `do printk(...) while ((task = next_task(task)) != &init_task)` from `init_task` on. -/
def mdLoop (k : Tasks ι) (fuel : Nat) : Option (Except (NullPointer ι) (List (Line ι))) :=
  Circle.doWhile k.printTask k.next_task k.init_task fuel k.init_task

/-- The lines of the tasks, the line of the current one, and the return value. -/
def md_init (k : Tasks ι) (current : ι) (fuel : Nat) :
    Option (Except (NullPointer ι) (List (Line ι) × Line ι × Int)) :=
  (k.mdLoop fuel).map fun r => do
    let lines ← r
    let line ← k.printTask current
    return (lines, line, 0)

end Tasks

/-! ## 2. The list -/

/-- The tasks that the list leads to from `init_task`. -/
def Tasks.Listed (k : Tasks ι) (task : ι) : Prop := ∃ n, k.next_task^[n] k.init_task = task

/-- **A complete list**: every task once, `init_task` first, each with its line. -/
structure Complete (k : Tasks ι) (lines : List (Line ι)) : Prop where
  once : (lines.map Line.taskp).Nodup
  first : (lines.map Line.taskp).head? = some k.init_task
  listed : ∀ task, task ∈ lines.map Line.taskp ↔ k.Listed task
  right : ∀ line ∈ lines, k.printTask line.taskp = .ok line

/-- The loop ends with a complete list, and follows no `NULL` pointer. -/
structure Prints [DecidableEq ι] (k : Tasks ι) : Prop where
  ends : ∃ lines, Complete k lines ∧ ∃ fuel, ∀ j, k.mdLoop (fuel + j) = some (.ok lines)
  safe : ∀ fuel e, k.mdLoop fuel ≠ some (.error e)

variable {k : Tasks ι} {task : ι} {l : List ι}

theorem mem_members_iff (k : Tasks ι) (task : ι) :
    task ∈ Circle.members k.next_task k.init_task ↔ k.Listed task :=
  Circle.mem_members k.circular

theorem printTask_ok (h : (k.task task).fs ≠ none) :
    ∃ line, k.printTask task = .ok line ∧ line.taskp = task := by
  obtain ⟨fs, hfs⟩ := Option.ne_none_iff_exists'.mp h
  exact ⟨k.lineOf task fs, by rw [Tasks.printTask, hfs], rfl⟩

theorem printTask_error (h : (k.task task).fs = none) : k.printTask task = .error ⟨task⟩ := by
  rw [Tasks.printTask, h]

/-- The lines of a list of tasks, if no `fs` is missing. -/
theorem mapM_printTask (h : ∀ task ∈ l, (k.task task).fs ≠ none) :
    ∃ lines, l.mapM k.printTask = .ok lines ∧ lines.map Line.taskp = l ∧
      ∀ line ∈ lines, k.printTask line.taskp = .ok line := by
  induction l with
  | nil => exact ⟨[], rfl, rfl, by simp⟩
  | cons task l ih =>
    obtain ⟨htask, hl⟩ := List.forall_mem_cons.mp h
    obtain ⟨lines, hlines, hmap, hright⟩ := ih hl
    obtain ⟨line, hline, htaskp⟩ := printTask_ok htask
    refine ⟨line :: lines, ?_, ?_, ?_⟩
    · rw [List.mapM_cons, hline, hlines]
      rfl
    · rw [List.map_cons, htaskp, hmap]
    · refine List.forall_mem_cons.mpr ⟨?_, hright⟩
      rw [htaskp, hline]

/-- It ends at the first `fs` that is missing. -/
theorem mapM_printTask_error (h : ∃ task ∈ l, (k.task task).fs = none) :
    ∃ e, l.mapM k.printTask = .error e := by
  induction l with
  | nil => exact absurd h (by simp)
  | cons task l ih =>
    rw [List.mapM_cons]
    by_cases hfs : (k.task task).fs = none
    · exact ⟨⟨task⟩, by rw [printTask_error hfs]; rfl⟩
    · obtain ⟨line, hline, -⟩ := printTask_ok hfs
      obtain ⟨task', hmem, hnone⟩ := h
      have hl : task' ∈ l := (List.mem_cons.mp hmem).resolve_left fun heq => hfs (heq ▸ hnone)
      obtain ⟨e, he⟩ := ih ⟨task', hl, hnone⟩
      exact ⟨e, by rw [hline, he]; rfl⟩

/-! ## 3. Once around the list -/

variable [DecidableEq ι]

/-- The loop performs as many iterations as there are tasks. -/
theorem mdLoop_eq (k : Tasks ι) (j : Nat) :
    k.mdLoop (minimalPeriod k.next_task k.init_task + j) =
      some ((Circle.members k.next_task k.init_task).mapM k.printTask) :=
  Circle.doWhile_eq k.circular (Nat.le_add_right _ _)

/-- The loop gets to every `fs` that is missing, or stops at one before it. -/
theorem fs_of_prints (h : Prints k) (hlisted : k.Listed task) : (k.task task).fs ≠ none := by
  intro hnone
  obtain ⟨e, he⟩ := mapM_printTask_error ⟨task, (mem_members_iff k task).mpr hlisted, hnone⟩
  have hloop := mdLoop_eq k 0
  rw [he] at hloop
  exact h.safe _ e hloop

theorem prints_of_fs (h : ∀ task, k.Listed task → (k.task task).fs ≠ none) : Prints k := by
  obtain ⟨lines, hlines, hmap, hright⟩ :=
    mapM_printTask fun task htask => h task ((mem_members_iff k task).mp htask)
  have hloop : ∀ j, k.mdLoop (minimalPeriod k.next_task k.init_task + j) = some (.ok lines) := by
    intro j
    rw [mdLoop_eq, hlines]
  refine ⟨⟨lines, ⟨?_, ?_, ?_, hright⟩, _, hloop⟩, fun fuel e he => ?_⟩
  · rw [hmap]
    exact Circle.nodup_members
  · rw [hmap]
    exact Circle.head?_members k.circular
  · rw [hmap]
    exact mem_members_iff k
  · -- the loop would end so with more iterations too
    have hmore := Circle.doWhile_mono he (minimalPeriod k.next_task k.init_task)
    have hends := hloop fuel
    rw [Nat.add_comm] at hends
    exact absurd (hends.symm.trans hmore) (by simp)

/-- **The list of the processes.**  The loop ends, prints every task of the list once, beginning
with `init_task`, and follows no `NULL` pointer, exactly when every task of the list has its
`fs`. -/
theorem listing_iff (k : Tasks ι) : Prints k ↔ ∀ task, k.Listed task → (k.task task).fs ≠ none :=
  ⟨fun h _ hlisted => fs_of_prints h hlisted, prints_of_fs⟩

/-- Loading the module prints the list and the current process, and succeeds. -/
theorem md_init_eq {current : ι} (h : ∀ task, k.Listed task → (k.task task).fs ≠ none)
    (hcurrent : (k.task current).fs ≠ none) :
    ∃ lines line, Complete k lines ∧ k.printTask current = .ok line ∧
      ∃ fuel, ∀ j, k.md_init current (fuel + j) = some (.ok (lines, line, 0)) := by
  obtain ⟨lines, hcomplete, fuel, hloop⟩ := (prints_of_fs h).ends
  obtain ⟨line, hline, -⟩ := printTask_ok hcurrent
  refine ⟨lines, line, hcomplete, hline, fuel, fun j => ?_⟩
  rw [Tasks.md_init, hloop, hline]
  rfl

/-- `init_task` and a process that has exited. -/
def exited : Tasks Bool where
  task
    | false => ⟨"swapper/0", 0, false, 0, 0, 120, some ⟨⟨"/", "/"⟩, ⟨"/", "/"⟩⟩, 0, true⟩
    | true => ⟨"sh", 7, false, 0, 0, 120, none, 0, false⟩
  init_task := false
  circular := ⟨2, by decide, rfl⟩

/-- **A process that has exited**: the loop follows its `fs`. -/
theorem exited_followed : ¬ ∀ k : Tasks Bool, Prints k := by
  intro h
  exact fs_of_prints (h exited) ⟨1, rfl⟩ rfl

end OsLabs.ProcInfo
