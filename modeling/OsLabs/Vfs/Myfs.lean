/-
# Loading and unloading the file system module

`7/vfs/main.c` registers a file system type, and allocates an array, a slab cache and `number`
objects of the cache, whose addresses it puts into the array.  `myfs_init` undoes what it has
done when a step fails, but for the first step: the type stays registered
(`myfsInit_registered`).  So a failed load leaves nothing behind exactly when it is the
registration that fails (`loading_iff`).

What the kernel answers is a parameter.  An object is named by the number of its allocation;
what a call acquires and releases is written to a log.
-/
import OsLabs.Lib.Ledger
import Mathlib.Algebra.Group.Int.Defs
import Mathlib.Data.List.Nodup
import Mathlib.Data.List.Pairwise
import Mathlib.Data.List.Range

namespace OsLabs.Vfs

open Ledger

/-! ## 1. What the kernel does -/

/-- What the module can hold.  An object is given by the pointer to it. -/
inductive Resource
  | fsType
  | array
  | cache
  | object (p : Option Nat)
deriving DecidableEq, Repr

/-- The objects of a cache need it. -/
def Needs (r r' : Resource) : Prop :=
  match r with
  | .object _ => r' = .cache
  | _ => False

instance : DecidableRel Needs := fun r r' => by
  cases r with
  | object p => exact inferInstanceAs (Decidable (r' = .cache))
  | _ => exact inferInstanceAs (Decidable False)

/-- What `kmalloc` returns: `NULL`, `ZERO_SIZE_PTR` for no bytes, or a block. -/
inductive Ptr
  | null
  | zeroSize
  | block
deriving DecidableEq, Repr

/-- The answers of the kernel: what `register_filesystem` returns, and whether the allocations
succeed, the `i`-th of an object too. -/
structure Kernel where
  register_filesystem : Int
  kmalloc : Bool
  kmem_cache_create : Bool
  kmem_cache_alloc : Nat → Bool

/-- The variables of the module: the array `slab`, what is in it, and whether `cache` is not
`NULL`; whether the kernel has the type in its list; and the log. -/
structure Module where
  slab : Ptr
  slots : Nat → Option Nat
  cache : Bool
  registered : Bool
  log : List (Op Resource)

def ENOMEM : Int := 12

namespace Module

def initial : Module := ⟨.null, fun _ => none, false, false, []⟩

def acquire (r : Resource) (m : Module) : Module := { m with log := m.log ++ [.acquire r] }

def release (r : Resource) (m : Module) : Module := { m with log := m.log ++ [.release r] }

def registerFilesystem (k : Kernel) (m : Module) : Int × Module :=
  (k.register_filesystem,
    if k.register_filesystem = 0 then { m with registered := true }.acquire .fsType else m)

/-- It fails where the type is not in the list. -/
def unregisterFilesystem (m : Module) : Module :=
  if m.registered then { m with registered := false }.release .fsType else m

/-- `slab = kmalloc(size, GFP_KERNEL)` -/
def kmalloc (k : Kernel) (size : Nat) (m : Module) : Module :=
  if size = 0 then { m with slab := .zeroSize }
  else if k.kmalloc then { m with slab := .block }.acquire .array
  else { m with slab := .null }

/-- `kfree(slab)`, which does nothing for `NULL` and `ZERO_SIZE_PTR`. -/
def kfree (m : Module) : Module :=
  match m.slab with
  | .null => m
  | .zeroSize => m
  | .block => m.release .array

/-- `cache = kmem_cache_create_usercopy(...)` -/
def kmemCacheCreate (k : Kernel) (m : Module) : Module :=
  if k.kmem_cache_create then { m with cache := true }.acquire .cache
  else { m with cache := false }

/-- `kmem_cache_destroy(cache)`, which does nothing for `NULL`. -/
def kmemCacheDestroy (m : Module) : Module := if m.cache then m.release .cache else m

/-- `slab[i] = kmem_cache_alloc(cache, GFP_KERNEL)` -/
def kmemCacheAlloc (k : Kernel) (i : Nat) (m : Module) : Module :=
  if k.kmem_cache_alloc i then
    { m with slots := fun j => if j = i then some i else m.slots j }.acquire (.object (some i))
  else { m with slots := fun j => if j = i then none else m.slots j }

/-- `for (j = 0; j < i; j++) kmem_cache_free(cache, slab[j])` -/
def freeSlots (i : Nat) (m : Module) : Module :=
  (List.range i).foldl (fun m j => m.release (.object (m.slots j))) m

end Module

/-! ## 2. The module -/

/-- `sizeof(void*) * number`, a `size_t`. -/
def slabSize (number : Int32) : Nat := ((8 * number.toInt) % 2 ^ 64).toNat

/-- The loop of `myfs_init`, with `n` objects to go. -/
def allocSlots (k : Kernel) : Nat → Nat → Module → Int × Module
  | _, 0, m => (0, m)
  | i, n + 1, m =>
    let m := m.kmemCacheAlloc k i
    if m.slots i = none then (-ENOMEM, ((m.freeSlots i).kmemCacheDestroy).kfree)
    else allocSlots k (i + 1) n m

def myfsInit (k : Kernel) (number : Int32) : Int × Module :=
  let (ret, m) := Module.initial.registerFilesystem k
  if ret ≠ 0 then (ret, m)
  else
    let m := m.kmalloc k (slabSize number)
    if m.slab = .null then (-ENOMEM, m.kfree)
    else
      let m := m.kmemCacheCreate k
      if m.cache = false then (-ENOMEM, (m.kmemCacheDestroy).kfree)
      else allocSlots k 0 number.toInt.toNat m

def myfsExit (number : Int32) (m : Module) : Module :=
  (((m.freeSlots number.toInt.toNat).kmemCacheDestroy).kfree).unregisterFilesystem

/-! ## 3. The loop over the objects -/

/-- The first `i` objects. -/
def objects (i : Nat) : List Resource := (List.range i).map fun o => .object (some o)

/-- What `kfree(slab)` releases. -/
def arrayOf (p : Ptr) : List Resource := if p = .block then [.array] else []

theorem objects_succ (i : Nat) : objects (i + 1) = objects i ++ [.object (some i)] := by
  rw [objects, List.range_succ, List.map_append]
  rfl

/-- **The unwinding loop** frees the objects in the order of the array. -/
theorem freeSlots_eq {i : Nat} {m : Module} (h : ∀ j, j < i → m.slots j = some j) :
    m.freeSlots i = { m with log := m.log ++ (objects i).map .release } := by
  induction i with
  | zero => simp [Module.freeSlots, objects]
  | succ i ih =>
    have hi : m.slots i = some i := h i (Nat.lt_succ_self i)
    have hsucc : m.freeSlots (i + 1) =
        (m.freeSlots i).release (.object ((m.freeSlots i).slots i)) := by
      rw [Module.freeSlots, List.range_succ, List.foldl_append]
      rfl
    rw [hsucc, ih fun j hj => h j (Nat.lt_succ_of_lt hj), objects_succ, List.map_append,
      ← List.append_assoc]
    simp only [Module.release, hi, List.map_cons, List.map_nil]

theorem kfree_log (m : Module) : m.kfree.log = m.log ++ (arrayOf m.slab).map .release := by
  unfold Module.kfree
  cases hp : m.slab <;> simp [arrayOf, Module.release]

theorem kfree_registered (m : Module) : m.kfree.registered = m.registered := by
  unfold Module.kfree
  split <;> rfl

/-- With `i` objects in the array, allocated behind what `log` says. -/
structure Holding (log : List (Op Resource)) (p : Ptr) (registered : Bool) (i : Nat)
    (m : Module) : Prop where
  slots : ∀ j, j < i → m.slots j = some j
  cache : m.cache = true
  slab : m.slab = p
  registered : m.registered = registered
  log : m.log = log ++ (objects i).map .acquire

variable {k : Kernel} {log : List (Op Resource)} {p : Ptr} {reg : Bool} {i : Nat} {m : Module}

/-- **Everything in the cache, the cache and the array are released.** -/
theorem Holding.released (h : Holding log p reg i m) :
    ((m.freeSlots i).kmemCacheDestroy).kfree.log =
        log ++ (objects i).map .acquire ++ (objects i ++ .cache :: arrayOf p).map .release ∧
      ((m.freeSlots i).kmemCacheDestroy).kfree.registered = reg := by
  rw [freeSlots_eq h.slots, kfree_log, kfree_registered]
  simp only [Module.kmemCacheDestroy, h.cache, if_true, Module.release]
  refine ⟨?_, h.registered⟩
  rw [h.log, h.slab]
  simp

theorem Holding.alloc (h : Holding log p reg i m) (hk : k.kmem_cache_alloc i = true) :
    Holding log p reg (i + 1) (m.kmemCacheAlloc k i) := by
  rw [Module.kmemCacheAlloc, if_pos hk]
  refine ⟨fun j hj => ?_, h.cache, h.slab, h.registered, ?_⟩
  · rcases Nat.lt_succ_iff_lt_or_eq.mp hj with hlt | rfl
    · exact (if_neg (Nat.ne_of_lt hlt)).trans (h.slots j hlt)
    · exact if_pos rfl
  · rw [objects_succ, List.map_append, ← List.append_assoc, ← h.log]
    rfl

/-- A failed allocation changes the array only behind the objects that it holds. -/
theorem Holding.alloc_failed (h : Holding log p reg i m) (hk : k.kmem_cache_alloc i = false) :
    Holding log p reg i (m.kmemCacheAlloc k i) := by
  rw [Module.kmemCacheAlloc, if_neg (by simp [hk])]
  exact ⟨fun j hj => (if_neg (Nat.ne_of_lt hj)).trans (h.slots j hj), h.cache, h.slab,
    h.registered, h.log⟩

theorem slots_kmemCacheAlloc (k : Kernel) (i : Nat) (m : Module) :
    (m.kmemCacheAlloc k i).slots i = if k.kmem_cache_alloc i then some i else none := by
  unfold Module.kmemCacheAlloc
  split <;> exact if_pos rfl

/-- **The loop**, when all allocations succeed. -/
theorem allocSlots_ok {n : Nat} (h : Holding log p reg i m)
    (hk : ∀ o, i ≤ o → o < i + n → k.kmem_cache_alloc o = true) :
    ∃ m', allocSlots k i n m = (0, m') ∧ Holding log p reg (i + n) m' := by
  induction n generalizing i m with
  | zero => exact ⟨m, rfl, h⟩
  | succ n ih =>
    have hi := hk i (Nat.le_refl i) (by omega)
    obtain ⟨m', hm', hheld⟩ := ih (h.alloc hi) fun o hle hlt => hk o (by omega) (by omega)
    rw [Nat.add_right_comm, Nat.add_assoc] at hheld
    refine ⟨m', ?_, hheld⟩
    rw [allocSlots]
    simp only [slots_kmemCacheAlloc, hi, if_true, reduceCtorEq, if_false]
    exact hm'

/-- And when one of them fails. -/
theorem allocSlots_failed {n : Nat} (h : Holding log p reg i m)
    (hk : ¬ ∀ o, i ≤ o → o < i + n → k.kmem_cache_alloc o = true) :
    ∃ o m', allocSlots k i n m = (-ENOMEM, m') ∧ m'.registered = reg ∧
      m'.log = log ++ (objects o).map .acquire ++
        (objects o ++ .cache :: arrayOf p).map .release := by
  induction n generalizing i m with
  | zero => exact absurd (fun o hle hlt => by omega) hk
  | succ n ih =>
    cases hi : k.kmem_cache_alloc i with
    | false =>
      obtain ⟨hlog, hreg⟩ := (h.alloc_failed hi).released
      refine ⟨i, _, ?_, hreg, hlog⟩
      rw [allocSlots]
      simp only [slots_kmemCacheAlloc, hi, Bool.false_eq_true, if_false, if_true]
    | true =>
      have hk' : ¬ ∀ o, i + 1 ≤ o → o < i + 1 + n → k.kmem_cache_alloc o = true := by
        intro hall
        refine hk fun o hle hlt => ?_
        rcases Nat.eq_or_lt_of_le hle with rfl | hgt
        · exact hi
        · exact hall o hgt (by omega)
      obtain ⟨o, m', hm', hrest⟩ := ih (h.alloc hi) hk'
      refine ⟨o, m', ?_, hrest⟩
      rw [allocSlots]
      simp only [slots_kmemCacheAlloc, hi, if_true, reduceCtorEq, if_false]
      exact hm'

/-! ## 4. The log -/

/-- Nothing is left: whatever was acquired was released exactly once, and no object of the cache
behind the cache. -/
structure LeavesNothing (log : List (Op Resource)) : Prop where
  played : play Needs ∅ log = some ∅
  once : ∀ r, log.count (.release r) = log.count (.acquire r)

theorem leavesNothing_iff {log : List (Op Resource)} :
    LeavesNothing log ↔ play Needs ∅ log = some ∅ :=
  ⟨LeavesNothing.played, fun h => ⟨h, play_balanced h⟩⟩

/-- What is acquired besides the type. -/
def held (i : Nat) (p : Ptr) : List Resource := objects i ++ .cache :: arrayOf p

theorem mem_objects {r : Resource} : r ∈ objects i ↔ ∃ o, o < i ∧ r = .object (some o) := by
  simp [objects, eq_comm]

theorem mem_arrayOf {r : Resource} (h : r ∈ arrayOf p) : r = .array := by
  unfold arrayOf at h
  split at h
  · exact List.mem_singleton.mp h
  · exact absurd h (by simp)

theorem nodup_arrayOf (p : Ptr) : (arrayOf p).Nodup := by
  unfold arrayOf
  split <;> simp

theorem arrayOf_ordered (p : Ptr) : (arrayOf p).Pairwise fun r r' => ¬ Needs r' r := by
  unfold arrayOf
  split <;> simp [Needs]

theorem nodup_held (i : Nat) (p : Ptr) : (held i p).Nodup := by
  have hobjects : (objects i).Nodup :=
    (List.nodup_range).map fun a b h => Option.some.inj (Resource.object.inj h)
  refine List.nodup_append'.mpr ⟨hobjects, List.nodup_cons.mpr ⟨?_, nodup_arrayOf p⟩, ?_⟩
  · intro h
    exact absurd (mem_arrayOf h) (by simp)
  · intro r hr hr'
    obtain ⟨o, -, rfl⟩ := mem_objects.mp hr
    rcases List.mem_cons.mp hr' with h | h
    · exact absurd h (by simp)
    · exact absurd (mem_arrayOf h) (by simp)

theorem not_mem_held {r : Resource} (hr : r ∈ held i p) : r ≠ .fsType := by
  rcases List.mem_append.mp hr with h | h
  · obtain ⟨o, -, rfl⟩ := mem_objects.mp h
    simp
  · rcases List.mem_cons.mp h with rfl | h
    · simp
    · rw [mem_arrayOf h]
      simp

/-- The objects go before the cache, and nothing else is needed. -/
theorem held_ordered (i : Nat) (p : Ptr) :
    (held i p).Pairwise fun r r' => ¬ Needs r' r := by
  refine List.pairwise_append.mpr ⟨?_, List.pairwise_cons.mpr ⟨?_, arrayOf_ordered p⟩, ?_⟩
  · refine List.pairwise_of_forall_mem_list fun r hr r' hr' => ?_
    obtain ⟨o, -, rfl⟩ := mem_objects.mp hr
    obtain ⟨o', -, rfl⟩ := mem_objects.mp hr'
    simp [Needs]
  · intro r' hr'
    rw [mem_arrayOf hr']
    simp [Needs]
  · intro r hr r' hr'
    rcases List.mem_cons.mp hr' with rfl | hr'
    · simp [Needs]
    · rw [mem_arrayOf hr']
      simp [Needs]

theorem needs_irrefl (r : Resource) : ¬ Needs r r := by
  cases r <;> simp [Needs]

/-- **Undone but for the registration.** -/
theorem play_undone {as rs : List Resource} (hperm : as.Perm rs) (hnd : rs.Nodup)
    (hfs : ∀ r ∈ rs, r ≠ .fsType) (hord : rs.Pairwise fun r r' => ¬ Needs r' r) :
    play Needs ∅ ((.fsType :: as).map .acquire) = some ({.fsType} ∪ rs.toFinset) ∧
      play Needs ∅ ((.fsType :: as).map .acquire ++ rs.map .release) = some {.fsType} := by
  have hnew : ∀ r ∈ rs, r ∉ ({.fsType} : Finset Resource) := by
    intro r hr h
    exact hfs r hr (Finset.mem_singleton.mp h)
  have hall : (Resource.fsType :: as).Nodup := by
    refine List.nodup_cons.mpr ⟨fun h => ?_, hperm.nodup_iff.mpr hnd⟩
    exact hfs _ (hperm.mem_iff.mp h) rfl
  have hacquired : play Needs ∅ ((.fsType :: as).map .acquire) =
      some ({.fsType} ∪ rs.toFinset) := by
    rw [play_acquireAll hall fun r _ => Finset.notMem_empty r, List.toFinset_cons,
      List.toFinset_eq_of_perm _ _ hperm, Finset.empty_union, Finset.insert_eq]
  have hkept : ∀ r ∈ rs, ∀ r' ∈ ({.fsType} : Finset Resource), ¬ Needs r' r := by
    intro r _ r' hr'
    rw [Finset.mem_singleton.mp hr']
    simp [Needs]
  refine ⟨hacquired, ?_⟩
  rw [play_append, hacquired]
  exact play_releaseAll hnd hnew (fun r _ => needs_irrefl r) hord hkept

/-! ## 5. Loading -/

/-- Behind the registration no step fails.  `kmalloc` of no bytes cannot fail. -/
structure NothingFails (k : Kernel) (number : Int32) : Prop where
  kmalloc : number.toInt = 0 ∨ k.kmalloc = true
  create : k.kmem_cache_create = true
  alloc : ∀ i, i < number.toInt.toNat → k.kmem_cache_alloc i = true

/-- The array has no bytes only for `number` 0: the size does not go round to 0. -/
theorem slabSize_eq_zero_iff (number : Int32) : slabSize number = 0 ↔ number.toInt = 0 := by
  have hlow := number.le_toInt
  have hhigh := number.toInt_lt
  unfold slabSize
  omega

/-- What has been acquired when the objects are allocated. -/
def prepared (p : Ptr) : List (Op Resource) := (.fsType :: (arrayOf p ++ [.cache])).map .acquire

theorem kmalloc_spec (k : Kernel) (number : Int32) (m : Module) :
    ((m.kmalloc k (slabSize number)).slab = .null ↔
        ¬ (number.toInt = 0 ∨ k.kmalloc = true)) ∧
      (m.kmalloc k (slabSize number)).log =
        m.log ++ (arrayOf (m.kmalloc k (slabSize number)).slab).map .acquire ∧
      (m.kmalloc k (slabSize number)).registered = m.registered := by
  rw [← slabSize_eq_zero_iff]
  unfold Module.kmalloc
  split
  · rename_i hsize
    simp [hsize, arrayOf]
  · rename_i hsize
    split
    · rename_i hk
      simp [hk, arrayOf, Module.acquire]
    · rename_i hk
      simp [hsize, hk, arrayOf]

/-- Only the array is undone. -/
theorem play_arrayOf (p : Ptr) : play Needs ∅
    ((.fsType :: arrayOf p).map .acquire ++ (arrayOf p).map .release) = some {.fsType} := by
  refine (play_undone (List.Perm.refl _) (nodup_arrayOf p) (fun r hr => ?_) (arrayOf_ordered p)).2
  rw [mem_arrayOf hr]
  simp

theorem play_prepared (i : Nat) (p : Ptr) :
    play Needs ∅ (prepared p ++ (objects i).map .acquire) =
        some ({.fsType} ∪ (held i p).toFinset) ∧
      play Needs ∅ (prepared p ++ (objects i).map .acquire ++ (held i p).map .release) =
        some {.fsType} := by
  have hperm : ((arrayOf p ++ [Resource.cache]) ++ objects i).Perm (held i p) := by
    refine List.perm_append_comm.trans (List.Perm.append_left _ ?_)
    exact List.perm_append_singleton _ _
  have h := play_undone hperm (nodup_held i p) (fun r hr => not_mem_held hr) (held_ordered i p)
  rw [← List.cons_append, List.map_append] at h
  exact h

/-- **Behind the registration** the load succeeds, or leaves the registration. -/
theorem myfsInit_registered {k : Kernel} (number : Int32) (hreg : k.register_filesystem = 0) :
    (NothingFails k number ∧ ∃ m p, myfsInit k number = (0, m) ∧
        Holding (prepared p) p true number.toInt.toNat m) ∨
      ¬ NothingFails k number ∧ ∃ m, myfsInit k number = (-ENOMEM, m) ∧
        play Needs ∅ m.log = some {.fsType} := by
  have hinit : Module.initial.registerFilesystem k =
      (0, { Module.initial with registered := true }.acquire .fsType) := by
    rw [Module.registerFilesystem, hreg, if_pos rfl]
  obtain ⟨hnull, hlog, hregistered⟩ := kmalloc_spec k number
    ({ Module.initial with registered := true }.acquire .fsType)
  rw [myfsInit, hinit]
  simp only [ne_eq, not_true_eq_false, if_false]
  generalize Module.kmalloc k (slabSize number) _ = m at hnull hlog hregistered
  have hlog' : m.log = (.fsType :: arrayOf m.slab).map .acquire := by
    rw [hlog]
    rfl
  by_cases hslab : m.slab = .null
  · rw [if_pos hslab]
    refine Or.inr ⟨fun h => hnull.mp hslab h.kmalloc, _, rfl, ?_⟩
    rw [kfree_log, hlog']
    exact play_arrayOf m.slab
  · rw [if_neg hslab]
    have hk := not_not.mp (mt hnull.mpr hslab)
    unfold Module.kmemCacheCreate
    by_cases hcreate : k.kmem_cache_create = true
    · have hheld : Holding (prepared m.slab) m.slab true 0
          ({ m with cache := true }.acquire .cache) := by
        refine ⟨fun j hj => absurd hj (Nat.not_lt_zero j), rfl, rfl, hregistered, ?_⟩
        simp [Module.acquire, hlog', prepared, objects]
      rw [if_pos hcreate]
      simp only [Module.acquire, Bool.true_eq_false, if_false]
      by_cases halloc : ∀ o, 0 ≤ o → o < 0 + number.toInt.toNat → k.kmem_cache_alloc o = true
      · obtain ⟨m', hm', hheld'⟩ := allocSlots_ok hheld halloc
        rw [Nat.zero_add] at hheld'
        refine Or.inl ⟨⟨hk, hcreate, fun i hi => halloc i (Nat.zero_le i) (by omega)⟩, ?_⟩
        exact ⟨m', m.slab, hm', hheld'⟩
      · obtain ⟨o, m', hm', -, hlog''⟩ := allocSlots_failed hheld halloc
        refine Or.inr ⟨fun h => halloc fun o _ ho => h.alloc o (by omega), m', hm', ?_⟩
        rw [hlog'']
        exact (play_prepared o m.slab).2
    · rw [if_neg hcreate]
      simp only [if_true]
      refine Or.inr ⟨fun h => hcreate h.create, _, rfl, ?_⟩
      rw [Module.kmemCacheDestroy, if_neg (by simp), kfree_log]
      simp only [hlog']
      exact play_arrayOf m.slab

/-- **Loading and unloading the module.**  For every `number` and all answers of the kernel, a
load that fails leaves nothing behind and unloading leaves nothing behind exactly when the
registration fails or no step does. -/
theorem loading_iff (k : Kernel) (number : Int32) :
    (((myfsInit k number).1 ≠ 0 → LeavesNothing (myfsInit k number).2.log) ∧
        ((myfsInit k number).1 = 0 →
          LeavesNothing (myfsExit number (myfsInit k number).2).log)) ↔
      k.register_filesystem ≠ 0 ∨ NothingFails k number := by
  by_cases hreg : k.register_filesystem = 0
  · rw [or_iff_right (not_not.mpr hreg)]
    rcases myfsInit_registered number hreg with ⟨hnone, m, p, hm, hheld⟩ | ⟨hsome, m, hm, hplay⟩
    · refine ⟨fun _ => hnone, fun _ => ⟨fun h => ?_, fun _ => leavesNothing_iff.mpr ?_⟩⟩
      · rw [hm] at h
        exact absurd rfl h
      · obtain ⟨hlog, hregistered⟩ := hheld.released
        have hexit : (myfsExit number m).log = prepared p ++
            (objects number.toInt.toNat).map .acquire ++
            (held number.toInt.toNat p).map .release ++ [.release .fsType] := by
          rw [myfsExit, Module.unregisterFilesystem, if_pos hregistered, Module.release, hlog]
          rfl
        rw [hm, hexit, play_append, (play_prepared _ p).2]
        decide
    · refine ⟨fun h => ?_, fun h => absurd h hsome⟩
      have herror : (myfsInit k number).1 ≠ 0 := by
        rw [hm]
        exact (by decide : -ENOMEM ≠ 0)
      have hleft := leavesNothing_iff.mp (h.1 herror)
      rw [hm, hplay] at hleft
      exact absurd hleft (by decide)
  · refine ⟨fun _ => Or.inl hreg, fun _ => ?_⟩
    have hinit : myfsInit k number = (k.register_filesystem, Module.initial) := by
      rw [myfsInit, Module.registerFilesystem, if_neg hreg]
      exact if_pos hreg
    rw [hinit]
    refine ⟨fun _ => leavesNothing_iff.mpr rfl, fun h => absurd h hreg⟩

/-- **The type stays registered** when the array cannot be allocated: its memory goes with the
module. -/
theorem loading_failed : ¬ ∀ (k : Kernel) (number : Int32),
    ((myfsInit k number).1 ≠ 0 → LeavesNothing (myfsInit k number).2.log) ∧
      ((myfsInit k number).1 = 0 →
        LeavesNothing (myfsExit number (myfsInit k number).2).log) := by
  intro h
  have hleft := (h ⟨0, false, true, fun _ => true⟩ 128).1 (by decide)
  exact absurd (leavesNothing_iff.mp hleft) (by decide)

end OsLabs.Vfs
