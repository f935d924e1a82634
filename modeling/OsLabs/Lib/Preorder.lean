/-
# The nodes of a file tree in preorder, and visits that stop early

`preorder loc t` lists the nodes of the tree `t`, which is at `loc`: a directory first, then what
is below its entries, entry by entry.  It holds every node once (`mem_preorder`,
`nodup_preorder`), a directory before what is below it (`preorder_before`).

`upTo f` visits the members of a list until a visit returns something other than 0.
-/
import OsLabs.Lib.FileTree
import Mathlib.Data.List.Nodup
import Mathlib.Data.Set.Card

namespace OsLabs

namespace FileTree

/-! ## 1. Induction on trees -/

mutual

/-- **Induction on a tree**: a property of files and links that a directory has when all its
entries have it. -/
theorem induct {P : FileTree → Prop} (file : ∀ ino kind, P (.file ino kind))
    (link : ∀ ino target, P (.link ino target))
    (dir : ∀ ino r x es, (∀ e ∈ es, P e.2) → P (.dir ino r x es)) : ∀ t, P t
  | .file ino kind => file ino kind
  | .link ino target => link ino target
  | .dir ino r x es => dir ino r x es (inductEntries file link dir es)

theorem inductEntries {P : FileTree → Prop} (file : ∀ ino kind, P (.file ino kind))
    (link : ∀ ino target, P (.link ino target))
    (dir : ∀ ino r x es, (∀ e ∈ es, P e.2) → P (.dir ino r x es)) :
    ∀ es : List (Name × FileTree), ∀ e ∈ es, P e.2
  | [] => by simp
  | (_, t) :: es =>
    List.forall_mem_cons.mpr ⟨induct file link dir t, inductEntries file link dir es⟩

end

mutual

/-- The number of directories one inside the other. -/
def height : FileTree → Nat
  | .file _ _ => 0
  | .link _ _ => 0
  | .dir _ _ _ es => heightEntries es + 1

def heightEntries : List (Name × FileTree) → Nat
  | [] => 0
  | (_, t) :: es => max t.height (heightEntries es)

end

theorem height_le_heightEntries {n : Name} {t : FileTree} {es : List (Name × FileTree)}
    (h : (n, t) ∈ es) : t.height ≤ heightEntries es := by
  induction es with
  | nil => simp at h
  | cons e es ih =>
    obtain ⟨m, u⟩ := e
    rw [heightEntries]
    rcases List.mem_cons.mp h with heq | hin
    · rw [Prod.mk.injEq] at heq
      rw [heq.2]
      exact Nat.le_max_left _ _
    · exact Nat.le_trans (ih hin) (Nat.le_max_right _ _)

theorem height_at?_le {t u : FileTree} {loc : Loc} (h : t.at? loc = some u) :
    u.height ≤ t.height := by
  induction loc generalizing t with
  | nil =>
    rw [at?, Option.some.injEq] at h
    rw [h]
  | cons n loc ih =>
    obtain ⟨v, hv, hu⟩ := Option.bind_eq_some_iff.mp h
    refine Nat.le_trans (ih hu) ?_
    cases t with
    | dir ino r x es =>
      have hle := height_le_heightEntries (mem_of_entry hv)
      rw [height]
      omega
    | _ => simp [child] at hv

/-! ## 2. Preorder -/

mutual

/-- The nodes of a tree at `loc`, a directory before what is below it. -/
def preorder (loc : Loc) : FileTree → List (Loc × FileTree)
  | .file ino kind => [(loc, .file ino kind)]
  | .link ino target => [(loc, .link ino target)]
  | .dir ino r x es => (loc, .dir ino r x es) :: preorderEntries loc es

def preorderEntries (loc : Loc) : List (Name × FileTree) → List (Loc × FileTree)
  | [] => []
  | (n, t) :: es => preorder (loc ++ [n]) t ++ preorderEntries loc es

end

variable {loc l : Loc} {t u : FileTree} {n : Name} {es : List (Name × FileTree)}

theorem mem_preorderEntries {p : Loc × FileTree} :
    p ∈ preorderEntries loc es ↔ ∃ e ∈ es, p ∈ preorder (loc ++ [e.1]) e.2 := by
  induction es with
  | nil => simp [preorderEntries]
  | cons e es ih => simp [preorderEntries, ih]

theorem at?_of_not_dir (ht : t.isDir = false) : t.at? l = some u ↔ l = [] ∧ t = u := by
  cases l with
  | nil => simp [at?]
  | cons n l =>
    cases t with
    | dir ino r x es => simp [isDir] at ht
    | _ => simp [at?, child]

/-- **Every node of the tree is listed**, and nothing else. -/
theorem mem_preorder (t : FileTree) : ∀ (loc : Loc), t.Everywhere NamesOk →
    ((l, u) ∈ preorder loc t ↔ ∃ rel, l = loc ++ rel ∧ t.at? rel = some u) := by
  induction t using induct with
  | file ino kind =>
    intro loc _
    have hat := fun rel => at?_of_not_dir (t := .file ino kind) (l := rel) (u := u) rfl
    simp [preorder, hat, eq_comm]
  | link ino target =>
    intro loc _
    have hat := fun rel => at?_of_not_dir (t := .link ino target) (l := rel) (u := u) rfl
    simp [preorder, hat, eq_comm]
  | dir ino r x es ih =>
    intro loc hok
    have hnd : (es.map Prod.fst).Nodup := hok.self.1
    have hmem : ∀ n v, (n, v) ∈ es ↔ (FileTree.dir ino r x es).child n = some v := fun n v =>
      ⟨entry_of_mem hnd, mem_of_entry⟩
    rw [preorder, List.mem_cons, mem_preorderEntries, Prod.mk.injEq]
    constructor
    · rintro (⟨rfl, rfl⟩ | ⟨⟨n, v⟩, he, hp⟩)
      · exact ⟨[], by simp, rfl⟩
      · have hc := (hmem n v).mp he
        obtain ⟨rel, rfl, hrel⟩ := (ih (n, v) he (loc ++ [n]) (hok.child hc)).mp hp
        exact ⟨n :: rel, by simp, by rw [at?, hc]; exact hrel⟩
    · rintro ⟨rel, rfl, hrel⟩
      cases rel with
      | nil =>
        rw [at?, Option.some.injEq] at hrel
        exact Or.inl ⟨by simp, hrel.symm⟩
      | cons n rel =>
        obtain ⟨v, hc, hv⟩ := Option.bind_eq_some_iff.mp hrel
        have he := (hmem n v).mpr hc
        refine Or.inr ⟨(n, v), he, ?_⟩
        exact (ih (n, v) he (loc ++ [n]) (hok.child hc)).mpr ⟨rel, by simp, hv⟩

/-- A later location is not that of a directory above. -/
def Before (p q : Loc × FileTree) : Prop := ¬ q.1 <+: p.1

theorem prefix_of_mem_preorder (hok : t.Everywhere NamesOk) (h : (l, u) ∈ preorder loc t) :
    loc <+: l := by
  obtain ⟨rel, rfl, -⟩ := (mem_preorder t loc hok).mp h
  exact List.prefix_append _ _

/-- What is below one entry is not below another. -/
theorem not_prefix_of_ne {m : Name} {l l' : Loc} (hne : n ≠ m) (hl : loc ++ [n] <+: l)
    (hl' : loc ++ [m] <+: l') : ¬ l' <+: l := by
  intro h
  rcases List.prefix_or_prefix_of_prefix hl (hl'.trans h) with hp | hp
  · rw [List.prefix_append_right_inj] at hp
    simp at hp
    exact hne hp
  · rw [List.prefix_append_right_inj] at hp
    simp at hp
    exact hne hp.symm

/-- **A directory comes before what is below it**, and no node comes twice. -/
theorem preorder_before (t : FileTree) : ∀ (loc : Loc), t.Everywhere NamesOk →
    (preorder loc t).Pairwise Before := by
  induction t using induct with
  | file ino kind =>
    intro loc _
    simp [preorder]
  | link ino target =>
    intro loc _
    simp [preorder]
  | dir ino r x es ih =>
    intro loc hok
    obtain ⟨hnd, -⟩ := hok.self
    have hes : ∀ e ∈ es, e.2.Everywhere NamesOk := by
      cases hok with
      | dir _ hes => exact hes
    rw [preorder, List.pairwise_cons]
    constructor
    · rintro ⟨l, u⟩ hp hpre
      obtain ⟨e, he, hp⟩ := mem_preorderEntries.mp hp
      obtain ⟨rel, rfl, -⟩ := (mem_preorder e.2 _ (hes e he)).mp hp
      have hlen := hpre.length_le
      simp at hlen
    · -- the entries one by one, what is below each apart from what is below the others
      clear hok
      induction es with
      | nil => simp [preorderEntries]
      | cons e es ihes =>
        rw [List.map_cons, List.nodup_cons] at hnd
        rw [preorderEntries, List.pairwise_append]
        refine ⟨ih e (by simp) _ (hes e (by simp)), ?_, ?_⟩
        · exact ihes (fun e he => ih e (List.mem_cons_of_mem _ he)) hnd.2
            fun e he => hes e (List.mem_cons_of_mem _ he)
        · rintro ⟨l, u⟩ hp ⟨l', u'⟩ hp'
          obtain ⟨e', he', hp'⟩ := mem_preorderEntries.mp hp'
          have hne : e.1 ≠ e'.1 := fun heq =>
            hnd.1 (heq ▸ List.mem_map_of_mem he')
          exact not_prefix_of_ne hne (prefix_of_mem_preorder (hes e (by simp)) hp)
            (prefix_of_mem_preorder (hes e' (List.mem_cons_of_mem _ he')) hp')

theorem nodup_preorder (t : FileTree) (loc : Loc) (hok : t.Everywhere NamesOk) :
    ((preorder loc t).map Prod.fst).Nodup := by
  rw [List.Nodup, List.pairwise_map]
  refine (preorder_before t loc hok).imp fun hpq heq => ?_
  exact hpq (heq ▸ List.prefix_refl _)

/-- **The number of nodes of a type** is the number of times that it is listed. -/
theorem ncard_eq_countP (t : FileTree) (loc : Loc) (hok : t.Everywhere NamesOk) (mode : Mode) :
    {rel | ∃ u, t.at? rel = some u ∧ u.stat.mode = mode}.ncard =
      (preorder loc t).countP fun p => p.2.stat.mode = mode := by
  have hinj : Function.Injective fun rel : Loc => loc ++ rel := fun a b h =>
    List.append_cancel_left h
  have himage :
      (fun rel : Loc => loc ++ rel) '' {rel | ∃ u, t.at? rel = some u ∧ u.stat.mode = mode} =
        (((preorder loc t).filter fun p => p.2.stat.mode = mode).map Prod.fst).toFinset := by
    ext l
    simp only [Set.mem_image, Set.mem_ofPred_eq, List.coe_toFinset, List.mem_map, List.mem_filter,
      decide_eq_true_eq, Prod.exists]
    constructor
    · rintro ⟨rel, ⟨u, hu, hmode⟩, rfl⟩
      exact ⟨_, u, ⟨(mem_preorder t loc hok).mpr ⟨rel, rfl, hu⟩, hmode⟩, rfl⟩
    · rintro ⟨l', u, ⟨hmem, hmode⟩, rfl⟩
      obtain ⟨rel, rfl, hu⟩ := (mem_preorder t loc hok).mp hmem
      exact ⟨rel, ⟨u, hu, hmode⟩, rfl⟩
  have hnodup : (((preorder loc t).filter fun p => p.2.stat.mode = mode).map Prod.fst).Nodup :=
    (nodup_preorder t loc hok).sublist (List.filter_sublist.map _)
  rw [← Set.ncard_image_of_injective _ hinj, himage, Set.ncard_coe_finset,
    List.toFinset_card_of_nodup hnodup, List.length_map, List.countP_eq_length_filter]

end FileTree

/-! ## 3. Visits until one returns something -/

variable {α S : Type}

/-- Visit the members of a list until a visit returns something other than 0. -/
def upTo (f : α → S → Int × S) : List α → S → Int × S
  | [], s => (0, s)
  | a :: as, s => if (f a s).1 ≠ 0 then f a s else upTo f as (f a s).2

theorem upTo_append (f : α → S → Int × S) (as bs : List α) (s : S) :
    upTo f (as ++ bs) s =
      if (upTo f as s).1 ≠ 0 then upTo f as s else upTo f bs (upTo f as s).2 := by
  induction as generalizing s with
  | nil => simp [upTo]
  | cons a as ih =>
    rw [List.cons_append, upTo, upTo]
    by_cases hne : (f a s).1 ≠ 0
    · simp only [if_pos hne]
    · simp only [if_neg hne]
      exact ih _

theorem upTo_of_zero {f : α → S → Int × S} (hf : ∀ a s, (f a s).1 = 0) (as : List α) (s : S) :
    upTo f as s = (0, as.foldl (fun s a => (f a s).2) s) := by
  induction as generalizing s with
  | nil => rfl
  | cons a as ih =>
    rw [upTo, if_neg (by simp [hf]), ih, List.foldl_cons]

end OsLabs
