/-
# Trees drawn as indented lines

A `Sketch` is a tree of labels, with leaves apart from nodes that have no children.  Its outline
has an entry for every node, a parent before its children, and says of each how deep it is.
`readOutline` puts the tree together again, from the last entry to the first: what stands behind
a node and deeper than it is below it (`readOutline_outline`).

`readLines` reads an entry from each line of a text; what was printed line by line is read back
(`readLines_print`).
-/
import Mathlib.Data.List.TakeWhile
import Mathlib.Tactic.Common

namespace OsLabs

/-! ## 1. Outlines -/

inductive Sketch (α : Type)
  | leaf (label : α)
  | node (label : α) (children : List (Sketch α))

/-- A line of an outline; `inner` is whether it is of a node. -/
structure Entry (α : Type) where
  depth : Nat
  inner : Bool
  label : α
deriving DecidableEq, Repr

variable {α : Type}

namespace Sketch

mutual

/-- The entries of a tree, its root at some depth. -/
def outline (depth : Nat) : Sketch α → List (Entry α)
  | .leaf label => [⟨depth, false, label⟩]
  | .node label children => ⟨depth, true, label⟩ :: outlines (depth + 1) children

def outlines (depth : Nat) : List (Sketch α) → List (Entry α)
  | [] => []
  | t :: ts => t.outline depth ++ outlines depth ts

end

end Sketch

/-- Put an entry before the trees that were read behind it. -/
def Entry.plant (e : Entry α) (trees : List (Nat × Sketch α)) : List (Nat × Sketch α) :=
  if e.inner then
    (e.depth, .node e.label ((trees.takeWhile fun t => e.depth < t.1).map Prod.snd)) ::
      trees.dropWhile fun t => e.depth < t.1
  else (e.depth, .leaf e.label) :: trees

/-- The trees that a list of entries is the outline of, with their depths. -/
def readOutline (es : List (Entry α)) : List (Nat × Sketch α) := es.foldr Entry.plant []

/-- No tree of the list is below a node at this depth. -/
def Above (depth : Nat) (trees : List (Nat × Sketch α)) : Prop := ∀ t ∈ trees.head?, t.1 ≤ depth

theorem Above.mono {depth : Nat} {trees : List (Nat × Sketch α)} (h : Above depth trees) :
    Above (depth + 1) trees := fun t ht => Nat.le_succ_of_le (h t ht)

/-- **The trees below a node** are those of its children. -/
theorem plant_children {depth : Nat} {trees : List (Nat × Sketch α)} (h : Above depth trees)
    (label : α) (children : List (Sketch α)) :
    Entry.plant ⟨depth, true, label⟩ (children.map (fun t => (depth + 1, t)) ++ trees) =
      (depth, .node label children) :: trees := by
  have hchildren : ∀ t ∈ children.map fun t => (depth + 1, t), decide (depth < t.1) = true := by
    intro t ht
    obtain ⟨u, -, rfl⟩ := List.mem_map.mp ht
    exact decide_eq_true (Nat.lt_succ_self depth)
  have htake : trees.takeWhile (fun t => decide (depth < t.1)) = [] ∧
      trees.dropWhile (fun t => decide (depth < t.1)) = trees := by
    cases trees with
    | nil => exact ⟨rfl, rfl⟩
    | cons t trees =>
      have ht : ¬ decide (depth < t.1) = true := by simpa using h t rfl
      exact ⟨List.takeWhile_cons_of_neg ht, List.dropWhile_cons_of_neg ht⟩
  rw [Entry.plant, if_pos rfl, List.takeWhile_append_of_pos hchildren,
    List.dropWhile_append_of_pos hchildren, htake.1, htake.2, List.append_nil, List.map_map]
  exact congrArg (fun l => (depth, Sketch.node label l) :: trees) (List.map_id children)

mutual

/-- **An outline is read back**, whatever stands behind it, if that is not below the root. -/
theorem readOutline_outline (t : Sketch α) (depth : Nat) (es : List (Entry α))
    (h : Above depth (readOutline es)) :
    readOutline (t.outline depth ++ es) = (depth, t) :: readOutline es := by
  match t with
  | .leaf label => rfl
  | .node label children =>
    have hchildren := readOutline_outlines children (depth + 1) es h.mono
    rw [Sketch.outline, List.cons_append, readOutline, List.foldr_cons]
    rw [readOutline] at hchildren
    rw [hchildren]
    exact plant_children h label children

theorem readOutline_outlines (ts : List (Sketch α)) (depth : Nat) (es : List (Entry α))
    (h : Above depth (readOutline es)) : readOutline (Sketch.outlines depth ts ++ es) =
      ts.map (fun t => (depth, t)) ++ readOutline es := by
  match ts with
  | [] => rfl
  | t :: ts =>
    have hrest := readOutline_outlines ts depth es h
    have habove : Above depth (readOutline (Sketch.outlines depth ts ++ es)) := by
      rw [hrest]
      cases ts with
      | nil => exact h
      | cons u ts =>
        intro v hv
        obtain rfl := Option.some.inj hv
        exact Nat.le_refl depth
    rw [Sketch.outlines, List.append_assoc, readOutline_outline t depth _ habove, hrest]
    rfl

end

/-! ## 2. Lines -/

variable {β : Type} [BEq α] [LawfulBEq α] {sep : α} {print : β → List α}
  {read : List α → Option β}

/-- What is read from the lines of a text, each with its end `sep` behind it. -/
def readLines (sep : α) (read : List α → Option β) (text : List α) : Option (List β) :=
  ((text.splitOn sep).dropLast).mapM read

/-- **Lines are read back.** -/
theorem readLines_print {es : List β} (h : ∀ e ∈ es, sep ∉ print e ∧ read (print e) = some e) :
    readLines sep read (es.flatMap fun e => print e ++ [sep]) = some es := by
  have hsplit : (es.flatMap fun e => print e ++ [sep]).splitOn sep = es.map print ++ [[]] := by
    induction es with
    | nil => rfl
    | cons e es ih =>
      obtain ⟨⟨hsep, -⟩, hes⟩ := List.forall_mem_cons.mp h
      rw [List.flatMap_cons, List.append_assoc, List.singleton_append, List.map_cons,
        List.cons_append, ← ih hes, List.splitOn, List.splitOn,
        List.splitOnP_append_cons _ _ (by simp), List.splitOnP_eq_singleton, List.singleton_append]
      intro x hx
      rw [beq_eq_false_iff_ne]
      rintro rfl
      exact hsep hx
  rw [readLines, hsplit, List.dropLast_concat]
  clear hsplit
  induction es with
  | nil => rfl
  | cons e es ih =>
    obtain ⟨⟨-, hread⟩, hes⟩ := List.forall_mem_cons.mp h
    rw [List.map_cons, List.mapM_cons, hread, ih hes]
    rfl

end OsLabs
