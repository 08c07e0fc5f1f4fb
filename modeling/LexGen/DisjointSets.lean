import LexGen.Fault

/-!
# Disjoint sets

The numbers below `size` are split into classes. Each element points at another element of its
class or at itself, and following the pointers leads to the root of the class. A union lets the
root of smaller rank point at the other one, so ranks grow along the pointers and every way to a
root is shorter than the number of elements. `find` shortens the way it has gone.
-/

namespace LexGen

structure DisjointSets where
  parents : Array Nat
  ranks : Array Nat
  deriving DecidableEq, Repr

namespace DisjointSets

/-- Each number below `size` in a class of its own. -/
def singletons (size : Nat) : DisjointSets := ⟨Array.range size, Array.replicate size 0⟩

def size (sets : DisjointSets) : Nat := sets.parents.size

/-- What an element points at; a number that is no element points at itself. -/
def parent (sets : DisjointSets) (x : Nat) : Nat := sets.parents.getD x x

def rank (sets : DisjointSets) (x : Nat) : Nat := sets.ranks.getD x 0

def setParent (sets : DisjointSets) (x parent : Nat) : DisjointSets :=
  { sets with parents := sets.parents.setIfInBounds x parent }

/-- Follow the pointers from `x`, at most `bound` of them. -/
def rootWithin (sets : DisjointSets) : (bound : Nat) → Nat → Nat
  | 0, x => x
  | bound + 1, x => if sets.parent x = x then x else sets.rootWithin bound (sets.parent x)

/-- The root of the class of `x`. -/
def root (sets : DisjointSets) (x : Nat) : Nat := sets.rootWithin sets.size x

/-- Let all elements on the way from `x` point at `root`. -/
def compress (root : Nat) : (bound : Nat) → Nat → DisjointSets → DisjointSets
  | 0, _, sets => sets
  | bound + 1, x, sets =>
    if sets.parent x = root then sets
    else compress root bound (sets.parent x) (sets.setParent x root)

/-- The root of the class of `x`, and the sets with a shorter way to it. -/
def find (sets : DisjointSets) (x : Nat) : Nat × DisjointSets :=
  (sets.root x, compress (sets.root x) sets.size x sets)

/-- Join the classes of two roots. Of equal ranks the second root points at the first one, whose
rank grows. -/
def link (sets : DisjointSets) (a b : Nat) : DisjointSets :=
  if sets.rank a < sets.rank b then sets.setParent a b
  else if sets.rank b < sets.rank a then sets.setParent b a
  else
    let linked := sets.setParent b a
    { linked with ranks := linked.ranks.setIfInBounds a (linked.rank a + 1) }

/-- Join the classes of two elements; the answer tells whether they were different. -/
def union (sets : DisjointSets) (a b : Nat) : Bool × DisjointSets :=
  let (rootA, sets) := sets.find a
  let (rootB, sets) := sets.find b
  if rootA = rootB then (false, sets) else (true, sets.link rootA rootB)

/-- The number is an element. -/
def check (sets : DisjointSets) (x : Nat) : Except Fault Unit :=
  if x < sets.size then .ok () else .error (.indexOutOfBounds sets.size x)

/-- `find` for a number that may be no element. -/
def find? (sets : DisjointSets) (x : Nat) : Except Fault (Nat × DisjointSets) := do
  sets.check x
  return sets.find x

/-- `union` for numbers that may be no elements. -/
def union? (sets : DisjointSets) (a b : Nat) : Except Fault (Bool × DisjointSets) := do
  sets.check a
  sets.check b
  return sets.union a b

/-- Add an element to the group whose members are like it, or start a new group at the end. -/
def group (alike : Nat → Nat → Bool) (x : Nat) : List (List Nat) → List (List Nat)
  | [] => [[x]]
  | members :: rest =>
    if members.any (alike x) then (members ++ [x]) :: rest else members :: group alike x rest

/-- The classes in the order of their least members, each in ascending order. -/
def classes (sets : DisjointSets) : List (List Nat) :=
  (List.range sets.size).foldl
    (fun groups x => group (fun x y => sets.root x == sets.root y) x groups) []

@[simp]
theorem size_singletons (size : Nat) : (singletons size).size = size := by
  simp [singletons, DisjointSets.size]

@[simp]
theorem size_setParent (sets : DisjointSets) (x parent : Nat) :
    (sets.setParent x parent).size = sets.size := by
  simp [setParent, DisjointSets.size]

@[simp]
theorem size_compress (root bound x : Nat) (sets : DisjointSets) :
    (compress root bound x sets).size = sets.size := by
  induction bound generalizing x sets with
  | zero => rfl
  | succ bound ih =>
    unfold compress
    split
    · rfl
    · rw [ih, size_setParent]

@[simp]
theorem size_find (sets : DisjointSets) (x : Nat) : (sets.find x).2.size = sets.size :=
  size_compress ..

@[simp]
theorem size_link (sets : DisjointSets) (a b : Nat) : (sets.link a b).size = sets.size := by
  unfold link
  split
  · exact size_setParent ..
  · split
    · exact size_setParent ..
    · exact size_setParent sets b a

@[simp]
theorem size_union (sets : DisjointSets) (a b : Nat) : (sets.union a b).2.size = sets.size := by
  simp only [union]
  split <;> simp

theorem mem_flatten_group {alike : Nat → Nat → Bool} {x y : Nat} {groups : List (List Nat)} :
    y ∈ (group alike x groups).flatten ↔ y = x ∨ y ∈ groups.flatten := by
  induction groups with
  | nil => simp [group]
  | cons members rest ih =>
    unfold group
    split
    · simp only [List.flatten_cons, List.mem_append, List.mem_singleton]
      exact ⟨by rintro ((h | h) | h) <;> simp [h], by rintro (h | h | h) <;> simp [h]⟩
    · simp only [List.flatten_cons, List.mem_append, ih]
      exact ⟨by rintro (h | h | h) <;> simp [h], by rintro (h | h | h) <;> simp [h]⟩

/-- Every element is in some class, and nothing else is. -/
theorem mem_flatten_classes {sets : DisjointSets} {x : Nat} :
    x ∈ sets.classes.flatten ↔ x < sets.size := by
  have : ∀ (elements : List Nat) (groups : List (List Nat)) (alike : Nat → Nat → Bool),
      x ∈ (elements.foldl (fun groups x => group alike x groups) groups).flatten ↔
        x ∈ elements ∨ x ∈ groups.flatten := by
    intro elements
    induction elements with
    | nil => simp
    | cons element rest ih =>
      intro groups alike
      rw [List.foldl_cons, ih, mem_flatten_group, List.mem_cons]
      exact ⟨by rintro (h | h | h) <;> simp [h], by rintro ((h | h) | h) <;> simp [h]⟩
  rw [classes, this]
  simp

end DisjointSets

end LexGen
