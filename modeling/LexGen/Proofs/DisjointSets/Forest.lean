import LexGen.DisjointSets
import Mathlib.Algebra.Group.Nat.Defs
import Mathlib.Data.List.Basic

/-!
# Classes under unions

In a well-formed forest ranks grow along the pointers (`DisjointSets.WellFormed`). So every way
ends, and within the bound that `root` gives it, since the elements of greater rank become fewer on
it (`WellFormed.parent_root`). A function that is constant along the pointers and fixes the roots is
`root` (`WellFormed.root_eq_of_invariant`), which is how the effect of each operation is found:
`find` changes no root, and `union` joins two classes and no others (`WellFormed.union`). A class
whose root has rank `r` has `2 ^ r` elements or more, so ranks stay small
(`WellFormed.pow_rank_le`).
-/

namespace LexGen.DisjointSets

/-- Pointers stay among the elements, and ranks grow along them. -/
structure WellFormed (sets : DisjointSets) : Prop where
  size_ranks : sets.ranks.size = sets.parents.size
  parent_lt : ∀ x, x < sets.size → sets.parent x < sets.size
  rank_lt : ∀ x, sets.parent x ≠ x → sets.rank x < sets.rank (sets.parent x)

/-- The elements are in one class. -/
def Same (sets : DisjointSets) (x y : Nat) : Prop := sets.root x = sets.root y

variable {sets : DisjointSets}

theorem lt_size_of_parent_ne {x : Nat} (h : sets.parent x ≠ x) : x < sets.size := by
  by_contra hge
  apply h
  rw [parent, Array.getD_eq_getD_getElem?, Array.getElem?_eq_none (Nat.not_lt.1 hge)]
  rfl

theorem parent_setParent {x target : Nat} (hx : x < sets.size) (y : Nat) :
    (sets.setParent x target).parent y = if y = x then target else sets.parent y := by
  have hx' : x < sets.parents.size := hx
  simp only [parent, setParent, Array.getD_eq_getD_getElem?, Array.getElem?_setIfInBounds]
  by_cases hy : y = x
  · subst hy
    simp [hx']
  · have hne : x ≠ y := fun h => hy h.symm
    simp [hne, hy]

@[simp]
theorem rank_setParent (x target y : Nat) : (sets.setParent x target).rank y = sets.rank y := rfl

/-! ## Ways to the root -/

theorem root_eq_self {x : Nat} (hx : sets.parent x = x) : sets.root x = x := by
  have hway : ∀ bound, sets.rootWithin bound x = x := by
    intro bound
    cases bound with
    | zero => rfl
    | succ bound => rw [rootWithin, if_pos hx]
  exact hway sets.size

/-- The elements of a greater rank. -/
def above (sets : DisjointSets) (x : Nat) : List Nat :=
  (List.range sets.size).filter fun y => sets.rank x < sets.rank y

namespace WellFormed

/-- Along a pointer the elements of greater rank become fewer. -/
theorem length_above_lt (h : sets.WellFormed) {x : Nat} (hx : sets.parent x ≠ x) :
    (sets.above (sets.parent x)).length < (sets.above x).length := by
  have hrank := h.rank_lt x hx
  have hsub : sets.above (sets.parent x) =
      (sets.above x).filter fun y => sets.rank (sets.parent x) < sets.rank y := by
    rw [above, above, List.filter_filter]
    apply List.filter_congr
    intro y _
    by_cases hy : sets.rank (sets.parent x) < sets.rank y
    · have hxy : sets.rank x < sets.rank y := by omega
      simp [hy, hxy]
    · simp [hy]
  rw [hsub]
  apply List.length_filter_lt_length_iff_exists.2
  refine ⟨sets.parent x, ?_, by simp⟩
  have hlt := h.parent_lt x (lt_size_of_parent_ne hx)
  exact List.mem_filter.2 ⟨List.mem_range.2 hlt, by simpa using hrank⟩

/-- A bound by the number of elements of greater rank is enough to come to a root. -/
theorem parent_rootWithin (h : sets.WellFormed) {bound x : Nat}
    (hbound : (sets.above x).length ≤ bound) :
    sets.parent (sets.rootWithin bound x) = sets.rootWithin bound x := by
  induction bound generalizing x with
  | zero =>
    by_contra hx
    have hlt := h.length_above_lt hx
    unfold rootWithin at hlt
    omega
  | succ bound ih =>
    unfold rootWithin
    split
    next hx => exact hx
    next hx =>
      have hlt := h.length_above_lt hx
      exact ih (by omega)

theorem length_above_le (sets : DisjointSets) (x : Nat) : (sets.above x).length ≤ sets.size := by
  have hle := List.length_filter_le (fun y => decide (sets.rank x < sets.rank y))
    (List.range sets.size)
  rwa [List.length_range] at hle

/-- The root of a class points at itself. -/
theorem parent_root (h : sets.WellFormed) (x : Nat) : sets.parent (sets.root x) = sets.root x :=
  h.parent_rootWithin (length_above_le sets x)

theorem parent_root_of_eq {later : DisjointSets} (h : later.WellFormed)
    (hroot : ∀ x, later.root x = sets.root x) (x : Nat) :
    later.parent (sets.root x) = sets.root x := by
  rw [← hroot x]
  exact h.parent_root x

/-- A function that fixes the roots and is constant along the pointers gives the roots. -/
theorem root_eq_of_invariant (h : sets.WellFormed) {f : Nat → Nat}
    (hroot : ∀ x, sets.parent x = x → f x = x) (hstep : ∀ x, f (sets.parent x) = f x) (x : Nat) :
    sets.root x = f x := by
  have hway : ∀ bound x, f (sets.rootWithin bound x) = f x := by
    intro bound
    induction bound with
    | zero => exact fun _ => rfl
    | succ bound ih =>
      intro x
      unfold rootWithin
      split
      · rfl
      · rw [ih, hstep]
  have hf := hroot _ (h.parent_root x)
  rw [root, hway] at hf
  exact hf.symm

theorem root_root (h : sets.WellFormed) (x : Nat) : sets.root (sets.root x) = sets.root x :=
  root_eq_self (h.parent_root x)

/-- An element has the root of what it points at. More steps than needed make no difference. -/
theorem root_parent (h : sets.WellFormed) (x : Nat) : sets.root (sets.parent x) = sets.root x := by
  have hbounds : ∀ bound x, (sets.above x).length ≤ bound →
      sets.rootWithin (bound + 1) x = sets.rootWithin bound x := by
    intro bound
    induction bound with
    | zero =>
      intro x hx
      have hself := h.parent_rootWithin hx
      exact if_pos hself
    | succ bound ih =>
      intro x hx
      rw [rootWithin]
      split
      next hself => rw [rootWithin, if_pos hself]
      next hself =>
        have hlt := h.length_above_lt hself
        rw [ih _ (by omega), rootWithin, if_neg hself]
  have hstep := hbounds sets.size x (length_above_le sets x)
  rw [rootWithin] at hstep
  split at hstep
  next hself => rw [hself]
  next => exact hstep

theorem root_lt (h : sets.WellFormed) {x : Nat} (hx : x < sets.size) :
    sets.root x < sets.size := by
  have hway : ∀ bound x, x < sets.size → sets.rootWithin bound x < sets.size := by
    intro bound
    induction bound with
    | zero => exact fun _ hx => hx
    | succ bound ih =>
      intro x hx
      unfold rootWithin
      split
      · exact hx
      · exact ih _ (h.parent_lt x hx)
  exact hway sets.size x hx

/-- An element that is no root has a smaller rank than its root. -/
theorem rank_lt_root (h : sets.WellFormed) {x : Nat} (hx : sets.root x ≠ x) :
    sets.rank x < sets.rank (sets.root x) := by
  have hway : ∀ bound x, sets.rootWithin bound x = x ∨
      sets.rank x < sets.rank (sets.rootWithin bound x) := by
    intro bound
    induction bound with
    | zero => exact fun _ => .inl rfl
    | succ bound ih =>
      intro x
      unfold rootWithin
      split
      · exact .inl rfl
      next hself =>
        have hrank := h.rank_lt x hself
        rcases ih (sets.parent x) with heq | hlt
        · rw [heq]
          exact .inr hrank
        · exact .inr (by omega)
  exact (hway sets.size x).resolve_left hx

end WellFormed

/-! ## Operations -/

@[simp]
theorem rank_compress (root bound x : Nat) (sets : DisjointSets) (y : Nat) :
    (compress root bound x sets).rank y = sets.rank y := by
  induction bound generalizing x sets with
  | zero => rfl
  | succ bound ih =>
    unfold compress
    split
    · rfl
    · rw [ih, rank_setParent]

@[simp]
theorem rank_find (sets : DisjointSets) (x y : Nat) : (sets.find x).2.rank y = sets.rank y :=
  rank_compress ..

namespace WellFormed

theorem singletons (n : Nat) : (singletons n).WellFormed ∧
    ∀ x, (DisjointSets.singletons n).root x = x := by
  have hparent : ∀ x, (DisjointSets.singletons n).parent x = x := by
    intro x
    simp only [parent, DisjointSets.singletons, Array.getD_eq_getD_getElem?,
      Array.getElem?_range]
    split <;> rfl
  have hwell : (DisjointSets.singletons n).WellFormed := by
    refine ⟨by simp [DisjointSets.singletons], ?_, ?_⟩
    · intro x hx
      rw [hparent]
      exact hx
    · intro x hx
      exact absurd (hparent x) hx
  exact ⟨hwell, fun x => root_eq_self (hparent x)⟩

/-- An element that points at its root from now on is still in its class. -/
theorem setParent_root (h : sets.WellFormed) {x : Nat} (hx : x < sets.size) :
    (sets.setParent x (sets.root x)).WellFormed ∧
      ∀ y, (sets.setParent x (sets.root x)).root y = sets.root y := by
  have hwell : (sets.setParent x (sets.root x)).WellFormed := by
    refine ⟨by simpa [setParent] using h.size_ranks, ?_, ?_⟩
    · intro y hy
      rw [size_setParent] at hy ⊢
      rw [parent_setParent hx]
      split
      · exact h.root_lt hx
      · exact h.parent_lt y hy
    · intro y hy
      rw [parent_setParent hx] at hy ⊢
      rw [rank_setParent, rank_setParent]
      split at hy
      next heq =>
        subst heq
        rw [if_pos rfl]
        exact h.rank_lt_root hy
      next hne =>
        rw [if_neg hne]
        exact h.rank_lt y hy
  refine ⟨hwell, hwell.root_eq_of_invariant ?_ ?_⟩
  · intro y hy
    rw [parent_setParent hx] at hy
    split at hy
    next heq =>
      subst heq
      exact hy
    next => exact root_eq_self hy
  · intro y
    rw [parent_setParent hx]
    split
    next heq => rw [heq, h.root_root]
    next => exact h.root_parent y

/-- Shortening a way changes no class. -/
theorem compress (h : sets.WellFormed) {r x : Nat} (hx : sets.root x = r) (hlt : x < sets.size)
    (bound : Nat) : (DisjointSets.compress r bound x sets).WellFormed ∧
      ∀ y, (DisjointSets.compress r bound x sets).root y = sets.root y := by
  induction bound generalizing x sets with
  | zero => exact ⟨h, fun _ => rfl⟩
  | succ bound ih =>
    unfold DisjointSets.compress
    split
    · exact ⟨h, fun _ => rfl⟩
    · obtain ⟨hwell, hroots⟩ := h.setParent_root hlt
      rw [hx] at hwell hroots
      have hnext : (sets.setParent x r).root (sets.parent x) = r := by
        rw [hroots, h.root_parent, hx]
      have hbelow : sets.parent x < (sets.setParent x r).size := by
        rw [size_setParent]
        exact h.parent_lt x hlt
      obtain ⟨hdone, hsame⟩ := ih hwell hnext hbelow
      refine ⟨hdone, ?_⟩
      intro y
      rw [hsame, hroots]

theorem find (h : sets.WellFormed) {x : Nat} (hlt : x < sets.size) :
    (sets.find x).2.WellFormed ∧ ∀ y, (sets.find x).2.root y = sets.root y :=
  h.compress rfl hlt sets.size

/-- Where a root points at another root from now on, the two classes are one, and no other class
changes. The ranks may grow, but not that of the root that points. -/
theorem of_link (h : sets.WellFormed) {a b : Nat} {linked : DisjointSets}
    (ha : sets.parent a = a) (hb : sets.parent b = b) (hne : a ≠ b)
    (hwell : linked.WellFormed)
    (hparent : ∀ y, linked.parent y = if y = a then b else sets.parent y) :
    ∀ y, linked.root y = if sets.root y = a ∨ sets.root y = b then b else sets.root y := by
  refine hwell.root_eq_of_invariant ?_ ?_
  · intro y hy
    rw [hparent] at hy
    split at hy
    next heq =>
      subst heq
      exact absurd hy.symm hne
    next hya =>
      rw [root_eq_self hy]
      split
      next hor => exact (hor.resolve_left hya).symm
      next => rfl
  · intro y
    rw [hparent]
    split
    next heq => rw [heq, root_eq_self ha, root_eq_self hb, if_pos (.inr rfl), if_pos (.inl rfl)]
    next => rw [h.root_parent]

/-- A root that points at a root of greater rank. -/
theorem setParent_of_rank_lt (h : sets.WellFormed) {a b : Nat} (ha : a < sets.size)
    (hb : b < sets.size) (hrank : sets.rank a < sets.rank b) :
    (sets.setParent a b).WellFormed := by
  refine ⟨by simpa [setParent] using h.size_ranks, ?_, ?_⟩
  · intro y hy
    rw [size_setParent] at hy ⊢
    rw [parent_setParent ha]
    split
    · exact hb
    · exact h.parent_lt y hy
  · intro y hy
    rw [parent_setParent ha] at hy ⊢
    rw [rank_setParent, rank_setParent]
    split at hy
    next heq =>
      rw [heq, if_pos rfl]
      exact hrank
    next hne =>
      rw [if_neg hne]
      exact h.rank_lt y hy

/-- The rank of a root may grow. -/
theorem raise (h : sets.WellFormed) {a : Nat} (hself : sets.parent a = a) (ha : a < sets.size) :
    let raised : DisjointSets :=
      { sets with ranks := sets.ranks.setIfInBounds a (sets.rank a + 1) }
    raised.WellFormed ∧ ∀ y, raised.rank y = if y = a then sets.rank a + 1 else sets.rank y := by
  intro raised
  have ha' : a < sets.ranks.size := by
    rw [h.size_ranks]
    exact ha
  have hrank : ∀ y, raised.rank y = if y = a then sets.rank a + 1 else sets.rank y := by
    intro y
    simp only [raised, rank, Array.getD_eq_getD_getElem?, Array.getElem?_setIfInBounds]
    by_cases hy : y = a
    · subst hy
      simp [ha']
    · have hne : a ≠ y := fun heq => hy heq.symm
      simp [hne, hy]
  refine ⟨⟨by simpa [raised] using h.size_ranks, h.parent_lt, ?_⟩, hrank⟩
  intro y hy
  have hlt := h.rank_lt y hy
  have hya : y ≠ a := by
    rintro rfl
    exact hy hself
  rw [hrank, hrank, if_neg hya]
  show sets.rank y < if sets.parent y = a then sets.rank a + 1 else sets.rank (sets.parent y)
  split
  next heq =>
    rw [heq] at hlt
    omega
  next => exact hlt

/-- Two roots are linked: their classes are one, and no other class changes. -/
theorem link (h : sets.WellFormed) {a b : Nat} (hselfa : sets.parent a = a)
    (hselfb : sets.parent b = b) (ha : a < sets.size) (hb : b < sets.size) (hne : a ≠ b) :
    (sets.link a b).WellFormed ∧ ∃ top, (top = a ∨ top = b) ∧
      ∀ y, (sets.link a b).root y = if sets.root y = a ∨ sets.root y = b then top
        else sets.root y := by
  unfold DisjointSets.link
  split
  next hrank =>
    have hwell := h.setParent_of_rank_lt ha hb hrank
    exact ⟨hwell, b, .inr rfl, h.of_link hselfa hselfb hne hwell (parent_setParent ha)⟩
  next =>
    have hswap : ∀ {linked : DisjointSets}, linked.WellFormed →
        (∀ y, linked.parent y = if y = b then a else sets.parent y) →
        ∀ y, linked.root y = if sets.root y = a ∨ sets.root y = b then a else sets.root y := by
      intro linked hwell hparent y
      rw [h.of_link hselfb hselfa hne.symm hwell hparent y]
      simp only [or_comm]
    split
    next hrank =>
      have hwell := h.setParent_of_rank_lt hb ha hrank
      exact ⟨hwell, a, .inl rfl, hswap hwell (parent_setParent hb)⟩
    next hge hle =>
      obtain ⟨hraised, hranks⟩ := h.raise hselfa ha
      have hlt : (if b = a then sets.rank a + 1 else sets.rank b) <
          if a = a then sets.rank a + 1 else sets.rank a := by
        rw [if_neg hne.symm, if_pos rfl]
        omega
      rw [← hranks, ← hranks] at hlt
      have hwell := hraised.setParent_of_rank_lt hb ha hlt
      exact ⟨hwell, a, .inl rfl, hswap hwell (parent_setParent hb)⟩

/-- A union looks up the roots, which are those of before, and links them if they are different. -/
theorem union_eq (h : sets.WellFormed) {x y : Nat} (hx : x < sets.size) (hy : y < sets.size) :
    ∃ found : DisjointSets, found.WellFormed ∧ found.size = sets.size ∧
      (∀ z, found.root z = sets.root z) ∧ (∀ z, found.rank z = sets.rank z) ∧
      sets.union x y = if sets.root x = sets.root y then (false, found)
        else (true, found.link (sets.root x) (sets.root y)) := by
  obtain ⟨hwellx, hrootx⟩ := h.find hx
  have hy' : y < (sets.find x).2.size := by rwa [size_find]
  obtain ⟨hwell, hrooty⟩ := hwellx.find hy'
  have hfirst : (sets.find x).1 = sets.root x := rfl
  have hsecond : ((sets.find x).2.find y).1 = sets.root y := hrootx y
  refine ⟨((sets.find x).2.find y).2, hwell, by rw [size_find, size_find], ?_, ?_, ?_⟩
  · intro z
    rw [hrooty, hrootx]
  · intro z
    rw [rank_find, rank_find]
  · simp only [DisjointSets.union, hfirst, hsecond]

/-- A union answers whether the classes were different. -/
theorem union_fst_iff (h : sets.WellFormed) {x y : Nat} (hx : x < sets.size) (hy : y < sets.size) :
    (sets.union x y).1 = true ↔ ¬ sets.Same x y := by
  obtain ⟨_, _, _, _, _, hunion⟩ := h.union_eq hx hy
  rw [hunion, Same]
  split
  next heq => simp [heq]
  next hne => simp [hne]

/-- After a union the elements of both classes have one of the two roots, and all others have the
root that they had. -/
theorem root_union (h : sets.WellFormed) {x y : Nat} (hx : x < sets.size) (hy : y < sets.size) :
    (sets.union x y).2.WellFormed ∧ ∃ top, (top = sets.root x ∨ top = sets.root y) ∧
      ∀ z, (sets.union x y).2.root z =
        if sets.root z = sets.root x ∨ sets.root z = sets.root y then top else sets.root z := by
  obtain ⟨found, hwell, hsize, hroot, _, hunion⟩ := h.union_eq hx hy
  rw [hunion]
  split
  next heq =>
    refine ⟨hwell, sets.root x, .inl rfl, ?_⟩
    intro z
    rw [hroot]
    split
    next hz => exact hz.elim id fun hz => hz.trans heq.symm
    next => rfl
  next hne =>
    have hself := hwell.parent_root_of_eq hroot
    obtain ⟨hlinked, top, htop, hroots⟩ := hwell.link (hself x) (hself y)
      (by rw [hsize]; exact h.root_lt hx) (by rw [hsize]; exact h.root_lt hy) hne
    refine ⟨hlinked, top, htop, ?_⟩
    intro z
    rw [hroots, hroot]

/-- A union joins the classes of two elements and no others. -/
theorem union (h : sets.WellFormed) {x y : Nat} (hx : x < sets.size) (hy : y < sets.size) :
    (sets.union x y).2.WellFormed ∧ ∀ u v, (sets.union x y).2.Same u v ↔
      sets.Same u v ∨ (sets.Same u x ∧ sets.Same y v) ∨ (sets.Same u y ∧ sets.Same x v) := by
  obtain ⟨hwell, top, htop, hroots⟩ := h.root_union hx hy
  refine ⟨hwell, ?_⟩
  intro u v
  simp only [Same, hroots]
  rcases htop with rfl | rfl <;> split <;> split <;> grind

end WellFormed

/-! ## Ranks -/

/-- The number of elements that have a root. -/
def weight (sets : DisjointSets) (root : Nat) : Nat :=
  (List.range sets.size).countP fun x => sets.root x == root

/-- A class whose root has rank `r` has at least `2 ^ r` elements. -/
def Balanced (sets : DisjointSets) : Prop :=
  ∀ x < sets.size, 2 ^ sets.rank (sets.root x) ≤ sets.weight (sets.root x)

theorem Balanced.congr {later : DisjointSets} (h : sets.Balanced) (hsize : later.size = sets.size)
    (hroot : ∀ x, later.root x = sets.root x) (hrank : ∀ x, later.rank x = sets.rank x) :
    later.Balanced := by
  intro x hx
  rw [hsize] at hx
  have hweight : later.weight (sets.root x) = sets.weight (sets.root x) := by
    simp only [weight, hsize, hroot]
  rw [hroot, hrank, hweight]
  exact h x hx

theorem balanced_singletons (n : Nat) : (singletons n).Balanced := by
  intro x hx
  have hrank : ∀ y, (singletons n).rank y = 0 := by
    intro y
    simp only [rank, singletons, Array.getD_eq_getD_getElem?, Array.getElem?_replicate]
    split <;> rfl
  rw [hrank]
  exact List.countP_pos_iff.2 ⟨x, List.mem_range.2 hx, beq_self_eq_true _⟩

/-- What has one of two properties that exclude each other is counted with either of them. -/
theorem countP_eq_add {p q r : Nat → Bool} (hor : ∀ x, r x = (p x || q x))
    (hnot : ∀ x, ¬ (p x = true ∧ q x = true)) (elements : List Nat) :
    elements.countP r = elements.countP p + elements.countP q := by
  induction elements with
  | nil => rfl
  | cons x elements ih =>
    rw [List.countP_cons, List.countP_cons, List.countP_cons, ih, hor]
    have hx := hnot x
    cases hp : p x <;> cases hq : q x <;> simp_all <;> omega

namespace WellFormed

/-- The rank of the first root grows where the ranks are equal, and no other rank does. -/
theorem rank_link (h : sets.WellFormed) {a b : Nat} (hself : sets.parent a = a)
    (ha : a < sets.size) (y : Nat) : (sets.link a b).rank y =
      if sets.rank a = sets.rank b ∧ y = a then sets.rank a + 1 else sets.rank y := by
  unfold DisjointSets.link
  split
  next hrank => rw [rank_setParent, if_neg fun hgrown => by omega]
  next =>
    split
    next hrank => rw [rank_setParent, if_neg fun hgrown => by omega]
    next =>
      have heq : sets.rank a = sets.rank b := by omega
      simp only [heq, true_and]
      rw [← heq]
      exact (h.raise hself ha).2 y

/-- The class of two linked roots has the elements of both. -/
theorem balanced_link (h : sets.WellFormed) (hbalanced : sets.Balanced) {a b : Nat}
    (hselfa : sets.parent a = a) (hselfb : sets.parent b = b) (ha : a < sets.size)
    (hb : b < sets.size) (hne : a ≠ b) : (sets.link a b).Balanced := by
  obtain ⟨_, top, htop, hroots⟩ := h.link hselfa hselfb ha hb hne
  have hranks := h.rank_link (b := b) hselfa ha
  have hweighta := hbalanced a ha
  have hweightb := hbalanced b hb
  rw [root_eq_self hselfa] at hweighta
  rw [root_eq_self hselfb] at hweightb
  intro x hx
  rw [size_link] at hx
  rw [hroots]
  split
  next =>
    have hrank : 2 ^ (sets.link a b).rank top ≤ 2 ^ sets.rank a + 2 ^ sets.rank b := by
      rw [hranks]
      split
      next hgrown => exact Nat.le_of_eq (by rw [← hgrown.1, Nat.pow_succ, Nat.mul_two])
      next =>
        rcases htop with rfl | rfl
        · exact Nat.le_add_right ..
        · exact Nat.le_add_left ..
    have hweight : (sets.link a b).weight top = sets.weight a + sets.weight b := by
      rw [weight, weight, weight, size_link]
      apply countP_eq_add
      · intro y
        rw [hroots, Bool.eq_iff_iff]
        rcases htop with rfl | rfl <;> split <;> simp_all
      · rintro y ⟨hya, hyb⟩
        exact hne ((beq_iff_eq.1 hya).symm.trans (beq_iff_eq.1 hyb))
    omega
  next hother =>
    obtain ⟨hxa, hxb⟩ := not_or.1 hother
    have hweight : (sets.link a b).weight (sets.root x) = sets.weight (sets.root x) := by
      rw [weight, weight, size_link]
      apply List.countP_congr
      intro y _
      rw [hroots, beq_iff_eq, beq_iff_eq]
      split
      next => grind
      next => rfl
    rw [hweight, hranks, if_neg fun hgrown => hxa hgrown.2]
    exact hbalanced x hx

theorem balanced_union (h : sets.WellFormed) (hbalanced : sets.Balanced) {x y : Nat}
    (hx : x < sets.size) (hy : y < sets.size) : (sets.union x y).2.Balanced := by
  obtain ⟨found, hwell, hsize, hroot, hrank, hunion⟩ := h.union_eq hx hy
  have hfound := hbalanced.congr hsize hroot hrank
  rw [hunion]
  split
  next => exact hfound
  next hne =>
    have hself := hwell.parent_root_of_eq hroot
    exact hwell.balanced_link hfound (hself x) (hself y) (by rw [hsize]; exact h.root_lt hx)
      (by rw [hsize]; exact h.root_lt hy) hne

/-- A rank is at most the binary logarithm of the number of elements. -/
theorem pow_rank_le (h : sets.WellFormed) (hbalanced : sets.Balanced) {x : Nat}
    (hx : x < sets.size) : 2 ^ sets.rank x ≤ sets.size := by
  have hrank : sets.rank x ≤ sets.rank (sets.root x) := by
    by_cases hself : sets.root x = x
    · exact Nat.le_of_eq (by rw [hself])
    · exact Nat.le_of_lt (h.rank_lt_root hself)
  calc 2 ^ sets.rank x
      ≤ 2 ^ sets.rank (sets.root x) := Nat.pow_le_pow_right (by decide) hrank
    _ ≤ sets.weight (sets.root x) := hbalanced x hx
    _ ≤ (List.range sets.size).length := List.countP_le_length
    _ = sets.size := List.length_range

end WellFormed

end LexGen.DisjointSets
