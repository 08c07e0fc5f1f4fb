import LexGen.Proofs.Discovery.Exploration
import LexGen.Proofs.DisjointSets.Forest
import Mathlib.Data.List.Induction

/-!
# The list of classes

`DisjointSets.classes` lists, for each root in the order in which the elements meet it, the elements
that have this root (`classes_eq`). So the place of an element's class in the list depends on its
root alone (`findIdx_classes_eq_iff`), and the elements meet the places in ascending order
(`image_findIdx_classes`).
-/

namespace LexGen.DisjointSets

open Discovery

variable {key : Nat → Nat}

/-- A group for each key: an element joins the group of its key, or starts it at the end. -/
theorem group_map_eq {x : Nat} {keys : List Nat} {members : Nat → List Nat} (hnodup : keys.Nodup)
    (hne : ∀ k ∈ keys, members k ≠ []) (hkey : ∀ k ∈ keys, ∀ y ∈ members k, key y = k) :
    group (fun x y => key x == key y) x (keys.map members) =
      if key x ∈ keys then keys.map fun k => members k ++ if key x = k then [x] else []
      else keys.map members ++ [[x]] := by
  induction keys with
  | nil => rfl
  | cons k keys ih =>
    obtain ⟨hk, hnodup⟩ := List.nodup_cons.1 hnodup
    obtain ⟨hmk, hne⟩ := List.forall_mem_cons.1 hne
    obtain ⟨hkk, hkey⟩ := List.forall_mem_cons.1 hkey
    have hany : (members k).any (fun y => key x == key y) = decide (key x = k) := by
      obtain ⟨first, rest, hmembers⟩ := List.exists_cons_of_ne_nil hmk
      by_cases hx : key x = k
      · have hfirst : key first = k := hkk first (hmembers ▸ List.mem_cons_self ..)
        rw [decide_eq_true hx, List.any_eq_true]
        exact ⟨first, hmembers ▸ List.mem_cons_self .., by simp [hx, hfirst]⟩
      · rw [decide_eq_false hx, List.any_eq_false]
        intro y hy
        simpa [hkk y hy] using hx
    rw [List.map_cons, group, hany]
    by_cases hx : key x = k
    · have hothers : keys.map members =
          keys.map fun k' => members k' ++ if key x = k' then [x] else [] := by
        apply List.map_congr_left
        intro k' hk'
        have hkk' : key x ≠ k' := by
          rintro rfl
          exact hk (hx ▸ hk')
        rw [if_neg hkk', List.append_nil]
      rw [decide_eq_true hx, if_pos rfl, if_pos (hx ▸ List.mem_cons_self ..), List.map_cons,
        if_pos hx, hothers]
    · rw [decide_eq_false hx, if_neg (by simp), ih hnodup hne hkey]
      by_cases hmem : key x ∈ keys
      · rw [if_pos hmem, if_pos (List.mem_cons_of_mem _ hmem), List.map_cons, if_neg hx,
          List.append_nil]
      · have hnot : key x ∉ k :: keys := by simp [hx, hmem]
        rw [if_neg hmem, if_neg hnot, List.cons_append]

/-- The elements of a list with a key, in their order. -/
def withKey (key : Nat → Nat) (elements : List Nat) (k : Nat) : List Nat :=
  elements.filter fun y => key y == k

theorem mem_withKey {elements : List Nat} {k y : Nat} :
    y ∈ withKey key elements k ↔ y ∈ elements ∧ key y = k := by
  simp [withKey]

/-- A new element behind the others has the last place in the list of its key. -/
theorem withKey_append_singleton (elements : List Nat) (x k : Nat) :
    withKey key (elements ++ [x]) k = withKey key elements k ++ if key x = k then [x] else [] := by
  rw [withKey, List.filter_append, ← withKey, List.filter_singleton]
  by_cases hx : key x = k
  · simp [hx]
  · have hfalse : (key x == k) = false := by simpa using hx
    simp [hx, hfalse]

/-- An element of a known key joins the list of that key. -/
theorem map_withKey_of_mem {elements : List Nat} {x : Nat} (hx : key x ∈ image key elements) :
    (image key (elements ++ [x])).map (withKey key (elements ++ [x])) =
      (image key elements).map fun k =>
        withKey key elements k ++ if key x = k then [x] else [] := by
  rw [image_append, List.map_singleton, extend_eq_self (by simpa using hx)]
  exact List.map_congr_left fun k _ => withKey_append_singleton elements x k

/-- An element of a new key starts a list at the end. -/
theorem map_withKey_of_not_mem {elements : List Nat} {x : Nat} (hx : key x ∉ image key elements) :
    (image key (elements ++ [x])).map (withKey key (elements ++ [x])) =
      (image key elements).map (withKey key elements) ++ [[x]] := by
  have hold : ∀ k ∈ image key elements,
      withKey key (elements ++ [x]) k = withKey key elements k := by
    intro k hk
    have hxk : key x ≠ k := fun heq => hx (heq ▸ hk)
    rw [withKey_append_singleton, if_neg hxk, List.append_nil]
  have hnew : withKey key (elements ++ [x]) (key x) = [x] := by
    have hnone : withKey key elements (key x) = [] := by
      rw [withKey, List.filter_eq_nil_iff]
      intro y hy heq
      exact hx (mem_image.2 ⟨y, hy, by simpa using heq⟩)
    rw [withKey_append_singleton, hnone, if_pos rfl, List.nil_append]
  rw [image_append, List.map_singleton, extend_singleton hx, List.map_append, List.map_singleton,
    hnew, List.map_congr_left hold]

theorem withKey_ne_nil {elements : List Nat} {k : Nat} (h : k ∈ image key elements) :
    withKey key elements k ≠ [] := by
  obtain ⟨y, hy, hky⟩ := mem_image.1 h
  exact List.ne_nil_of_mem (mem_withKey.2 ⟨hy, hky⟩)

theorem nodup_image (elements : List Nat) : (image key elements).Nodup :=
  nodup_extend List.nodup_nil _

/-- Grouping lists the keys in the order in which they are met, each with its elements. -/
theorem foldl_group_eq (elements : List Nat) :
    elements.foldl (fun groups x => group (fun x y => key x == key y) x groups) [] =
      (image key elements).map (withKey key elements) := by
  induction elements using List.reverseRecOn with
  | nil => rfl
  | append_singleton elements x ih =>
    rw [List.foldl_append, ih, List.foldl_cons, List.foldl_nil,
      group_map_eq (nodup_image elements) (fun _ => withKey_ne_nil)
        fun _ _ _ hy => (mem_withKey.1 hy).2]
    split
    next hx => exact (map_withKey_of_mem hx).symm
    next hx => exact (map_withKey_of_not_mem hx).symm

/-- Of ascending elements a key that is met before another one has an element that is less than all
elements of the other. -/
theorem pairwise_image {elements : List Nat} (h : elements.Pairwise (· < ·)) :
    (image key elements).Pairwise fun k l =>
      ∃ x ∈ withKey key elements k, ∀ y ∈ withKey key elements l, x < y := by
  induction elements using List.reverseRecOn with
  | nil => exact .nil
  | append_singleton elements x ih =>
    obtain ⟨hfront, _, hx⟩ := List.pairwise_append.1 h
    have hlast : ∀ y ∈ elements, y < x := fun y hy => hx y hy x (List.mem_singleton_self x)
    have hmem : ∀ {k y : Nat}, y ∈ withKey key elements k →
        y ∈ withKey key (elements ++ [x]) k := by
      intro k y hy
      rw [withKey_append_singleton]
      exact List.mem_append_left _ hy
    -- What has been found for two keys stays, since the new element is greater than all others.
    have hkeep : (image key elements).Pairwise fun k l =>
        ∃ w ∈ withKey key (elements ++ [x]) k, ∀ y ∈ withKey key (elements ++ [x]) l, w < y := by
      refine (ih hfront).imp ?_
      rintro k l ⟨w, hw, hless⟩
      refine ⟨w, hmem hw, ?_⟩
      intro y hy
      obtain ⟨hy, hl⟩ := mem_withKey.1 hy
      rcases List.mem_append.1 hy with hy | hy
      · exact hless y (mem_withKey.2 ⟨hy, hl⟩)
      · rw [List.mem_singleton.1 hy]
        exact hlast w (mem_withKey.1 hw).1
    rw [image_append, List.map_singleton]
    by_cases hk : key x ∈ image key elements
    · rw [extend_eq_self (by simpa using hk)]
      exact hkeep
    · rw [extend_singleton hk]
      refine List.pairwise_append.2 ⟨hkeep, List.pairwise_singleton _ _, ?_⟩
      intro k hmet l hl
      obtain ⟨w, hw, rfl⟩ := mem_image.1 hmet
      refine ⟨w, hmem (mem_withKey.2 ⟨hw, rfl⟩), ?_⟩
      intro y hy
      obtain ⟨hy, hyl⟩ := mem_withKey.1 hy
      rw [List.mem_singleton.1 hl] at hyl
      rcases List.mem_append.1 hy with hy | hy
      · exact absurd (mem_image.2 ⟨y, hy, hyl⟩) hk
      · rw [List.mem_singleton.1 hy]
        exact hlast w hw

variable {sets : DisjointSets}

/-- The classes are the elements of each root, in the order in which the roots are met. -/
theorem classes_eq (sets : DisjointSets) : sets.classes =
    (image sets.root (List.range sets.size)).map (withKey sets.root (List.range sets.size)) :=
  foldl_group_eq _

/-- The place of an element's class is the place of its root. -/
theorem findIdx_classes {x : Nat} (hx : x < sets.size) :
    sets.classes.findIdx (·.contains x) =
      (image sets.root (List.range sets.size)).idxOf (sets.root x) := by
  rw [classes_eq, List.findIdx_map, List.idxOf]
  congr 1
  funext k
  rw [Function.comp_apply, Bool.eq_iff_iff, List.contains_iff_mem, mem_withKey, List.mem_range,
    beq_iff_eq]
  constructor
  · exact fun h => h.2.symm
  · exact fun h => ⟨hx, h.symm⟩

/-- At the place of an element's class are the elements that have its root. -/
theorem getElem?_findIdx_classes {x : Nat} (hx : x < sets.size) :
    sets.classes[sets.classes.findIdx (·.contains x)]? =
      some (withKey sets.root (List.range sets.size) (sets.root x)) := by
  have hmem : sets.root x ∈ image sets.root (List.range sets.size) :=
    mem_image.2 ⟨x, List.mem_range.2 hx, rfl⟩
  have hlt := List.idxOf_lt_length_iff.2 hmem
  rw [findIdx_classes hx, classes_eq, List.getElem?_map, List.getElem?_eq_getElem hlt,
    List.getElem_idxOf hlt, Option.map_some]

/-- Two elements have their class at the same place exactly if they have the same root. -/
theorem findIdx_classes_eq_iff {x y : Nat} (hx : x < sets.size) (hy : y < sets.size) :
    sets.classes.findIdx (·.contains x) = sets.classes.findIdx (·.contains y) ↔
      sets.Same x y := by
  have hmem : sets.root x ∈ image sets.root (List.range sets.size) :=
    mem_image.2 ⟨x, List.mem_range.2 hx, rfl⟩
  rw [findIdx_classes hx, findIdx_classes hy, List.idxOf_inj hmem]
  rfl

/-- The elements meet the places of the classes in ascending order. -/
theorem image_findIdx_classes (sets : DisjointSets) :
    image (fun x => sets.classes.findIdx (·.contains x)) (List.range sets.size) =
      List.range sets.classes.length := by
  have hnodup := @nodup_image sets.root (List.range sets.size)
  have hplaces : (List.range sets.size).map (fun x => sets.classes.findIdx (·.contains x)) =
      ((List.range sets.size).map sets.root).map
        (image sets.root (List.range sets.size)).idxOf := by
    rw [List.map_map]
    apply List.map_congr_left
    intro x hx
    exact findIdx_classes (List.mem_range.1 hx)
  have hroots : image (image sets.root (List.range sets.size)).idxOf
      (image sets.root (List.range sets.size)) = List.range sets.classes.length := by
    have hlength : sets.classes.length = (image sets.root (List.range sets.size)).length := by
      rw [classes_eq, List.length_map]
    rw [image_of_injOn hnodup fun a ha b _ h => (List.idxOf_inj ha).1 h, hlength]
    apply List.ext_getElem
    · rw [List.length_map, List.length_range]
    · intro i hi _
      rw [List.getElem_map, List.getElem_range, List.Nodup.idxOf_getElem hnodup]
  rw [image, hplaces, ← hroots]
  exact (image_extend _ [] _).symm

/-- If no two elements have the same root, each of them is a class of its own. -/
theorem classes_eq_of_discrete
    (h : ∀ x y, x < sets.size → y < sets.size → sets.Same x y → x = y) :
    sets.classes = (List.range sets.size).map fun x => [x] := by
  have hroots : image sets.root (List.range sets.size) =
      (List.range sets.size).map sets.root := by
    apply image_of_injOn List.nodup_range
    intro x hx y hy hxy
    exact h x y (List.mem_range.1 hx) (List.mem_range.1 hy) hxy
  rw [classes_eq, hroots, List.map_map]
  apply List.map_congr_left
  intro x hx
  have hown : ∀ y ∈ List.range sets.size, (sets.root y == sets.root x) = (y == x) := by
    intro y hy
    rw [Bool.eq_iff_iff, beq_iff_eq, beq_iff_eq]
    constructor
    · exact h y x (List.mem_range.1 hy) (List.mem_range.1 hx)
    · intro hyx
      rw [hyx]
  show (List.range sets.size).filter (fun y => sets.root y == sets.root x) = [x]
  rw [List.filter_congr hown, List.filter_beq,
    List.count_eq_one_of_mem List.nodup_range hx]
  rfl

/-- The groups list each number below `size` once. Two numbers are in one group exactly if they are
related, the members of a group ascend, and the groups are in the order of their least members. -/
structure Groups (size : Nat) (related : Nat → Nat → Prop) (groups : List (List Nat)) : Prop where
  perm : groups.flatten.Perm (List.range size)
  ne_nil : ∀ group ∈ groups, group ≠ []
  mem_iff : ∀ group ∈ groups, ∀ x ∈ group, ∀ y, y ∈ group ↔ y < size ∧ related x y
  ascending : ∀ group ∈ groups, group.Pairwise (· < ·)
  ordered : groups.Pairwise fun earlier later => ∃ x ∈ earlier, ∀ y ∈ later, x < y

theorem Groups.lt_of_mem {size : Nat} {related : Nat → Nat → Prop} {groups : List (List Nat)}
    (h : Groups size related groups) {group : List Nat} (hgroup : group ∈ groups) {x : Nat}
    (hx : x ∈ group) : x < size :=
  List.mem_range.1 (h.perm.mem_iff.1 (List.mem_flatten_of_mem hgroup hx))

/-- Only the relation between the numbers that are listed counts. -/
theorem Groups.congr {size : Nat} {related related' : Nat → Nat → Prop} {groups : List (List Nat)}
    (h : Groups size related groups)
    (hiff : ∀ x < size, ∀ y < size, related x y ↔ related' x y) : Groups size related' groups := by
  refine { h with mem_iff := ?_ }
  intro group hgroup x hx y
  rw [h.mem_iff group hgroup x hx]
  exact and_congr_right fun hy => hiff x (h.lt_of_mem hgroup hx) y hy

theorem groups_classes (sets : DisjointSets) : Groups sets.size sets.Same sets.classes := by
  have hclasses := classes_eq sets
  have hgroup : ∀ group ∈ sets.classes, ∃ k ∈ image sets.root (List.range sets.size),
      withKey sets.root (List.range sets.size) k = group := by
    intro group hgroup
    rw [hclasses] at hgroup
    exact List.mem_map.1 hgroup
  have hascending : ∀ group ∈ sets.classes, group.Pairwise (· < ·) := by
    intro group hmem
    obtain ⟨k, _, rfl⟩ := hgroup group hmem
    exact List.pairwise_lt_range.filter _
  have hordered : sets.classes.Pairwise fun earlier later =>
      ∃ x ∈ earlier, ∀ y ∈ later, x < y := by
    rw [hclasses, List.pairwise_map]
    exact pairwise_image List.pairwise_lt_range
  have hmember : ∀ group ∈ sets.classes, ∀ x ∈ group, ∀ y,
      y ∈ group ↔ y < sets.size ∧ sets.Same x y := by
    intro group hmem x hx y
    obtain ⟨k, _, rfl⟩ := hgroup group hmem
    obtain ⟨_, rfl⟩ := mem_withKey.1 hx
    rw [mem_withKey, List.mem_range, Same, eq_comm]
  refine ⟨?_, ?_, hmember, hascending, hordered⟩
  · have hnodup : sets.classes.flatten.Nodup := by
      rw [List.nodup_flatten]
      refine ⟨fun group hmem => (hascending group hmem).imp Nat.ne_of_lt, ?_⟩
      rw [hclasses, List.pairwise_map]
      refine (nodup_image _).imp ?_
      intro k l hne x hk hl
      exact hne ((mem_withKey.1 hk).2.symm.trans (mem_withKey.1 hl).2)
    refine (List.perm_ext_iff_of_nodup hnodup List.nodup_range).2 ?_
    intro x
    rw [mem_flatten_classes, List.mem_range]
  · intro group hmem
    obtain ⟨k, hk, rfl⟩ := hgroup group hmem
    exact withKey_ne_nil hk

end LexGen.DisjointSets
