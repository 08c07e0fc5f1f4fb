import LexGen.Proofs.DisjointSets.Calls

/-!
# Ranks and the loops of a look-up

A look-up has two loops, which are bounded here by nothing but their own conditions: one follows the
pointers to a root (`DisjointSets.Climbs`), the other one goes the same way again and lets each
element point at the root (`DisjointSets.Shortens`). Each step leads to an element of greater rank,
the steps of the second loop too, since it changes the pointer of an element only after it has read
it. So there are at most as many steps as the rank of the root, and that rank is small: a root of
rank `r` has `2 ^ r` elements in its class or more, however the ways to it are shortened.

With less than `2 ^ 64` elements a rank fits into a byte with much to spare. Where ranks are kept in
bytes that wrap around (`DisjointSets.linkBytes`), all calls do what they do without bounds
(`DisjointSets.afterBytes_eq`).
-/

namespace LexGen.DisjointSets

/-! ## The loops -/

/-- The loop to the root, with the number of its steps. Every element on the way has a pointer. -/
inductive Climbs (sets : DisjointSets) : Nat → Nat → Nat → Prop where
  | done {x : Nat} : sets.parents[x]? = some x → Climbs sets 0 x x
  | step {steps x next root : Nat} : sets.parents[x]? = some next → next ≠ x →
    Climbs sets steps next root → Climbs sets (steps + 1) x root

/-- The loop that lets the elements on the way point at the root, and the sets that it leaves. -/
inductive Shortens (root : Nat) : Nat → Nat → DisjointSets → DisjointSets → Prop where
  | done {x : Nat} {sets : DisjointSets} : sets.parents[x]? = some root →
    Shortens root 0 x sets sets
  | step {steps x next : Nat} {sets later : DisjointSets} : sets.parents[x]? = some next →
    next ≠ root → Shortens root steps next (sets.setParent x root) later →
      Shortens root (steps + 1) x sets later

variable {sets : DisjointSets}

theorem Climbs.unique {steps otherSteps x root other : Nat} (h : sets.Climbs steps x root)
    (hother : sets.Climbs otherSteps x other) : otherSteps = steps ∧ other = root := by
  induction h generalizing otherSteps with
  | done hself =>
    cases hother with
    | done => exact ⟨rfl, rfl⟩
    | step hnext hne =>
      rw [hself] at hnext
      exact absurd (Option.some.inj hnext).symm hne
  | step hnext hne _ ih =>
    cases hother with
    | done hself =>
      rw [hnext] at hself
      exact absurd (Option.some.inj hself) hne
    | step hnext' _ hrest =>
      rw [hnext] at hnext'
      cases hnext'
      obtain ⟨rfl, rfl⟩ := ih hrest
      exact ⟨rfl, rfl⟩

theorem Shortens.unique {root steps otherSteps x : Nat} {later other : DisjointSets}
    (h : Shortens root steps x sets later) (hother : Shortens root otherSteps x sets other) :
    otherSteps = steps ∧ other = later := by
  induction h generalizing otherSteps with
  | done hroot =>
    cases hother with
    | done => exact ⟨rfl, rfl⟩
    | step hnext hne =>
      rw [hroot] at hnext
      exact absurd (Option.some.inj hnext).symm hne
  | step hnext hne _ ih =>
    cases hother with
    | done hroot =>
      rw [hnext] at hroot
      exact absurd (Option.some.inj hroot) hne
    | step hnext' _ hrest =>
      rw [hnext] at hnext'
      cases hnext'
      obtain ⟨rfl, rfl⟩ := ih hrest
      exact ⟨rfl, rfl⟩

theorem getElem?_parents {x : Nat} (hx : x < sets.size) :
    sets.parents[x]? = some (sets.parent x) := by
  have hx' : x < sets.parents.size := hx
  rw [parent, Array.getD_eq_getD_getElem?, Array.getElem?_eq_getElem hx', Option.getD_some]

theorem above_setParent (sets : DisjointSets) (x target y : Nat) :
    (sets.setParent x target).above y = sets.above y := by
  rw [above, size_setParent]
  rfl

namespace WellFormed

/-- The loop to the root ends where the bounded one does. Each of its steps is to a greater rank. -/
theorem exists_climbs_rootWithin (h : sets.WellFormed) {bound x : Nat} (hx : x < sets.size)
    (hbound : (sets.above x).length ≤ bound) :
    ∃ steps, sets.Climbs steps x (sets.rootWithin bound x) ∧
      steps + sets.rank x ≤ sets.rank (sets.rootWithin bound x) := by
  induction bound generalizing x with
  | zero =>
    have hself : sets.parent x = x := h.parent_rootWithin hbound
    refine ⟨0, .done ?_, Nat.le_of_eq (Nat.zero_add _)⟩
    rw [getElem?_parents hx, hself]
  | succ bound ih =>
    rw [rootWithin]
    split
    next hself =>
      refine ⟨0, .done ?_, Nat.le_of_eq (Nat.zero_add _)⟩
      rw [getElem?_parents hx, hself]
    next hself =>
      have habove := h.length_above_lt hself
      have hrank := h.rank_lt x hself
      obtain ⟨steps, hclimbs, hsteps⟩ := ih (h.parent_lt x hx) (by omega)
      exact ⟨steps + 1, .step (getElem?_parents hx) hself hclimbs, by omega⟩

theorem exists_climbs (h : sets.WellFormed) {x : Nat} (hx : x < sets.size) :
    ∃ steps, sets.Climbs steps x (sets.root x) ∧
      steps + sets.rank x ≤ sets.rank (sets.root x) :=
  h.exists_climbs_rootWithin hx (length_above_le sets x)

/-- The second loop ends where the bounded one does. An element that points at the root of its class
from now on leaves the others on their way to it, and no rank changes. -/
theorem exists_shortens_compress (h : sets.WellFormed) {root bound x : Nat} (hx : x < sets.size)
    (hroot : sets.root x = root) (hbound : (sets.above x).length ≤ bound) :
    ∃ steps, Shortens root steps x sets (DisjointSets.compress root bound x sets) ∧
      steps + sets.rank x ≤ sets.rank root := by
  have hrank : sets.rank x ≤ sets.rank root := by
    obtain ⟨steps, _, hsteps⟩ := h.exists_climbs hx
    rw [hroot] at hsteps
    omega
  induction bound generalizing x sets with
  | zero =>
    have hself : sets.parent x = x := h.parent_rootWithin hbound
    refine ⟨0, .done ?_, by rwa [Nat.zero_add]⟩
    rw [getElem?_parents hx, hself, ← hroot, root_eq_self hself]
  | succ bound ih =>
    rw [DisjointSets.compress]
    split
    next hparent =>
      refine ⟨0, .done ?_, by rwa [Nat.zero_add]⟩
      rw [getElem?_parents hx, hparent]
    next hparent =>
      have hself : sets.parent x ≠ x := by
        intro hself
        rw [← hroot, root_eq_self hself] at hparent
        exact hparent hself
      obtain ⟨hwell, hroots⟩ := h.setParent_root hx
      rw [hroot] at hwell hroots
      have habove := h.length_above_lt hself
      have hgrown := h.rank_lt x hself
      have hnext : sets.parent x < (sets.setParent x root).size := by
        rw [size_setParent]
        exact h.parent_lt x hx
      have hnextRoot : (sets.setParent x root).root (sets.parent x) = root := by
        rw [hroots, h.root_parent, hroot]
      obtain ⟨climbed, _, hclimbed⟩ := hwell.exists_climbs hnext
      rw [hnextRoot, rank_setParent, rank_setParent] at hclimbed
      obtain ⟨steps, hshortens, hsteps⟩ := ih hwell hnext hnextRoot
        (by rw [above_setParent]; omega) (by rw [rank_setParent, rank_setParent]; omega)
      rw [rank_setParent, rank_setParent] at hsteps
      exact ⟨steps + 1, .step (getElem?_parents hx) hparent hshortens, by omega⟩

theorem exists_shortens (h : sets.WellFormed) {x : Nat} (hx : x < sets.size) :
    ∃ steps, Shortens (sets.root x) steps x sets (sets.find x).2 ∧
      steps + sets.rank x ≤ sets.rank (sets.root x) :=
  h.exists_shortens_compress hx rfl (length_above_le sets x)

end WellFormed

/-! ## Ranks in bytes -/

/-- Join the classes of two roots, where ranks are bytes: behind the greatest byte comes 0. -/
def linkBytes (sets : DisjointSets) (a b : Nat) : DisjointSets :=
  if sets.rank a < sets.rank b then sets.setParent a b
  else if sets.rank b < sets.rank a then sets.setParent b a
  else
    let linked := sets.setParent b a
    { linked with
      ranks := linked.ranks.setIfInBounds a (UInt8.ofNat (linked.rank a) + 1).toNat }

/-- A union of two numbers where ranks are bytes. -/
def joinBytes (sets : DisjointSets) (a b : Nat) : Except Fault Bool × DisjointSets :=
  match sets.lookUp a with
  | (.error fault, sets) => (.error fault, sets)
  | (.ok rootA, sets) =>
    match sets.lookUp b with
    | (.error fault, sets) => (.error fault, sets)
    | (.ok rootB, sets) =>
      if rootA = rootB then (.ok false, sets) else (.ok true, sets.linkBytes rootA rootB)

def performBytes (sets : DisjointSets) : SetCall → Except Fault SetAnswer × DisjointSets
  | .union a b => let (answer, sets) := sets.joinBytes a b; (answer.map .joined, sets)
  | call => sets.perform call

/-- The sets after calls, where ranks are bytes. -/
def afterBytes (size : Nat) (calls : List SetCall) : DisjointSets :=
  calls.foldl (fun sets call => (sets.performBytes call).2) (singletons size)

theorem toNat_byte_add_one {rank : Nat} (h : rank + 1 < 2 ^ 8) :
    (UInt8.ofNat rank + 1).toNat = rank + 1 := by
  rw [UInt8.toNat_add, UInt8.toNat_ofNat', UInt8.toNat_one, Nat.mod_eq_of_lt (by omega : rank < 2 ^ 8),
    Nat.mod_eq_of_lt h]

theorem linkBytes_eq {a : Nat} (h : sets.rank a + 1 < 2 ^ 8) (b : Nat) :
    sets.linkBytes a b = sets.link a b := by
  simp only [linkBytes, link, rank_setParent, toNat_byte_add_one h]

theorem joinBytes_eq (hwell : sets.WellFormed) (h : ∀ x, sets.rank x + 1 < 2 ^ 8) (a b : Nat) :
    sets.joinBytes a b = sets.join a b := by
  have hfirst := keeps_lookUp hwell a
  have hsecond := keeps_lookUp hfirst.wellFormed b
  rw [joinBytes, join]
  rcases ha : sets.lookUp a with ⟨fault | rootA, found⟩
  · rfl
  · rw [ha] at hfirst hsecond
    dsimp only at hsecond ⊢
    rcases hb : found.lookUp b with ⟨fault | rootB, found'⟩
    · rfl
    · rw [hb] at hsecond
      dsimp only
      rw [linkBytes_eq]
      rw [(hfirst.trans hsecond).rank_eq]
      exact h rootA

theorem performBytes_eq (hwell : sets.WellFormed) (h : ∀ x, sets.rank x + 1 < 2 ^ 8)
    (call : SetCall) : sets.performBytes call = sets.perform call := by
  cases call with
  | union a b => rw [performBytes, perform, joinBytes_eq hwell h]
  | find x => rfl
  | classes => rfl

variable {size : Nat} {calls : List SetCall}

/-- The rank of an element is at most the binary logarithm of the number of elements. -/
theorem pow_rank_after_le {x : Nat} (hx : x < size) : 2 ^ (after size calls).rank x ≤ size := by
  obtain ⟨hwell, hsize⟩ := wellFormed_after size calls
  have hle := hwell.pow_rank_le (balanced_after size calls) (x := x) (by rwa [hsize])
  rwa [hsize] at hle

/-- With less than `2 ^ 64` elements no rank comes near the greatest byte. -/
theorem rank_after_lt (hsize : size < 2 ^ 64) (x : Nat) : (after size calls).rank x < 64 := by
  by_cases hx : x < size
  · exact (Nat.pow_lt_pow_iff_right (by decide)).1 (Nat.lt_of_le_of_lt (pow_rank_after_le hx) hsize)
  · have hranks : (after size calls).ranks.size = size := by
      obtain ⟨hwell, hsize⟩ := wellFormed_after size calls
      rw [hwell.size_ranks]
      exact hsize
    rw [rank, Array.getD_eq_getD_getElem?, Array.getElem?_eq_none (by omega)]
    decide

theorem afterBytes_eq (hsize : size < 2 ^ 64) : afterBytes size calls = after size calls := by
  induction calls using List.reverseRecOn with
  | nil => rfl
  | append_singleton calls call ih =>
    have hbytes : ∀ x, (after size calls).rank x + 1 < 2 ^ 8 := by
      intro x
      have hlt := @rank_after_lt size calls hsize x
      omega
    rw [after_append, ← performBytes_eq (wellFormed_after size calls).1 hbytes, ← ih]
    rw [afterBytes, List.foldl_append]
    rfl

/-! ## All calls -/

/-- What is known of the ranks and the ways after calls. -/
structure Ranked (size : Nat) (calls : List SetCall) (sets : DisjointSets) : Prop where
  rank_lt : ∀ x < size, sets.parent x ≠ x → sets.rank x < sets.rank (sets.parent x)
  /-- The class of a root of rank `r` has at least `2 ^ r` elements. -/
  pow_rank_le_length : ∀ x < size, sets.parent x = x → ∃ members : List Nat, members.Nodup ∧
    (∀ y, y ∈ members ↔ y < size ∧ Connected size calls y x) ∧ 2 ^ sets.rank x ≤ members.length
  pow_rank_le : ∀ x < size, 2 ^ sets.rank x ≤ size
  /-- The first loop ends in the root that the look-up answers. -/
  climbs : ∀ x < size, ∃ steps, 2 ^ steps ≤ size ∧ sets.Climbs steps x (sets.root x) ∧
    ∀ otherSteps other, sets.Climbs otherSteps x other → otherSteps = steps ∧ other = sets.root x
  /-- The second loop ends with the sets that the look-up leaves. -/
  shortens : ∀ x < size, ∃ steps, 2 ^ steps ≤ size ∧
    Shortens (sets.root x) steps x sets (sets.find x).2 ∧
    ∀ otherSteps other, Shortens (sets.root x) otherSteps x sets other →
      otherSteps = steps ∧ other = (sets.find x).2
  /-- A rank that grows is no greater than the greatest byte, so bytes do not wrap around. -/
  bytes : size < 2 ^ 64 → (∀ x, sets.rank x + 1 < 2 ^ 8) ∧ afterBytes size calls = sets

/-- The class of a root, counted. -/
theorem exists_members {x : Nat} (hx : x < size)
    (hself : (after size calls).parent x = x) : ∃ members : List Nat, members.Nodup ∧
      (∀ y, y ∈ members ↔ y < size ∧ Connected size calls y x) ∧
      2 ^ (after size calls).rank x ≤ members.length := by
  obtain ⟨_, hsize⟩ := wellFormed_after size calls
  have hroot := root_eq_self hself
  have hbalanced := balanced_after size calls x (by rwa [hsize])
  rw [hroot, weight, hsize, List.countP_eq_length_filter] at hbalanced
  refine ⟨_, List.nodup_range.filter _, ?_, hbalanced⟩
  intro y
  rw [List.mem_filter, List.mem_range, beq_iff_eq, ← same_after_iff, Same, hroot]

/-- After any calls ranks grow along the pointers and are small, both loops of a look-up end, and a
byte is enough for a rank. -/
theorem ranked_after (size : Nat) (calls : List SetCall) :
    Ranked size calls (after size calls) := by
  obtain ⟨hwell, hsize⟩ := wellFormed_after size calls
  -- A way of so many steps ends at a rank that is at least their number.
  have hsteps : ∀ {x steps : Nat}, x < size →
      steps + (after size calls).rank x ≤ (after size calls).rank ((after size calls).root x) →
      2 ^ steps ≤ size := by
    intro x steps hx hle
    have hroot := hwell.root_lt (hsize.symm ▸ hx)
    rw [hsize] at hroot
    calc 2 ^ steps
        ≤ 2 ^ (after size calls).rank ((after size calls).root x) :=
          Nat.pow_le_pow_right (by decide) (by omega)
      _ ≤ size := pow_rank_after_le hroot
  constructor
  case rank_lt => exact fun x _ => hwell.rank_lt x
  case pow_rank_le_length => exact fun x hx => exists_members hx
  case pow_rank_le => exact fun x hx => pow_rank_after_le hx
  case climbs =>
    intro x hx
    obtain ⟨steps, hclimbs, hle⟩ := hwell.exists_climbs (hsize.symm ▸ hx)
    exact ⟨steps, hsteps hx hle, hclimbs, fun _ _ hother => hclimbs.unique hother⟩
  case shortens =>
    intro x hx
    obtain ⟨steps, hshortens, hle⟩ := hwell.exists_shortens (hsize.symm ▸ hx)
    exact ⟨steps, hsteps hx hle, hshortens, fun _ _ hother => hshortens.unique hother⟩
  case bytes =>
    intro hlt
    refine ⟨?_, afterBytes_eq hlt⟩
    intro x
    have hrank := @rank_after_lt size calls hlt x
    omega

end LexGen.DisjointSets
