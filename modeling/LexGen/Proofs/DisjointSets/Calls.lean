import LexGen.Proofs.DisjointSets.Classes
import Mathlib.Logic.Relation

/-!
# Sequences of calls

Unions, look-ups and lists of classes are asked for one after the other, and each look-up shortens
ways for the later ones. A union of a number that is no element fails, and it may have looked up the
other element by then, so a failure leaves sets as well (`DisjointSets.join`, of which
`DisjointSets.union?` shows the successes).

Roots change only where a union joins two classes (`DisjointSets.keeps_perform`), so one call
connects what its union connects (`DisjointSets.same_perform_iff`), and after any calls two elements
have the same root exactly if the unions among them connect the two (`DisjointSets.same_after_iff`).
What the next call answers and does is then `DisjointSets.represents_after`.
-/

namespace LexGen

/-- What can be asked of disjoint sets. -/
inductive SetCall where
  | union (a b : Nat)
  | find (x : Nat)
  | classes
  deriving DecidableEq, Repr

inductive SetAnswer where
  /-- The classes were different. -/
  | joined (different : Bool)
  | root (x : Nat)
  | classes (groups : List (List Nat))
  deriving DecidableEq, Repr

namespace DisjointSets

open Discovery

/-! ## Calls with the sets that they leave -/

/-- The root of an element, with the sets that are left also where there is no such element. -/
def lookUp (sets : DisjointSets) (x : Nat) : Except Fault Nat × DisjointSets :=
  match sets.find? x with
  | .ok (root, sets) => (.ok root, sets)
  | .error fault => (.error fault, sets)

/-- Look up one element and then the other, and link their roots if they are different. -/
def join (sets : DisjointSets) (a b : Nat) : Except Fault Bool × DisjointSets :=
  match sets.lookUp a with
  | (.error fault, sets) => (.error fault, sets)
  | (.ok rootA, sets) =>
    match sets.lookUp b with
    | (.error fault, sets) => (.error fault, sets)
    | (.ok rootB, sets) =>
      if rootA = rootB then (.ok false, sets) else (.ok true, sets.link rootA rootB)

/-- The classes on the way to their list, with the place of each root whose class has begun. -/
structure Listing where
  sets : DisjointSets
  places : Array (Option Nat)
  groups : List (List Nat)

/-- Put an element into the class of its root, or let it begin a new one. -/
def Listing.add (listing : Listing) (x : Nat) : Listing :=
  let (root, sets) := listing.sets.find x
  match listing.places.getD root none with
  | some place => ⟨sets, listing.places, listing.groups.modify place (· ++ [x])⟩
  | none => ⟨sets, listing.places.setIfInBounds root (some listing.groups.length),
      listing.groups ++ [[x]]⟩

/-- Look up all elements one after the other and list their classes. -/
def list (sets : DisjointSets) : List (List Nat) × DisjointSets :=
  let listing := (List.range sets.size).foldl Listing.add ⟨sets, Array.replicate sets.size none, []⟩
  (listing.groups, listing.sets)

def perform (sets : DisjointSets) : SetCall → Except Fault SetAnswer × DisjointSets
  | .union a b => let (answer, sets) := sets.join a b; (answer.map .joined, sets)
  | .find x => let (answer, sets) := sets.lookUp x; (answer.map .root, sets)
  | .classes => let (groups, sets) := sets.list; (.ok (.classes groups), sets)

/-- The sets after calls, from singletons on. -/
def after (size : Nat) (calls : List SetCall) : DisjointSets :=
  calls.foldl (fun sets call => (sets.perform call).2) (singletons size)

/-- One of the calls is a union of these elements, and it has not failed. -/
def Joined (size : Nat) (calls : List SetCall) (a b : Nat) : Prop :=
  ∃ earlier later different, calls = earlier ++ .union a b :: later ∧
    ((after size earlier).perform (.union a b)).1 = .ok (.joined different)

/-- The unions connect the two, directly or through others. -/
def Connected (size : Nat) (calls : List SetCall) : Nat → Nat → Prop :=
  Relation.EqvGen (Joined size calls)

/-! ## What the calls do -/

/-- The sets have become others with the same roots and ranks. -/
structure Keeps (sets later : DisjointSets) : Prop where
  wellFormed : later.WellFormed
  size_eq : later.size = sets.size
  root_eq : ∀ x, later.root x = sets.root x
  rank_eq : ∀ x, later.rank x = sets.rank x

variable {sets : DisjointSets}

theorem Keeps.trans {later last : DisjointSets} (h : sets.Keeps later) (h' : later.Keeps last) :
    sets.Keeps last where
  wellFormed := h'.wellFormed
  size_eq := h'.size_eq.trans h.size_eq
  root_eq x := (h'.root_eq x).trans (h.root_eq x)
  rank_eq x := (h'.rank_eq x).trans (h.rank_eq x)

theorem Keeps.same_iff {later : DisjointSets} (h : sets.Keeps later) {u v : Nat} :
    later.Same u v ↔ sets.Same u v := by
  rw [Same, Same, h.root_eq, h.root_eq]

/-- The classes depend on the roots alone. -/
theorem Keeps.classes_eq {later : DisjointSets} (h : sets.Keeps later) :
    later.classes = sets.classes := by
  have hroot : later.root = sets.root := funext h.root_eq
  rw [DisjointSets.classes_eq, DisjointSets.classes_eq, hroot, h.size_eq]

theorem WellFormed.keeps (h : sets.WellFormed) : sets.Keeps sets :=
  ⟨h, rfl, fun _ => rfl, fun _ => rfl⟩

theorem lookUp_of_lt {x : Nat} (hx : x < sets.size) :
    sets.lookUp x = (.ok (sets.find x).1, (sets.find x).2) := by
  have hfind : sets.find? x = .ok (sets.find x) := by
    rw [find?, check, if_pos hx]
    rfl
  rw [lookUp, hfind]

theorem lookUp_of_not_lt {x : Nat} (hx : ¬ x < sets.size) :
    sets.lookUp x = (.error (.indexOutOfBounds sets.size x), sets) := by
  have hfind : sets.find? x = .error (.indexOutOfBounds sets.size x) := by
    rw [find?, check, if_neg hx]
    rfl
  rw [lookUp, hfind]

/-- A union of two elements. -/
theorem join_of_lt {a b : Nat} (ha : a < sets.size) (hb : b < sets.size) :
    sets.join a b = (.ok (sets.union a b).1, (sets.union a b).2) := by
  have hb' : b < (sets.find a).2.size := by rwa [size_find]
  rw [join, lookUp_of_lt ha]
  simp only
  rw [lookUp_of_lt hb']
  simp only [DisjointSets.union]
  by_cases heq : (sets.find a).1 = ((sets.find a).2.find b).1
  · rw [if_pos heq, if_pos heq]
  · rw [if_neg heq, if_neg heq]

/-- The union of numbers that may be no elements, without the sets that a failure leaves. -/
theorem union?_eq (a b : Nat) : sets.union? a b =
    match sets.join a b with
    | (.ok different, later) => .ok (different, later)
    | (.error fault, _) => .error fault := by
  by_cases ha : a < sets.size
  · by_cases hb : b < sets.size
    · rw [join_of_lt ha hb, union?, check, check, if_pos ha, if_pos hb]
      rfl
    · have hfind : (sets.find a).2.size = sets.size := size_find sets a
      rw [join, lookUp_of_lt ha, union?, check, check, if_pos ha, if_neg hb]
      simp only
      rw [lookUp_of_not_lt (hfind ▸ hb), hfind]
      rfl
  · rw [join, lookUp_of_not_lt ha, union?, check, if_neg ha]
    rfl

section WellFormed

variable (h : sets.WellFormed)

include h

theorem keeps_find {x : Nat} (hx : x < sets.size) : sets.Keeps (sets.find x).2 :=
  ⟨(h.find hx).1, size_find sets x, (h.find hx).2, rank_find sets x⟩

theorem keeps_lookUp (x : Nat) : sets.Keeps (sets.lookUp x).2 := by
  by_cases hx : x < sets.size
  · rw [lookUp_of_lt hx]
    exact keeps_find h hx
  · rw [lookUp_of_not_lt hx]
    exact h.keeps

/-- A union fails at the first number that is no element, and leaves the roots as they are. -/
theorem join_of_not_lt {a b : Nat} (hab : ¬ (a < sets.size ∧ b < sets.size)) :
    (sets.join a b).1 = .error (.indexOutOfBounds sets.size (if a < sets.size then b else a)) ∧
      sets.Keeps (sets.join a b).2 := by
  by_cases ha : a < sets.size
  · have hb : ¬ b < (sets.find a).2.size := by
      rw [size_find]
      exact fun hb => hab ⟨ha, hb⟩
    rw [join, lookUp_of_lt ha, if_pos ha]
    simp only
    rw [lookUp_of_not_lt hb, size_find]
    exact ⟨rfl, keeps_find h ha⟩
  · rw [join, lookUp_of_not_lt ha, if_neg ha]
    exact ⟨rfl, h.keeps⟩

end WellFormed

/-! ## The list of classes -/

/-- The places of the keys in a list. -/
def Places (keys : List Nat) (places : Array (Option Nat)) : Prop :=
  ∀ k < places.size, ∀ place, places.getD k none = some place ↔ keys[place]? = some k

theorem Places.append {keys : List Nat} {places : Array (Option Nat)} (h : Places keys places)
    {new : Nat} (hlt : new < places.size) (hnew : new ∉ keys) :
    Places (keys ++ [new]) (places.setIfInBounds new (some keys.length)) := by
  intro k hk place
  rw [Array.size_setIfInBounds] at hk
  have hold := h k hk place
  rw [Array.getD_eq_getD_getElem?] at hold ⊢
  rw [Array.getElem?_setIfInBounds, List.getElem?_append]
  by_cases heq : new = k
  · subst heq
    rw [if_pos rfl, if_pos hlt, Option.getD_some]
    split
    next hplace =>
      have hnot : keys[place]? ≠ some new := fun hmet => hnew (List.mem_of_getElem? hmet)
      have hne : keys.length ≠ place := by omega
      simp [hnot, hne]
    next hplace =>
      rw [List.getElem?_singleton]
      have hiff : keys.length = place ↔ place - keys.length = 0 := by omega
      simp [hiff]
  · rw [if_neg heq, hold]
    split
    next => rfl
    next hplace =>
      have hnone : keys[place]? = none := List.getElem?_eq_none (Nat.le_of_not_lt hplace)
      have hnot : [new][place - keys.length]? ≠ some k :=
        fun hmet => heq (List.mem_singleton.1 (List.mem_of_getElem? hmet)).symm
      simp [hnone, hnot]

/-- The classes of the first elements are listed, each at the place of its root. -/
structure Listing.Lists (sets : DisjointSets) (elements : List Nat) (listing : Listing) : Prop where
  keeps : sets.Keeps listing.sets
  groups_eq : listing.groups = (image sets.root elements).map (withKey sets.root elements)
  size_places : listing.places.size = sets.size
  places : Places (image sets.root elements) listing.places

/-- Where a key has its place, its list is changed there and no other list is. -/
theorem modify_map {keys : List Nat} {members : Nat → List Nat} {k x place : Nat}
    (hnodup : keys.Nodup) (hk : keys[place]? = some k) :
    (keys.map members).modify place (· ++ [x]) =
      keys.map fun other => members other ++ if k = other then [x] else [] := by
  apply List.ext_getElem?
  intro i
  rw [List.getElem?_modify, List.getElem?_map, List.getElem?_map]
  cases hi : keys[i]? with
  | none => simp
  | some other =>
    have hiff : place = i ↔ k = other := by
      constructor
      · rintro rfl
        rw [hk] at hi
        exact Option.some.inj hi
      · rintro rfl
        have hlt := (List.getElem?_eq_some_iff.1 hk).1
        exact (List.getElem?_inj hlt hnodup).1 (hk.trans hi.symm)
    by_cases heq : k = other
    · simp [heq, hiff.2 heq]
    · simp [heq, mt hiff.1 heq]

namespace Listing.Lists

variable {elements : List Nat} {listing : Listing}

theorem length_groups (hlists : listing.Lists sets elements) :
    listing.groups.length = (image sets.root elements).length := by
  rw [hlists.groups_eq, List.length_map]

theorem start (h : sets.WellFormed) :
    Lists sets [] ⟨sets, Array.replicate sets.size none, []⟩ where
  keeps := h.keeps
  groups_eq := rfl
  size_places := Array.size_replicate ..
  places k hk place := by
    rw [Array.size_replicate] at hk
    simp [image, extend, hk]

theorem add (hlists : listing.Lists sets elements) {x : Nat} (hx : x < sets.size) :
    (listing.add x).Lists sets (elements ++ [x]) := by
  have hx' : x < listing.sets.size := by
    rw [hlists.keeps.size_eq]
    exact hx
  have hfound : (listing.sets.find x).1 = sets.root x := hlists.keeps.root_eq x
  have hroot : sets.root x < listing.places.size := by
    rw [hlists.size_places, ← hlists.keeps.root_eq, ← hlists.keeps.size_eq]
    exact hlists.keeps.wellFormed.root_lt hx'
  have hkeeps := hlists.keeps.trans (keeps_find hlists.keeps.wellFormed hx')
  have hplaces := hlists.places (sets.root x) hroot
  simp only [Listing.add, hfound]
  cases hplace : listing.places.getD (sets.root x) none with
  | some place =>
    dsimp only
    have hmet := (hplaces place).1 hplace
    have hmem := List.mem_of_getElem? hmet
    have himage : image sets.root (elements ++ [x]) = image sets.root elements := by
      rw [image_append, List.map_singleton, extend_eq_self (by simpa using hmem)]
    refine ⟨hkeeps, ?_, hlists.size_places, ?_⟩
    · rw [hlists.groups_eq, modify_map (nodup_image elements) hmet, map_withKey_of_mem hmem]
    · rw [himage]
      exact hlists.places
  | none =>
    dsimp only
    have hnew : sets.root x ∉ image sets.root elements := by
      intro hmem
      obtain ⟨place, hmet⟩ := List.getElem?_of_mem hmem
      rw [(hplaces place).2 hmet] at hplace
      cases hplace
    refine ⟨hkeeps, ?_, ?_, ?_⟩
    · rw [hlists.groups_eq, map_withKey_of_not_mem hnew]
    · rw [Array.size_setIfInBounds, hlists.size_places]
    · rw [image_append, List.map_singleton, extend_singleton hnew, hlists.length_groups]
      exact hlists.places.append hroot hnew

theorem foldl (hlists : listing.Lists sets elements) {more : List Nat}
    (hmore : ∀ x ∈ more, x < sets.size) :
    (more.foldl Listing.add listing).Lists sets (elements ++ more) := by
  induction more generalizing elements listing with
  | nil =>
    rw [List.append_nil]
    exact hlists
  | cons x more ih =>
    obtain ⟨hx, hmore⟩ := List.forall_mem_cons.1 hmore
    rw [List.foldl_cons, ← List.singleton_append, ← List.append_assoc]
    exact ih (hlists.add hx) hmore

end Listing.Lists

/-- Looking up all elements gives the list of the classes and leaves the roots as they are. -/
theorem list_eq (h : sets.WellFormed) : sets.list.1 = sets.classes ∧ sets.Keeps sets.list.2 := by
  have hlists := (Listing.Lists.start h).foldl fun x hx => List.mem_range.1 hx
  rw [List.nil_append] at hlists
  refine ⟨?_, hlists.keeps⟩
  rw [classes_eq]
  exact hlists.groups_eq

/-! ## Steps and runs -/

theorem perform_find {x : Nat} (hx : x < sets.size) :
    (sets.perform (.find x)).1 = .ok (.root (sets.root x)) := by
  rw [perform, lookUp_of_lt hx]
  rfl

theorem perform_union {a b : Nat} (ha : a < sets.size) (hb : b < sets.size) :
    sets.perform (.union a b) = (.ok (.joined (sets.union a b).1), (sets.union a b).2) := by
  rw [perform, join_of_lt ha hb]
  rfl

theorem perform_find_of_not_lt {x : Nat} (hx : ¬ x < sets.size) :
    (sets.perform (.find x)).1 = .error (.indexOutOfBounds sets.size x) := by
  rw [perform, lookUp_of_not_lt hx]
  rfl

theorem perform_union_of_not_lt (h : sets.WellFormed) {a b : Nat}
    (hab : ¬ (a < sets.size ∧ b < sets.size)) : (sets.perform (.union a b)).1 =
      .error (.indexOutOfBounds sets.size (if a < sets.size then b else a)) := by
  show (sets.join a b).1.map SetAnswer.joined = _
  rw [(join_of_not_lt h hab).1]
  rfl

section WellFormed

variable (h : sets.WellFormed)

include h

theorem perform_classes : (sets.perform .classes).1 = .ok (.classes sets.classes) := by
  rw [perform, ← (list_eq h).1]

/-- Only a union of two elements changes roots. -/
theorem keeps_perform {call : SetCall}
    (hcall : ∀ a b, call = .union a b → ¬ (a < sets.size ∧ b < sets.size)) :
    sets.Keeps (sets.perform call).2 := by
  cases call with
  | union a b => exact (join_of_not_lt h (hcall a b rfl)).2
  | find x => exact keeps_lookUp h x
  | classes => exact (list_eq h).2

/-- Every call is a union of two elements, or the roots stay. -/
theorem perform_cases (call : SetCall) :
    (∃ a b, call = .union a b ∧ a < sets.size ∧ b < sets.size) ∨
      (∀ a b, call = .union a b → ¬ (a < sets.size ∧ b < sets.size)) ∧
        sets.Keeps (sets.perform call).2 := by
  by_cases hcall : ∃ a b, call = .union a b ∧ a < sets.size ∧ b < sets.size
  · exact .inl hcall
  · have hnone : ∀ a b, call = .union a b → ¬ (a < sets.size ∧ b < sets.size) :=
      fun a b heq hab => hcall ⟨a, b, heq, hab⟩
    exact .inr ⟨hnone, keeps_perform h hnone⟩

theorem wellFormed_perform (call : SetCall) :
    (sets.perform call).2.WellFormed ∧ (sets.perform call).2.size = sets.size := by
  rcases perform_cases h call with ⟨a, b, rfl, ha, hb⟩ | ⟨_, hkeeps⟩
  · rw [perform_union ha hb]
    exact ⟨(h.union ha hb).1, size_union sets a b⟩
  · exact ⟨hkeeps.wellFormed, hkeeps.size_eq⟩

theorem balanced_perform (hbalanced : sets.Balanced) (call : SetCall) :
    (sets.perform call).2.Balanced := by
  rcases perform_cases h call with ⟨a, b, rfl, ha, hb⟩ | ⟨_, hkeeps⟩
  · rw [perform_union ha hb]
    exact h.balanced_union hbalanced ha hb
  · exact hbalanced.congr hkeeps.size_eq hkeeps.root_eq hkeeps.rank_eq

end WellFormed

theorem after_append (size : Nat) (calls : List SetCall) (call : SetCall) :
    after size (calls ++ [call]) = ((after size calls).perform call).2 := by
  rw [after, List.foldl_append]
  rfl

theorem wellFormed_after (size : Nat) (calls : List SetCall) :
    (after size calls).WellFormed ∧ (after size calls).size = size := by
  induction calls using List.reverseRecOn with
  | nil => exact ⟨(WellFormed.singletons size).1, size_singletons size⟩
  | append_singleton calls call ih =>
    obtain ⟨hwell, hsize⟩ := ih
    obtain ⟨hwell', hsize'⟩ := wellFormed_perform hwell call
    rw [after_append]
    exact ⟨hwell', hsize'.trans hsize⟩

theorem balanced_after (size : Nat) (calls : List SetCall) : (after size calls).Balanced := by
  induction calls using List.reverseRecOn with
  | nil => exact balanced_singletons size
  | append_singleton calls call ih =>
    rw [after_append]
    exact balanced_perform (wellFormed_after size calls).1 ih call

variable {size : Nat} {calls : List SetCall}

/-- Exactly the unions of two elements do not fail. -/
theorem joined_iff {a b : Nat} :
    Joined size calls a b ↔ .union a b ∈ calls ∧ a < size ∧ b < size := by
  constructor
  · rintro ⟨earlier, later, different, rfl, hanswer⟩
    refine ⟨by simp, ?_⟩
    obtain ⟨hwell, hsize⟩ := wellFormed_after size earlier
    by_contra hab
    rw [← hsize] at hab
    rw [perform_union_of_not_lt hwell hab] at hanswer
    cases hanswer
  · rintro ⟨hmem, ha, hb⟩
    obtain ⟨earlier, later, rfl⟩ := List.append_of_mem hmem
    obtain ⟨_, hsize⟩ := wellFormed_after size earlier
    refine ⟨earlier, later, ((after size earlier).union a b).1, rfl, ?_⟩
    rw [perform_union (hsize.symm ▸ ha) (hsize.symm ▸ hb)]

theorem connected_append {more : List SetCall} {u v : Nat} (h : Connected size calls u v) :
    Connected size (calls ++ more) u v := by
  refine h.mono ?_
  intro a b hab
  obtain ⟨hmem, hlt⟩ := joined_iff.1 hab
  exact joined_iff.2 ⟨List.mem_append_left _ hmem, hlt⟩

theorem same_equivalence (sets : DisjointSets) : Equivalence sets.Same where
  refl _ := rfl
  symm h := Eq.symm h
  trans h h' := Eq.trans h h'

/-- The two are in one class already, or the call is their union. -/
def Meets (sets : DisjointSets) (call : SetCall) (u v : Nat) : Prop :=
  sets.Same u v ∨ (call = .union u v ∧ u < sets.size ∧ v < sets.size)

theorem Meets.same (h : sets.WellFormed) {call : SetCall} {u v : Nat}
    (hmeets : sets.Meets call u v) : (sets.perform call).2.Same u v := by
  rcases hmeets with huv | ⟨rfl, hu, hv⟩
  · rcases perform_cases h call with ⟨a, b, rfl, ha, hb⟩ | ⟨_, hkeeps⟩
    · rw [perform_union ha hb]
      exact ((h.union ha hb).2 u v).2 (.inl huv)
    · exact hkeeps.same_iff.2 huv
  · rw [perform_union hu hv]
    exact ((h.union hu hv).2 u v).2 (.inr (.inl ⟨rfl, rfl⟩))

/-- One call connects the classes of before as its union does, if it is one. -/
theorem same_perform_iff (h : sets.WellFormed) {call : SetCall} {u v : Nat} :
    (sets.perform call).2.Same u v ↔ Relation.EqvGen (sets.Meets call) u v := by
  constructor
  · intro hsame
    rcases perform_cases h call with ⟨a, b, rfl, ha, hb⟩ | ⟨_, hkeeps⟩
    · have hold : ∀ {x y}, sets.Same x y → Relation.EqvGen (sets.Meets (.union a b)) x y :=
        fun hxy => .rel _ _ (.inl hxy)
      have hab : Relation.EqvGen (sets.Meets (.union a b)) a b := .rel _ _ (.inr ⟨rfl, ha, hb⟩)
      rw [perform_union ha hb] at hsame
      rcases ((h.union ha hb).2 u v).1 hsame with huv | ⟨hua, hbv⟩ | ⟨hub, hav⟩
      · exact hold huv
      · exact (hold hua).trans _ _ _ (hab.trans _ _ _ (hold hbv))
      · exact (hold hub).trans _ _ _ (hab.symm.trans _ _ _ (hold hav))
    · exact .rel _ _ (.inl (hkeeps.same_iff.1 hsame))
  · intro hmeets
    exact (same_equivalence _).eqvGen_iff.1 (hmeets.mono fun _ _ hxy => hxy.same h)

/-- After any calls two elements have the same root exactly if unions connect them. -/
theorem same_after_iff {u v : Nat} : (after size calls).Same u v ↔ Connected size calls u v := by
  induction calls using List.reverseRecOn generalizing u v with
  | nil =>
    have hroot := (WellFormed.singletons size).2
    constructor
    · intro hsame
      have huv : u = v := by rw [← hroot u, ← hroot v]; exact hsame
      rw [huv]
      exact .refl v
    · intro hconnected
      refine (same_equivalence _).eqvGen_iff.1 (hconnected.mono ?_)
      intro a b hab
      cases (joined_iff.1 hab).1
  | append_singleton calls call ih =>
    obtain ⟨hwell, hsize⟩ := wellFormed_after size calls
    rw [after_append, same_perform_iff hwell]
    constructor
    · intro huv
      refine (Relation.EqvGen.is_equivalence _).eqvGen_iff.1 (huv.mono ?_)
      rintro x y (hxy | ⟨rfl, hx, hy⟩)
      · exact connected_append (ih.1 hxy)
      · rw [hsize] at hx hy
        exact .rel _ _ (joined_iff.2 ⟨by simp, hx, hy⟩)
    · refine fun huv => huv.mono ?_
      intro x y hxy
      obtain ⟨hmem, hx, hy⟩ := joined_iff.1 hxy
      rcases List.mem_append.1 hmem with hmem | hmem
      · exact .inl (ih.2 (.rel _ _ (joined_iff.2 ⟨hmem, hx, hy⟩)))
      · rw [← hsize] at hx hy
        exact .inr ⟨(List.mem_singleton.1 hmem).symm, hx, hy⟩

/-- What the calls so far have made of the sets, and what the next call does to them. -/
structure Represents (size : Nat) (calls : List SetCall) (sets : DisjointSets) : Prop where
  root_eq_iff : ∀ a b, sets.root a = sets.root b ↔ Connected size calls a b
  find : ∀ x < size, (sets.perform (.find x)).1 = .ok (.root (sets.root x))
  find_fails : ∀ x, size ≤ x → (sets.perform (.find x)).1 = .error (.indexOutOfBounds size x)
  union : ∀ a < size, ∀ b < size, ∃ different,
    (sets.perform (.union a b)).1 = .ok (.joined different) ∧
      (different = true ↔ ¬ Connected size calls a b)
  /-- The two classes have one of the two roots, and the others have the root that they had. -/
  merges : ∀ a < size, ∀ b < size, ∃ top, (top = sets.root a ∨ top = sets.root b) ∧
    (∀ x, Connected size calls x a ∨ Connected size calls x b →
      (sets.perform (.union a b)).2.root x = top) ∧
    ∀ x, ¬ (Connected size calls x a ∨ Connected size calls x b) →
      (sets.perform (.union a b)).2.root x = sets.root x
  union_fails : ∀ a b, ¬ (a < size ∧ b < size) → (sets.perform (.union a b)).1 =
    .error (.indexOutOfBounds size (if a < size then b else a))
  classes : ∃ groups, (sets.perform .classes).1 = .ok (.classes groups) ∧
    Groups size (Connected size calls) groups
  /-- Any call that is no union of two elements. -/
  keeps : ∀ call, (∀ a b, call = .union a b → ¬ (a < size ∧ b < size)) →
    (∀ x, (sets.perform call).2.root x = sets.root x) ∧
      ((sets.perform call).2.perform .classes).1 = (sets.perform .classes).1
  /-- The rank of an element is a small number. -/
  pow_rank_le : ∀ x < size, 2 ^ sets.rank x ≤ size

theorem WellFormed.represents (h : sets.WellFormed) (hbalanced : sets.Balanced)
    (hsame : ∀ a b, sets.Same a b ↔ Connected sets.size calls a b) :
    Represents sets.size calls sets := by
  constructor
  case root_eq_iff => exact hsame
  case find => exact fun x hx => perform_find hx
  case find_fails => exact fun x hx => perform_find_of_not_lt (Nat.not_lt.2 hx)
  case union =>
    intro a ha b hb
    refine ⟨(sets.union a b).1, ?_, ?_⟩
    · rw [perform_union ha hb]
    · rw [h.union_fst_iff ha hb, hsame]
  case merges =>
    intro a ha b hb
    obtain ⟨_, top, htop, hroots⟩ := h.root_union ha hb
    have hiff : ∀ x, (sets.root x = sets.root a ∨ sets.root x = sets.root b) ↔
        (Connected sets.size calls x a ∨ Connected sets.size calls x b) :=
      fun x => or_congr (hsame x a) (hsame x b)
    refine ⟨top, htop, ?_, ?_⟩
    · intro x hx
      rw [perform_union ha hb, hroots, if_pos ((hiff x).2 hx)]
    · intro x hx
      rw [perform_union ha hb, hroots, if_neg (mt (hiff x).1 hx)]
  case union_fails => exact fun a b hab => perform_union_of_not_lt h hab
  case classes =>
    have hgroups := (groups_classes sets).congr fun x _ y _ => hsame x y
    exact ⟨sets.classes, perform_classes h, hgroups⟩
  case keeps =>
    intro call hcall
    have hkeeps := keeps_perform h hcall
    refine ⟨hkeeps.root_eq, ?_⟩
    rw [perform_classes hkeeps.wellFormed, perform_classes h, hkeeps.classes_eq]
  case pow_rank_le => exact fun x hx => h.pow_rank_le hbalanced hx

/-- After any calls, failing ones among them, the sets represent what their unions connect. -/
theorem represents_after (size : Nat) (calls : List SetCall) :
    Represents size calls (after size calls) := by
  obtain ⟨hwell, hsize⟩ := wellFormed_after size calls
  have hsame : ∀ a b, (after size calls).Same a b ↔
      Connected (after size calls).size calls a b := by
    intro a b
    rw [hsize]
    exact same_after_iff
  have hrepresents := hwell.represents (balanced_after size calls) hsame
  rwa [hsize] at hrepresents

-- The third union fails, and its look-up of 4 changes nothing that can be seen.
example : ((after 6 [.union 4 1, .union 2 5, .union 4 9, .union 5 4]).perform .classes).1 =
    .ok (.classes [[0], [1, 2, 4, 5], [3]]) := by decide

end DisjointSets

end LexGen
