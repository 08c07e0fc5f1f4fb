import LexGen.Proofs.Dfa.Trim
import Mathlib.Logic.Equiv.Defs

/-!
# Isomorphic automata

The canonical form of an automaton shows the part that can be reached up to isomorphism, all of it
and nothing else (`Dfa.canonical_eq_iff_renumbers`, `Dfa.isomorphic_iff_renumbers`). If a function
gives the states other numbers (`Dfa.Renumbers`), the search meets them in the same order
(`Dfa.Renumbers.reached_eq`), and so the forms are equal. The other way round, a form names states by
their places in the search, so states at the same place of equal forms are each other's counterparts
(`Dfa.renumbers_counterpart`).
-/

namespace LexGen.Dfa

/-! ## Places in the search -/

section

variable {dfa : Dfa}

/-- The search comes to a state exactly if it can be reached. -/
theorem reachable_iff_place {state : Nat} :
    dfa.Reachable state ↔ ∃ place : Nat, dfa.reached[place]? = some state := by
  rw [← mem_reached_iff, List.mem_iff_getElem?]

/-- The moves in a canonical form go to the places of the states. -/
theorem mem_moves_canonicalState {numbering : List Nat} (hnodup : numbering.Nodup) {state : Nat}
    {c : Char} {place : Nat} : (c, place) ∈ (dfa.canonicalState numbering state).moves ↔
      ∃ target, dfa.next? state c = some target ∧ numbering[place]? = some target := by
  simp only [canonicalState, List.mem_filterMap, Option.map_eq_some_iff,
    idxOf?_eq_some_iff_of_nodup hnodup, next?, Moves.next?_eq_some_iff]
  constructor
  · rintro ⟨⟨_, target⟩, hmove, _, hplace, heq⟩
    cases heq
    exact ⟨target, hmove, hplace⟩
  · rintro ⟨target, hmove, hplace⟩
    exact ⟨(c, target), hmove, place, hplace, rfl⟩

end

/-! ## Renumbered automata -/

/-- The function gives the states that can be reached other numbers, and a scanner sees no
difference. Nothing is said about priorities, about subsets and about all other states. -/
structure Renumbers (a b : Dfa) (number : Nat → Nat) : Prop where
  start_eq : number a.start = b.start
  injective : ∀ s t, a.Reachable s → a.Reachable t → number s = number t → s = t
  isAccepting_eq : ∀ s, a.Reachable s → b.isAccepting (number s) = a.isAccepting s
  tokenType_eq : ∀ s, a.Reachable s → b.tokenType (number s) = a.tokenType s
  moves_eq : ∀ s, a.Reachable s → b.moves (number s) = (a.moves s).renumber number

variable {a b : Dfa}

/-- A list with other names has everything at the same place. -/
theorem idxOf?_map {numbering : List Nat} {number : Nat → Nat} (hnodup : numbering.Nodup)
    (hnumber : ∀ s ∈ numbering, ∀ t ∈ numbering, number s = number t → s = t) {state : Nat}
    (hs : state ∈ numbering) :
    (numbering.map number).idxOf? (number state) = numbering.idxOf? state := by
  have hmap : (numbering.map number).Nodup := List.Nodup.map_on hnumber hnodup
  ext place
  rw [idxOf?_eq_some_iff_of_nodup hmap, idxOf?_eq_some_iff_of_nodup hnodup, List.getElem?_map,
    Option.map_eq_some_iff]
  constructor
  · rintro ⟨other, hother, heq⟩
    rw [hother, hnumber other (List.mem_of_getElem? hother) state hs heq]
  · intro hplace
    exact ⟨state, hplace, rfl⟩

namespace Renumbers

variable {number : Nat → Nat} (h : Renumbers a b number)

include h

theorem next?_eq {state : Nat} (hs : a.Reachable state) (c : Char) :
    b.next? (number state) c = (a.next? state c).map number := by
  rw [next?, h.moves_eq state hs, Moves.next?_renumber]
  rfl

theorem runFrom_eq {state : Nat} (hs : a.Reachable state) (word : List Char) :
    b.runFrom (number state) word = (a.runFrom state word).map number := by
  induction word generalizing state with
  | nil => rfl
  | cons c word ih =>
    rw [runFrom_cons, runFrom_cons, h.next?_eq hs]
    cases hnext : a.next? state c with
    | none => rfl
    | some next => exact ih (hs.next hnext)

theorem run_eq (word : List Char) : b.run word = (a.run word).map number := by
  rw [run, ← h.start_eq]
  exact h.runFrom_eq ⟨[], rfl⟩ word

theorem injective_of_mem_reached :
    ∀ s ∈ a.reached, ∀ t ∈ a.reached, number s = number t → s = t := by
  intro s hs t ht
  exact h.injective s t (mem_reached_iff.1 hs) (mem_reached_iff.1 ht)

/-- The search meets the states in the same order. -/
theorem reached_eq : b.reached = a.reached.map number := by
  have hnext : ∀ state ∈ a.reached,
      (b.moves (number state)).targets = (a.moves state).targets.map number := by
    intro state hs
    rw [h.moves_eq state (mem_reached_iff.1 hs), Moves.targets_renumber]
  rw [reached_eq_image a.explores_reached h.start_eq hnext]
  exact Discovery.image_of_injOn nodup_reached h.injective_of_mem_reached

theorem canonicalState_eq {state : Nat} (hs : state ∈ a.reached) :
    b.canonicalState b.reached (number state) = a.canonicalState a.reached state := by
  have hreachable := mem_reached_iff.1 hs
  rw [canonicalState, canonicalState, h.isAccepting_eq state hreachable,
    h.tokenType_eq state hreachable, h.moves_eq state hreachable, h.reached_eq]
  congr 1
  rw [Moves.renumber, List.filterMap_map]
  refine List.filterMap_congr ?_
  rintro ⟨c, target⟩ hmove
  have htarget : target ∈ a.reached := next?_mem_reached hs (Moves.next?_eq_some_iff.2 hmove)
  show ((a.reached.map number).idxOf? (number target)).map (c, ·) = _
  rw [idxOf?_map nodup_reached h.injective_of_mem_reached htarget]

/-- Other numbers make no difference to the canonical form. -/
theorem canonical_eq : a.canonical = b.canonical := by
  have hmap : (a.reached.map number).map (b.canonicalState b.reached) =
      a.reached.map fun state => b.canonicalState b.reached (number state) := List.map_map ..
  calc
    a.canonical = a.reached.map fun state => b.canonicalState b.reached (number state) :=
      List.map_congr_left fun _ hs => (h.canonicalState_eq hs).symm
    _ = b.reached.map (b.canonicalState b.reached) := by rw [← hmap, ← h.reached_eq]
    _ = b.canonical := rfl

theorem reachable {state : Nat} (hs : a.Reachable state) : b.Reachable (number state) := by
  obtain ⟨word, hword⟩ := hs
  exact ⟨word, by rw [h.run_eq, hword, Option.map_some]⟩

theorem exists_of_reachable {state : Nat} (hs : b.Reachable state) :
    ∃ source, a.Reachable source ∧ number source = state := by
  obtain ⟨word, hword⟩ := hs
  rw [h.run_eq] at hword
  obtain ⟨source, hsource, rfl⟩ := Option.map_eq_some_iff.1 hword
  exact ⟨source, ⟨word, hsource⟩, rfl⟩

end Renumbers

/-! ## Equal forms -/

/-- The state of the other automaton that stands at the same place of the search. -/
def counterpart (a b : Dfa) (state : Nat) : Nat :=
  ((a.reached.idxOf? state).bind (b.reached[·]?)).getD state

section

variable (h : a.canonical = b.canonical)

include h

theorem length_reached_eq : a.reached.length = b.reached.length := by
  have hlength := congrArg List.length h
  rwa [canonical, canonical, List.length_map, List.length_map] at hlength

theorem getElem?_counterpart {place state : Nat} (hs : a.reached[place]? = some state) :
    b.reached[place]? = some (counterpart a b state) := by
  have hlt : place < b.reached.length := by
    rw [← length_reached_eq h]
    exact (List.getElem?_eq_some_iff.1 hs).1
  have hplace : a.reached.idxOf? state = some place :=
    (idxOf?_eq_some_iff_of_nodup nodup_reached).2 hs
  rw [counterpart, hplace, Option.bind_some, List.getElem?_eq_getElem hlt, Option.getD_some]

theorem canonicalState_counterpart {place state : Nat} (hs : a.reached[place]? = some state) :
    b.canonicalState b.reached (counterpart a b state) = a.canonicalState a.reached state := by
  have hplace := congrArg (·[place]?) h
  simpa [canonical, hs, getElem?_counterpart h hs, eq_comm] using hplace

/-- Counterparts have moves to counterparts. -/
theorem next?_counterpart {place state : Nat} (hs : a.reached[place]? = some state) (c : Char) :
    b.next? (counterpart a b state) c = (a.next? state c).map (counterpart a b) := by
  -- The forms name the same place as the target, and the states there are counterparts.
  have hmoves : ∀ target, (c, target) ∈ (b.canonicalState b.reached (counterpart a b state)).moves ↔
      (c, target) ∈ (a.canonicalState a.reached state).moves := by
    rw [canonicalState_counterpart h hs]
    exact fun _ => Iff.rfl
  simp only [mem_moves_canonicalState nodup_reached] at hmoves
  have hreachable : a.Reachable state := reachable_iff_place.2 ⟨place, hs⟩
  have hcounterpart : b.Reachable (counterpart a b state) :=
    reachable_iff_place.2 ⟨place, getElem?_counterpart h hs⟩
  ext next
  rw [Option.map_eq_some_iff]
  constructor
  · intro hnext
    obtain ⟨target, htarget⟩ := reachable_iff_place.1 (hcounterpart.next hnext)
    obtain ⟨source, hsource, hplace⟩ := (hmoves target).1 ⟨next, hnext, htarget⟩
    have hsame := getElem?_counterpart h hplace
    rw [htarget] at hsame
    exact ⟨source, hsource, (Option.some.inj hsame).symm⟩
  · rintro ⟨source, hsource, rfl⟩
    obtain ⟨target, htarget⟩ := reachable_iff_place.1 (hreachable.next hsource)
    obtain ⟨other, hother, hplace⟩ := (hmoves target).2 ⟨source, hsource, htarget⟩
    rw [getElem?_counterpart h htarget] at hplace
    rwa [Option.some.inj hplace]

theorem renumbers_counterpart : Renumbers a b (counterpart a b) where
  start_eq := by
    have hstart := getElem?_counterpart h getElem?_reached_zero
    rw [getElem?_reached_zero] at hstart
    exact (Option.some.inj hstart).symm
  injective s t hs ht heq := by
    obtain ⟨i, hi⟩ := reachable_iff_place.1 hs
    obtain ⟨j, hj⟩ := reachable_iff_place.1 ht
    have hplace : b.reached.idxOf? (counterpart a b s) = some i :=
      (idxOf?_eq_some_iff_of_nodup nodup_reached).2 (getElem?_counterpart h hi)
    rw [heq, (idxOf?_eq_some_iff_of_nodup nodup_reached).2 (getElem?_counterpart h hj)] at hplace
    rw [Option.some.inj hplace, hi] at hj
    exact Option.some.inj hj
  isAccepting_eq s hs := by
    obtain ⟨i, hi⟩ := reachable_iff_place.1 hs
    exact congrArg CanonicalState.accepting (canonicalState_counterpart h hi)
  tokenType_eq s hs := by
    obtain ⟨i, hi⟩ := reachable_iff_place.1 hs
    exact congrArg CanonicalState.tokenType (canonicalState_counterpart h hi)
  moves_eq s hs := by
    obtain ⟨i, hi⟩ := reachable_iff_place.1 hs
    apply Moves.ext
    intro c
    rw [Moves.next?_renumber]
    exact next?_counterpart h hi c

end

/-- Forms are equal exactly if one automaton is the other with other numbers. -/
theorem canonical_eq_iff_renumbers : a.canonical = b.canonical ↔ ∃ number, Renumbers a b number :=
  ⟨fun h => ⟨_, renumbers_counterpart h⟩, fun ⟨_, h⟩ => h.canonical_eq⟩

/-! ## Isomorphisms -/

/-- Under a one-to-one correspondence of the states that can be reached a scanner sees no
difference. -/
structure IsIsomorphism (a b : Dfa)
    (f : {state // a.Reachable state} ≃ {state // b.Reachable state}) : Prop where
  start_eq : (f ⟨a.start, [], rfl⟩).1 = b.start
  isAccepting_eq : ∀ s, b.isAccepting (f s) = a.isAccepting s
  tokenType_eq : ∀ s, b.tokenType (f s) = a.tokenType s
  next?_iff : ∀ s t c, b.next? (f s) c = some (f t).1 ↔ a.next? s c = some t.1

def Isomorphic (a b : Dfa) : Prop := ∃ f, IsIsomorphism a b f

theorem Renumbers.isomorphic {number : Nat → Nat} (h : Renumbers a b number) :
    Isomorphic a b := by
  let f (s : {state // a.Reachable state}) : {state // b.Reachable state} :=
    ⟨number s, h.reachable s.2⟩
  have hbijective : Function.Bijective f := by
    constructor
    · intro s t hst
      exact Subtype.ext (h.injective s t s.2 t.2 (congrArg Subtype.val hst))
    · rintro ⟨t, ht⟩
      obtain ⟨s, hs, rfl⟩ := h.exists_of_reachable ht
      exact ⟨⟨s, hs⟩, rfl⟩
  refine ⟨Equiv.ofBijective f hbijective, h.start_eq, fun s => h.isAccepting_eq s s.2,
    fun s => h.tokenType_eq s s.2, ?_⟩
  intro s t c
  show b.next? (number s) c = some (number t) ↔ _
  rw [h.next?_eq s.2, Option.map_eq_some_iff]
  constructor
  · rintro ⟨next, hnext, heq⟩
    rw [hnext, h.injective next t (s.2.next hnext) t.2 heq]
  · intro hnext
    exact ⟨t, hnext, rfl⟩

namespace IsIsomorphism

variable {f : {state // a.Reachable state} ≃ {state // b.Reachable state}}
  (h : IsIsomorphism a b f)

open Classical in
/-- The correspondence as numbers. -/
noncomputable def number (f : {state // a.Reachable state} ≃ {state // b.Reachable state})
    (state : Nat) : Nat :=
  if hs : a.Reachable state then f ⟨state, hs⟩ else 0

theorem number_eq {state : Nat} (hs : a.Reachable state) : number f state = f ⟨state, hs⟩ :=
  dif_pos hs

include h

theorem renumbers : Renumbers a b (number f) where
  start_eq := by
    rw [number_eq ⟨[], rfl⟩]
    exact h.start_eq
  injective s t hs ht heq := by
    rw [number_eq hs, number_eq ht] at heq
    exact congrArg Subtype.val (f.injective (Subtype.ext heq))
  isAccepting_eq s hs := by
    rw [number_eq hs]
    exact h.isAccepting_eq ⟨s, hs⟩
  tokenType_eq s hs := by
    rw [number_eq hs]
    exact h.tokenType_eq ⟨s, hs⟩
  moves_eq s hs := by
    apply Moves.ext
    intro c
    rw [Moves.next?_renumber, number_eq hs]
    ext next
    rw [Option.map_eq_some_iff]
    constructor
    · intro hnext
      obtain ⟨t, ht⟩ := f.surjective ⟨next, (f ⟨s, hs⟩).2.next hnext⟩
      have hmove : a.next? s c = some t.1 := by
        rw [← h.next?_iff ⟨s, hs⟩, ht]
        exact hnext
      refine ⟨t, hmove, ?_⟩
      rw [number_eq t.2, ht]
    · rintro ⟨t, hmove, rfl⟩
      have ht : a.Reachable t := hs.next hmove
      rw [number_eq ht]
      exact (h.next?_iff ⟨s, hs⟩ ⟨t, ht⟩ c).2 hmove

end IsIsomorphism

theorem isomorphic_iff_renumbers : Isomorphic a b ↔ ∃ number, Renumbers a b number :=
  ⟨fun ⟨_, h⟩ => ⟨_, h.renumbers⟩, fun ⟨_, h⟩ => h.isomorphic⟩

/-! ## Runs -/

/-- On every word both get stuck, or both end in states that look the same. -/
def RunAlike (a b : Dfa) : Prop :=
  ∀ word, (a.run word = none ∧ b.run word = none) ∨
    ∃ s t, a.run word = some s ∧ b.run word = some t ∧
      a.isAccepting s = b.isAccepting t ∧ a.tokenType s = b.tokenType t

theorem Renumbers.runAlike {number : Nat → Nat} (h : Renumbers a b number) : RunAlike a b := by
  intro word
  rw [h.run_eq]
  cases hrun : a.run word with
  | none => exact .inl ⟨rfl, rfl⟩
  | some s =>
    have hs : a.Reachable s := ⟨word, hrun⟩
    exact .inr ⟨s, number s, rfl, rfl, (h.isAccepting_eq s hs).symm, (h.tokenType_eq s hs).symm⟩

/-- The canonical forms of two automata are equal exactly if the parts of them that can be reached
are isomorphic. Other numbers, other states, priorities and subsets make no difference, and the form
says what every run comes to. -/
theorem canonical_eq_iff_isomorphic (a b : Dfa) :
    (a.canonical = b.canonical ↔ Isomorphic a b) ∧
    (∀ number, Renumbers a b number → a.canonical = b.canonical) ∧
    (a.canonical = b.canonical → RunAlike a b) := by
  refine ⟨?_, fun _ h => h.canonical_eq, ?_⟩
  · rw [canonical_eq_iff_renumbers, isomorphic_iff_renumbers]
  · intro h
    obtain ⟨number, hnumber⟩ := canonical_eq_iff_renumbers.1 h
    exact hnumber.runAlike

/-- Of three automata that accept the words of odd length, the second one has other numbers, subsets
and priorities and a state more, and the third one has another token type. -/
theorem canonical_eq_iff_isomorphic_odd : ∃ a b c : Dfa, a.size = 2 ∧ b.size = 3 ∧
    a.canonical = b.canonical ∧ Isomorphic a b ∧ RunAlike a b ∧ ¬ Isomorphic a c := by
  let a : Dfa := ⟨#[
    ⟨.empty, ⟨[('x', 1)], by decide⟩, false, none⟩,
    ⟨.empty, ⟨[('x', 0)], by decide⟩, true, some ⟨⟨"odd"⟩, 7⟩⟩], 0, by decide, by decide⟩
  let b : Dfa := ⟨#[
    ⟨.ofList [4], ⟨[('x', 2)], by decide⟩, true, some ⟨⟨"odd"⟩, 3⟩⟩,
    ⟨.empty, ⟨[('y', 0)], by decide⟩, true, none⟩,
    ⟨.ofList [0, 6], ⟨[('x', 0)], by decide⟩, false, none⟩], 2, by decide, by decide⟩
  let c : Dfa := ⟨#[
    ⟨.empty, ⟨[('x', 1)], by decide⟩, false, none⟩,
    ⟨.empty, ⟨[('x', 0)], by decide⟩, true, some ⟨⟨"uneven"⟩, 7⟩⟩], 0, by decide, by decide⟩
  have hcases : ∀ s, a.Reachable s → s = 0 ∨ s = 1 := by
    intro s hs
    have hlt : s < 2 := hs.lt
    omega
  have hnumber : Renumbers a b fun s => 2 - 2 * s := by
    refine ⟨rfl, ?_, ?_, ?_, ?_⟩
    · intro s t hs ht heq
      rcases hcases s hs with rfl | rfl <;> rcases hcases t ht with rfl | rfl <;> cases heq <;> rfl
    all_goals
      intro s hs
      rcases hcases s hs with rfl | rfl <;> rfl
  obtain ⟨hiff, hrenumbered, hruns⟩ := canonical_eq_iff_isomorphic a b
  have hequal := hrenumbered _ hnumber
  refine ⟨a, b, c, rfl, rfl, hequal, hiff.1 hequal, hruns hequal, ?_⟩
  rw [← (canonical_eq_iff_isomorphic a c).1]
  decide

end LexGen.Dfa
