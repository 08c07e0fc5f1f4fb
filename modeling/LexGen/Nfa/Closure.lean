import LexGen.Nfa.Path

/-!
# Closures and runs are exact

The search of `Nfa.closure` finds the states that paths without a character lead to, and no
others (`mem_closure`). Its bound is enough because each step takes a state from the pending list
or sees a new one, and there are only as many to see as the automaton has states. So a run is in
the states that paths over its word lead to (`mem_of_run`), and it ends early exactly if no path
reads the word (`run_eq_none_iff`).
-/

namespace LexGen.Nfa

/-- The numbers below `n` that are not in the set. -/
def unseen (n : Nat) (set : StateSet) : List Nat := (List.range n).filter (decide <| ¬ · ∈ set)

theorem unseen_insert (n state : Nat) (set : StateSet) :
    unseen n (set.insert state) = (unseen n set).filter (decide <| · ≠ state) := by
  simp only [unseen, List.filter_filter]
  congr 1
  funext other
  simp [not_or]

theorem length_unseen_insert_lt {n state : Nat} {set : StateSet} (hs : state < n)
    (hn : ¬ state ∈ set) : (unseen n (set.insert state)).length < (unseen n set).length := by
  rw [unseen_insert]
  exact List.length_filter_lt_length_iff_exists.2
    ⟨state, by simp [unseen, hs, hn], by simp⟩

/-! ## Marking -/

theorem mem_seen_foldl_mark {next : List Nat} {search : List Nat × StateSet} {state : Nat} :
    state ∈ (next.foldl mark search).2 ↔ state ∈ search.2 ∨ state ∈ next := by
  induction next generalizing search with
  | nil => simp
  | cons first rest ih =>
    rw [List.foldl_cons, ih, mark]
    split
    next h =>
      rw [List.mem_cons]
      constructor
      · rintro (h | h) <;> simp [h]
      · rintro (h | rfl | h) <;> simp [h]
    next =>
      rw [StateSet.mem_insert, List.mem_cons]
      constructor
      · rintro ((h | h) | h) <;> simp [h]
      · rintro (h | h | h) <;> simp [h]

theorem mem_pending_foldl_mark {next : List Nat} {search : List Nat × StateSet} {state : Nat}
    (h : state ∈ (next.foldl mark search).1) : state ∈ search.1 ∨ state ∈ next := by
  induction next generalizing search with
  | nil => exact .inl h
  | cons first rest ih =>
    rw [List.foldl_cons] at h
    rcases ih h with h | h
    · rw [mark] at h
      split at h
      · exact .inl h
      · rcases List.mem_cons.1 h with rfl | h
        · exact .inr (List.mem_cons_self ..)
        · exact .inl h
    · exact .inr (List.mem_cons_of_mem _ h)

theorem mem_foldl_mark_of_mem {next : List Nat} {search : List Nat × StateSet} {state : Nat}
    (h : state ∈ search.1) : state ∈ (next.foldl mark search).1 := by
  induction next generalizing search with
  | nil => exact h
  | cons first rest ih =>
    rw [List.foldl_cons]
    apply ih
    rw [mark]
    split
    · exact h
    · exact List.mem_cons_of_mem _ h

/-- What is newly seen is pending. -/
theorem seen_or_pending {next : List Nat} {search : List Nat × StateSet} {state : Nat}
    (h : state ∈ (next.foldl mark search).2) :
    state ∈ search.2 ∨ state ∈ (next.foldl mark search).1 := by
  induction next generalizing search with
  | nil => exact .inl h
  | cons first rest ih =>
    rw [List.foldl_cons] at h ⊢
    rcases ih h with h | h
    · rw [mark] at h
      split at h
      · exact .inl h
      next hn =>
        rcases StateSet.mem_insert.1 h with rfl | h
        · refine .inr (mem_foldl_mark_of_mem ?_)
          rw [mark, if_neg hn]
          exact List.mem_cons_self ..
        · exact .inl h
    · exact .inr h

/-- A new pending state is one less to see. -/
theorem measure_foldl_mark {n : Nat} {next : List Nat} {search : List Nat × StateSet}
    (h : ∀ state ∈ next, state < n) :
    (next.foldl mark search).1.length + (unseen n (next.foldl mark search).2).length ≤
      search.1.length + (unseen n search.2).length := by
  induction next generalizing search with
  | nil => exact Nat.le_refl _
  | cons first rest ih =>
    rw [List.foldl_cons]
    refine Nat.le_trans (ih fun state hs => h state (List.mem_cons_of_mem _ hs)) ?_
    rw [mark]
    split
    · exact Nat.le_refl _
    next hn =>
      have := length_unseen_insert_lt (h first (List.mem_cons_self ..)) hn
      simp only [List.length_cons]
      omega

/-! ## The search -/

theorem mem_saturate_of_mem {next : Nat → List Nat} {bound : Nat} {pending : List Nat}
    {seen : StateSet} {state : Nat} (h : state ∈ seen) :
    state ∈ saturate next bound pending seen := by
  induction bound generalizing pending seen with
  | zero => exact h
  | succ bound ih =>
    cases pending with
    | nil => exact h
    | cons first pending => exact ih (mem_seen_foldl_mark.2 (.inl h))

/-- A property that the edges hand on holds for all that is found. -/
theorem saturate_induction {next : Nat → List Nat} {bound : Nat} {pending : List Nat}
    {seen : StateSet} {P : Nat → Prop} (hseen : ∀ state, state ∈ seen → P state)
    (hpending : ∀ state ∈ pending, P state)
    (hnext : ∀ state target, P state → target ∈ next state → P target) :
    ∀ state, state ∈ saturate next bound pending seen → P state := by
  induction bound generalizing pending seen with
  | zero => exact hseen
  | succ bound ih =>
    cases pending with
    | nil => exact hseen
    | cons first pending =>
      have hf := hpending first (List.mem_cons_self ..)
      refine ih ?_ ?_
      · intro state hs
        rcases mem_seen_foldl_mark.1 hs with hs | hs
        · exact hseen state hs
        · exact hnext first state hf hs
      · intro state hs
        rcases mem_pending_foldl_mark hs with hs | hs
        · exact hpending state (List.mem_cons_of_mem _ hs)
        · exact hnext first state hf hs

/-- With a large enough bound nothing that an edge leads to is left out. -/
theorem saturate_closed {n : Nat} {next : Nat → List Nat} {bound : Nat} {pending : List Nat}
    {seen : StateSet} (hlt : ∀ state, ∀ target ∈ next state, target < n)
    (hbound : pending.length + (unseen n seen).length ≤ bound)
    (hseen : ∀ state, state ∈ seen → state ∈ pending ∨ ∀ target ∈ next state, target ∈ seen) :
    ∀ state, state ∈ saturate next bound pending seen →
      ∀ target ∈ next state, target ∈ saturate next bound pending seen := by
  induction bound generalizing pending seen with
  | zero =>
    have : pending = [] := List.length_eq_zero_iff.1 (by omega)
    intro state hs
    rcases hseen state hs with h | h
    · simp [this] at h
    · exact h
  | succ bound ih =>
    cases pending with
    | nil =>
      intro state hs
      rcases hseen state hs with h | h
      · simp at h
      · exact h
    | cons first pending =>
      have hmeasure : _ ≤ pending.length + (unseen n seen).length :=
        @measure_foldl_mark n _ (pending, seen) (hlt first)
      refine ih ?_ ?_
      · rw [List.length_cons] at hbound
        omega
      · intro state hs
        rcases seen_or_pending hs with hs | hs
        · rcases hseen state hs with h | h
          · rcases List.mem_cons.1 h with rfl | h
            · exact .inr fun target ht => mem_seen_foldl_mark.2 (.inr ht)
            · exact .inl (mem_foldl_mark_of_mem h)
          · exact .inr fun target ht => mem_seen_foldl_mark.2 (.inl (h target ht))
        · exact .inl hs

/-! ## Closures -/

/-- No silent edge leaves the set. -/
def Closed (nfa : Nfa) (set : StateSet) : Prop :=
  ∀ state, state ∈ set → ∀ next ∈ nfa.targets none state, next ∈ set

/-- A set that no silent edge leaves is left by no path without a character. -/
theorem Path.mem_of_closed {nfa : Nfa} {set : StateSet} {source target : Nat}
    (hclosed : nfa.Closed set) (h : nfa.Path source [] target) (hs : source ∈ set) :
    target ∈ set := by
  generalize hw : ([] : List Char) = word at h
  induction h with
  | nil => exact hs
  | silent ht _ ih => exact ih (hclosed _ hs _ ht) hw
  | read => cases hw

theorem mem_closure_of_mem {nfa : Nfa} {states : List Nat} {state : Nat} (h : state ∈ states) :
    state ∈ nfa.closure states := mem_saturate_of_mem (StateSet.mem_ofList.2 h)

theorem closure_closed {nfa : Nfa} {states : List Nat} : nfa.Closed (nfa.closure states) := by
  refine @saturate_closed nfa.size _ _ _ _ (fun _ _ ht => lt_of_mem_targets ht) ?_ ?_
  · refine Nat.add_le_add_left (Nat.le_trans (List.length_filter_le ..) ?_) _
    exact Nat.le_of_eq List.length_range
  · exact fun state hm => .inl (StateSet.mem_ofList.1 hm)

/-- A closure holds what paths without a character lead to. -/
theorem mem_closure {nfa : Nfa} {states : List Nat} {state : Nat} :
    state ∈ nfa.closure states ↔ ∃ source ∈ states, nfa.Path source [] state := by
  constructor
  · refine saturate_induction (P := fun state => ∃ source ∈ states, nfa.Path source [] state)
      ?_ ?_ ?_ state
    · exact fun state hs => ⟨state, StateSet.mem_ofList.1 hs, .nil state⟩
    · exact fun state hs => ⟨state, hs, .nil state⟩
    · rintro state target ⟨source, hs, hp⟩ ht
      exact ⟨source, hs, hp.append (.silent ht (.nil target))⟩
  · rintro ⟨source, hs, hp⟩
    exact hp.mem_of_closed closure_closed (mem_closure_of_mem hs)

theorem mem_gather {reaches : Array (Thunk StateSet)} {states : List Nat} {state : Nat} :
    state ∈ gather reaches states ↔
      ∃ source ∈ states, ∃ set, reaches[source]? = some set ∧ state ∈ set.get := by
  induction states with
  | nil => simp [gather]
  | cons source rest ih =>
    rw [gather, List.foldr_cons, ← gather, StateSet.mem_union, ih]
    cases h : reaches[source]? with
    | none => simp [h]
    | some set => simp [h]

/-- The table gives the closure of any states of the automaton. -/
theorem gather_reaches {nfa : Nfa} {states : List Nat} (h : ∀ state ∈ states, state < nfa.size) :
    gather nfa.reaches states = nfa.closure states := by
  refine StateSet.ext fun state => ?_
  rw [mem_gather, mem_closure]
  refine exists_congr fun source => and_congr_right fun hs => ?_
  simp only [reaches, Array.getElem?_map, Array.getElem?_range, h source hs, if_true,
    Option.map_some, Option.some.injEq, exists_eq_left']
  rw [Thunk.get, mem_closure]
  simp

theorem lt_of_mem_step {nfa : Nfa} {states : List Nat} {c : Char} {target : Nat}
    (h : target ∈ nfa.step states c) : target < nfa.size := by
  obtain ⟨source, _, ht⟩ := mem_step.1 h
  exact lt_of_mem_targets ht

/-- The table makes no difference to the moves. -/
theorem moveBy?_reaches (nfa : Nfa) : nfa.moveBy? nfa.reaches = nfa.move? := by
  funext states c
  rw [moveBy?, move?]
  split
  · rfl
  · rw [gather_reaches fun _ hs => lt_of_mem_step hs]

/-! ## Runs -/

/-- A path that reads a word of at least one character splits at its first reading edge. -/
theorem path_cons_iff {nfa : Nfa} {source target : Nat} {c : Char} {word : List Char} :
    nfa.Path source (c :: word) target ↔
      ∃ before after, nfa.Path source [] before ∧ after ∈ nfa.targets (some c) before ∧
        nfa.Path after word target := by
  constructor
  · intro h
    generalize hw : c :: word = text at h
    induction h with
    | nil => cases hw
    | silent ht _ ih =>
      obtain ⟨before, after, hb, hr, ha⟩ := ih hw
      exact ⟨before, after, .silent ht hb, hr, ha⟩
    | @read source next target d text ht hp _ =>
      cases hw
      exact ⟨source, next, .nil source, ht, hp⟩
  · rintro ⟨before, after, hb, hr, ha⟩
    exact hb.append (.read hr ha)

theorem Path.cut_cons {nfa : Nfa} {source target : Nat} {c : Char} {word : List Char}
    (h : nfa.Path source (c :: word) target) :
    ∃ middle, nfa.Path source [c] middle ∧ nfa.Path middle word target := path_append_iff.1 h

/-- From a closed set a move leads to a closed set, and to what one character leads to. -/
theorem mem_of_move? {nfa : Nfa} {set next : StateSet} {c : Char} (hset : nfa.Closed set)
    (h : nfa.move? set.members c = some next) (state : Nat) :
    state ∈ next ↔ ∃ source, source ∈ set ∧ nfa.Path source [c] state := by
  have hnext : next = nfa.closure (nfa.step set.members c) := by
    rw [move?] at h
    split at h
    · cases h
    next => exact (Option.some.inj h).symm
  subst hnext
  rw [mem_closure]
  constructor
  · rintro ⟨after, ha, hp⟩
    obtain ⟨before, hb, ht⟩ := mem_step.1 ha
    exact ⟨before, StateSet.mem_members.1 hb, .read ht hp⟩
  · rintro ⟨source, hs, hp⟩
    obtain ⟨before, after, hb, ht, ha⟩ := path_cons_iff.1 hp
    exact ⟨after, mem_step.2 ⟨before, StateSet.mem_members.2 (hb.mem_of_closed hset hs), ht⟩, ha⟩

theorem closed_of_move? {nfa : Nfa} {states : List Nat} {next : StateSet} {c : Char}
    (h : nfa.move? states c = some next) : nfa.Closed next := by
  rw [move?] at h
  split at h
  · cases h
  next => exact Option.some.inj h ▸ closure_closed

/-- A closed set has no move on a character exactly if no path from it reads the character. -/
theorem move?_eq_none_iff {nfa : Nfa} {set : StateSet} {c : Char} (hset : nfa.Closed set) :
    nfa.move? set.members c = none ↔
      ∀ source, source ∈ set → ∀ state, ¬ nfa.Path source [c] state := by
  constructor
  · intro h source hs state hp
    obtain ⟨before, after, hb, ht, _⟩ := path_cons_iff.1 hp
    have hm : after ∈ nfa.step set.members c :=
      mem_step.2 ⟨before, StateSet.mem_members.2 (hb.mem_of_closed hset hs), ht⟩
    rw [move?] at h
    split at h
    next he => simp [he] at hm
    next => cases h
  · intro h
    rw [move?]
    split
    · rfl
    next he =>
      obtain ⟨state, hm⟩ := List.exists_mem_of_ne_nil _ he
      obtain ⟨source, hs, ht⟩ := mem_step.1 hm
      exact absurd (.read ht (.nil state)) (h source (StateSet.mem_members.1 hs) state)

/-- Moves from a closed set, one for each character of a word, follow the paths over the word. -/
theorem mem_of_foldlM_move? {nfa : Nfa} {word : List Char} {set last : StateSet}
    (hset : nfa.Closed set)
    (h : word.foldlM (fun set c => nfa.move? set.members c) set = some last) (state : Nat) :
    state ∈ last ↔ ∃ source, source ∈ set ∧ nfa.Path source word state := by
  induction word generalizing set with
  | nil =>
    cases h
    exact ⟨fun hs => ⟨state, hs, .nil state⟩, fun ⟨_, hs, hp⟩ => hp.mem_of_closed hset hs⟩
  | cons c word ih =>
    rw [List.foldlM_cons] at h
    obtain ⟨next, hn, h⟩ := Option.bind_eq_some_iff.1 h
    rw [ih (closed_of_move? hn) h]
    constructor
    · rintro ⟨middle, hm, hp⟩
      obtain ⟨source, hs, hc⟩ := (mem_of_move? hset hn middle).1 hm
      exact ⟨source, hs, hc.append hp⟩
    · rintro ⟨source, hs, hp⟩
      obtain ⟨middle, hc, hp⟩ := hp.cut_cons
      exact ⟨middle, (mem_of_move? hset hn middle).2 ⟨source, hs, hc⟩, hp⟩

/-- Moves lead to sets with members. -/
theorem exists_mem_of_move? {nfa : Nfa} {states : List Nat} {next : StateSet} {c : Char}
    (h : nfa.move? states c = some next) : ∃ state, state ∈ next := by
  rw [move?] at h
  split at h
  · cases h
  next he =>
    obtain ⟨state, hm⟩ := List.exists_mem_of_ne_nil _ he
    exact ⟨state, Option.some.inj h ▸ mem_closure_of_mem hm⟩

theorem exists_mem_of_foldlM_move? {nfa : Nfa} {word : List Char} {set last : StateSet}
    (hset : ∃ state, state ∈ set)
    (h : word.foldlM (fun set c => nfa.move? set.members c) set = some last) :
    ∃ state, state ∈ last := by
  induction word generalizing set with
  | nil => exact Option.some.inj h ▸ hset
  | cons c word ih =>
    rw [List.foldlM_cons] at h
    obtain ⟨next, hn, h⟩ := Option.bind_eq_some_iff.1 h
    exact ih (exists_mem_of_move? hn) h

theorem foldlM_move?_eq_none {nfa : Nfa} {word : List Char} {set : StateSet}
    (hset : nfa.Closed set)
    (h : word.foldlM (fun set c => nfa.move? set.members c) set = none) :
    ∀ source, source ∈ set → ∀ state, ¬ nfa.Path source word state := by
  induction word generalizing set with
  | nil => cases h
  | cons c word ih =>
    intro source hs state hp
    obtain ⟨middle, hc, hp⟩ := hp.cut_cons
    rw [List.foldlM_cons] at h
    cases hn : nfa.move? set.members c with
    | none => exact (move?_eq_none_iff hset).1 hn source hs middle hc
    | some next =>
      rw [hn] at h
      exact ih (closed_of_move? hn) h middle ((mem_of_move? hset hn middle).2 ⟨source, hs, hc⟩)
        state hp

/-- A run ends in the states that paths over its word lead to. -/
theorem mem_of_run {nfa : Nfa} {word : List Char} {set : StateSet} (h : nfa.run word = some set)
    (state : Nat) : state ∈ set ↔ nfa.Path nfa.start word state := by
  rw [mem_of_foldlM_move? closure_closed h]
  constructor
  · rintro ⟨source, hs, hp⟩
    obtain ⟨start, hm, hb⟩ := mem_closure.1 hs
    exact List.mem_singleton.1 hm ▸ hb.append hp
  · exact fun hp => ⟨nfa.start, mem_closure_of_mem (List.mem_singleton_self _), hp⟩

/-- A run ends early exactly if no path reads its word. -/
theorem run_eq_none_iff {nfa : Nfa} {word : List Char} :
    nfa.run word = none ↔ ∀ state, ¬ nfa.Path nfa.start word state := by
  constructor
  · exact fun h => foldlM_move?_eq_none closure_closed h _
      (mem_closure_of_mem (List.mem_singleton_self _))
  · intro h
    cases hr : nfa.run word with
    | none => rfl
    | some set =>
      obtain ⟨state, hs⟩ := exists_mem_of_foldlM_move?
        ⟨nfa.start, mem_closure_of_mem (List.mem_singleton_self _)⟩ hr
      exact absurd ((mem_of_run hr state).1 hs) (h state)

/-- A state is in the set after a word exactly if a path with this word leads to it. -/
theorem exists_mem_run_iff {nfa : Nfa} {word : List Char} {state : Nat} :
    (∃ set, nfa.run word = some set ∧ state ∈ set) ↔ nfa.Path nfa.start word state := by
  constructor
  · rintro ⟨set, hrun, hmem⟩
    exact (mem_of_run hrun state).1 hmem
  · intro hpath
    cases hrun : nfa.run word with
    | none => exact absurd hpath (run_eq_none_iff.1 hrun state)
    | some set => exact ⟨set, rfl, (mem_of_run hrun state).2 hpath⟩

/-- The set holds an accepting state. -/
theorem acceptsIn_iff {nfa : Nfa} {set : StateSet} :
    nfa.acceptsIn set = true ↔ ∃ state, state ∈ set ∧ nfa.isAccepting state = true := by
  simp [acceptsIn, List.any_eq_true]

/-- The simulation accepts what the automaton recognizes. -/
theorem accepts_iff {nfa : Nfa} {word : List Char} :
    nfa.accepts word = true ↔ nfa.Recognizes word := by
  rw [accepts, Recognizes]
  cases h : nfa.run word with
  | none => simp [run_eq_none_iff.1 h]
  | some set => simp [acceptsIn_iff, mem_of_run h]

end LexGen.Nfa
