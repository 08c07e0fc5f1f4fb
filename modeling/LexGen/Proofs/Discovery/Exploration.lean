import LexGen.Discovery
import Mathlib.Data.List.Nodup
import Mathlib.Data.List.Perm.Subperm

/-!
# Complete explorations

`discover` stops when its bound is used up. `Explores` describes the same search without a bound:
it ends only when no found node is left to visit, so it has at most one result
(`Explores.unique`). A bound by the number of all nodes is large enough
(`explores_discover`), and a complete search finds exactly what the edges lead to
(`Explores.subset_of_mem`, `Explores.induction`). It comes to each node that it finds, and all that is
found by then stems from the nodes before this one (`Explores.exists_visit`).

The order of discovery is kept by every map of graphs: if the edges of `f node` are the images of
the edges of `node`, in their order, then the search of the image finds the images of the nodes,
each at its first occurrence (`Explores.image`).
-/

namespace LexGen.Discovery

/-- The search that has found `found` and visits from position `cursor` on ends with `result`. -/
inductive Explores {α : Type} [DecidableEq α] (next : α → List α) :
    (cursor : Nat) → (found result : List α) → Prop where
  | done {cursor : Nat} {found : List α} : found[cursor]? = none → Explores next cursor found found
  | visit {cursor : Nat} {found result : List α} {node : α} :
    found[cursor]? = some node → Explores next (cursor + 1) (extend found (next node)) result →
      Explores next cursor found result

variable {α β : Type}

/-! ## Adding nodes -/

section

variable [DecidableEq α]

theorem extend_append (found front back : List α) :
    extend found (front ++ back) = extend (extend found front) back :=
  List.foldl_append

/-- Known nodes are not added again. -/
theorem extend_eq_self {found nodes : List α} (h : nodes ⊆ found) : extend found nodes = found := by
  induction nodes with
  | nil => rfl
  | cons node rest ih =>
    have hm : node ∈ found := h (List.mem_cons_self ..)
    rw [extend, List.foldl_cons, if_pos hm]
    exact ih fun other ho => h (List.mem_cons_of_mem _ ho)

theorem extend_singleton {found : List α} {node : α} (h : node ∉ found) :
    extend found [node] = found ++ [node] := by
  simp [extend, h]

/-- Nodes that are new and different are all added. -/
theorem extend_eq_append {found nodes : List α} (h : (found ++ nodes).Nodup) :
    extend found nodes = found ++ nodes := by
  induction nodes generalizing found with
  | nil => simp [extend]
  | cons node rest ih =>
    have hsplit : found ++ node :: rest = (found ++ [node]) ++ rest := by simp
    have hnot : node ∉ found := by
      intro hm
      have hdisjoint := (List.nodup_append.1 h).2.2
      exact hdisjoint node hm node (List.mem_cons_self ..) rfl
    rw [extend, List.foldl_cons, if_neg hnot, ← extend, hsplit]
    exact ih (hsplit ▸ h)

/-! ## Completeness -/

theorem Explores.unique {next : α → List α} {cursor : Nat} {found result other : List α}
    (h : Explores next cursor found result) (ho : Explores next cursor found other) :
    result = other := by
  induction h with
  | done hn =>
    cases ho with
    | done => rfl
    | visit hs => rw [hn] at hs; cases hs
  | visit hs _ ih =>
    cases ho with
    | done hn => rw [hn] at hs; cases hs
    | visit ht h =>
      rw [hs] at ht
      cases ht
      exact ih h

theorem Explores.isPrefix {next : α → List α} {cursor : Nat} {found result : List α}
    (h : Explores next cursor found result) : found <+: result := by
  induction h with
  | done => exact List.prefix_refl _
  | visit _ _ ih => exact (isPrefix_extend ..).trans ih

theorem Explores.nodup {next : α → List α} {cursor : Nat} {found result : List α}
    (h : Explores next cursor found result) (hf : found.Nodup) : result.Nodup := by
  induction h with
  | done => exact hf
  | visit _ _ ih => exact ih (nodup_extend hf _)

/-- A bound is large enough if all nodes are in a list of at most that length. -/
theorem explores_discover {next : α → List α} {bound cursor : Nat} {found nodes : List α}
    (hnodup : found.Nodup) (hfound : found ⊆ nodes)
    (hnext : ∀ node ∈ nodes, next node ⊆ nodes) (hbound : nodes.length ≤ cursor + bound) :
    Explores next cursor found (discover next bound cursor found) := by
  induction bound generalizing cursor found with
  | zero =>
    have hlength : found.length ≤ nodes.length := (hnodup.subperm hfound).length_le
    exact .done (List.getElem?_eq_none (by omega))
  | succ bound ih =>
    unfold discover
    split
    next hn => exact .done hn
    next node hs =>
      have hnode : node ∈ nodes := hfound (List.mem_of_getElem? hs)
      refine .visit hs (ih (nodup_extend hnodup _) ?_ (by omega))
      intro other ho
      rcases mem_extend.1 ho with ho | ho
      · exact hfound ho
      · exact hnext node hnode ho

/-- A property that the edges hand on holds for all that is found. -/
theorem Explores.induction {next : α → List α} {cursor : Nat} {found result : List α}
    (h : Explores next cursor found result) {P : α → Prop} (hfound : ∀ node ∈ found, P node)
    (hnext : ∀ node, P node → ∀ target ∈ next node, P target) : ∀ node ∈ result, P node := by
  induction h with
  | done => exact hfound
  | @visit _ found _ node hs _ ih =>
    refine ih ?_
    intro other ho
    rcases mem_extend.1 ho with ho | ho
    · exact hfound other ho
    · exact hnext node (hfound node (List.mem_of_getElem? hs)) other ho

end

/-- The edges of the nodes before the cursor lead to found nodes. -/
def Visited (next : α → List α) (cursor : Nat) (found : List α) : Prop :=
  ∀ node ∈ found.take cursor, next node ⊆ found

theorem visited_zero (next : α → List α) (found : List α) : Visited next 0 found := by
  simp [Visited]

/-- Each found node is the first one, or the edges of a node before the cursor lead to it. -/
def Sourced (next : α → List α) (first : α) (cursor : Nat) (found : List α) : Prop :=
  ∀ node ∈ found, node = first ∨ ∃ source ∈ found.take cursor, node ∈ next source

theorem sourced_singleton (next : α → List α) (first : α) : Sourced next first 0 [first] :=
  fun _ hm => .inl (List.mem_singleton.1 hm)

section

variable [DecidableEq α]

/-- The nodes before the cursor keep their places. -/
theorem take_extend {found nodes : List α} {cursor : Nat} (h : cursor ≤ found.length) :
    (extend found nodes).take cursor = found.take cursor := by
  obtain ⟨added, ha⟩ := isPrefix_extend found nodes
  rw [← ha, List.take_append_of_le_length h]

/-- The nodes before the next position are those before the cursor and the one at it. -/
theorem take_succ_extend {found nodes : List α} {cursor : Nat} {node : α}
    (h : found[cursor]? = some node) :
    (extend found nodes).take (cursor + 1) = found.take cursor ++ [node] := by
  have hlt : cursor < found.length := (List.getElem?_eq_some_iff.1 h).1
  rw [take_extend hlt, List.take_add_one, h]
  rfl

/-- A visit keeps the edges of the visited nodes among the found ones. -/
theorem Visited.visit {next : α → List α} {cursor : Nat} {found : List α} {node : α}
    (h : Visited next cursor found) (hs : found[cursor]? = some node) :
    Visited next (cursor + 1) (extend found (next node)) := by
  intro other ho
  rw [take_succ_extend hs] at ho
  rcases List.mem_append.1 ho with ho | ho
  · exact fun target ht => mem_extend.2 (.inl (h other ho ht))
  · have heq : other = node := List.mem_singleton.1 ho
    exact fun target ht => mem_extend.2 (.inr (heq ▸ ht))

/-- In the end no edge leads out of what is found. -/
theorem Explores.subset_of_mem {next : α → List α} {cursor : Nat} {found result : List α}
    (h : Explores next cursor found result) (hv : Visited next cursor found) :
    ∀ node ∈ result, next node ⊆ result := by
  induction h with
  | @done cursor found hn =>
    have htake : found.take cursor = found := List.take_of_length_le (List.getElem?_eq_none_iff.1 hn)
    rw [Visited, htake] at hv
    exact hv
  | visit hs _ ih => exact ih (hv.visit hs)

/-! ## Where a node comes from -/

/-- A visit only adds what the edges of the visited node lead to. -/
theorem Sourced.visit {next : α → List α} {first : α} {cursor : Nat} {found : List α} {node : α}
    (h : Sourced next first cursor found) (hs : found[cursor]? = some node) :
    Sourced next first (cursor + 1) (extend found (next node)) := by
  intro other ho
  rw [take_succ_extend hs]
  rcases mem_extend.1 ho with ho | ho
  · refine (h other ho).imp_right ?_
    rintro ⟨source, hsource, hnext⟩
    exact ⟨source, List.mem_append_left _ hsource, hnext⟩
  · exact .inr ⟨node, List.mem_append_right _ (List.mem_singleton_self _), ho⟩

/-- Each node is visited when the search comes to its place. What is found by then stems from the
nodes before it, and what its edges lead to is added behind that. -/
theorem Explores.exists_visit {next : α → List α} {first node : α} {cursor i : Nat}
    {found result : List α} (h : Explores next cursor found result)
    (hsourced : Sourced next first cursor found) (hi : cursor ≤ i) (hnode : result[i]? = some node) :
    ∃ before, Sourced next first i before ∧ extend before (next node) <+: result := by
  induction h with
  | done hn =>
    have hge := List.getElem?_eq_none_iff.1 hn
    rw [List.getElem?_eq_none (Nat.le_trans hge hi)] at hnode
    cases hnode
  | @visit cursor found result visited hs hrest ih =>
    rcases Nat.eq_or_lt_of_le hi with rfl | hlt
    · obtain ⟨added, hadded⟩ := (isPrefix_extend found (next visited)).trans hrest.isPrefix
      have hlength : cursor < found.length := (List.getElem?_eq_some_iff.1 hs).1
      rw [← hadded, List.getElem?_append_left hlength, hs] at hnode
      cases hnode
      exact ⟨found, hsourced, hrest.isPrefix⟩
    · exact ih (hsourced.visit hs) hlt hnode

end

/-! ## Maps of graphs -/

variable [DecidableEq β]

/-- The images of the nodes, each at its first occurrence. -/
def image (f : α → β) (nodes : List α) : List β := extend [] (nodes.map f)

theorem mem_image {f : α → β} {nodes : List α} {node : β} :
    node ∈ image f nodes ↔ ∃ source ∈ nodes, f source = node := by
  simp [image, mem_extend]

theorem image_append (f : α → β) (front back : List α) :
    image f (front ++ back) = extend (image f front) (back.map f) := by
  rw [image, List.map_append, extend_append, image]

/-- The images of an extended list extend the images. -/
theorem image_extend [DecidableEq α] (f : α → β) (found nodes : List α) :
    image f (extend found nodes) = extend (image f found) (nodes.map f) := by
  induction nodes generalizing found with
  | nil => rfl
  | cons node rest ih =>
    have hstep : image f (extend found [node]) = extend (image f found) [f node] := by
      by_cases hm : node ∈ found
      · have hi : f node ∈ image f found := mem_image.2 ⟨node, hm, rfl⟩
        rw [extend_eq_self (by simpa using hm), extend_eq_self (by simpa using hi)]
      · rw [extend_singleton hm, image_append, List.map_singleton]
    have hsplit : node :: rest = [node] ++ rest := rfl
    rw [hsplit, extend_append, ih, hstep, ← extend_append, List.map_append, List.map_singleton]

/-- A new image stands behind those before it. -/
theorem getElem?_image {f : α → β} {front back : List α} {node : α}
    (h : f node ∉ image f front) :
    (image f (front ++ node :: back))[(image f front).length]? = some (f node) := by
  have hsplit : front ++ node :: back = (front ++ [node]) ++ back := by simp
  rw [hsplit, image_append, image_append, List.map_singleton, extend_singleton h]
  obtain ⟨added, ha⟩ := isPrefix_extend (image f front ++ [f node]) (back.map f)
  rw [← ha]
  simp

/-- Different nodes with different images keep their places. -/
theorem image_of_injOn {f : α → β} {nodes : List α} (hnodup : nodes.Nodup)
    (hf : ∀ a ∈ nodes, ∀ b ∈ nodes, f a = f b → a = b) : image f nodes = nodes.map f := by
  have hmap : (nodes.map f).Nodup := List.Nodup.map_on hf hnodup
  rw [image, extend_eq_append (by simpa using hmap), List.nil_append]

/-- The order of discovery is kept by a map of graphs. A node whose image is known already leads to
nothing new, since a visited node with that image has the same edges. -/
theorem Explores.image [DecidableEq α] {next : α → List α} {next' : β → List β} {f : α → β} {cursor : Nat}
    {found result : List α} (h : Explores next cursor found result)
    (hv : Visited next cursor found)
    (hnext : ∀ node ∈ result, next' (f node) = (next node).map f) :
    Explores next' (Discovery.image f (found.take cursor)).length (Discovery.image f found)
      (Discovery.image f result) := by
  induction h with
  | @done cursor found hn =>
    have htake : found.take cursor = found := List.take_of_length_le (List.getElem?_eq_none_iff.1 hn)
    rw [htake]
    exact .done (List.getElem?_eq_none (Nat.le_refl _))
  | @visit cursor found result node hs hrest ih =>
    have hresult : found ⊆ result := ((isPrefix_extend ..).trans hrest.isPrefix).subset
    have hnode : next' (f node) = (next node).map f := hnext node (hresult (List.mem_of_getElem? hs))
    have hrest' := ih (hv.visit hs) hnext
    rw [take_succ_extend hs, image_append, List.map_singleton, image_extend, ← hnode] at hrest'
    by_cases hm : f node ∈ Discovery.image f (found.take cursor)
    · obtain ⟨twin, htwin, heq⟩ := mem_image.1 hm
      have hknown : next' (f node) ⊆ Discovery.image f found := by
        have htaken : twin ∈ found := List.mem_of_mem_take htwin
        rw [← heq, hnext twin (hresult htaken)]
        intro target ht
        obtain ⟨source, hsource, rfl⟩ := List.mem_map.1 ht
        exact mem_image.2 ⟨source, hv twin htwin hsource, rfl⟩
      rw [extend_eq_self (by simpa using hm), extend_eq_self hknown] at hrest'
      exact hrest'
    · have hcut : found.take cursor ++ node :: found.drop (cursor + 1) = found := by
        have hdrop := @List.drop_eq_getElem?_toList_append _ found cursor
        rw [hs] at hdrop
        exact (congrArg (found.take cursor ++ ·) hdrop.symm).trans (List.take_append_drop ..)
      have hplace : (Discovery.image f (found.take cursor ++ node :: found.drop (cursor + 1)))[
          (Discovery.image f (found.take cursor)).length]? = some (f node) := getElem?_image hm
      rw [hcut] at hplace
      rw [extend_singleton hm, List.length_append, List.length_singleton] at hrest'
      exact .visit hplace hrest'

end LexGen.Discovery
