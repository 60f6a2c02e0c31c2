import FileSieve.Proofs.Tree.Walking

/-! # Where nodes stand

Equal nodes may stand at several places of a tree. A place is told by its address: the number of a
sibling on each level from the top down. In ascending order of their addresses the nodes stand in
pre-order. -/

namespace FileSieve.Tree

/-! ## Addresses -/

/-- The node at an address. -/
def nodeAt? : List Node → List Nat → Option Node
  | _, [] => none
  | tree, [i] => tree[i]?
  | tree, i :: j :: rest => tree[i]?.bind fun top => nodeAt? top.children (j :: rest)

/-- The address of the sibling behind the one at an address. -/
def nextSibling : List Nat → List Nat
  | [] => []
  | [i] => [i + 1]
  | i :: j :: rest => i :: nextSibling (j :: rest)

/-- The node at an address has a later sibling. -/
def IsFollowed (tree : List Node) (address : List Nat) : Prop :=
  (nodeAt? tree (nextSibling address)).isSome = true

/-- What an address becomes when one more sibling is put in front. -/
def shifted (address : List Nat) : List Nat :=
  address.modifyHead (· + 1)

mutual

/-- The addresses of what stands below a node, from its children on. -/
def addressesBelow : Node → List (List Nat)
  | .file _ _ => []
  | .directory _ _ children => addresses children

/-- The addresses of the nodes of a tree. -/
def addresses : List Node → List (List Nat)
  | [] => []
  | node :: rest => [0] :: ((addressesBelow node).map (0 :: ·) ++ (addresses rest).map shifted)

end

theorem addresses_cons (node : Node) (rest : List Node) :
    addresses (node :: rest) =
      [0] :: ((addresses node.children).map (0 :: ·) ++ (addresses rest).map shifted) := by
  cases node <;> rfl

/-! ## The node at an address -/

section

variable {node : Node} {rest : List Node} {address : List Nat}

theorem nodeAt?_first : nodeAt? (node :: rest) [0] = some node := rfl

theorem nodeAt?_below (h : address ≠ []) :
    nodeAt? (node :: rest) (0 :: address) = nodeAt? node.children address := by
  obtain ⟨i, more, rfl⟩ := List.exists_cons_of_ne_nil h
  rfl

theorem nodeAt?_beside : nodeAt? (node :: rest) (shifted address) = nodeAt? rest address := by
  match address with
  | [] => rfl
  | [i] => rfl
  | i :: j :: more => rfl

theorem ne_nil_of_isSome_nodeAt? {tree : List Node} (h : (nodeAt? tree address).isSome = true) :
    address ≠ [] := by
  rintro rfl
  cases h

theorem isFollowed_first : IsFollowed (node :: rest) [0] ↔ rest ≠ [] := by
  cases rest <;> simp [IsFollowed, nextSibling, nodeAt?]

theorem isFollowed_below (h : address ≠ []) :
    IsFollowed (node :: rest) (0 :: address) ↔ IsFollowed node.children address := by
  obtain ⟨i, more, rfl⟩ := List.exists_cons_of_ne_nil h
  have hne : nextSibling (i :: more) ≠ [] := by cases more <;> simp [nextSibling]
  rw [IsFollowed, nextSibling, nodeAt?_below hne, IsFollowed]

theorem isFollowed_beside :
    IsFollowed (node :: rest) (shifted address) ↔ IsFollowed rest address := by
  have hnext : nextSibling (shifted address) = shifted (nextSibling address) := by
    match address with
    | [] => rfl
    | [i] => rfl
    | i :: j :: more => rfl
  rw [IsFollowed, hnext, nodeAt?_beside, IsFollowed]

end

/-! ## All addresses -/

theorem mem_addresses_iff {tree : List Node} {address : List Nat} :
    address ∈ addresses tree ↔ (nodeAt? tree address).isSome = true := by
  induction tree using induction_cons generalizing address with
  | nil =>
    match address with
    | [] => simp [addresses, nodeAt?]
    | [i] => simp [addresses, nodeAt?]
    | i :: j :: rest => simp [addresses, nodeAt?]
  | cons node rest ihc ih =>
    rw [addresses_cons, List.mem_cons, List.mem_append, List.mem_map, List.mem_map]
    simp only [ihc, ih]
    constructor
    · rintro (rfl | ⟨below, hbelow, rfl⟩ | ⟨beside, hbeside, rfl⟩)
      · rfl
      · rwa [nodeAt?_below (ne_nil_of_isSome_nodeAt? hbelow)]
      · rwa [nodeAt?_beside]
    · intro h
      match address with
      | [] => cases h
      | 0 :: below =>
        by_cases hb : below = []
        · exact .inl (hb ▸ rfl)
        · exact .inr (.inl ⟨below, by rwa [nodeAt?_below hb] at h, rfl⟩)
      | (i + 1) :: below =>
        have hi : (i + 1) :: below = shifted (i :: below) := rfl
        rw [hi, nodeAt?_beside] at h
        exact .inr (.inr ⟨i :: below, h, rfl⟩)

theorem ne_nil_of_mem_addresses {tree : List Node} {address : List Nat}
    (h : address ∈ addresses tree) : address ≠ [] :=
  ne_nil_of_isSome_nodeAt? (mem_addresses_iff.1 h)

/-- The nodes at the addresses are those of the tree in pre-order. -/
theorem map_nodeAt?_addresses (tree : List Node) :
    (addresses tree).map (nodeAt? tree) = (nodes tree).map some := by
  induction tree using induction_cons with
  | nil => rfl
  | cons node rest ihc ih =>
    have hbelow : ((addresses node.children).map (0 :: ·)).map (nodeAt? (node :: rest)) =
        (nodes node.children).map some := by
      rw [← ihc, List.map_map]
      exact List.map_congr_left fun a ha => nodeAt?_below (ne_nil_of_mem_addresses ha)
    have hbeside : ((addresses rest).map shifted).map (nodeAt? (node :: rest)) =
        (nodes rest).map some := by
      rw [← ih, List.map_map]
      exact List.map_congr_left fun a _ => nodeAt?_beside
    rw [addresses_cons, nodes_cons, nodesOf_eq, List.map_cons, List.map_append, hbelow, hbeside,
      List.map_append, List.map_cons, nodeAt?_first, List.cons_append]

theorem zero_cons_lt_shifted {address : List Nat} (h : address ≠ []) (below : List Nat) :
    0 :: below < shifted address := by
  obtain ⟨i, more, rfl⟩ := List.exists_cons_of_ne_nil h
  exact List.cons_lt_cons_iff.2 (.inl (Nat.succ_pos i))

theorem shifted_lt_shifted {a b : List Nat} (h : a < b) : shifted a < shifted b := by
  cases a with
  | nil =>
    cases b with
    | nil => cases h
    | cons j bs => exact List.nil_lt_cons ..
  | cons i as =>
    cases b with
    | nil => cases h
    | cons j bs =>
      rw [List.cons_lt_cons_iff] at h
      exact List.cons_lt_cons_iff.2 (h.imp Nat.succ_lt_succ fun h => ⟨congrArg _ h.1, h.2⟩)

/-- An address comes before those below it, and those before the ones of later siblings. -/
theorem pairwise_addresses (tree : List Node) : (addresses tree).Pairwise (· < ·) := by
  induction tree using induction_cons with
  | nil => exact .nil
  | cons node rest ihc ih =>
    have hfirst : ∀ a ∈ (addresses node.children).map (0 :: ·) ++ (addresses rest).map shifted,
        [0] < a := by
      intro a ha
      rcases List.mem_append.1 ha with ha | ha
      · obtain ⟨below, hbelow, rfl⟩ := List.mem_map.1 ha
        obtain ⟨i, more, rfl⟩ := List.exists_cons_of_ne_nil (ne_nil_of_mem_addresses hbelow)
        exact List.cons_lt_cons_iff.2 (.inr ⟨rfl, List.nil_lt_cons ..⟩)
      · obtain ⟨beside, hbeside, rfl⟩ := List.mem_map.1 ha
        exact zero_cons_lt_shifted (ne_nil_of_mem_addresses hbeside) []
    rw [addresses_cons, List.pairwise_cons, List.pairwise_append, List.pairwise_map,
      List.pairwise_map]
    refine ⟨hfirst, ihc.imp ?_, ih.imp shifted_lt_shifted, ?_⟩
    · exact fun h => List.cons_lt_cons_iff.2 (.inr ⟨rfl, h⟩)
    · intro a ha b hb
      obtain ⟨below, -, rfl⟩ := List.mem_map.1 ha
      obtain ⟨beside, hbeside, rfl⟩ := List.mem_map.1 hb
      exact zero_cons_lt_shifted (ne_nil_of_mem_addresses hbeside) below

end FileSieve.Tree
