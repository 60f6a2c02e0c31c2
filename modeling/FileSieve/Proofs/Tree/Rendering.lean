import Mathlib.Data.List.Forall2
import FileSieve.Proofs.Tree.Addresses
import FileSieve.Tree.Render

/-! # Tree texts and what they tell

Each line of a tree text stands for one node. The columns in front of its connector have a fixed
width and tell of each ancestor whether siblings follow it, and the connector tells the same of the
node. What is read up to the connector cannot be mistaken for a part of the label, so that a text
tells its tree, except for the paths and for directories without children. -/

namespace FileSieve.Tree

variable {marker : Node → String} {tree : List Node}

/-! ## Lines -/

theorem lines_cons (lead : String) (node : Node) (rest : List Node) :
    lines marker lead (node :: rest) =
      (lead ++ connector rest.isEmpty ++ caption marker node) ::
        (lines marker (lead ++ gutter rest.isEmpty) node.children ++ lines marker lead rest) := by
  cases node <;> cases rest <;> simp [lines, linesOf, Node.children]

/-- What stands in front of all lines is put in front of each of them. -/
theorem lines_lead (lead : String) (tree : List Node) :
    lines marker lead tree = (lines marker "" tree).map (lead ++ ·) := by
  induction tree using induction_cons generalizing lead with
  | nil => rfl
  | cons node rest ihc ih =>
    rw [lines_cons, lines_cons, ihc (lead ++ _), ihc ("" ++ _), ih lead]
    simp [String.append_assoc, Function.comp_def]

theorem lines_top (node : Node) (rest : List Node) :
    lines marker "" (node :: rest) =
      (connector rest.isEmpty ++ caption marker node) ::
        ((lines marker "" node.children).map (gutter rest.isEmpty ++ ·) ++
          lines marker "" rest) := by
  rw [lines_cons, String.empty_append, String.empty_append, lines_lead (gutter _)]

/-! ## What a line tells -/

/-- The column of an ancestor, which stands on a level of its own. -/
def columnAt (level : Nat) (line : String) : List Char :=
  (line.toList.drop (4 * level)).take 4

/-- The connector behind the columns of so many ancestors. -/
def connectorAt (depth : Nat) (line : String) : List Char :=
  (line.toList.drop (4 * depth)).take 3

/-- What stands behind the connector. -/
def captionAt (depth : Nat) (line : String) : List Char :=
  line.toList.drop (4 * depth + 3)

/-- The number of ancestors of a node with an address. -/
def depthOf (address : List Nat) : Nat := address.length - 1

/-- Of two texts the first one is read exactly if something holds, and otherwise the second one. -/
def Marks (yes no : String) (p : Prop) (read : List Char) : Prop :=
  (read = yes.toList ↔ p) ∧ (read = no.toList ↔ ¬p)

/-- A line tells of the node at an address its caption and whether siblings follow it, and whether
siblings follow each of its ancestors. -/
structure Shows (marker : Node → String) (tree : List Node) (address : List Nat) (line : String) :
    Prop where
  caption : ∃ node, nodeAt? tree address = some node ∧
    captionAt (depthOf address) line = (caption marker node).toList
  connector : Marks "├─ " "└─ " (IsFollowed tree address) (connectorAt (depthOf address) line)
  column : ∀ level < depthOf address,
    Marks "│   " "    " (IsFollowed tree (address.take (level + 1))) (columnAt level line)

theorem marks_connector (rest : List Node) :
    Marks "├─ " "└─ " (rest ≠ []) (Tree.connector rest.isEmpty).toList := by
  cases rest <;> simp [Marks, Tree.connector]

theorem marks_gutter (rest : List Node) :
    Marks "│   " "    " (rest ≠ []) (gutter rest.isEmpty).toList := by
  cases rest <;> simp [Marks, gutter]

theorem connectorAt_zero (last : Bool) (text : String) :
    connectorAt 0 (Tree.connector last ++ text) = (Tree.connector last).toList := by
  cases last <;> simp [connectorAt, Tree.connector]

theorem captionAt_zero (last : Bool) (text : String) :
    captionAt 0 (Tree.connector last ++ text) = text.toList := by
  cases last <;> simp [captionAt, Tree.connector]

theorem shows_first (node : Node) (rest : List Node) :
    Shows marker (node :: rest) [0] (Tree.connector rest.isEmpty ++ Tree.caption marker node) where
  caption := ⟨node, rfl, captionAt_zero ..⟩
  connector := by
    rw [isFollowed_first, depthOf, List.length_singleton, Nat.sub_self, connectorAt_zero]
    exact marks_connector rest
  column level h := absurd h (Nat.not_lt_zero level)

theorem Shows.ne_nil {address : List Nat} {line : String} (h : Shows marker tree address line) :
    address ≠ [] := by
  obtain ⟨node, hnode, -⟩ := h.caption
  exact ne_nil_of_isSome_nodeAt? (by rw [hnode]; rfl)

theorem drop_gutter (last : Bool) (line : String) (n : Nat) :
    (gutter last ++ line).toList.drop (n + 4) = line.toList.drop n := by
  cases last <;> simp [gutter]

theorem columnAt_zero_gutter (last : Bool) (line : String) :
    columnAt 0 (gutter last ++ line) = (gutter last).toList := by
  cases last <;> simp [columnAt, gutter]

theorem columnAt_succ_gutter (last : Bool) (line : String) (level : Nat) :
    columnAt (level + 1) (gutter last ++ line) = columnAt level line := by
  rw [columnAt, Nat.mul_succ, drop_gutter, columnAt]

theorem connectorAt_succ_gutter (last : Bool) (line : String) (depth : Nat) :
    connectorAt (depth + 1) (gutter last ++ line) = connectorAt depth line := by
  rw [connectorAt, Nat.mul_succ, drop_gutter, connectorAt]

theorem captionAt_succ_gutter (last : Bool) (line : String) (depth : Nat) :
    captionAt (depth + 1) (gutter last ++ line) = captionAt depth line := by
  rw [captionAt, Nat.mul_succ, Nat.add_right_comm, drop_gutter, captionAt]

/-- What is shown below a node is shown behind a column for the node. -/
theorem Shows.below {node : Node} {address : List Nat} {line : String}
    (h : Shows marker node.children address line) (rest : List Node) :
    Shows marker (node :: rest) (0 :: address) (gutter rest.isEmpty ++ line) := by
  have hdepth : depthOf (0 :: address) = depthOf address + 1 := by
    have hpos := List.length_pos_iff.2 h.ne_nil
    rw [depthOf, depthOf, List.length_cons]
    omega
  constructor
  · rw [nodeAt?_below h.ne_nil, hdepth, captionAt_succ_gutter]
    exact h.caption
  · rw [isFollowed_below h.ne_nil, hdepth, connectorAt_succ_gutter]
    exact h.connector
  · intro level hl
    cases level with
    | zero =>
      rw [columnAt_zero_gutter, List.take_succ_cons, List.take_zero, isFollowed_first]
      exact marks_gutter rest
    | succ level =>
      have htake : address.take (level + 1) ≠ [] := by simpa using h.ne_nil
      rw [columnAt_succ_gutter, List.take_succ_cons, isFollowed_below htake]
      exact h.column level (by omega)

theorem depthOf_shifted (address : List Nat) : depthOf (shifted address) = depthOf address := by
  rw [depthOf, shifted, List.length_modifyHead, depthOf]

theorem take_shifted (address : List Nat) (level : Nat) :
    (shifted address).take (level + 1) = shifted (address.take (level + 1)) := by
  cases address <;> rfl

theorem Shows.beside {rest : List Node} {address : List Nat} {line : String}
    (h : Shows marker rest address line) (node : Node) :
    Shows marker (node :: rest) (shifted address) line := by
  constructor
  · rw [nodeAt?_beside, depthOf_shifted]
    exact h.caption
  · rw [isFollowed_beside, depthOf_shifted]
    exact h.connector
  · intro level hl
    rw [take_shifted, isFollowed_beside]
    exact h.column level (depthOf_shifted address ▸ hl)

/-- The lines tell of the nodes in the order of their addresses. -/
theorem forall₂_shows_lines (marker : Node → String) (tree : List Node) :
    List.Forall₂ (Shows marker tree) (addresses tree) (lines marker "" tree) := by
  induction tree using induction_cons with
  | nil => exact .nil
  | cons node rest ihc ih =>
    rw [addresses_cons, lines_top]
    refine .cons (shows_first node rest) (List.rel_append ?_ ?_)
    · rw [List.forall₂_map_left_iff, List.forall₂_map_right_iff]
      exact ihc.imp fun address line h => h.below rest
    · rw [List.forall₂_map_left_iff]
      exact ih.imp fun address line h => h.beside node

/-! ## Reading a text back -/

/-- Trees with the same shape, and with the same kinds and labels in the same places. -/
inductive Alike : List Node → List Node → Prop
  | nil : Alike [] []
  | cons {node other : Node} {rest others : List Node} (kind : node.isFile = other.isFile)
      (label : node.label = other.label) (below : Alike node.children other.children)
      (beside : Alike rest others) : Alike (node :: rest) (other :: others)

theorem caption_noMarker (node : Node) : Tree.caption noMarker node = node.label := rfl

theorem Alike.isEmpty_eq {tree other : List Node} (h : Alike tree other) :
    tree.isEmpty = other.isEmpty := by
  cases h <;> rfl

theorem Alike.lines_eq {tree other : List Node} (h : Alike tree other) :
    lines noMarker "" tree = lines noMarker "" other := by
  induction h with
  | nil => rfl
  | cons kind label below beside ihb ih =>
    rw [lines_top, lines_top, beside.isEmpty_eq, ihb, ih]
    rw [caption_noMarker, caption_noMarker, label]

/-- A line begins with the column of an ancestor. -/
def isIndented (line : String) : Bool :=
  line.toList.head?.any fun c => c = '│' || c = ' '

theorem isIndented_gutter (last : Bool) (line : String) :
    isIndented (gutter last ++ line) = true := by
  cases last <;> simp [isIndented, gutter]

theorem isIndented_connector (last : Bool) (text : String) :
    isIndented (Tree.connector last ++ text) = false := by
  cases last <;> simp [isIndented, Tree.connector]

/-- The lines below a first node end where a line begins with a connector. -/
theorem takeWhile_isIndented (last : Bool) (below : List String) (rest : List Node) :
    (below.map (gutter last ++ ·) ++ lines marker "" rest).takeWhile isIndented =
      below.map (gutter last ++ ·) := by
  have hbelow : ∀ line ∈ below.map (gutter last ++ ·), isIndented line = true := by
    intro line hline
    obtain ⟨short, -, rfl⟩ := List.mem_map.1 hline
    exact isIndented_gutter last short
  rw [List.takeWhile_append_of_pos hbelow]
  cases rest with
  | nil => exact List.append_nil _
  | cons node rest =>
    rw [lines_top, List.takeWhile_cons_of_neg, List.append_nil]
    simp [isIndented_connector]

theorem connector_injective : Function.Injective Tree.connector := by
  intro last last'
  cases last <;> cases last' <;> simp [Tree.connector]

theorem connector_append_inj {last last' : Bool} {text text' : String}
    (h : Tree.connector last ++ text = Tree.connector last' ++ text') :
    last = last' ∧ text = text' := by
  have hlast := congrArg (connectorAt 0) h
  have htext := congrArg (captionAt 0) h
  rw [connectorAt_zero, connectorAt_zero, String.toList_inj] at hlast
  rw [captionAt_zero, captionAt_zero, String.toList_inj] at htext
  exact ⟨connector_injective hlast, htext⟩

theorem isFile_eq_isEmpty {node : Node} (h : node.isFile = false → node.children ≠ []) :
    node.isFile = node.children.isEmpty := by
  cases node with
  | file label path => rfl
  | directory label path children => simpa [Node.isFile, Node.children] using h rfl

/-- Lines of trees in which no directory is empty tell the trees. -/
theorem alike_of_lines_eq {tree other : List Node}
    (ht : ∀ node ∈ nodes tree, node.isFile = false → node.children ≠ [])
    (ho : ∀ node ∈ nodes other, node.isFile = false → node.children ≠ [])
    (h : lines noMarker "" tree = lines noMarker "" other) : Alike tree other := by
  induction tree using induction_cons generalizing other with
  | nil =>
    cases other with
    | nil => exact .nil
    | cons node rest => rw [lines_top] at h; cases h
  | cons node rest ihc ih =>
    cases other with
    | nil => rw [lines_top] at h; cases h
    | cons node' rest' =>
      rw [lines_top, lines_top, List.cons.injEq] at h
      obtain ⟨hfirst, htail⟩ := h
      obtain ⟨hlast, hlabel⟩ := connector_append_inj hfirst
      rw [hlast] at htail
      have hbelow := congrArg (List.takeWhile isIndented) htail
      rw [takeWhile_isIndented, takeWhile_isIndented] at hbelow
      rw [hbelow] at htail
      rw [forall_mem_nodes_cons_iff] at ht ho
      have hinj : Function.Injective (gutter rest'.isEmpty ++ ·) :=
        fun _ _ => (String.append_right_inj _).1
      have hchildren : Alike node.children node'.children :=
        ihc ht.2.1 ho.2.1 (List.map_injective_iff.2 hinj hbelow)
      refine .cons ?_ hlabel hchildren (ih ht.2.2 ho.2.2 (List.append_cancel_left htail))
      rw [isFile_eq_isEmpty ht.1, isFile_eq_isEmpty ho.1, hchildren.isEmpty_eq]

/-! ## The lines of a text -/

theorem newline_not_mem_connector (last : Bool) : '\n' ∉ (Tree.connector last).toList := by
  cases last <;> simp [Tree.connector]

theorem newline_not_mem_gutter (last : Bool) : '\n' ∉ (gutter last).toList := by
  cases last <;> simp [gutter]

/-- Where no caption is broken, no line is. -/
theorem newline_not_mem_lines (h : ∀ node ∈ nodes tree, '\n' ∉ (Tree.caption marker node).toList) :
    ∀ line ∈ lines marker "" tree, '\n' ∉ line.toList := by
  induction tree using induction_cons with
  | nil => exact List.forall_mem_nil _
  | cons node rest ihc ih =>
    rw [forall_mem_nodes_cons_iff] at h
    rw [lines_top, List.forall_mem_cons, List.forall_mem_append, List.forall_mem_map]
    refine ⟨?_, ?_, ih h.2.2⟩
    · rw [String.toList_append, List.mem_append, not_or]
      exact ⟨newline_not_mem_connector _, h.1⟩
    · intro line hline
      rw [String.toList_append, List.mem_append, not_or]
      exact ⟨newline_not_mem_gutter _, ihc h.2.1 line hline⟩

/-- Unbroken lines are what is read between the newlines that end them. -/
theorem splitOn_join_ended {rows : List String} (h : ∀ row ∈ rows, '\n' ∉ row.toList) :
    (String.join (rows.map (· ++ "\n"))).toList.splitOn '\n' = rows.map String.toList ++ [[]] := by
  induction rows with
  | nil => rfl
  | cons row rows ih =>
    rw [List.forall_mem_cons] at h
    have hstep : (String.join ((row :: rows).map (· ++ "\n"))).toList =
        row.toList ++ '\n' :: (String.join (rows.map (· ++ "\n"))).toList := by
      simp [String.toList_join]
    rw [hstep, List.splitOn_append_cons_self_of_not_mem h.1, ih h.2, List.map_cons,
      List.cons_append]

theorem splitOn_text (h : ∀ node ∈ nodes tree, '\n' ∉ (Tree.caption marker node).toList) :
    (text tree marker).toList.splitOn '\n' =
      (lines marker "" tree).map String.toList ++ [[]] :=
  splitOn_join_ended (newline_not_mem_lines h)

theorem lines_eq_of_text_eq {other : List Node}
    (ht : ∀ node ∈ nodes tree, '\n' ∉ (Tree.caption marker node).toList)
    (ho : ∀ node ∈ nodes other, '\n' ∉ (Tree.caption marker node).toList)
    (h : text tree marker = text other marker) :
    lines marker "" tree = lines marker "" other := by
  have hsplit := splitOn_text ht
  rw [h, splitOn_text ho] at hsplit
  have hinj : Function.Injective String.toList := fun _ _ => String.toList_inj.1
  exact (List.map_injective_iff.2 hinj (List.append_cancel_right hsplit)).symm

/-- Two trees without empty directories and broken labels have the same text without markers
exactly if they are alike. The lines of any text are those of the nodes in pre-order, which is the
order of the addresses, and each line shows its node and which of the node and its ancestors are
followed by siblings. -/
theorem text_reads_back :
    (∀ tree other : List Node,
      (∀ node ∈ nodes tree ++ nodes other,
        (node.isFile = false → node.children ≠ []) ∧ '\n' ∉ node.label.toList) →
      (text tree noMarker = text other noMarker ↔ Alike tree other)) ∧
    ∀ (tree : List Node) (marker : Node → String),
      (addresses tree).Pairwise (· < ·) ∧
      (∀ address, address ∈ addresses tree ↔ (nodeAt? tree address).isSome = true) ∧
      (addresses tree).map (nodeAt? tree) = (nodes tree).map some ∧
      List.Forall₂ (Shows marker tree) (addresses tree) (lines marker "" tree) ∧
      text tree marker = String.join ((lines marker "" tree).map (· ++ "\n")) ∧
      ((∀ node ∈ nodes tree, '\n' ∉ (caption marker node).toList) →
        (text tree marker).toList.splitOn '\n' =
          (lines marker "" tree).map String.toList ++ [[]]) := by
  constructor
  · intro tree other h
    rw [List.forall_mem_append] at h
    obtain ⟨ht, ho⟩ := h
    constructor
    · intro htext
      have hlines : lines noMarker "" tree = lines noMarker "" other := by
        refine lines_eq_of_text_eq (fun node hn => ?_) (fun node hn => ?_) htext
        · exact caption_noMarker node ▸ (ht node hn).2
        · exact caption_noMarker node ▸ (ho node hn).2
      exact alike_of_lines_eq (fun node hn => (ht node hn).1) (fun node hn => (ho node hn).1) hlines
    · intro halike
      rw [text, text, halike.lines_eq]
  · intro tree marker
    exact ⟨pairwise_addresses tree, fun _ => mem_addresses_iff, map_nodeAt?_addresses tree,
      forall₂_shows_lines marker tree, rfl, splitOn_text⟩

/-- A label that looks like the lines of other nodes is not taken for them. -/
theorem text_reads_back_connectors :
    let tree := [Node.directory "d" "/d" [.file "├─ x" "/d/├─ x"], .file "│   └─ y" "/│   └─ y"]
    let other := [Node.directory "d" "/d" [.file "├─ x" "/d/├─ x", .file "y" "/d/y"]]
    (∀ node ∈ nodes tree ++ nodes other,
      (node.isFile = false → node.children ≠ []) ∧ '\n' ∉ node.label.toList) ∧
    text tree noMarker ≠ text other noMarker ∧
    (text tree noMarker).toList.splitOn '\n' =
      ["├─ d".toList, "│   └─ ├─ x".toList, "└─ │   └─ y".toList, []] := by
  intro tree other
  have hreadable : ∀ node ∈ nodes tree ++ nodes other,
      (node.isFile = false → node.children ≠ []) ∧ '\n' ∉ node.label.toList := by
    decide +kernel
  have hdifferent : ¬Alike tree other := by
    change ¬Alike [_, _] [_]
    rintro (_ | ⟨-, -, -, hbeside⟩)
    cases hbeside
  refine ⟨hreadable, ?_, ?_⟩
  · exact fun h => hdifferent ((text_reads_back.1 tree other hreadable).1 h)
  · exact (text_reads_back.2 tree noMarker).2.2.2.2.2 (by decide +kernel)

end FileSieve.Tree
