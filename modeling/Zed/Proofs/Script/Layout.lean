import Zed.Proofs.Script.Line

/-!
# Layout of a script

The lines of a script are found again in its text, each at its column (`rows_ofList`), and their
indentation gives the outline back (`Item.foldr_place`): the lines that belong to a header are
those of its suite.

Both need little of the lines themselves. A line *fits* if its text has no line break and does not
begin with a space.
-/

set_option autoImplicit false

namespace Zed.Text

/-- A part of a text up to a line feed. -/
theorem segments_append_newline {part : List Char} (rest : List Char) (h : '\n' ∉ part) :
    segments (part ++ '\n' :: rest) = part :: segments rest := by
  induction part with
  | nil => rfl
  | cons c part ih =>
    rw [List.mem_cons, not_or] at h
    rw [List.cons_append, segments_cons, ih h.2, cutBefore, if_neg (Ne.symm h.1)]
    rfl

end Zed.Text

namespace Zed.Script

open Python

/-! ## Rows -/

/-- A line at its column, cut into tokens. -/
def Line.row (l : Line) : Nat × List Tok :=
  (4 * l.depth, tokens l.text.toList)

/-- The text of the line has no line break, and no space that would shift its column. -/
def Line.Fits (l : Line) : Prop :=
  '\n' ∉ l.text.toList ∧ l.text.toList.head? ≠ some ' '

instance (l : Line) : Decidable l.Fits :=
  inferInstanceAs (Decidable (_ ∧ _))

/-- The line fits and is not blank. -/
def Line.Full (l : Line) : Prop :=
  l.Fits ∧ l.row.2.isEmpty = false

/-- A line that fits is found again as the row it was written as. -/
theorem Line.row_of_fits {l : Line} (h : l.Fits) :
    Python.row (List.replicate (4 * l.depth) ' ' ++ l.text.toList) = l.row := by
  have hspaces : ∀ c ∈ List.replicate (4 * l.depth) ' ', decide (c = ' ') = true := by
    intro c hc
    rw [List.eq_of_mem_replicate hc]
    rfl
  have htext : l.text.toList.takeWhile (· = ' ') = [] := by
    cases hchars : l.text.toList with
    | nil => rfl
    | cons c cs =>
      apply List.takeWhile_cons_of_neg
      rintro hc
      apply h.2
      rw [hchars, of_decide_eq_true hc]
      rfl
  rw [Python.row, List.takeWhile_append_of_pos hspaces, htext, List.append_nil,
    List.length_replicate, tokens_spaces]
  rfl

/-- Lines that fit are the parts of their text between line breaks. -/
theorem segments_lines {ls : List Line} (h : ∀ l ∈ ls, l.Fits) :
    Text.segments (ls.flatMap Line.chars)
      = ls.map (fun l => List.replicate (4 * l.depth) ' ' ++ l.text.toList) ++ [[]] := by
  induction ls with
  | nil => rfl
  | cons l ls ih =>
    have hflat : '\n' ∉ List.replicate (4 * l.depth) ' ' ++ l.text.toList := by
      rw [List.mem_append, not_or]
      refine ⟨fun hmem => ?_, (h l (List.mem_cons_self ..)).1⟩
      exact absurd (List.eq_of_mem_replicate hmem) (by decide)
    rw [List.flatMap_cons, Line.chars, List.append_assoc _ ['\n'], List.singleton_append,
      Text.segments_append_newline _ hflat, ih fun k hk => h k (List.mem_cons_of_mem _ hk)]
    rfl

/-- The rows of a text are those of its lines that are not blank. -/
theorem rows_ofList {ls : List Line} (h : ∀ l ∈ ls, l.Fits) :
    rows (String.ofList (ls.flatMap Line.chars))
      = (ls.map Line.row).filter fun r => !r.2.isEmpty := by
  have hrows : ls.map (fun l => Python.row (List.replicate (4 * l.depth) ' ' ++ l.text.toList))
      = ls.map Line.row :=
    List.map_congr_left fun l hl => Line.row_of_fits (h l hl)
  rw [rows, String.toList_ofList, segments_lines h, List.map_append, List.map_map,
    List.filter_append]
  show (ls.map fun l => Python.row (List.replicate (4 * l.depth) ' ' ++ l.text.toList)).filter _
    ++ [] = _
  rw [hrows, List.append_nil]

/-- No row of full lines is empty. -/
theorem filter_rows_of_full {ls : List Line} (h : ∀ l ∈ ls, l.Full) :
    (ls.map Line.row).filter (fun r => !r.2.isEmpty) = ls.map Line.row := by
  rw [List.filter_eq_self]
  intro r hr
  obtain ⟨l, hl, rfl⟩ := List.mem_map.1 hr
  rw [(h l hl).2]
  rfl

theorem Item.linesOfList_append (items others : List Item) (depth : Nat) :
    Item.linesOfList (items ++ others) depth
      = Item.linesOfList items depth ++ Item.linesOfList others depth := by
  induction items with
  | nil => rfl
  | cons item items ih =>
    rw [List.cons_append, Item.linesOfList, ih, Item.linesOfList, List.append_assoc]

mutual

/-- The lines of an item are at least as deep as the item. -/
theorem Item.depth_le_of_mem_lines (item : Item) (depth : Nat) {l : Line}
    (h : l ∈ item.lines depth) :
    depth ≤ l.depth := by
  cases item with
  | line command =>
    rw [Item.lines, List.mem_singleton] at h
    subst h
    exact Nat.le_refl _
  | suite header body =>
    rw [Item.lines, List.mem_cons] at h
    rcases h with rfl | hmem
    · exact Nat.le_refl _
    · exact Nat.le_of_succ_le (Item.depth_le_of_mem_linesOfList body (depth + 1) hmem)
/-- Items stand at the given depth or deeper. -/
theorem Item.depth_le_of_mem_linesOfList (items : List Item) (depth : Nat) {l : Line}
    (h : l ∈ Item.linesOfList items depth) : depth ≤ l.depth := by
  cases items with
  | nil => cases h
  | cons item items =>
    rw [Item.linesOfList, List.mem_append] at h
    rcases h with hmem | hmem
    · exact Item.depth_le_of_mem_lines item depth hmem
    · exact Item.depth_le_of_mem_linesOfList items depth hmem
end

/-! ## Trees -/

mutual
/-- The tree of an item that stands at a given depth. -/
def Item.tree : Item → (depth : Nat) → Tree
  | .line command, depth => .node (4 * depth) (tokens command.text.toList) []
  | .suite header body, depth =>
    .node (4 * depth) (tokens header.text.toList) (Item.trees body (depth + 1))
/-- The trees of items that stand at a given depth. -/
def Item.trees : List Item → (depth : Nat) → List Tree
  | [], _ => []
  | item :: rest, depth => item.tree depth :: Item.trees rest depth
end

theorem Item.column_tree (item : Item) (depth : Nat) : (item.tree depth).column = 4 * depth := by
  cases item <;> rfl

theorem Item.trees_append (items others : List Item) (depth : Nat) :
    Item.trees (items ++ others) depth = Item.trees items depth ++ Item.trees others depth := by
  induction items with
  | nil => rfl
  | cons item items ih => rw [List.cons_append, Item.trees, ih, Item.trees, List.cons_append]

/-- The trees of items stand side by side. -/
theorem Item.column_of_mem_trees {items : List Item} {depth : Nat} {t : Tree}
    (h : t ∈ Item.trees items depth) : t.column = 4 * depth := by
  induction items with
  | nil => cases h
  | cons item items ih =>
    rw [Item.trees, List.mem_cons] at h
    rcases h with rfl | hmem
    · exact Item.column_tree item depth
    · exact ih hmem

/-- The trees of items are aligned, at every depth. -/
theorem Item.aligned_trees (items : List Item) (depth : Nat) :
    aligned (Item.trees items depth) = true := by
  cases items with
  | nil => rfl
  | cons item items =>
    rw [Item.trees, aligned, List.all_eq_true]
    intro t ht
    rw [Item.column_of_mem_trees ht, Item.column_tree]
    exact decide_eq_true rfl

/-- The first of the trees stands no deeper than the column. -/
def Shallow (column : Nat) (following : List Tree) : Prop :=
  ∀ t ∈ following.head?, t.column ≤ column

/-- A line owns the deeper lines after it, up to the first that is not deeper. -/
theorem place_append {column : Nat} {children following : List Tree} (ts : List Tok)
    (hchildren : ∀ t ∈ children, column < t.column) (hfollowing : Shallow column following) :
    place (column, ts) (children ++ following) = .node column ts children :: following := by
  have hdeeper : ∀ t ∈ children, decide (column < t.column) = true :=
    fun t ht => decide_eq_true (hchildren t ht)
  rw [place, List.takeWhile_append_of_pos hdeeper, List.dropWhile_append_of_pos hdeeper]
  cases following with
  | nil => rw [List.takeWhile_nil, List.dropWhile_nil, List.append_nil]
  | cons t following =>
    have ht : decide (column < t.column) = false :=
      decide_eq_false (Nat.not_lt.2 (hfollowing t rfl))
    simp only [List.takeWhile_cons, List.dropWhile_cons, ht, Bool.false_eq_true, if_false,
      List.append_nil]

/-- Items in front of what is shallow are shallow. -/
theorem Item.shallow_trees {items : List Item} {depth : Nat} {following : List Tree}
    (h : Shallow (4 * depth) following) :
    Shallow (4 * depth) (Item.trees items depth ++ following) := by
  cases items with
  | nil => exact h
  | cons item items =>
    rintro t ⟨⟩
    exact Nat.le_of_eq (Item.column_tree item depth)

mutual
/-- Placing the lines of an item gives its tree. -/
theorem Item.foldr_place_lines (item : Item) (depth : Nat) (following : List Tree)
    (h : Shallow (4 * depth) following) :
    ((item.lines depth).map Line.row).foldr place following = item.tree depth :: following := by
  cases item with
  | line command =>
    show place (4 * depth, _) ([] ++ following) = _
    exact place_append _ (by simp) h
  | suite header body =>
    have hbody := Item.foldr_place body (depth + 1) following fun t ht => (h t ht).trans (by omega)
    rw [Item.lines, List.map_cons, List.foldr_cons, hbody]
    refine place_append _ (fun t ht => ?_) h
    rw [Item.column_of_mem_trees ht]
    show 4 * depth < 4 * (depth + 1)
    omega
/-- Placing the lines of items gives their trees. -/
theorem Item.foldr_place (items : List Item) (depth : Nat) (following : List Tree)
    (h : Shallow (4 * depth) following) :
    ((Item.linesOfList items depth).map Line.row).foldr place following
      = Item.trees items depth ++ following := by
  cases items with
  | nil => rfl
  | cons item items =>
    rw [Item.linesOfList, List.map_append, List.foldr_append,
      Item.foldr_place items depth following h,
      Item.foldr_place_lines item depth _ (Item.shallow_trees h)]
    rfl
end

/-- The layout of the lines of items are their trees. -/
theorem layout_lines (items : List Item) (depth : Nat) :
    layout ((Item.linesOfList items depth).map Line.row) = Item.trees items depth := by
  rw [layout, Item.foldr_place items depth [] (by rintro t ⟨⟩), List.append_nil]

end Zed.Script
