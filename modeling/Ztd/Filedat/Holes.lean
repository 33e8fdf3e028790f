import Ztd.Filedat.Denote
import Ztd.Filedat.Endings
import Ztd.Filedat.NodeComments

/-! Quoted values at any place of a document. -/

namespace Ztd.Filedat
open Ztd.Lib

mutual
/-- A node with one value left open. -/
inductive Hole where
  | here
  | map (first : Layout) (rows : RowsHole)
  | list (first : Layout) (cells : CellsHole)
inductive RowsHole where
  | last (key : Key) (before after : Layout) (hole : Hole) (trail : Layout)
  | more (key : Key) (before after : Layout) (hole : Hole) (sep : Separator) (rest : Rows)
  | later (key : Key) (before after : Layout) (value : Node) (sep : Separator) (rest : RowsHole)
  | laterEmpty (key : Key) (before after behind : Layout) (rest : RowsHole)
inductive CellsHole where
  | last (hole : Hole) (trail : Layout)
  | more (hole : Hole) (before : Layout) (semicolon : Bool) (after : Layout) (rest : Cells)
  | later (value : Node) (before : Layout) (semicolon : Bool) (after : Layout) (rest : CellsHole)
  | laterEmpty (semicolon : Bool) (after : Layout) (rest : CellsHole)
end

mutual
/-- The node with a node in the open place. -/
def Hole.fill (node : Node) : Hole → Node
  | .here => node
  | .map first rows => .map first (rows.fill node)
  | .list first cells => .list first (cells.fill node)
def RowsHole.fill (node : Node) : RowsHole → Rows
  | .last key before after hole trail => .last key before after (hole.fill node) trail
  | .more key before after hole sep rest => .more key before after (hole.fill node) sep rest
  | .later key before after value sep rest => .more key before after value sep (rest.fill node)
  | .laterEmpty key before after behind rest => .moreEmpty key before after behind (rest.fill node)
def CellsHole.fill (node : Node) : CellsHole → Cells
  | .last hole trail => .last (hole.fill node) trail
  | .more hole before semicolon after rest => .more (hole.fill node) before semicolon after rest
  | .later value before semicolon after rest =>
    .more value before semicolon after (rest.fill node)
  | .laterEmpty semicolon after rest => .moreEmpty semicolon after (rest.fill node)
end

mutual
/-- Nothing is left behind the value in the open place. -/
def Hole.trims (trim : Bool) : Hole → Bool
  | .here => trim
  | .map _ rows => rows.trims
  | .list _ cells => cells.trims
def RowsHole.trims : RowsHole → Bool
  | .last _ _ _ hole trail => hole.trims (afterLine trail.stripped).isEmpty
  | .more _ _ _ hole sep rest => hole.trims (sep.after.stripped ++ rest.stripped).isEmpty
  | .later _ _ _ _ _ rest | .laterEmpty _ _ _ _ rest => rest.trims
def CellsHole.trims : CellsHole → Bool
  | .last hole _ => hole.trims true
  | .more hole _ _ after rest => hole.trims (after.stripped ++ rest.stripped).isEmpty
  | .later _ _ _ _ rest | .laterEmpty _ _ rest => rest.trims
end

mutual
/-- The part of a tree that is in the open place. -/
def Hole.at : Hole → Tree → Option Tree
  | .here, tree => some tree
  | .map _ rows, .map _ values => rows.at values
  | .list _ cells, .list _ elements => cells.at elements
  | _, _ => none
def RowsHole.at : RowsHole → List (Text × Tree) → Option Tree
  | .last key _ _ hole _, values | .more key _ _ hole _ _, values =>
    (OrderedMap.find? key.content values).bind hole.at
  | .later _ _ _ _ _ rest, values | .laterEmpty _ _ _ _ rest, values => rest.at values
def CellsHole.at : CellsHole → List Tree → Option Tree
  | .last hole _, elements | .more hole _ _ _ _, elements => elements.head?.bind hole.at
  | .later _ _ _ _ rest, elements | .laterEmpty _ _ rest, elements => rest.at elements.tail
end

mutual
/-- What a node means by what the open place means. -/
def Hole.plug (open_ : Run Unit Tree) : Hole → Run Unit Tree
  | .here => open_
  | .map _ rows => (rows.plug open_ []).map (.map ())
  | .list _ cells => (cells.plug open_).map (.list ())
def RowsHole.plug (open_ : Run Unit Tree) :
    RowsHole → List (Text × Tree) → Run Unit (List (Text × Tree))
  | .last key _ _ hole _, values => enter key.content (hole.plug open_) values
  | .more key _ _ hole _ rest, values =>
    enter key.content (hole.plug open_) values >>= rest.means
  | .later key _ _ value _ rest, values =>
    enter key.content (value.means false) values >>= rest.plug open_
  | .laterEmpty key _ _ _ rest, values =>
    enter key.content (.ok emptyTree) values >>= rest.plug open_
def CellsHole.plug (open_ : Run Unit Tree) : CellsHole → Run Unit (List Tree)
  | .last hole _ => (hole.plug open_).map fun tree => [tree]
  | .more hole _ _ after rest => hole.plug open_ >>= fun tree =>
    if after.stripped ++ rest.stripped = [] then .ok [tree] else rest.means.map (tree :: ·)
  | .later value _ _ _ rest => value.means false >>= fun tree => (rest.plug open_).map (tree :: ·)
  | .laterEmpty _ _ rest => (rest.plug open_).map (emptyTree :: ·)
end

section Around
variable (piece : Piece → Text)

mutual
/-- What is written in front of the open place. -/
def Hole.front : Hole → Text
  | .here => []
  | .map first rows => '{' :: (first.render piece ++ rows.front)
  | .list first cells => '[' :: (first.render piece ++ cells.front)
def RowsHole.front : RowsHole → Text
  | .last key before after hole _ | .more key before after hole _ _ =>
    key.text ++ before.render piece ++ '=' :: (after.render piece ++ hole.front)
  | .later key before after value sep rest =>
    key.text ++ before.render piece ++ '=' ::
      (after.render piece ++ value.render piece ++ (sep.render piece ++ rest.front))
  | .laterEmpty key before after behind rest =>
    key.text ++ before.render piece ++ '=' ::
      (after.render piece ++ ';' :: (behind.render piece ++ rest.front))
def CellsHole.front : CellsHole → Text
  | .last hole _ | .more hole _ _ _ _ => hole.front
  | .later value before semicolon after rest =>
    value.render piece ++ before.render piece ++ comma semicolon ::
      (after.render piece ++ rest.front)
  | .laterEmpty semicolon after rest => comma semicolon :: (after.render piece ++ rest.front)
end

mutual
/-- What is written behind the open place. -/
def Hole.back : Hole → Text
  | .here => []
  | .map _ rows => rows.back ++ ['}']
  | .list _ cells => cells.back ++ [']']
def RowsHole.back : RowsHole → Text
  | .last _ _ _ hole trail => hole.back ++ trail.render piece
  | .more _ _ _ hole sep rest => hole.back ++ (sep.render piece ++ rest.render piece)
  | .later _ _ _ _ _ rest | .laterEmpty _ _ _ _ rest => rest.back
def CellsHole.back : CellsHole → Text
  | .last hole trail => hole.back ++ trail.render piece
  | .more hole before semicolon after rest =>
    hole.back ++ (before.render piece ++ comma semicolon ::
      (after.render piece ++ rest.render piece))
  | .later _ _ _ _ rest | .laterEmpty _ _ rest => rest.back
end

variable (node : Node)

mutual
theorem Hole.render_fill : ∀ hole : Hole,
    (hole.fill node).render piece = hole.front piece ++ (node.render piece ++ hole.back piece)
  | .here => by simp [Hole.fill, Hole.front, Hole.back]
  | .map first rows => by
    simp [Hole.fill, Hole.front, Hole.back, Node.render, RowsHole.render_fill rows]
  | .list first cells => by
    simp [Hole.fill, Hole.front, Hole.back, Node.render, CellsHole.render_fill cells]
theorem RowsHole.render_fill : ∀ rows : RowsHole,
    (rows.fill node).render piece = rows.front piece ++ (node.render piece ++ rows.back piece)
  | .last key before after hole trail => by
    simp [RowsHole.fill, RowsHole.front, RowsHole.back, Rows.render, Hole.render_fill hole]
  | .more key before after hole sep rest => by
    simp [RowsHole.fill, RowsHole.front, RowsHole.back, Rows.render, Hole.render_fill hole]
  | .later key before after value sep rest => by
    simp [RowsHole.fill, RowsHole.front, RowsHole.back, Rows.render, RowsHole.render_fill rest]
  | .laterEmpty key before after behind rest => by
    simp [RowsHole.fill, RowsHole.front, RowsHole.back, Rows.render, RowsHole.render_fill rest]
theorem CellsHole.render_fill : ∀ cells : CellsHole,
    (cells.fill node).render piece = cells.front piece ++ (node.render piece ++ cells.back piece)
  | .last hole trail => by
    simp [CellsHole.fill, CellsHole.front, CellsHole.back, Cells.render, Hole.render_fill hole]
  | .more hole before semicolon after rest => by
    simp [CellsHole.fill, CellsHole.front, CellsHole.back, Cells.render, Hole.render_fill hole]
  | .later value before semicolon after rest => by
    simp [CellsHole.fill, CellsHole.front, CellsHole.back, Cells.render, CellsHole.render_fill rest]
  | .laterEmpty semicolon after rest => by
    simp [CellsHole.fill, CellsHole.front, CellsHole.back, Cells.render, CellsHole.render_fill rest]
end

end Around

section Filling
variable (node : Node)

theorem RowsHole.fill_ne_nil (rows : RowsHole) : (rows.fill node).stripped ≠ [] := by
  cases rows <;> simp [RowsHole.fill, Rows.stripped, Rows.render]

theorem CellsHole.fill_ne_nil (cells : CellsHole) : (cells.fill node).stripped ≠ [] := by
  have nonempty (node : Node) := node.stripped_ne_nil
  simp only [Node.stripped] at nonempty
  cases cells <;> simp [CellsHole.fill, Cells.stripped, Cells.render, nonempty]

theorem isEmpty_append {front text : Text} (nonempty : text ≠ []) :
    (front ++ text).isEmpty = false := by simp [nonempty]

mutual
theorem Hole.fill_means : ∀ (hole : Hole) (trim : Bool),
    (hole.fill node).means trim = hole.plug (node.means (hole.trims trim))
  | .here, _ => rfl
  | .map _ rows, _ => by rw [Hole.fill, Node.means, RowsHole.fill_means rows, Hole.plug, Hole.trims]
  | .list first cells, trim => by
    have whole : (Node.list first (cells.fill node)).means trim =
        (cells.fill node).means.map (.list ()) := by cases cells <;> rfl
    rw [Hole.fill, whole, CellsHole.fill_means cells, Hole.plug, Hole.trims]
theorem RowsHole.fill_means : ∀ (rows : RowsHole) (values : List (Text × Tree)),
    (rows.fill node).means values = rows.plug (node.means rows.trims) values
  | .last key before after hole trail, values => by
    rw [RowsHole.fill, Rows.means, Hole.fill_means hole, RowsHole.plug, RowsHole.trims]
  | .more key before after hole sep rest, values => by
    rw [RowsHole.fill, Rows.means, Hole.fill_means hole, RowsHole.plug, RowsHole.trims]
  | .later key before after value sep rest, values => by
    rw [RowsHole.fill, Rows.means, isEmpty_append (rest.fill_ne_nil node), RowsHole.plug,
      RowsHole.trims]
    exact bind_congr fun values => RowsHole.fill_means rest values
  | .laterEmpty key before after behind rest, values => by
    rw [RowsHole.fill, Rows.means, RowsHole.plug, RowsHole.trims]
    exact bind_congr fun values => RowsHole.fill_means rest values
theorem CellsHole.fill_means : ∀ cells : CellsHole,
    (cells.fill node).means = cells.plug (node.means cells.trims)
  | .last hole trail => by
    rw [CellsHole.fill, Cells.means, Hole.fill_means hole, CellsHole.plug, CellsHole.trims]
  | .more hole before semicolon after rest => by
    rw [CellsHole.fill, Cells.means, Hole.fill_means hole, CellsHole.plug, CellsHole.trims]
  | .later value before semicolon after rest => by
    have more : after.stripped ++ (rest.fill node).stripped ≠ [] := by
      simp [rest.fill_ne_nil node]
    rw [CellsHole.fill, Cells.means, isEmpty_append (rest.fill_ne_nil node), CellsHole.plug,
      CellsHole.trims, CellsHole.fill_means rest]
    simp only [if_neg more]
  | .laterEmpty semicolon after rest => by
    have more : after.stripped ++ (rest.fill node).stripped ≠ [] := by
      simp [rest.fill_ne_nil node]
    rw [CellsHole.fill, Cells.means, if_neg more, CellsHole.fill_means rest, CellsHole.plug,
      CellsHole.trims]
end

mutual
theorem Hole.fill_closes {other : Node} (closed : other.Closes) : ∀ hole : Hole,
    (hole.fill node).Closes ↔ (hole.fill other).Closes ∧ node.Closes
  | .here => by simp [Hole.fill, closed]
  | .map _ rows => RowsHole.fill_closes closed rows
  | .list _ cells => CellsHole.fill_closes closed cells
theorem RowsHole.fill_closes {other : Node} (closed : other.Closes) : ∀ rows : RowsHole,
    (rows.fill node).Closes ↔ (rows.fill other).Closes ∧ node.Closes
  | .last _ _ _ hole _ => Hole.fill_closes closed hole
  | .more _ _ _ hole _ rest => by
    simp only [RowsHole.fill, Rows.Closes, Hole.fill_closes closed hole, and_right_comm]
  | .later _ _ _ value _ rest => by
    simp only [RowsHole.fill, Rows.Closes, RowsHole.fill_closes closed rest, and_assoc]
  | .laterEmpty _ _ _ _ rest => RowsHole.fill_closes closed rest
theorem CellsHole.fill_closes {other : Node} (closed : other.Closes) : ∀ cells : CellsHole,
    (cells.fill node).Closes ↔ (cells.fill other).Closes ∧ node.Closes
  | .last hole _ => Hole.fill_closes closed hole
  | .more hole _ _ _ rest => by
    simp only [CellsHole.fill, Cells.Closes, Hole.fill_closes closed hole, and_right_comm]
  | .later value _ _ _ rest => by
    simp only [CellsHole.fill, Cells.Closes, CellsHole.fill_closes closed rest, and_assoc]
  | .laterEmpty _ _ rest => CellsHole.fill_closes closed rest
end

end Filling

section Quotations
variable (first second : Quotation)

theorem Hole.fill_quotes (hole : Hole) :
    (hole.fill (.quoted first)).quotes = (hole.fill (.quoted second)).quotes := by
  cases hole <;> rfl

mutual
/-- What is quoted does not matter to where comments start. -/
theorem Hole.fill_apart : ∀ hole : Hole,
    (hole.fill (.quoted first)).Apart ↔ (hole.fill (.quoted second)).Apart
  | .here => Iff.rfl
  | .map _ rows => RowsHole.fill_apart rows
  | .list _ cells => CellsHole.fill_apart cells
theorem RowsHole.fill_apart : ∀ rows : RowsHole,
    (rows.fill (.quoted first)).Apart ↔ (rows.fill (.quoted second)).Apart
  | .last _ _ _ hole _ => by
    simp only [RowsHole.fill, Rows.Apart, Hole.fill_apart hole, hole.fill_quotes first second]
  | .more _ _ _ hole _ rest => by
    simp only [RowsHole.fill, Rows.Apart, Hole.fill_apart hole, hole.fill_quotes first second]
  | .later _ _ _ value _ rest => by
    simp only [RowsHole.fill, Rows.Apart, RowsHole.fill_apart rest]
  | .laterEmpty _ _ _ _ rest => by
    simp only [RowsHole.fill, Rows.Apart, RowsHole.fill_apart rest]
theorem CellsHole.fill_apart : ∀ cells : CellsHole,
    (cells.fill (.quoted first)).Apart ↔ (cells.fill (.quoted second)).Apart
  | .last hole _ => by
    simp only [CellsHole.fill, Cells.Apart, Hole.fill_apart hole, hole.fill_quotes first second]
  | .more hole _ _ _ rest => by
    simp only [CellsHole.fill, Cells.Apart, Hole.fill_apart hole, hole.fill_quotes first second]
  | .later value _ _ _ rest => by
    simp only [CellsHole.fill, Cells.Apart, CellsHole.fill_apart rest]
  | .laterEmpty _ _ rest => CellsHole.fill_apart rest
end

end Quotations

section Entering
variable {key other : Text} {value : Run Unit Tree} {values after : List (Text × Tree)}

theorem enter_persists {tree : Tree} (entered : enter key value values = .ok after)
    (held : OrderedMap.find? other values = some tree) :
    OrderedMap.find? other after = some tree := by
  obtain ⟨new, _, fresh, rfl⟩ := enter_ok.mp entered
  have different : other ≠ key := by
    rintro rfl
    simp [fresh] at held
  rw [OrderedMap.find?_insert_ne different, held]

/-- Entries do not change what is in the map already. -/
theorem Rows.persists {tree : Tree} : ∀ (rows : Rows) {values after : List (Text × Tree)},
    rows.means values = .ok after → OrderedMap.find? other values = some tree →
      OrderedMap.find? other after = some tree
  | .done, _, _, means, held => by
    obtain rfl := Except.ok.inj means
    exact held
  | .last .., _, _, means, held => enter_persists means held
  | .lastEmpty key before after, _, _, means, held => by
    rw [Rows.means] at means
    split at means
    · exact enter_persists means held
    · split at means
      · obtain rfl := Except.ok.inj means
        exact held
      · simp [Run.raise] at means
  | .more key before after value sep rest, _, _, means, held => by
    obtain ⟨middle, entered, later⟩ := Run.bind_eq_ok.mp means
    exact Rows.persists rest later (enter_persists entered held)
  | .moreEmpty key before after behind rest, _, _, means, held => by
    obtain ⟨middle, entered, later⟩ := Run.bind_eq_ok.mp means
    exact Rows.persists rest later (enter_persists entered held)

end Entering

section Plugging
variable {open_ : Run Unit Tree}

mutual
/-- What is parsed in the open place is at that place of the tree. -/
theorem Hole.plug_at : ∀ (hole : Hole) {tree : Tree}, hole.plug open_ = .ok tree →
    ∃ inner, open_ = .ok inner ∧ hole.at tree = some inner
  | .here, tree, plugged => ⟨tree, plugged, rfl⟩
  | .map _ rows, tree, plugged => by
    obtain ⟨values, inside, rfl⟩ := Run.map_eq_ok.mp plugged
    exact RowsHole.plug_at rows inside
  | .list _ cells, tree, plugged => by
    obtain ⟨elements, inside, rfl⟩ := Run.map_eq_ok.mp plugged
    exact CellsHole.plug_at cells inside
theorem RowsHole.plug_at : ∀ (rows : RowsHole) {values after : List (Text × Tree)},
    rows.plug open_ values = .ok after → ∃ inner, open_ = .ok inner ∧ rows.at after = some inner
  | .last key before space hole trail, values, after, plugged => by
    obtain ⟨tree, inside, _, rfl⟩ := enter_ok.mp plugged
    obtain ⟨inner, is, found⟩ := Hole.plug_at hole inside
    exact ⟨inner, is, by rw [RowsHole.at, OrderedMap.find?_insert_self, Option.bind_some, found]⟩
  | .more key before space hole sep rest, values, after, plugged => by
    obtain ⟨middle, entered, later⟩ := Run.bind_eq_ok.mp plugged
    obtain ⟨tree, inside, _, rfl⟩ := enter_ok.mp entered
    obtain ⟨inner, is, found⟩ := Hole.plug_at hole inside
    have held := Rows.persists rest later (OrderedMap.find?_insert_self key.content tree values)
    exact ⟨inner, is, by rw [RowsHole.at, held, Option.bind_some, found]⟩
  | .later key before space value sep rest, values, after, plugged => by
    obtain ⟨middle, _, later⟩ := Run.bind_eq_ok.mp plugged
    exact RowsHole.plug_at rest later
  | .laterEmpty key before space behind rest, values, after, plugged => by
    obtain ⟨middle, _, later⟩ := Run.bind_eq_ok.mp plugged
    exact RowsHole.plug_at rest later
theorem CellsHole.plug_at : ∀ (cells : CellsHole) {elements : List Tree},
    cells.plug open_ = .ok elements → ∃ inner, open_ = .ok inner ∧ cells.at elements = some inner
  | .last hole trail, elements, plugged => by
    obtain ⟨tree, inside, rfl⟩ := Run.map_eq_ok.mp plugged
    exact Hole.plug_at hole inside
  | .more hole before semicolon after rest, elements, plugged => by
    obtain ⟨tree, inside, later⟩ := Run.bind_eq_ok.mp plugged
    have first : elements.head? = some tree := by
      split at later
      · rw [← Except.ok.inj later]
        rfl
      · obtain ⟨others, _, rfl⟩ := Run.map_eq_ok.mp later
        rfl
    obtain ⟨inner, is, found⟩ := Hole.plug_at hole inside
    exact ⟨inner, is, by rw [CellsHole.at, first, Option.bind_some, found]⟩
  | .later value before semicolon after rest, elements, plugged => by
    obtain ⟨tree, _, later⟩ := Run.bind_eq_ok.mp plugged
    obtain ⟨others, inside, rfl⟩ := Run.map_eq_ok.mp later
    exact CellsHole.plug_at rest inside
  | .laterEmpty semicolon after rest, elements, plugged => by
    obtain ⟨others, later, rfl⟩ := Run.map_eq_ok.mp plugged
    exact CellsHole.plug_at rest later
end

/-- Two maps have the same keys. -/
def SameKeys (values others : List (Text × Tree)) : Prop :=
  ∀ key, OrderedMap.find? key values = none ↔ OrderedMap.find? key others = none

theorem SameKeys.enter {key : Text} {value value' : Run Unit Tree}
    {values others after : List (Text × Tree)} (same : SameKeys values others)
    (entered : enter key value values = .ok after) {tree : Tree} (is : value' = .ok tree) :
    ∃ after', Filedat.enter key value' others = .ok after' ∧ SameKeys after after' := by
  obtain ⟨old, _, fresh, rfl⟩ := enter_ok.mp entered
  refine ⟨_, enter_ok.mpr ⟨tree, is, (same key).mp fresh, rfl⟩, fun other => ?_⟩
  rw [OrderedMap.find?_insert, OrderedMap.find?_insert]
  split
  · simp
  · exact same other

theorem enter_value {key : Text} {value : Run Unit Tree} {values after : List (Text × Tree)}
    (entered : enter key value values = .ok after) : ∃ tree, value = .ok tree := by
  obtain ⟨tree, is, _⟩ := enter_ok.mp entered
  exact ⟨tree, is⟩

/-- Whether entries are accepted depends on the keys that are there. -/
theorem Rows.accepts : ∀ (rows : Rows) {values others after : List (Text × Tree)},
    SameKeys values others → rows.means values = .ok after →
      ∃ after', rows.means others = .ok after'
  | .done, _, others, _, _, _ => ⟨others, rfl⟩
  | .last key before space value trail, _, _, _, same, means => by
    obtain ⟨tree, is⟩ := enter_value means
    obtain ⟨after', entered, _⟩ := same.enter means is
    exact ⟨after', entered⟩
  | .lastEmpty key before space, _, others, _, same, means => by
    rw [Rows.means] at means ⊢
    split at means
    · rename_i more
      obtain ⟨after', entered, _⟩ := same.enter means rfl
      exact ⟨after', by rw [if_pos more, entered]⟩
    · rename_i bare
      split at means
      · rename_i blank
        exact ⟨others, by rw [if_neg bare, if_pos blank]⟩
      · simp [Run.raise] at means
  | .more key before space value sep rest, _, _, _, same, means => by
    obtain ⟨middle, entered, later⟩ := Run.bind_eq_ok.mp means
    obtain ⟨tree, is⟩ := enter_value entered
    obtain ⟨middle', entered', sameLater⟩ := same.enter entered is
    obtain ⟨after', accepted⟩ := Rows.accepts rest sameLater later
    exact ⟨after', Run.bind_eq_ok.mpr ⟨middle', entered', accepted⟩⟩
  | .moreEmpty key before space behind rest, _, _, _, same, means => by
    obtain ⟨middle, entered, later⟩ := Run.bind_eq_ok.mp means
    obtain ⟨middle', entered', sameLater⟩ := same.enter entered rfl
    obtain ⟨after', accepted⟩ := Rows.accepts rest sameLater later
    exact ⟨after', Run.bind_eq_ok.mpr ⟨middle', entered', accepted⟩⟩

mutual
/-- Any tree in the open place is accepted if one is. -/
theorem Hole.plug_accepts (inner : Tree) : ∀ (hole : Hole) {tree : Tree},
    hole.plug open_ = .ok tree → ∃ tree', hole.plug (.ok inner) = .ok tree'
  | .here, _, _ => ⟨inner, rfl⟩
  | .map _ rows, _, plugged => by
    obtain ⟨values, inside, rfl⟩ := Run.map_eq_ok.mp plugged
    obtain ⟨values', accepted⟩ := RowsHole.plug_accepts inner rows (fun _ => Iff.rfl) inside
    exact ⟨.map () values', Run.map_eq_ok.mpr ⟨values', accepted, rfl⟩⟩
  | .list _ cells, _, plugged => by
    obtain ⟨elements, inside, rfl⟩ := Run.map_eq_ok.mp plugged
    obtain ⟨elements', accepted⟩ := CellsHole.plug_accepts inner cells inside
    exact ⟨.list () elements', Run.map_eq_ok.mpr ⟨elements', accepted, rfl⟩⟩
theorem RowsHole.plug_accepts (inner : Tree) : ∀ (rows : RowsHole)
    {values others after : List (Text × Tree)}, SameKeys values others →
      rows.plug open_ values = .ok after → ∃ after', rows.plug (.ok inner) others = .ok after'
  | .last key before space hole trail, _, _, _, same, plugged => by
    obtain ⟨tree, is⟩ := enter_value plugged
    obtain ⟨tree', accepted⟩ := Hole.plug_accepts inner hole is
    obtain ⟨after', entered, _⟩ := same.enter plugged accepted
    exact ⟨after', entered⟩
  | .more key before space hole sep rest, _, _, _, same, plugged => by
    obtain ⟨middle, entered, later⟩ := Run.bind_eq_ok.mp plugged
    obtain ⟨tree, is⟩ := enter_value entered
    obtain ⟨tree', accepted⟩ := Hole.plug_accepts inner hole is
    obtain ⟨middle', entered', sameLater⟩ := same.enter entered accepted
    obtain ⟨after', acceptedLater⟩ := Rows.accepts rest sameLater later
    exact ⟨after', Run.bind_eq_ok.mpr ⟨middle', entered', acceptedLater⟩⟩
  | .later key before space value sep rest, _, _, _, same, plugged => by
    obtain ⟨middle, entered, later⟩ := Run.bind_eq_ok.mp plugged
    obtain ⟨tree, is⟩ := enter_value entered
    obtain ⟨middle', entered', sameLater⟩ := same.enter entered is
    obtain ⟨after', accepted⟩ := RowsHole.plug_accepts inner rest sameLater later
    exact ⟨after', Run.bind_eq_ok.mpr ⟨middle', entered', accepted⟩⟩
  | .laterEmpty key before space behind rest, _, _, _, same, plugged => by
    obtain ⟨middle, entered, later⟩ := Run.bind_eq_ok.mp plugged
    obtain ⟨middle', entered', sameLater⟩ := same.enter entered rfl
    obtain ⟨after', accepted⟩ := RowsHole.plug_accepts inner rest sameLater later
    exact ⟨after', Run.bind_eq_ok.mpr ⟨middle', entered', accepted⟩⟩
theorem CellsHole.plug_accepts (inner : Tree) : ∀ (cells : CellsHole) {elements : List Tree},
    cells.plug open_ = .ok elements → ∃ elements', cells.plug (.ok inner) = .ok elements'
  | .last hole trail, _, plugged => by
    obtain ⟨tree, inside, rfl⟩ := Run.map_eq_ok.mp plugged
    obtain ⟨tree', accepted⟩ := Hole.plug_accepts inner hole inside
    exact ⟨[tree'], Run.map_eq_ok.mpr ⟨tree', accepted, rfl⟩⟩
  | .more hole before semicolon after rest, _, plugged => by
    obtain ⟨tree, inside, later⟩ := Run.bind_eq_ok.mp plugged
    obtain ⟨tree', accepted⟩ := Hole.plug_accepts inner hole inside
    rw [CellsHole.plug, accepted, Run.bind_ok]
    split
    · exact ⟨[tree'], rfl⟩
    · rename_i more
      rw [if_neg more] at later
      obtain ⟨others, is, _⟩ := Run.map_eq_ok.mp later
      exact ⟨tree' :: others, Run.map_eq_ok.mpr ⟨others, is, rfl⟩⟩
  | .later value before semicolon after rest, _, plugged => by
    obtain ⟨tree, is, later⟩ := Run.bind_eq_ok.mp plugged
    obtain ⟨others, inside, _⟩ := Run.map_eq_ok.mp later
    obtain ⟨others', accepted⟩ := CellsHole.plug_accepts inner rest inside
    exact ⟨tree :: others', Run.bind_eq_ok.mpr ⟨tree, is, Run.map_eq_ok.mpr ⟨others', accepted, rfl⟩⟩⟩
  | .laterEmpty semicolon after rest, _, plugged => by
    obtain ⟨others, later, _⟩ := Run.map_eq_ok.mp plugged
    obtain ⟨others', accepted⟩ := CellsHole.plug_accepts inner rest later
    exact ⟨emptyTree :: others', Run.map_eq_ok.mpr ⟨others', accepted, rfl⟩⟩
end

/-- The value in the open place is a given one if it is parsed as that. -/
theorem Hole.plug_iff (hole : Hole) (inner : Tree) {other : Run Unit Tree} {tree : Tree}
    (accepted : hole.plug other = .ok tree) :
    (∃ tree, hole.plug open_ = .ok tree ∧ hole.at tree = some inner) ↔ open_ = .ok inner := by
  constructor
  · rintro ⟨tree, plugged, found⟩
    obtain ⟨there, is, same⟩ := hole.plug_at plugged
    rw [is, ← Option.some.inj (found.symm.trans same)]
  · rintro rfl
    obtain ⟨tree', plugged⟩ := hole.plug_accepts inner accepted
    obtain ⟨there, is, same⟩ := hole.plug_at plugged
    exact ⟨tree', plugged, by rw [same, Except.ok.inj is]⟩

end Plugging

end Ztd.Filedat
