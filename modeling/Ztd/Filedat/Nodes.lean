import Ztd.Filedat.Documents

/-! Texts of maps and lists in which values, elements and what is behind the last
separator may be missing, and how a scan goes over them. -/

namespace Ztd.Filedat
open Ztd.Lib

mutual
inductive Node where
  | plain (word : Word) (noComma : ',' ∉ word.text)
  | quoted (quotation : Quotation)
  | map (first : Layout) (rows : Rows)
  | list (first : Layout) (cells : Cells)
/-- The entries of a map; a missing value ends with the map or at a semicolon. -/
inductive Rows where
  | done
  | last (key : Key) (before after : Layout) (value : Node) (trail : Layout)
  | lastEmpty (key : Key) (before after : Layout)
  | more (key : Key) (before after : Layout) (value : Node) (sep : Separator) (rest : Rows)
  | moreEmpty (key : Key) (before after behind : Layout) (rest : Rows)
/-- The elements of a list. -/
inductive Cells where
  | done
  | last (value : Node) (trail : Layout)
  | more (value : Node) (before : Layout) (semicolon : Bool) (after : Layout) (rest : Cells)
  | moreEmpty (semicolon : Bool) (after : Layout) (rest : Cells)
end

/-- The separator of a list. -/
def comma (semicolon : Bool) : Char := if semicolon then ';' else ','

section Render
variable (piece : Piece → Text)

mutual
/-- The text of a node, by how the pieces of its layout are written. -/
def Node.render : Node → Text
  | .plain word _ => word.text
  | .quoted quotation => quotation.text
  | .map first rows => '{' :: (first.render piece ++ rows.render ++ ['}'])
  | .list first cells => '[' :: (first.render piece ++ cells.render ++ [']'])
def Rows.render : Rows → Text
  | .done => []
  | .last key before after value trail =>
    key.text ++ before.render piece ++ '=' ::
      (after.render piece ++ value.render ++ trail.render piece)
  | .lastEmpty key before after =>
    key.text ++ before.render piece ++ '=' :: after.render piece
  | .more key before after value sep rest =>
    key.text ++ before.render piece ++ '=' ::
      (after.render piece ++ value.render ++ (sep.render piece ++ rest.render))
  | .moreEmpty key before after behind rest =>
    key.text ++ before.render piece ++ '=' ::
      (after.render piece ++ ';' :: (behind.render piece ++ rest.render))
def Cells.render : Cells → Text
  | .done => []
  | .last value trail => value.render ++ trail.render piece
  | .more value before semicolon after rest =>
    value.render ++ before.render piece ++ comma semicolon :: (after.render piece ++ rest.render)
  | .moreEmpty semicolon after rest => comma semicolon :: (after.render piece ++ rest.render)
end

end Render

/-- A node as it is written. -/
def Node.text (node : Node) : Text := node.render Piece.text

/-- A node as it is written without comments. -/
def Node.stripped (node : Node) : Text := node.render Piece.stripped

def Rows.stripped (rows : Rows) : Text := rows.render Piece.stripped

def Cells.stripped (cells : Cells) : Text := cells.render Piece.stripped

/-- What `_getstrval` makes of a node. -/
def Node.content : Node → Text
  | .quoted quotation => quotation.content
  | node => node.stripped

mutual
/-- Every quoted value closes. -/
def Node.Closes : Node → Prop
  | .plain .. => True
  | .quoted quotation => quotation.Closes
  | .map _ rows => rows.Closes
  | .list _ cells => cells.Closes
def Rows.Closes : Rows → Prop
  | .done | .lastEmpty .. => True
  | .last _ _ _ value _ => value.Closes
  | .more _ _ _ value _ rest => value.Closes ∧ rest.Closes
  | .moreEmpty _ _ _ _ rest => rest.Closes
def Cells.Closes : Cells → Prop
  | .done => True
  | .last value _ => value.Closes
  | .more value _ _ _ rest => value.Closes ∧ rest.Closes
  | .moreEmpty _ _ rest => rest.Closes
end

mutual
/-- How deep brackets nest. -/
def Node.height : Node → Nat
  | .plain .. | .quoted _ => 0
  | .map _ rows => rows.height + 1
  | .list _ cells => cells.height + 1
def Rows.height : Rows → Nat
  | .done | .lastEmpty .. => 0
  | .last _ _ _ value _ => value.height
  | .more _ _ _ value _ rest => max value.height rest.height
  | .moreEmpty _ _ _ _ rest => rest.height
def Cells.height : Cells → Nat
  | .done => 0
  | .last value _ => value.height
  | .more value _ _ _ rest => max value.height rest.height
  | .moreEmpty _ _ rest => rest.height
end

theorem inert_comma (semicolon : Bool) : Inert (comma semicolon) := by
  cases semicolon <;> decide

section Balance
variable {group : GroupKind} (known : group.Known)
include known

theorem Key.balanced {height : Nat} (key : Key) : Balanced group height key.text := by
  cases key with
  | plain word => exact .inert known word.inert
  | quoted quotation closes begins => exact .quotation known closes

theorem Layout.balanced {height : Nat} (layout : Layout) : Balanced group height layout.stripped :=
  .inert known layout.stripped_inert

mutual
theorem Node.balanced : ∀ node : Node, node.Closes → Balanced group node.height node.stripped
  | .plain word _, _ => .inert known word.inert
  | .quoted _, closes => .quotation known closes
  | .map first rows, closes =>
    .enclosed known (.inl rfl) (.append (first.balanced known) (Rows.balanced rows closes))
  | .list first cells, closes =>
    .enclosed known (.inr rfl) (.append (first.balanced known) (Cells.balanced cells closes))
theorem Rows.balanced : ∀ rows : Rows, rows.Closes → Balanced group rows.height rows.stripped
  | .done, _ => .nil
  | .last key before after value trail, closes =>
    .append (.append (key.balanced known) (before.balanced known)) (.cons known (by decide)
      (.append (.append (after.balanced known) (Node.balanced value closes))
        (trail.balanced known)))
  | .lastEmpty key before after, _ =>
    .append (.append (key.balanced known) (before.balanced known)) (.cons known (by decide)
      (after.balanced known))
  | .more key before after value sep rest, closes =>
    .append (.append (key.balanced known) (before.balanced known)) (.cons known (by decide)
      (.append (.append (after.balanced known)
          ((Node.balanced value closes.1).mono (Nat.le_max_left _ _)))
        (.append (.inert known sep.stripped_inert)
          ((Rows.balanced rest closes.2).mono (Nat.le_max_right _ _)))))
  | .moreEmpty key before after behind rest, closes =>
    .append (.append (key.balanced known) (before.balanced known)) (.cons known (by decide)
      (.append (after.balanced known) (.cons known (by decide)
        (.append (behind.balanced known) (Rows.balanced rest closes)))))
theorem Cells.balanced : ∀ cells : Cells, cells.Closes → Balanced group cells.height cells.stripped
  | .done, _ => .nil
  | .last value trail, closes => .append (Node.balanced value closes) (trail.balanced known)
  | .more value before semicolon after rest, closes =>
    .append (.append ((Node.balanced value closes.1).mono (Nat.le_max_left _ _))
        (before.balanced known))
      (.cons known (inert_comma semicolon) (.append (after.balanced known)
        ((Cells.balanced rest closes.2).mono (Nat.le_max_right _ _))))
  | .moreEmpty semicolon after rest, closes =>
    .cons known (inert_comma semicolon)
      (.append (after.balanced known) (Cells.balanced rest closes))
end

end Balance

theorem Node.begins_text (node : Node) (rest : Text) :
    ∃ c later, node.stripped ++ rest = c :: later ∧ isRead c = true := by
  cases node with
  | plain word noComma =>
    obtain ⟨c, later, is, readable, _⟩ := word.begins_text rest
    exact ⟨c, later, is, readable⟩
  | quoted quotation => exact ⟨_, _, rfl, isRead_mark quotation⟩
  | map first rows => exact ⟨_, _, rfl, rfl⟩
  | list first cells => exact ⟨_, _, rfl, rfl⟩

theorem Node.stripped_ne_nil (node : Node) : node.stripped ≠ [] := by
  obtain ⟨c, later, is, _⟩ := node.begins_text []
  rw [List.append_nil] at is
  simp [is]

section Reading
variable {blanks : BlankRun} {delim altdelim : Char} {rest : Text}

/-- A balanced text in its brackets is copied. -/
theorem scan_balanced {kind : GroupKind} (known : kind.Known) {height : Nat} {inner : Text}
    (balanced : Balanced kind height inner) (room : height < 2 ^ 32) :
    scan blanks delim altdelim (kind.opening :: (inner ++ [kind.closing]) ++ rest) =
      prepend (kind.opening :: (inner ++ [kind.closing])) (scan blanks delim altdelim rest) := by
  have found := balanced.readGroup room rest
  rw [List.cons_append] at found ⊢
  exact scan_group known found

/-- A node adds its content, if no quote follows. -/
theorem scan_node (delimits : Delimits delim altdelim)
    (words : ∀ c, isRead c = true → isMarkup c = false → c ≠ ',' → isDelim delim altdelim c = false)
    (node : Node) (closes : node.Closes) (room : node.height < 2 ^ 32)
    (follow : ∀ d ∈ rest.head?, quoteOf d = none) (safe : rest = [] → blanks = .checked) :
    scan blanks delim altdelim (node.stripped ++ rest) =
      prepend node.content (scan blanks delim altdelim rest) := by
  cases node with
  | plain word noComma =>
    refine scan_word delimits word (fun c member => ?_)
    rcases word.chars c member with ⟨readable, plain⟩ | rfl | rfl
    · exact words c readable plain (fun same => noComma (same ▸ member))
    · exact delimits.space
    · exact delimits.tab
  | quoted quotation => exact scan_quotation closes follow safe
  | map first rows =>
    exact scan_balanced (.inl rfl)
      (.append (first.balanced (.inl rfl)) (Rows.balanced (.inl rfl) rows closes))
      (Nat.lt_of_succ_lt room)
  | list first cells =>
    exact scan_balanced (.inr rfl)
      (.append (first.balanced (.inr rfl)) (Cells.balanced (.inr rfl) cells closes))
      (Nat.lt_of_succ_lt room)

/-- A node is read as its content, without the blanks at its end if nothing is
left behind it. -/
theorem read_node (delimits : Delimits delim altdelim)
    (words : ∀ c, isRead c = true → isMarkup c = false → c ≠ ',' → isDelim delim altdelim c = false)
    {pre : Text} (blank : ∀ c ∈ pre, isRead c = false) (node : Node) (closes : node.Closes)
    (room : node.height < 2 ^ 32) {following : Text} (follows : Follows delim altdelim following rest) :
    read .checked delim altdelim (pre ++ (node.stripped ++ following)) =
      .ok (if rest = [] then trimEnd node.content else node.content, rest) := by
  obtain ⟨kept, scans, unread, nothing⟩ := follows.scans
  obtain ⟨c, later, is, readable⟩ := node.begins_text following
  have start : dropUnread (pre ++ (node.stripped ++ following)) = node.stripped ++ following := by
    rw [is, dropUnread_append blank readable]
  rw [read, start, scan_node delimits words node closes room follows.head (fun _ => rfl), scans,
    prepend_ok]
  cases rest with
  | nil => simp [trimEnd_append unread]
  | cons d rest => simp [nothing (List.cons_ne_nil d rest)]

/-- A value that is missing is read as the empty string. -/
theorem read_missing (delimits : Delimits delim altdelim) {pre : Text}
    (blank : ∀ c ∈ pre, isRead c = false) {mark : Char} (readable : isRead mark = true)
    (ends : isDelim delim altdelim mark = true) :
    read blanks delim altdelim (pre ++ mark :: rest) = .ok ([], rest) := by
  have inert := delimits.inert mark ends
  have noQuote := quoteOf_inert inert
  simp only [Inert, List.mem_cons, List.not_mem_nil, or_false, not_or] at inert
  have scans : scan blanks delim altdelim (mark :: rest) = .ok ([], rest) :=
    scan_delim delimits.given (List.forall_mem_nil _) ends noQuote inert.1 inert.2.2.1 rest
  rw [read, dropUnread_append blank readable, scans]
  cases rest <;> rfl

end Reading

end Ztd.Filedat
