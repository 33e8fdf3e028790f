import Ztd.Filedat.Meaning
import Ztd.Filedat.Nodes

/-! What nodes mean, and that their texts are parsed as that. -/

namespace Ztd.Filedat
open Ztd.Lib

/-- A map with one more entry, if its value has a tree and its key is new. -/
def enter (key : Text) (value : Run Unit Tree) (values : List (Text × Tree)) :
    Run Unit (List (Text × Tree)) :=
  value >>= fun tree =>
    if OrderedMap.find? key values = none then .ok (OrderedMap.insert key tree values)
    else Run.raise ()

theorem enter_ok {key : Text} {value : Run Unit Tree} {values after : List (Text × Tree)} :
    enter key value values = .ok after ↔ ∃ tree, value = .ok tree ∧
    OrderedMap.find? key values = none ∧ after = OrderedMap.insert key tree values := by
  rw [enter]
  cases value with
  | error stop => simp
  | ok tree =>
    rw [Run.bind_ok]
    split
    · rename_i fresh
      simp [fresh, eq_comm]
    · rename_i held
      simp [held, Run.raise]

/-- What stands behind the first newline. -/
def afterLine (text : Text) : Text := (text.dropWhile (· != '\n')).drop 1

/-- A text without the blanks at its end if nothing follows it. -/
def trimIf (trim : Bool) (text : Text) : Text := if trim then trimEnd text else text

/-- The tree of an empty string. -/
def emptyTree : Tree := .string () []

mutual
/-- The tree a node is parsed as, or the end of the parse. `trim` says that nothing
is left behind it. -/
def Node.means : Node → Bool → Run Unit Tree
  | .plain word _, _ => .ok (.string () word.text)
  | .quoted quotation, trim => treeOf .checked (trimIf trim quotation.content)
  | .map _ rows, _ => (rows.means []).map (.map ())
  | .list _ .done, _ => .ok (.list () [])
  | .list _ cells, _ => cells.means.map (.list ())
/-- The map behind the entries, with those in front of them. -/
def Rows.means : Rows → List (Text × Tree) → Run Unit (List (Text × Tree))
  | .done, values => .ok values
  | .last key _ _ value trail, values =>
    enter key.content (value.means (afterLine trail.stripped).isEmpty) values
  | .lastEmpty key _ after, values =>
    if after.stripped ≠ [] then enter key.content (.ok emptyTree) values
    -- a key of blanks is trimmed and gone when nothing is behind its equal sign
    else if trimEnd key.content = [] then .ok values
    else Run.raise ()
  | .more key _ _ value sep rest, values =>
    enter key.content (value.means (sep.after.stripped ++ rest.stripped).isEmpty) values >>=
      rest.means
  | .moreEmpty key _ _ _ rest, values =>
    enter key.content (.ok emptyTree) values >>= rest.means
/-- The elements; behind a separator there is one more if anything is. -/
def Cells.means : Cells → Run Unit (List Tree)
  | .done => .ok [emptyTree]
  | .last value _ => (value.means true).map fun tree => [tree]
  | .more value _ _ after rest =>
    value.means (after.stripped ++ rest.stripped).isEmpty >>= fun tree =>
      if after.stripped ++ rest.stripped = [] then .ok [tree] else rest.means.map (tree :: ·)
  | .moreEmpty _ after rest =>
    if after.stripped ++ rest.stripped = [] then .ok [emptyTree]
    else rest.means.map (emptyTree :: ·)
end

section Rounds
variable {construct : Text → Run Unit Tree} {pre : Text} {values : List (Text × Tree)}

/-- A key and its equal sign in front of a text. -/
def keyed (key : Key) (before : Layout) (rest : Text) : Text :=
  key.text ++ before.stripped ++ '=' :: rest

theorem keyed_head (blank : ∀ c ∈ pre, isRead c = false) (key : Key) (before : Layout)
    (rest : Text) : (dropUnread (pre ++ keyed key before rest)).head? ≠ some '=' := by
  obtain ⟨c, later, begins, readable, notEqual⟩ := key.begins_text (before.stripped ++ '=' :: rest)
  rw [keyed, List.append_assoc, begins, dropUnread_append blank readable]
  simpa using notEqual

/-- What `entryOf` makes of a key with something behind its equal sign. -/
theorem entryOf_keyed {blanks : BlankRun} (blank : ∀ c ∈ pre, isRead c = false) (key : Key)
    (before : Layout) {rest : Text} (more : rest ≠ []) :
    entryOf blanks (pre ++ keyed key before rest) =
      (read blanks ';' '\n' rest).forget.map fun found =>
        (some (key.content, found.1), found.2) := by
  have keyRead := read_key blanks blank key (gap_stripped delimits_key (by decide) before) more
  rw [← List.append_assoc key.text] at keyRead
  obtain ⟨c, later, is, noSemicolon⟩ := key.content_cons
  rw [entryOf, if_neg (keyed_head blank key before rest), keyed, keyRead, Run.forget_ok, Run.bind_ok,
    is, pairOf, if_neg noSemicolon, if_neg more]

theorem mapRound_keyed {blanks : BlankRun} (blank : ∀ c ∈ pre, isRead c = false) (key : Key)
    (before : Layout) {value rest behind : Text} (more : rest ≠ [])
    (reads : read blanks ';' '\n' rest = .ok (value, behind)) :
    mapRound blanks construct (pre ++ keyed key before rest) values =
      (enter key.content (construct value) values).map fun values => (values, behind) := by
  rw [mapRound, entryOf_keyed blank key before more, reads]
  rfl

variable (construct values) in
/-- A key with nothing behind its equal sign is an error, unless it is all blanks. -/
theorem mapRound_bare (blanks : BlankRun) (blank : ∀ c ∈ pre, isRead c = false) (key : Key)
    (before : Layout) :
    mapRound blanks construct (pre ++ keyed key before []) values =
      if trimEnd key.content = [] then .ok (values, []) else Run.raise () := by
  obtain ⟨c, later, begins, readable, _⟩ := key.begins_text (before.stripped ++ ['='])
  have start : dropUnread (pre ++ keyed key before []) = key.text ++ (before.stripped ++ ['=']) := by
    rw [keyed, List.append_assoc, begins, dropUnread_append blank readable]
  have gap := gap_stripped delimits_key (by decide) before
  have scans : scan blanks '=' nul (before.stripped ++ ['=']) = .ok ([], []) :=
    scan_delim (by decide) gap rfl rfl (by decide) (by decide) []
  have keyRead : read blanks '=' nul (pre ++ keyed key before []) =
      .ok (trimEnd key.content, []) := by
    rw [read, start, scan_key key (quoteOf_head (isRead_gap gap) rfl) (by simp), scans, prepend_ok]
    simp
  rw [mapRound, entryOf, if_neg (keyed_head blank key before []), keyRead, Run.forget_ok,
    Run.bind_ok]
  cases trimmed : trimEnd key.content with
  | nil => rfl
  | cons d trimmed =>
    have notSemicolon : d ≠ ';' := by
      obtain ⟨first, others, is, noSemicolon⟩ := key.content_cons
      have front : trimEnd key.content <+: key.content := by
        have suffix := List.dropWhile_suffix (!isRead ·) (l := key.content.reverse)
        have back := List.reverse_prefix.mpr suffix
        rwa [List.reverse_reverse] at back
      rw [trimmed, is] at front
      obtain ⟨rfl, _⟩ := List.cons_prefix_cons.mp front
      exact noSemicolon
    simp [pairOf, notSemicolon, Run.raise]

end Rounds

section Layouts

theorem blank_stripped (layout : Layout) :
    ∀ c ∈ layout.stripped, c = ' ' ∨ c = '\t' ∨ c = '\n' := by
  intro c member
  obtain ⟨piece, _, inside⟩ := List.mem_flatMap.mp member
  cases piece with
  | blank d valid =>
    obtain rfl : c = d := by simpa [Piece.stripped] using inside
    exact valid
  | comment => exact .inr (.inr (by simpa [Piece.stripped] using inside))

/-- Behind the last value of a map a newline ends it, or the map. -/
theorem Follows.trail (layout : Layout) :
    Follows ';' '\n' layout.stripped (afterLine layout.stripped) := by
  have chars := blank_stripped layout
  generalize layout.stripped = trail at chars ⊢
  rcases cases_gap ';' '\n' trail with blank | ⟨gap, c, later, rfl, blank, stops⟩
  · have noLine : ∀ c ∈ trail, (c != '\n') = true := by
      intro c member
      have gap := blank c member
      simp only [isGap, isDelim, Bool.and_eq_true, Bool.not_eq_true', Bool.or_eq_false_iff] at gap
      simpa using gap.2.2
    rw [afterLine, List.dropWhile_eq_nil_iff.mpr noLine]
    exact .ending delimits_entry blank
  · have noLine : ∀ c ∈ gap, (c != '\n') = true := by
      intro c member
      have gap := blank c member
      simp only [isGap, isDelim, Bool.and_eq_true, Bool.not_eq_true', Bool.or_eq_false_iff] at gap
      simpa using gap.2.2
    obtain rfl : c = '\n' := by
      rcases chars c (by simp) with rfl | rfl | rfl
      · simp [isGap, isRead, isDelim] at stops
      · simp [isGap, isRead, isDelim] at stops
      · rfl
    rw [afterLine, List.dropWhile_append_of_pos noLine, List.dropWhile_cons_of_neg (by simp)]
    exact .mark delimits_entry blank rfl

theorem isDelim_comma (semicolon : Bool) : isDelim ',' ';' (comma semicolon) = true := by
  cases semicolon <;> rfl

theorem isRead_comma (semicolon : Bool) : isRead (comma semicolon) = true := by
  cases semicolon <;> rfl

theorem Rows.eq_done {rows : Rows} {pre : Text} (unread : ∀ c ∈ pre, isRead c = false)
    (blank : dropUnread (pre ++ rows.stripped) = []) : rows = .done := by
  have absurd_ (key : Key) (before : Layout) (rest : Text)
      (blank : dropUnread (pre ++ keyed key before rest) = []) : False := by
    obtain ⟨c, later, begins, readable, _⟩ := key.begins_text (before.stripped ++ '=' :: rest)
    rw [keyed, List.append_assoc, begins, dropUnread_append unread readable] at blank
    simp at blank
  cases rows with
  | done => rfl
  | last key before after value trail => exact (absurd_ key before _ blank).elim
  | lastEmpty key before after => exact (absurd_ key before _ blank).elim
  | more key before after value sep rest => exact (absurd_ key before _ blank).elim
  | moreEmpty key before after behind rest => exact (absurd_ key before _ blank).elim

/-- Cells begin with something readable, if there are any. -/
theorem Cells.begins (cells : Cells) :
    cells = .done ∨ ∃ c later, cells.stripped = c :: later ∧ isRead c = true := by
  cases cells with
  | done => exact .inl rfl
  | last value trail => exact .inr (value.begins_text trail.stripped)
  | more value before semicolon after rest =>
    obtain ⟨c, later, begins, readable⟩ := value.begins_text
      (before.stripped ++ comma semicolon :: (after.stripped ++ rest.stripped))
    exact .inr ⟨c, later, (List.append_assoc ..).trans begins, readable⟩
  | moreEmpty semicolon after rest => exact .inr ⟨_, _, rfl, isRead_comma semicolon⟩

theorem Cells.eq_done {cells : Cells} (nothing : cells.stripped = []) : cells = .done := by
  rcases cells.begins with done | ⟨c, later, begins, _⟩
  · exact done
  · rw [begins] at nothing
    cases nothing

end Layouts

section Values
variable {text : Text}

/-- Text the parser takes for a string and keeps has its own tree. -/
theorem treeOf_reread {blanks : BlankRun} (reread : Reread text) :
    treeOf blanks text = .ok (.string () text) := by
  rw [treeOf, set, setFuel_reread reread]
  rfl

theorem treeOf_nil (blanks : BlankRun) : treeOf blanks [] = .ok emptyTree :=
  treeOf_reread (.inl rfl)

theorem trimIf_append (trim : Bool) (front : Text) {c : Char} (readable : isRead c = true) :
    trimIf trim (front ++ [c]) = front ++ [c] := by
  cases trim with
  | false => rfl
  | true => exact trimmed_append front readable

theorem if_eq_trimIf (rest : Text) :
    (if rest = [] then trimEnd text else text) = trimIf rest.isEmpty text := by
  cases rest <;> rfl

variable {group : GroupKind} {height : Nat} {inner pre post : Text}

/-- The tree of a balanced text in its brackets, between blanks. -/
theorem treeOf_balanced {blanks : BlankRun} (known : group.Known)
    (balanced : Balanced group height inner) (room : height < 2 ^ 32)
    (before : ∀ c ∈ pre, isRead c = false) (after : ∀ c ∈ post, isRead c = false) :
    treeOf blanks (pre ++ (group.opening :: (inner ++ [group.closing]) ++ post)) =
      contentOf blanks group inner := by
  have inside : insideOf (inner ++ [group.closing]) post = .ok inner := by
    rw [insideOf, if_pos (dropUnread_blank after), if_neg (by simp), List.dropLast_concat]
  rw [treeOf_group known (read_balanced blanks known balanced room before after), inside,
    Run.bind_ok]

theorem treeOf_enclosed (blanks : BlankRun) (known : group.Known)
    (balanced : Balanced group height inner) (room : height < 2 ^ 32) :
    treeOf blanks (group.opening :: (inner ++ [group.closing])) = contentOf blanks group inner := by
  have whole : treeOf blanks ([] ++ (group.opening :: (inner ++ [group.closing]) ++ [])) =
      contentOf blanks group inner :=
    treeOf_balanced known balanced room (List.forall_mem_nil _) (List.forall_mem_nil _)
  rwa [List.nil_append, List.append_nil] at whole

end Values

section Loops
variable {construct : Text → Run Unit Tree} {str rest : Text} {values : List (Text × Tree)}

theorem entriesOf_entered {blanks : BlankRun} {key : Text} {value : Run Unit Tree}
    (round : mapRound blanks construct str values =
      (enter key value values).map fun values => (values, rest)) :
    entriesOf blanks construct str values = enter key value values >>= fun values =>
      if rest = [] then .ok values else entriesOf blanks construct rest values := by
  cases entered : enter key value values with
  | error stop =>
    rw [entered] at round
    rw [entriesOf_error round]
    rfl
  | ok after =>
    rw [entered] at round
    rw [entriesOf_ok round]
    rfl

theorem elementsOf_read {value : Text} (reads : read .checked ',' ';' str = .ok (value, rest)) :
    elementsOf .checked construct str = construct value >>= fun tree =>
      if rest = [] then .ok [tree] else (elementsOf .checked construct rest).map (tree :: ·) := by
  have round : listRound .checked construct str =
      (construct value).map fun tree => (tree, rest) := by
    rw [listRound, reads]
    rfl
  cases built : construct value with
  | error stop =>
    rw [built] at round
    rw [elementsOf_error round]
    rfl
  | ok tree =>
    rw [built] at round
    rw [elementsOf_ok round]
    rfl

theorem entriesOf_blank {blanks : BlankRun} (blank : ∀ c ∈ str, isRead c = false) :
    entriesOf blanks construct str values = .ok values := by
  have nothing := dropUnread_blank blank
  have reads : read blanks '=' nul str = .ok ([], []) := read_blank nothing
  have round : mapRound blanks construct str values = .ok (values, []) := by
    rw [mapRound, entryOf, nothing, if_neg (by simp), reads]
    rfl
  rw [entriesOf_ok round, if_pos rfl]

end Loops

section Parsing
variable {pre : Text}

/-- The loop over the rest of a map gives what the rest means, also when nothing is left. -/
theorem Rows.left_means {rest : Rows} {gap : Text} {values : List (Text × Tree)}
    (loop : entriesOf .checked (treeOf .checked) (gap ++ rest.stripped) values = rest.means values) :
    (if gap ++ rest.stripped = [] then .ok values
      else entriesOf .checked (treeOf .checked) (gap ++ rest.stripped) values) =
        rest.means values := by
  rw [loop]
  split
  · rename_i empty
    obtain rfl := Rows.eq_done (List.forall_mem_nil _) (by
      rw [List.nil_append, (List.append_eq_nil_iff.mp empty).2]; rfl)
    rfl
  · rfl

mutual
/-- A node is parsed as what it means, from what is read of it. -/
theorem Node.treeOf_content : ∀ node : Node, node.Closes → node.height < 2 ^ 32 →
    ∀ trim, treeOf .checked (trimIf trim node.content) = node.means trim
  | .plain word noComma, _, _, trim => by
    obtain ⟨front, c, is, readable⟩ := word.ends
    change treeOf .checked (trimIf trim word.text) = .ok (.string () word.text)
    rw [is, trimIf_append trim front readable, ← is, treeOf_reread word.reread]
  | .quoted quotation, _, _, trim => rfl
  | .map first rows, closes, room, trim => by
    have text : (Node.map first rows).content = '{' :: (first.stripped ++ rows.stripped) ++ ['}'] :=
      rfl
    have whole := treeOf_enclosed .checked (.inl rfl)
      ((first.balanced (.inl rfl)).append (Rows.balanced (.inl rfl) rows closes))
      (Nat.lt_of_succ_lt room)
    rw [text, trimIf_append trim _ rfl]
    exact whole.trans (Rows.contentOf_stripped rows closes (Nat.lt_of_succ_lt room) first)
  | .list first cells, closes, room, trim => by
    have text : (Node.list first cells).content = '[' :: (first.stripped ++ cells.stripped) ++ [']'] :=
      rfl
    have whole := treeOf_enclosed .checked (.inr rfl)
      ((first.balanced (.inr rfl)).append (Cells.balanced (.inr rfl) cells closes))
      (Nat.lt_of_succ_lt room)
    rw [text, trimIf_append trim _ rfl]
    exact whole.trans (Cells.contentOf_stripped cells closes (Nat.lt_of_succ_lt room) first trim)
termination_by node => (sizeOf node, 0)
theorem Rows.contentOf_stripped : ∀ rows : Rows, rows.Closes → rows.height < 2 ^ 32 →
    ∀ first : Layout, contentOf .checked brace (first.stripped ++ rows.stripped) =
      (rows.means []).map (.map ())
  | rows, closes, room, first => by
    rw [contentOf, if_pos (show brace.opening = '{' from rfl)]
    split
    · rename_i blank
      obtain rfl := Rows.eq_done (unread_stripped first) blank
      rfl
    · rw [Rows.entriesOf_stripped rows closes room _ (unread_stripped first)]
termination_by rows => (sizeOf rows, 1)
theorem Cells.contentOf_stripped : ∀ cells : Cells, cells.Closes → cells.height < 2 ^ 32 →
    ∀ (first : Layout) (trim : Bool),
      contentOf .checked bracket (first.stripped ++ cells.stripped) =
        (Node.list first cells).means trim
  | cells, closes, room, first, trim => by
    rw [contentOf, if_neg (by decide)]
    rcases cells.begins with rfl | ⟨c, later, begins, readable⟩
    · rw [show Cells.done.stripped = [] from rfl, List.append_nil,
        if_pos (dropUnread_blank (unread_stripped first))]
      rfl
    · have filled : dropUnread (first.stripped ++ cells.stripped) ≠ [] := by
        rw [begins, dropUnread_append (unread_stripped first) readable]
        simp
      rw [if_neg filled, Cells.elementsOf_stripped cells closes room _ (unread_stripped first)]
      cases cells with
      | done => simp [Cells.stripped, Cells.render] at begins
      | last | more | moreEmpty => rfl
termination_by cells => (sizeOf cells, 1)
theorem Rows.entriesOf_stripped : ∀ rows : Rows, rows.Closes → rows.height < 2 ^ 32 →
    ∀ pre : Text, (∀ c ∈ pre, isRead c = false) → ∀ values,
      entriesOf .checked (treeOf .checked) (pre ++ rows.stripped) values = rows.means values
  | .done, _, _, pre, blank, values => by
    rw [show Rows.done.stripped = [] from rfl, List.append_nil, entriesOf_blank blank]
    rfl
  | .last key before after value trail, closes, room, pre, blank, values => by
    have text : (Rows.last key before after value trail).stripped =
        keyed key before (after.stripped ++ value.stripped ++ trail.stripped) := rfl
    have reads := read_node delimits_entry words_entry (unread_stripped after) value closes room
      (Follows.trail trail)
    rw [← List.append_assoc] at reads
    have more : after.stripped ++ value.stripped ++ trail.stripped ≠ [] := by
      simp [value.stripped_ne_nil]
    have behind : ∀ c ∈ afterLine trail.stripped, isRead c = false := fun c member =>
      unread_stripped trail c ((List.dropWhile_suffix _).subset (List.mem_of_mem_drop member))
    have ends (values : List (Text × Tree)) : (if afterLine trail.stripped = [] then .ok values
        else entriesOf .checked (treeOf .checked) (afterLine trail.stripped) values) =
          Except.ok values := by
      rw [entriesOf_blank behind]
      exact ite_self _
    rw [text, entriesOf_entered (mapRound_keyed blank key before more reads), if_eq_trimIf,
      Node.treeOf_content value closes room, Rows.means]
    simp only [ends]
    exact bind_pure _
  | .lastEmpty key before after, _, _, pre, blank, values => by
    have text : (Rows.lastEmpty key before after).stripped = keyed key before after.stripped := rfl
    rw [text, Rows.means]
    by_cases more : after.stripped = []
    · have round := mapRound_bare (treeOf .checked) values .checked blank key before
      rw [more, if_neg (by simp)]
      split
      · rename_i blankKey
        rw [if_pos blankKey] at round
        rw [entriesOf_ok round, if_pos rfl]
      · rename_i keyed
        rw [if_neg keyed] at round
        rw [entriesOf_error round]
        rfl
    · have reads : read .checked ';' '\n' after.stripped = .ok ([], []) :=
        read_blank (dropUnread_blank (unread_stripped after))
      rw [entriesOf_entered (mapRound_keyed blank key before more reads), treeOf_nil, if_pos more]
      simp only [if_true]
      exact bind_pure _
  | .more key before after value sep rest, closes, room, pre, blank, values => by
    have text : (Rows.more key before after value sep rest).stripped = keyed key before
        (after.stripped ++ value.stripped ++ (sep.render Piece.stripped ++ rest.stripped)) := rfl
    have reads := read_node delimits_entry words_entry (unread_stripped after) value closes.1
      (Nat.lt_of_le_of_lt (Nat.le_max_left _ _) room) (sep.follows rest.stripped)
    rw [← List.append_assoc] at reads
    have more : after.stripped ++ value.stripped ++ (sep.render Piece.stripped ++ rest.stripped) ≠
        [] := by simp [value.stripped_ne_nil]
    have later (values : List (Text × Tree)) :=
      Rows.left_means (Rows.entriesOf_stripped rest closes.2
        (Nat.lt_of_le_of_lt (Nat.le_max_right _ _) room) _ (unread_stripped sep.after) values)
    rw [text, entriesOf_entered (mapRound_keyed blank key before more reads), if_eq_trimIf,
      Node.treeOf_content value closes.1 (Nat.lt_of_le_of_lt (Nat.le_max_left _ _) room),
      Rows.means]
    simp only [later]
  | .moreEmpty key before after behind rest, closes, room, pre, blank, values => by
    have text : (Rows.moreEmpty key before after behind rest).stripped =
        keyed key before (after.stripped ++ ';' :: (behind.stripped ++ rest.stripped)) := rfl
    have reads : read .checked ';' '\n' (after.stripped ++ ';' ::
        (behind.stripped ++ rest.stripped)) = .ok ([], behind.stripped ++ rest.stripped) :=
      read_missing delimits_entry (unread_stripped after) rfl rfl
    have later (values : List (Text × Tree)) :=
      Rows.left_means (Rows.entriesOf_stripped rest closes room _ (unread_stripped behind) values)
    rw [text, entriesOf_entered (mapRound_keyed blank key before (by simp) reads), treeOf_nil,
      Rows.means]
    simp only [later]
termination_by rows => (sizeOf rows, 0)
theorem Cells.elementsOf_stripped : ∀ cells : Cells, cells.Closes → cells.height < 2 ^ 32 →
    ∀ pre : Text, (∀ c ∈ pre, isRead c = false) →
      elementsOf .checked (treeOf .checked) (pre ++ cells.stripped) = cells.means
  | .done, _, _, pre, blank => by
    rw [show Cells.done.stripped = [] from rfl, List.append_nil,
      elementsOf_read (read_blank (dropUnread_blank blank)), treeOf_nil]
    rfl
  | .last value trail, closes, room, pre, blank => by
    have text : (Cells.last value trail).stripped = value.stripped ++ trail.stripped := rfl
    have reads := read_node delimits_element words_element blank value closes room
      (.ending delimits_element (gap_stripped delimits_element rfl trail))
    rw [text, elementsOf_read reads, if_eq_trimIf, Node.treeOf_content value closes room,
      Cells.means]
    simp only [if_true, List.isEmpty_nil]
    cases value.means true <;> rfl
  | .more value before semicolon after rest, closes, room, pre, blank => by
    have text : (Cells.more value before semicolon after rest).stripped = value.stripped ++
        (before.stripped ++ comma semicolon :: (after.stripped ++ rest.stripped)) :=
      List.append_assoc ..
    have follows : Follows ',' ';' (before.stripped ++ comma semicolon ::
        (after.stripped ++ rest.stripped)) (after.stripped ++ rest.stripped) :=
      .mark delimits_element (gap_stripped delimits_element rfl before) (isDelim_comma semicolon)
    have reads := read_node delimits_element words_element blank value closes.1
      (Nat.lt_of_le_of_lt (Nat.le_max_left _ _) room) follows
    rw [text, elementsOf_read reads, if_eq_trimIf,
      Node.treeOf_content value closes.1 (Nat.lt_of_le_of_lt (Nat.le_max_left _ _) room),
      Cells.elementsOf_stripped rest closes.2 (Nat.lt_of_le_of_lt (Nat.le_max_right _ _) room) _
        (unread_stripped after), Cells.means]
  | .moreEmpty semicolon after rest, closes, room, pre, blank => by
    have text : (Cells.moreEmpty semicolon after rest).stripped =
        comma semicolon :: (after.stripped ++ rest.stripped) := rfl
    rw [text, elementsOf_read (read_missing delimits_element blank (isRead_comma semicolon)
        (isDelim_comma semicolon)), treeOf_nil,
      Cells.elementsOf_stripped rest closes room _ (unread_stripped after), Cells.means]
    rfl
termination_by cells => (sizeOf cells, 0)
end

end Parsing

end Ztd.Filedat
