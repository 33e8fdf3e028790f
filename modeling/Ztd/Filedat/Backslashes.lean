import Ztd.Filedat.Closing
import Ztd.Filedat.Holes

/-! Quoted text that ends in a backslash: its closing quote is taken for a part of it,
and whatever is behind decides how long it is. -/

namespace Ztd.Filedat
open Ztd.Lib

/-- A string and a backslash behind it as they are written, up to the quote that
should close. -/
def spilled (s : Text) : Text := '"' :: (escape '"' s ++ ['\\', '"'])

theorem Quotation.text_backslash (s : Text) :
    Quotation.text ⟨false, s ++ ['\\']⟩ = spilled s := by
  simp [Quotation.text, Quotation.kind, spilled, escape_append, escape, doubleQuote]

section Marks
variable {mark : Char} (valid : IsMark mark) (s tail : Text)
include valid

theorem head_spilled : (escape mark s ++ '\\' :: mark :: tail).head? ≠ some mark := by
  have first := head_escape_ne valid s
  cases escaped : escape mark s with
  | nil => simpa using Ne.symm valid.notBackslash
  | cons c rest =>
    rw [escaped] at first
    simpa using first

theorem closeQuote_spilled :
    closeQuote mark (escape mark s ++ '\\' :: mark :: tail) =
      (closeQuote mark tail).map fun found => (escape mark s ++ '\\' :: mark :: found.1, found.2) := by
  induction s with
  | nil => exact closeQuote_escaped valid tail
  | cons c s ih =>
    rw [escape]
    split
    · rename_i same
      subst same
      rw [List.cons_append, List.cons_append, closeQuote_escaped valid, ih, Option.map_map]
      rfl
    · rename_i other
      rw [List.cons_append, closeQuote_plain other fun _ => head_spilled valid s tail, ih,
        Option.map_map]
      rfl

theorem unescape_spilled :
    unescape mark (escape mark s ++ '\\' :: mark :: tail) = s ++ mark :: unescape mark tail := by
  induction s with
  | nil => exact if_pos ⟨rfl, rfl⟩
  | cons c s ih =>
    rw [escape]
    split
    · rename_i same
      simp [unescape, same, ih]
    · rw [List.cons_append, unescape_cons fun _ => head_spilled valid s tail, ih]
      rfl

end Marks

section Texts
variable {s tail : Text}

theorem spilled_append (s tail : Text) :
    spilled s ++ tail = '"' :: (escape '"' s ++ '\\' :: '"' :: tail) := by simp [spilled]

/-- Where a quoted text closes that ends in a backslash. -/
theorem spilled_closes (s tail : Text) :
    closeQuote doubleQuote.mark (escape '"' s ++ '\\' :: '"' :: tail) =
      (closeQuote '"' tail).map fun found => (escape '"' s ++ '\\' :: '"' :: found.1, found.2) :=
  closeQuote_spilled isMark_double s tail

theorem strip_spilled {left : Text} (strips : strip (spilled s ++ tail) = .ok left) :
    ∃ later, left = spilled s ++ later := by
  have closes := spilled_closes s tail
  rw [spilled_append] at strips
  cases quote : closeQuote '"' tail with
  | none =>
    rw [quote] at closes
    rw [strip_quote_open rfl closes] at strips
    cases strips
  | some behind =>
    obtain ⟨raw, behind⟩ := behind
    rw [quote] at closes
    rw [strip_quote rfl closes] at strips
    obtain ⟨rest, _, rfl⟩ := lead_eq_ok strips
    exact ⟨raw ++ '"' :: (behind.take 1 ++ rest), by simp [spilled]⟩

/-- A group scan that ends behind the quote has copied it. -/
theorem closeGroup_spilled {group : GroupKind} (known : group.Known) {counter : UInt32}
    {body : Text} {after : Option Text}
    (found : closeGroup group counter (spilled s ++ tail) = .ok (body, after)) :
    ∃ later, body = spilled s ++ later := by
  have apart : '"' ≠ group.closing ∧ '"' ≠ group.down ∧ '"' ≠ group.up := by
    rcases known with rfl | rfl <;> decide
  have inner : ¬(counter = 0 ∧ '"' = group.closing) := fun closes => apart.1 closes.2
  have closes := spilled_closes s tail
  rw [spilled_append] at found
  cases quote : closeQuote '"' tail with
  | none =>
    rw [quote] at closes
    rw [closeGroup_quote_open group inner apart.2.1 apart.2.2 rfl closes] at found
    cases found
  | some behind =>
    obtain ⟨raw, behind⟩ := behind
    rw [quote] at closes
    rw [closeGroup_quote group inner apart.2.1 apart.2.2 rfl closes] at found
    obtain ⟨rest, _, rfl⟩ := prepend_eq_ok found
    exact ⟨raw ++ '"' :: rest, by simp [spilled]⟩

/-- What is read from the quote on begins with the string and that quote. -/
theorem scan_spilled {blanks : BlankRun} {delim altdelim : Char} {value rest : Text}
    (scans : scan blanks delim altdelim (spilled s ++ tail) = .ok (value, rest)) :
    ∃ later, value = s ++ '"' :: later := by
  have closes := spilled_closes s tail
  rw [spilled_append] at scans
  cases quote : closeQuote '"' tail with
  | none =>
    rw [quote] at closes
    have opened : openQuote ('"' :: (escape '"' s ++ '\\' :: '"' :: tail)) =
        .error (.thrown ⟨doubleQuote.open_, '"' :: (escape '"' s ++ '\\' :: '"' :: tail)⟩) := by
      simp only [openQuote, show quoteOf '"' = some doubleQuote from rfl, closes, Option.map_none]
    rw [scan_error (List.cons_ne_nil _ _) (by rw [scanPiece, opened])] at scans
    cases scans
  | some behind =>
    obtain ⟨raw, behind⟩ := behind
    rw [quote] at closes
    have opened : openQuote ('"' :: (escape '"' s ++ '\\' :: '"' :: tail)) =
        .ok (s ++ '"' :: unescape '"' raw, behind) := by
      have unescaped : unescape doubleQuote.mark (escape '"' s ++ '\\' :: '"' :: raw) =
          s ++ '"' :: unescape '"' raw := unescape_spilled isMark_double s raw
      simp only [openQuote, show quoteOf '"' = some doubleQuote from rfl, closes, Option.map_some,
        unescaped]
    have piece : scanPiece blanks delim altdelim ('"' :: (escape '"' s ++ '\\' :: '"' :: tail)) =
        prepend (s ++ '"' :: unescape '"' raw) (scanBehind blanks delim altdelim behind) := by
      rw [scanPiece, opened]
    cases round : scanBehind blanks delim altdelim behind with
    | error stop =>
      rw [round] at piece
      rw [scan_error (List.cons_ne_nil _ _) piece] at scans
      cases scans
    | ok found =>
      obtain ⟨val, reach⟩ := found
      rw [round] at piece
      cases reach with
      | leave rest =>
        rw [scan_leave (List.cons_ne_nil _ _) piece] at scans
        cases scans
        exact ⟨unescape '"' raw ++ val, by simp⟩
      | next rest =>
        rw [scan_next (List.cons_ne_nil _ _) piece] at scans
        obtain ⟨other, _, rfl⟩ := prepend_eq_ok scans
        exact ⟨unescape '"' raw ++ val ++ other, by simp⟩

end Texts

section Fronts

/-- A scan of the group that starts at most `height` below the deepest level goes over
the text and may be deeper then. -/
def Enters (group : GroupKind) (height : Nat) (text : Text) : Prop :=
  ∀ depth rest, depth + height < 2 ^ 32 → ∃ counter,
    closeGroup group (group.level depth) (text ++ rest) = prepend text (closeGroup group counter rest)

namespace Enters
variable {group kind : GroupKind} {height other : Nat} {first text : Text}

theorem mono (enters : Enters group height text) (higher : height ≤ other) :
    Enters group other text := fun depth rest room => enters depth rest (by omega)

theorem nil : Enters group height [] := fun depth _ _ => ⟨group.level depth, by simp⟩

theorem behind (balanced : Balanced group height first) (enters : Enters group height text) :
    Enters group height (first ++ text) := by
  intro depth rest room
  obtain ⟨counter, entered⟩ := enters depth rest room
  exact ⟨counter, by rw [List.append_assoc, balanced depth _ room, entered, prepend_prepend]⟩

theorem cons (known : group.Known) {c : Char} (inert : Inert c) (enters : Enters group height text) :
    Enters group height (c :: text) :=
  have single : Balanced group height [c] := .cons known inert .nil
  behind single enters

theorem opening (known : group.Known) (kindKnown : kind.Known) (enters : Enters group height text) :
    Enters group (height + 1) (kind.opening :: text) := by
  intro depth rest room
  by_cases same : kind = group
  · subst same
    obtain ⟨counter, entered⟩ := enters (depth + 1) rest (by omega)
    exact ⟨counter, by rw [List.cons_append, closeGroup_opening known.valid, entered, prepend_prepend,
      List.singleton_append]⟩
  · have passes : group.Passes kind.opening := by
      rcases known with rfl | rfl <;> rcases kindKnown with rfl | rfl
      · exact absurd rfl same
      · exact ⟨by decide, by decide, rfl⟩
      · exact ⟨by decide, by decide, rfl⟩
      · exact absurd rfl same
    have balanced : Balanced group height [kind.opening] :=
      .passes known (show ∀ c ∈ [kind.opening], group.Passes c by simpa using passes)
    exact Enters.behind balanced enters depth rest (by omega)

end Enters

variable (node : Node)

section Groups
variable {group : GroupKind} (known : group.Known)
include known

mutual
theorem Hole.enters : ∀ hole : Hole, (hole.fill node).Closes →
    Enters group (hole.fill node).height (hole.front Piece.stripped)
  | .here, _ => .nil
  | .map first rows, closes =>
    .opening known (.inl rfl) (.behind (first.balanced known) (RowsHole.enters rows closes))
  | .list first cells, closes =>
    .opening known (.inr rfl) (.behind (first.balanced known) (CellsHole.enters cells closes))
theorem RowsHole.enters : ∀ rows : RowsHole, (rows.fill node).Closes →
    Enters group (rows.fill node).height (rows.front Piece.stripped)
  | .last key before after hole _, closes =>
    .behind (.append (key.balanced known) (before.balanced known)) (.cons known (by decide)
      (.behind (after.balanced known) (Hole.enters hole closes)))
  | .more key before after hole _ _, closes =>
    .behind (.append (key.balanced known) (before.balanced known)) (.cons known (by decide)
      (.behind (after.balanced known)
        ((Hole.enters hole closes.1).mono (Nat.le_max_left _ _))))
  | .later key before after value sep rest, closes =>
    .behind (.append (key.balanced known) (before.balanced known)) (.cons known (by decide)
      (.behind (.append (after.balanced known)
          ((value.balanced known closes.1).mono (Nat.le_max_left _ _)))
        (.behind (.inert known sep.stripped_inert)
          ((RowsHole.enters rest closes.2).mono (Nat.le_max_right _ _)))))
  | .laterEmpty key before after behind rest, closes =>
    .behind (.append (key.balanced known) (before.balanced known)) (.cons known (by decide)
      (.behind (after.balanced known) (.cons known (by decide)
        (.behind (behind.balanced known) (RowsHole.enters rest closes)))))
theorem CellsHole.enters : ∀ cells : CellsHole, (cells.fill node).Closes →
    Enters group (cells.fill node).height (cells.front Piece.stripped)
  | .last hole _, closes => Hole.enters hole closes
  | .more hole _ _ _ _, closes =>
    (Hole.enters hole closes.1).mono (Nat.le_max_left _ _)
  | .later value before semicolon after rest, closes =>
    .behind (.append ((value.balanced known closes.1).mono (Nat.le_max_left _ _))
        (before.balanced known))
      (.cons known (inert_comma semicolon) (.behind (after.balanced known)
        ((CellsHole.enters rest closes.2).mono (Nat.le_max_right _ _))))
  | .laterEmpty semicolon after rest, closes =>
    .cons known (inert_comma semicolon)
      (.behind (after.balanced known) (CellsHole.enters rest closes))
end

end Groups

mutual
theorem Hole.strip_front : ∀ hole : Hole, (hole.fill node).Closes → (hole.fill node).Apart →
    ∀ rest, strip (hole.front Piece.text ++ rest) = lead (hole.front Piece.stripped) (strip rest)
  | .here, _, _, rest => (lead_nil _).symm
  | .map first rows, closes, apart, rest => by
    have inside := RowsHole.strip_front rows closes apart rest
    change strip ('{' :: (first.render Piece.text ++ rows.front Piece.text) ++ rest) = _
    rw [List.cons_append, strip_bare (by decide), List.append_assoc, strip_layout, inside, lead_lead,
      lead_lead]
    simp [Hole.front, Layout.stripped]
  | .list first cells, closes, apart, rest => by
    have inside := CellsHole.strip_front cells closes apart rest
    change strip ('[' :: (first.render Piece.text ++ cells.front Piece.text) ++ rest) = _
    rw [List.cons_append, strip_bare (by decide), List.append_assoc, strip_layout, inside, lead_lead,
      lead_lead]
    simp [Hole.front, Layout.stripped]
theorem RowsHole.strip_front : ∀ rows : RowsHole, (rows.fill node).Closes →
    (rows.fill node).Apart → ∀ rest,
      strip (rows.front Piece.text ++ rest) = lead (rows.front Piece.stripped) (strip rest)
  | .last key before after hole trail, closes, apart, rest => by
    have inside := Hole.strip_front hole closes apart.2.1 rest
    have text : (RowsHole.last key before after hole trail).front Piece.text ++ rest =
        key.text ++ before.render Piece.text ++ '=' ::
          (after.render Piece.text ++ (hole.front Piece.text ++ rest)) := by simp [RowsHole.front]
    rw [text, strip_equal key apart.1, inside, lead_lead]
    simp [RowsHole.front, Layout.stripped]
  | .more key before after hole sep others, closes, apart, rest => by
    have inside := Hole.strip_front hole closes.1 apart.2.1 rest
    have text : (RowsHole.more key before after hole sep others).front Piece.text ++ rest =
        key.text ++ before.render Piece.text ++ '=' ::
          (after.render Piece.text ++ (hole.front Piece.text ++ rest)) := by simp [RowsHole.front]
    rw [text, strip_equal key apart.1, inside, lead_lead]
    simp [RowsHole.front, Layout.stripped]
  | .later key before after value sep others, closes, apart, rest => by
    obtain ⟨keyApart, valueApart, sepApart, othersApart⟩ := apart
    have later := RowsHole.strip_front others closes.2 othersApart rest
    have inside := Node.strip_text value closes.1 valueApart
      (sep.render Piece.text ++ (others.front Piece.text ++ rest))
      (fun quotes => (sepApart quotes).behind _)
    have text : (RowsHole.later key before after value sep others).front Piece.text ++ rest =
        key.text ++ before.render Piece.text ++ '=' :: (after.render Piece.text ++
          (value.text ++ (sep.render Piece.text ++ (others.front Piece.text ++ rest)))) := by
      simp [RowsHole.front, Node.text]
    rw [text, strip_equal key keyApart, inside, strip_separator, later, lead_lead, lead_lead,
      lead_lead]
    simp [RowsHole.front, Node.stripped, Layout.stripped]
  | .laterEmpty key before after space others, closes, apart, rest => by
    have later := RowsHole.strip_front others closes apart.2 rest
    have text : (RowsHole.laterEmpty key before after space others).front Piece.text ++ rest =
        key.text ++ before.render Piece.text ++ '=' :: (after.render Piece.text ++
          ';' :: (space.render Piece.text ++ (others.front Piece.text ++ rest))) := by
      simp [RowsHole.front]
    rw [text, strip_equal key apart.1, strip_bare (by decide), strip_layout, later, lead_lead,
      lead_lead, lead_lead]
    simp [RowsHole.front, Layout.stripped]
theorem CellsHole.strip_front : ∀ cells : CellsHole, (cells.fill node).Closes →
    (cells.fill node).Apart → ∀ rest,
      strip (cells.front Piece.text ++ rest) = lead (cells.front Piece.stripped) (strip rest)
  | .last hole _, closes, apart, rest => Hole.strip_front hole closes apart.1 rest
  | .more hole _ _ _ _, closes, apart, rest =>
    Hole.strip_front hole closes.1 apart.1 rest
  | .later value before semicolon after others, closes, apart, rest => by
    obtain ⟨valueApart, beforeApart, othersApart⟩ := apart
    have later := CellsHole.strip_front others closes.2 othersApart rest
    have inside := Node.strip_text value closes.1 valueApart
      (before.render Piece.text ++ comma semicolon ::
        (after.render Piece.text ++ (others.front Piece.text ++ rest)))
      (fun quotes => (beforeApart quotes).behind (behind_bare (bare_comma semicolon) _))
    have text : (CellsHole.later value before semicolon after others).front Piece.text ++ rest =
        value.text ++ (before.render Piece.text ++ comma semicolon ::
          (after.render Piece.text ++ (others.front Piece.text ++ rest))) := by
      simp [CellsHole.front, Node.text]
    rw [text, inside, strip_layout, strip_bare (bare_comma semicolon), strip_layout, later,
      lead_lead, lead_lead, lead_lead, lead_lead]
    simp [CellsHole.front, Node.stripped, Layout.stripped]
  | .laterEmpty semicolon after others, closes, apart, rest => by
    have later := CellsHole.strip_front others closes apart rest
    have text : (CellsHole.laterEmpty semicolon after others).front Piece.text ++ rest =
        comma semicolon :: (after.render Piece.text ++ (others.front Piece.text ++ rest)) := by
      simp [CellsHole.front]
    rw [text, strip_bare (bare_comma semicolon), strip_layout, later, lead_lead, lead_lead]
    simp [CellsHole.front, Layout.stripped]
end

end Fronts

section Reading
variable {s tail pre : Text} {delim altdelim : Char} {value rest : Text}

theorem read_spilled (blank : ∀ c ∈ pre, isRead c = false)
    (reads : read .checked delim altdelim (pre ++ (spilled s ++ tail)) = .ok (value, rest)) :
    ∃ later, value = s ++ '"' :: later := by
  have begins : dropUnread (pre ++ (spilled s ++ tail)) = spilled s ++ tail :=
    dropUnread_append blank (by rfl)
  obtain ⟨whole, scans, trims⟩ := read_scanned reads
  rw [begins] at scans
  rcases trims with rfl | rfl
  · exact scan_spilled scans
  · obtain ⟨later, rfl⟩ := scan_spilled scans
    exact ⟨trimEnd later, trimEnd_cons_append s (by rfl) later⟩

/-- A group that is read has a last character behind the quote. -/
theorem read_group_spilled {group : GroupKind} (known : group.Known) {height : Nat} {front : Text}
    (enters : Enters group height front) (room : height < 2 ^ 32)
    (blank : ∀ c ∈ pre, isRead c = false)
    (reads : read .checked delim altdelim
      (pre ++ (group.opening :: front ++ (spilled s ++ tail))) = .ok (value, rest)) :
    ∃ later c, value = group.opening :: (front ++ (spilled s ++ (later ++ [c]))) := by
  have readable : isRead group.opening = true ∧ isRead group.closing = true := by
    rcases known with rfl | rfl <;> decide
  have begins : dropUnread (pre ++ (group.opening :: front ++ (spilled s ++ tail))) =
      group.opening :: (front ++ (spilled s ++ tail)) :=
    dropUnread_append blank readable.1
  obtain ⟨whole, scans, trims⟩ := read_scanned reads
  rw [begins] at scans
  cases found : readGroup group (group.opening :: (front ++ (spilled s ++ tail))) with
  | error stop =>
    rw [scan_group_error known found] at scans
    cases scans
  | ok copied =>
    obtain ⟨copied, after⟩ := copied
    obtain ⟨body, closes, rfl⟩ := readGroup_closed found
    obtain ⟨counter, entered⟩ := enters 0 (spilled s ++ tail) (by omega)
    rw [List.drop_one, List.tail_cons, ← level_zero, entered] at closes
    obtain ⟨inner, ends, rfl⟩ := prepend_eq_ok closes
    obtain ⟨later, rfl⟩ := closeGroup_spilled known ends
    rw [scan_group known found] at scans
    obtain ⟨glued, _, rfl⟩ := prepend_eq_ok scans
    have last : ∃ glued, value =
        group.opening :: (front ++ (spilled s ++ later)) ++ group.closing :: glued := by
      rcases trims with rfl | rfl
      · exact ⟨glued, by simp⟩
      · refine ⟨trimEnd glued, ?_⟩
        rw [List.append_assoc, List.singleton_append, trimEnd_cons_append _ readable.2]
    obtain ⟨glued, rfl⟩ := last
    obtain ⟨others, c, is⟩ : ∃ others c, group.closing :: glued = others ++ [c] :=
      ⟨_, _, (List.dropLast_append_getLast (List.cons_ne_nil _ _)).symm⟩
    exact ⟨later ++ others, c, by simp [is]⟩

end Reading

section Loops
variable {construct : Text → Run Unit Tree} {str pre : Text} {key : Text} {tree : Tree}

theorem mapRound_persists {blanks : BlankRun} {rest : Text} {values after : List (Text × Tree)}
    (round : mapRound blanks construct str values = .ok (after, rest))
    (held : OrderedMap.find? key values = some tree) : OrderedMap.find? key after = some tree := by
  obtain ⟨⟨entry, _⟩, _, adds⟩ := Run.bind_eq_ok.mp round
  obtain ⟨last, added, same⟩ := Run.map_eq_ok.mp adds
  obtain ⟨rfl, _⟩ := Prod.mk.inj same
  cases entry with
  | none =>
    obtain rfl := Except.ok.inj added
    exact held
  | some pair => exact enter_persists added held

/-- The map loop does not change what is in the map already. -/
theorem entriesOf_persists {blanks : BlankRun} {values after : List (Text × Tree)}
    (entered : entriesOf blanks construct str values = .ok after)
    (held : OrderedMap.find? key values = some tree) : OrderedMap.find? key after = some tree := by
  induction str, values using entriesOf.induct blanks construct with
  | case1 str values stop round =>
    rw [entriesOf_error round] at entered
    cases entered
  | case2 str values middle round =>
    rw [entriesOf_ok round, if_pos rfl] at entered
    obtain rfl := Except.ok.inj entered
    exact mapRound_persists round held
  | case3 str values middle rest round more ih =>
    rw [entriesOf_ok round, if_neg more] at entered
    exact ih entered (mapRound_persists round held)

/-- The value behind a key, in an accepted map. -/
theorem entriesOf_value (blank : ∀ c ∈ pre, isRead c = false) (key : Key) (before : Layout)
    {rest : Text} (more : rest ≠ []) {values after : List (Text × Tree)}
    (entered : entriesOf .checked construct (pre ++ keyed key before rest) values = .ok after) :
    ∃ value behind tree, read .checked ';' '\n' rest = .ok (value, behind) ∧
      construct value = .ok tree ∧ OrderedMap.find? key.content after = some tree := by
  cases reads : read .checked ';' '\n' rest with
  | error stop =>
    have round : ∃ stop, mapRound .checked construct (pre ++ keyed key before rest) values =
        .error stop := by
      rw [mapRound, entryOf_keyed blank key before more, reads]
      cases stop <;> exact ⟨_, rfl⟩
    obtain ⟨stop, round⟩ := round
    rw [entriesOf_error round] at entered
    cases entered
  | ok found =>
    obtain ⟨value, behind⟩ := found
    rw [entriesOf_entered (mapRound_keyed blank key before more reads)] at entered
    obtain ⟨middle, enters, later⟩ := Run.bind_eq_ok.mp entered
    obtain ⟨tree, built, _, rfl⟩ := enter_ok.mp enters
    have held := OrderedMap.find?_insert_self key.content tree values
    refine ⟨value, behind, tree, rfl, built, ?_⟩
    split at later
    · obtain rfl := Except.ok.inj later
      exact held
    · exact entriesOf_persists later held

/-- The first element, in an accepted list. -/
theorem elementsOf_value {elements : List Tree}
    (accepted : elementsOf .checked construct str = .ok elements) :
    ∃ value behind tree, read .checked ',' ';' str = .ok (value, behind) ∧
      construct value = .ok tree ∧ elements.head? = some tree := by
  cases reads : read .checked ',' ';' str with
  | error stop =>
    have round : ∃ stop, listRound .checked construct str = .error stop := by
      rw [listRound, reads]
      cases stop <;> exact ⟨_, rfl⟩
    obtain ⟨stop, round⟩ := round
    rw [elementsOf_error round] at accepted
    cases accepted
  | ok found =>
    obtain ⟨value, behind⟩ := found
    rw [elementsOf_read reads] at accepted
    obtain ⟨tree, built, later⟩ := Run.bind_eq_ok.mp accepted
    refine ⟨value, behind, tree, rfl, built, ?_⟩
    split at later
    · rw [← Except.ok.inj later]
      rfl
    · obtain ⟨others, _, rfl⟩ := Run.map_eq_ok.mp later
      rfl

end Loops

section Trees
variable {s tail : Text} (node : Node)

/-- A text that begins like the value in the open place: with the string and a quote,
or with what is written up to that quote. -/
def Hole.Spills (s : Text) : Hole → Text → Prop
  | .here, text => ∃ later, text = s ++ '"' :: later
  | hole, text => ∃ pre later, (∀ c ∈ pre, isRead c = false) ∧
      text = pre ++ (hole.front Piece.stripped ++ (spilled s ++ later))

theorem Hole.read_spills {pre : Text} {delim altdelim : Char} {value rest : Text} (hole : Hole)
    (closes : (hole.fill node).Closes) (room : (hole.fill node).height < 2 ^ 32)
    (blank : ∀ c ∈ pre, isRead c = false)
    (reads : read .checked delim altdelim
      (pre ++ (hole.front Piece.stripped ++ (spilled s ++ tail))) = .ok (value, rest)) :
    hole.Spills s value := by
  cases hole with
  | here => exact read_spilled blank reads
  | map first rows =>
    obtain ⟨later, c, rfl⟩ := read_group_spilled (.inl rfl)
      (.behind (first.balanced (.inl rfl)) (rows.enters node (.inl rfl) closes))
      (Nat.lt_of_succ_lt room) blank reads
    exact ⟨[], later ++ [c], List.forall_mem_nil _, rfl⟩
  | list first cells =>
    obtain ⟨later, c, rfl⟩ := read_group_spilled (.inr rfl)
      (.behind (first.balanced (.inr rfl)) (cells.enters node (.inr rfl) closes))
      (Nat.lt_of_succ_lt room) blank reads
    exact ⟨[], later ++ [c], List.forall_mem_nil _, rfl⟩

/-- The inside of an accepted group with the open place in it. -/
theorem treeOf_group_spilled {group : GroupKind} (known : group.Known) {height : Nat}
    {front pre : Text} {tree : Tree} (enters : Enters group height front) (room : height < 2 ^ 32)
    (blank : ∀ c ∈ pre, isRead c = false)
    (parsed : treeOf .checked (pre ++ (group.opening :: front ++ (spilled s ++ tail))) = .ok tree) :
    ∃ later, contentOf .checked group (front ++ (spilled s ++ later)) = .ok tree := by
  cases reads : read .checked nul nul (pre ++ (group.opening :: front ++ (spilled s ++ tail))) with
  | error stop =>
    rw [treeOf_eq, treeStep_error _ reads] at parsed
    cases stop <;> cases parsed
  | ok found =>
    obtain ⟨value, rest⟩ := found
    obtain ⟨later, c, rfl⟩ := read_group_spilled known enters room blank reads
    rw [treeOf_group known reads] at parsed
    obtain ⟨inner, isInner, content⟩ := Run.bind_eq_ok.mp parsed
    refine ⟨later, ?_⟩
    rw [insideOf] at isInner
    split at isInner
    · rw [if_neg (by simp), ← List.append_assoc, ← List.append_assoc, List.dropLast_concat] at isInner
      rw [← List.append_assoc, Except.ok.inj isInner, content]
    · cases isInner

theorem dropUnread_spilled (front later : Text) : dropUnread (front ++ (spilled s ++ later)) ≠ [] := by
  intro blank
  have all := List.dropWhile_eq_nil_iff.mp blank
  have mark := all '"' (by simp [spilled])
  simp [isRead] at mark

theorem Hole.keyed_spills {hole : Hole} (closes : (hole.fill node).Closes)
    (room : (hole.fill node).height < 2 ^ 32) {pre later : Text} (key : Key) (before space : Layout)
    {values after : List (Text × Tree)} (blank : ∀ c ∈ pre, isRead c = false)
    (entered : entriesOf .checked (treeOf .checked) (pre ++ (key.text ++ before.stripped ++
      '=' :: (space.stripped ++ hole.front Piece.stripped) ++ (spilled s ++ later))) values =
        .ok after) :
    ∃ text tree, hole.Spills s text ∧ treeOf .checked text = .ok tree ∧
      OrderedMap.find? key.content after = some tree := by
  have text : key.text ++ before.stripped ++ '=' :: (space.stripped ++ hole.front Piece.stripped) ++
      (spilled s ++ later) = keyed key before (space.stripped ++
        (hole.front Piece.stripped ++ (spilled s ++ later))) := by simp [keyed]
  rw [text] at entered
  obtain ⟨value, behind, tree, reads, parsed, held⟩ :=
    entriesOf_value blank key before (by simp [spilled]) entered
  exact ⟨value, tree, hole.read_spills node closes room (unread_stripped space) reads, parsed, held⟩

mutual
/-- However a string that ends in a backslash is written on, it is not what is parsed. -/
theorem Hole.spills_at : ∀ (hole : Hole), (hole.fill node).Closes → (hole.fill node).height < 2 ^ 32 →
    ∀ {text : Text} {tree : Tree}, hole.Spills s text → treeOf .checked text = .ok tree →
      hole.at tree ≠ some (.string () (s ++ ['\\']))
  | .here, _, _, text, tree, spills, parsed, found => by
    obtain ⟨later, rfl⟩ := spills
    obtain rfl := Option.some.inj found
    rcases treeOf_string parsed with empty | ⟨same, _⟩
    · simp at empty
    · have last := List.append_cancel_left same
      simp at last
  | .map first rows, closes, room, text, tree, spills, parsed, found => by
    obtain ⟨pre, tail, blank, rfl⟩ := spills
    obtain ⟨later, content⟩ := treeOf_group_spilled (.inl rfl)
      (.behind (first.balanced (.inl rfl)) (rows.enters node (.inl rfl) closes))
      (Nat.lt_of_succ_lt room) blank parsed
    rw [contentOf, if_pos (show brace.opening = '{' from rfl), if_neg (dropUnread_spilled _ _),
      List.append_assoc] at content
    obtain ⟨values, entered, rfl⟩ := Run.map_eq_ok.mp content
    exact RowsHole.spills_at rows closes (Nat.lt_of_succ_lt room) (unread_stripped first) entered found
  | .list first cells, closes, room, text, tree, spills, parsed, found => by
    obtain ⟨pre, tail, blank, rfl⟩ := spills
    obtain ⟨later, content⟩ := treeOf_group_spilled (.inr rfl)
      (.behind (first.balanced (.inr rfl)) (cells.enters node (.inr rfl) closes))
      (Nat.lt_of_succ_lt room) blank parsed
    rw [contentOf, if_neg (by decide), if_neg (dropUnread_spilled _ _), List.append_assoc] at content
    obtain ⟨elements, accepted, rfl⟩ := Run.map_eq_ok.mp content
    exact CellsHole.spills_at cells closes (Nat.lt_of_succ_lt room) (unread_stripped first) accepted
      found
theorem RowsHole.spills_at : ∀ (rows : RowsHole), (rows.fill node).Closes →
    (rows.fill node).height < 2 ^ 32 → ∀ {pre later : Text} {values after : List (Text × Tree)},
      (∀ c ∈ pre, isRead c = false) →
      entriesOf .checked (treeOf .checked)
        (pre ++ (rows.front Piece.stripped ++ (spilled s ++ later))) values = .ok after →
      rows.at after ≠ some (.string () (s ++ ['\\']))
  | .last key before space hole trail, closes, room, pre, later, values, after, blank, entered => by
    obtain ⟨text, tree, spills, parsed, held⟩ :=
      Hole.keyed_spills node closes room key before space blank entered
    rw [RowsHole.at, held, Option.bind_some]
    exact Hole.spills_at hole closes room spills parsed
  | .more key before space hole sep rest, closes, room, pre, later, values, after, blank, entered => by
    have inside := Nat.lt_of_le_of_lt (Nat.le_max_left _ _) room
    obtain ⟨text, tree, spills, parsed, held⟩ :=
      Hole.keyed_spills node closes.1 inside key before space blank entered
    rw [RowsHole.at, held, Option.bind_some]
    exact Hole.spills_at hole closes.1 inside spills parsed
  | .later key before space value sep rest, closes, room, pre, later, values, after, blank,
      entered => by
    have text : (RowsHole.later key before space value sep rest).front Piece.stripped ++
        (spilled s ++ later) = keyed key before (space.stripped ++ value.stripped ++
          (sep.render Piece.stripped ++ (rest.front Piece.stripped ++ (spilled s ++ later)))) := by
      simp [RowsHole.front, keyed, Node.stripped, Layout.stripped]
    have reads := read_node delimits_entry words_entry (unread_stripped space) value closes.1
      (Nat.lt_of_le_of_lt (Nat.le_max_left _ _) room)
      (sep.follows (rest.front Piece.stripped ++ (spilled s ++ later)))
    rw [← List.append_assoc] at reads
    rw [text, entriesOf_entered (mapRound_keyed blank key before (by simp [spilled]) reads)] at entered
    obtain ⟨middle, _, enters⟩ := Run.bind_eq_ok.mp entered
    rw [if_neg (by simp [spilled])] at enters
    exact RowsHole.spills_at rest closes.2 (Nat.lt_of_le_of_lt (Nat.le_max_right _ _) room)
      (unread_stripped sep.after) enters
  | .laterEmpty key before space behind rest, closes, room, pre, later, values, after, blank,
      entered => by
    have text : (RowsHole.laterEmpty key before space behind rest).front Piece.stripped ++
        (spilled s ++ later) = keyed key before (space.stripped ++ ';' :: (behind.stripped ++
          (rest.front Piece.stripped ++ (spilled s ++ later)))) := by
      simp [RowsHole.front, keyed, Layout.stripped]
    have reads : read .checked ';' '\n' (space.stripped ++ ';' :: (behind.stripped ++
        (rest.front Piece.stripped ++ (spilled s ++ later)))) =
          .ok ([], behind.stripped ++ (rest.front Piece.stripped ++ (spilled s ++ later))) :=
      read_missing delimits_entry (unread_stripped space) rfl rfl
    rw [text, entriesOf_entered (mapRound_keyed blank key before (by simp) reads)] at entered
    obtain ⟨middle, _, enters⟩ := Run.bind_eq_ok.mp entered
    rw [if_neg (by simp [spilled])] at enters
    exact RowsHole.spills_at rest closes room (unread_stripped behind) enters
theorem CellsHole.spills_at : ∀ (cells : CellsHole), (cells.fill node).Closes →
    (cells.fill node).height < 2 ^ 32 → ∀ {pre later : Text} {elements : List Tree},
      (∀ c ∈ pre, isRead c = false) →
      elementsOf .checked (treeOf .checked)
        (pre ++ (cells.front Piece.stripped ++ (spilled s ++ later))) = .ok elements →
      cells.at elements ≠ some (.string () (s ++ ['\\']))
  | .last hole trail, closes, room, pre, later, elements, blank, accepted => by
    obtain ⟨value, behind, tree, reads, parsed, first⟩ := elementsOf_value accepted
    rw [CellsHole.at, first, Option.bind_some]
    exact Hole.spills_at hole closes room (hole.read_spills node closes room blank reads) parsed
  | .more hole before semicolon after rest, closes, room, pre, later, elements, blank, accepted => by
    have inside := Nat.lt_of_le_of_lt (Nat.le_max_left _ _) room
    obtain ⟨value, behind, tree, reads, parsed, first⟩ := elementsOf_value accepted
    rw [CellsHole.at, first, Option.bind_some]
    exact Hole.spills_at hole closes.1 inside
      (hole.read_spills node closes.1 inside blank reads) parsed
  | .later value before semicolon after rest, closes, room, pre, later, elements, blank,
      accepted => by
    have text : (CellsHole.later value before semicolon after rest).front Piece.stripped ++
        (spilled s ++ later) = value.stripped ++ (before.stripped ++ comma semicolon ::
          (after.stripped ++ (rest.front Piece.stripped ++ (spilled s ++ later)))) := by
      simp [CellsHole.front, Node.stripped, Layout.stripped]
    have follows : Follows ',' ';' (before.stripped ++ comma semicolon ::
        (after.stripped ++ (rest.front Piece.stripped ++ (spilled s ++ later))))
          (after.stripped ++ (rest.front Piece.stripped ++ (spilled s ++ later))) :=
      .mark delimits_element (gap_stripped delimits_element rfl before) (isDelim_comma semicolon)
    have reads := read_node delimits_element words_element blank value closes.1
      (Nat.lt_of_le_of_lt (Nat.le_max_left _ _) room) follows
    rw [text, elementsOf_read reads] at accepted
    obtain ⟨tree, _, others⟩ := Run.bind_eq_ok.mp accepted
    rw [if_neg (by simp [spilled])] at others
    obtain ⟨elements, accepts, rfl⟩ := Run.map_eq_ok.mp others
    exact CellsHole.spills_at rest closes.2 (Nat.lt_of_le_of_lt (Nat.le_max_right _ _) room)
      (unread_stripped after) accepts
  | .laterEmpty semicolon after rest, closes, room, pre, later, elements, blank, accepted => by
    have text : (CellsHole.laterEmpty semicolon after rest).front Piece.stripped ++
        (spilled s ++ later) = comma semicolon ::
          (after.stripped ++ (rest.front Piece.stripped ++ (spilled s ++ later))) := by
      simp [CellsHole.front, Layout.stripped]
    rw [text, elementsOf_read (read_missing delimits_element blank (isRead_comma semicolon)
      (isDelim_comma semicolon))] at accepted
    obtain ⟨tree, _, others⟩ := Run.bind_eq_ok.mp accepted
    rw [if_neg (by simp [spilled])] at others
    obtain ⟨elements, accepts, rfl⟩ := Run.map_eq_ok.mp others
    exact CellsHole.spills_at rest closes room (unread_stripped after) accepts
end

end Trees

end Ztd.Filedat
