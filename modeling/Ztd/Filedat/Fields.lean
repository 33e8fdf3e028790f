import Ztd.Filedat.Flat
import Ztd.Filedat.QuotedValues
import Ztd.Filedat.Keys

/-! The entries of a map with any semicolons, newlines and blanks between them: which
runs the parser takes for one separator. -/

namespace Ztd.Filedat
open Ztd.Lib

/-- What may stand between two entries: blanks, with a semicolon or a newline among them. -/
structure Divider where
  text : Text
  chars : ∀ c ∈ text, c = ';' ∨ c = '\n' ∨ c = ' ' ∨ c = '\t'
  divides : ∃ c ∈ text, c = ';' ∨ c = '\n'

def endsEntry (c : Char) : Bool := c == ';' || c == '\n'

/-- What is behind the first semicolon or newline. -/
def Divider.behind (divider : Divider) : Text := (divider.text.dropWhile (!endsEntry ·)).drop 1

inductive FieldValue where
  | empty
  | plain (word : Word)
  | quoted (quotation : Quotation) (plain : quotation.Plain)
  | group (node : Node) (isGroup : node.isGroup = true) (closes : node.Closes)

namespace FieldValue

def text : FieldValue → Text
  | .empty => []
  | .plain word => word.text
  | .quoted quotation _ => quotation.text
  | .group node _ _ => node.stripped

/-- What the value stands for. -/
def content : FieldValue → Text
  | .quoted quotation _ => quotation.content
  | value => value.text

def isEmpty : FieldValue → Bool
  | .empty => true
  | _ => false

def isQuoted : FieldValue → Bool
  | .quoted .. => true
  | _ => false

end FieldValue

structure Field where
  key : Word
  value : FieldValue

/-- One entry or more, with a divider between each two. -/
inductive Fields where
  | last (field : Field)
  | more (field : Field) (divider : Divider) (rest : Fields)

namespace Fields

def text : Fields → Text
  | .last field => field.key.text ++ '=' :: field.value.text
  | .more field divider rest =>
    field.key.text ++ '=' :: (field.value.text ++ (divider.text ++ rest.text))

def count : Fields → Nat
  | .last _ => 1
  | .more _ _ rest => rest.count + 1

/-- The map of the entries, whatever the dividers are; no key may occur twice. Behind
the last value the blanks at its end go. -/
def values (blanks : BlankRun) : Fields → List (Text × Tree) → Run Unit (List (Text × Tree))
  | .last field, held => enter field.key.text (treeOf blanks (trimEnd field.value.content)) held
  | .more field _ rest, held =>
    enter field.key.text (treeOf blanks field.value.content) held >>= rest.values blanks

/-- The parser finds the end of the entry and no semicolon behind it: an empty value
needs exactly one semicolon, any other value one newline or semicolon and no semicolon
behind. The last value is not empty, and not a quote if the loop over blanks is not bounded. -/
def Fits (blanks : BlankRun) : Fields → Prop
  | .last field => field.value.isEmpty = false ∧ (field.value.isQuoted = true → blanks = .checked)
  | .more field divider rest =>
    (if field.value.isEmpty then divider.text.count ';' = 1 else ';' ∉ divider.behind) ∧
      rest.Fits blanks

end Fields

section Dividers
variable (divider : Divider)

theorem isDelim_endsEntry (c : Char) : isDelim ';' '\n' c = endsEntry c := rfl

/-- A divider up to its first mark, and what is behind. -/
theorem Divider.split : ∃ gap c, divider.text = gap ++ c :: divider.behind ∧ endsEntry c = true ∧
    ∀ d ∈ gap, isGap ';' '\n' d = true := by
  obtain ⟨mark, member, ends⟩ := divider.divides
  have some : divider.text.dropWhile (!endsEntry ·) ≠ [] := by
    intro nothing
    have none := List.dropWhile_eq_nil_iff.mp nothing mark member
    rcases ends with rfl | rfl <;> simp [endsEntry] at none
  obtain ⟨c, later, is⟩ := List.exists_cons_of_ne_nil some
  have stops : (!endsEntry c) = false := by
    have head := List.head_dropWhile_not (!endsEntry ·) some
    simpa only [is, List.head_cons] using head
  refine ⟨divider.text.takeWhile (!endsEntry ·), c, ?_, by simpa using stops, fun d inside => ?_⟩
  · rw [Divider.behind, is, List.drop_one, List.tail_cons, ← is, List.takeWhile_append_dropWhile]
  · have other := List.mem_takeWhile_imp inside
    have blank := divider.chars d ((List.takeWhile_prefix _).subset inside)
    rcases blank with rfl | rfl | rfl | rfl <;> simp_all [endsEntry, isGap, isRead, isDelim]

theorem Divider.unread {text : Text} (chars : ∀ c ∈ text, c = ';' ∨ c = '\n' ∨ c = ' ' ∨ c = '\t')
    (noSemicolon : ';' ∉ text) : ∀ c ∈ text, isRead c = false := by
  intro c member
  rcases chars c member with rfl | rfl | rfl | rfl
  · exact absurd member noSemicolon
  all_goals rfl

theorem Divider.behind_chars : ∀ c ∈ divider.behind, c = ';' ∨ c = '\n' ∨ c = ' ' ∨ c = '\t' := by
  intro c member
  exact divider.chars c ((List.dropWhile_suffix _).subset ((List.drop_suffix 1 _).subset member))

end Dividers

section Reading
variable {blanks : BlankRun} {pre rest : Text}

/-- A value that is not empty is scanned as its content. -/
theorem FieldValue.scans {value : FieldValue} (some : value.isEmpty = false)
    (room : value.text.length < 2 ^ 32) (follow : ∀ d ∈ rest.head?, quoteOf d = none)
    (safe : value.isQuoted = true → rest = [] → blanks = .checked) :
    scan blanks ';' '\n' (value.text ++ rest) =
      prepend value.content (scan blanks ';' '\n' rest) := by
  cases value with
  | empty => cases some
  | plain word =>
    refine scan_word delimits_entry word fun c member => ?_
    rcases word.chars c member with ⟨readable, plain⟩ | rfl | rfl
    · rw [Bool.eq_false_iff, ne_eq, isDelim_iff]
      rintro (rfl | rfl)
      · simp [isMarkup] at plain
      · simp [isRead] at readable
    · rfl
    · rfl
  | quoted quotation plain => exact scan_quotation plain.closes follow (safe rfl)
  | group node isGroup closes =>
    exact scan_isGroup isGroup closes (node.height_le.trans_lt room)

theorem FieldValue.begins {value : FieldValue} (some : value.isEmpty = false) (rest : Text) :
    ∃ c later, value.text ++ rest = c :: later ∧ isRead c = true := by
  cases value with
  | empty => cases some
  | plain word =>
    obtain ⟨c, later, begins, readable, _⟩ := word.begins_text rest
    exact ⟨c, later, begins, readable⟩
  | quoted quotation => exact ⟨_, _, rfl, isRead_mark quotation⟩
  | group node => exact node.begins_text rest

theorem quoteOf_divider (divider : Divider) (rest : Text) :
    ∀ d ∈ (divider.text ++ rest).head?, quoteOf d = none := by
  obtain ⟨gap, c, split, ends, blank⟩ := divider.split
  have noQuote : quoteOf c = none := by
    rcases isDelim_iff.mp ((isDelim_endsEntry c).trans ends) with rfl | rfl <;> rfl
  rw [split, List.append_assoc]
  exact quoteOf_head (isRead_gap blank) noQuote

/-- A value that is not empty is read up to the first mark of a divider. -/
theorem FieldValue.reads {value : FieldValue} (some : value.isEmpty = false)
    (room : value.text.length < 2 ^ 32) (divider : Divider) (more : rest ≠ []) :
    read blanks ';' '\n' (value.text ++ (divider.text ++ rest)) =
      .ok (value.content, divider.behind ++ rest) := by
  obtain ⟨c, later, begins, readable⟩ := FieldValue.begins some (divider.text ++ rest)
  have start : dropUnread (value.text ++ (divider.text ++ rest)) =
      value.text ++ (divider.text ++ rest) := by
    rw [begins]
    exact dropUnread_append (List.forall_mem_nil _) readable
  obtain ⟨gap, mark, split, ends, blank⟩ := divider.split
  have scans : scan blanks ';' '\n' (divider.text ++ rest) = .ok ([], divider.behind ++ rest) := by
    have is := (isDelim_endsEntry mark).trans ends
    have inert := delimits_entry.inert mark is
    have noQuote := quoteOf_inert inert
    simp only [Inert, List.mem_cons, List.not_mem_nil, or_false, not_or] at inert
    rw [split, List.append_assoc, List.cons_append]
    exact scan_delim delimits_entry.given blank is noQuote inert.1 inert.2.2.1 _
  have left : divider.behind ++ rest ≠ [] := by simp [more]
  rw [read, start, FieldValue.scans some room (quoteOf_divider divider rest)
    (fun _ empty => absurd empty (by simp [more])), scans, prepend_ok]
  cases behind : divider.behind ++ rest with
  | nil => exact absurd behind left
  | cons d behind => simp

/-- An empty value is read up to the first semicolon. -/
theorem read_semicolon {front back : Text} (blank : ∀ c ∈ front, isRead c = false) :
    read blanks ';' '\n' (front ++ ';' :: back) = .ok ([], back) :=
  read_missing delimits_entry blank rfl rfl

/-- Nothing is left behind the last value. -/
theorem FieldValue.reads_last {value : FieldValue} (some : value.isEmpty = false)
    (room : value.text.length < 2 ^ 32) (safe : value.isQuoted = true → blanks = .checked) :
    read blanks ';' '\n' value.text = .ok (trimEnd value.content, []) := by
  obtain ⟨c, later, begins, readable⟩ := FieldValue.begins some []
  rw [List.append_nil] at begins
  have start : dropUnread value.text = value.text := by
    rw [begins]
    exact dropUnread_append (List.forall_mem_nil _) readable
  have whole : scan blanks ';' '\n' (value.text ++ []) = _ :=
    FieldValue.scans some room (by simp) fun quoted _ => safe quoted
  rw [List.append_nil] at whole
  rw [read, start, whole, scan_nil, prepend_ok, List.append_nil]

theorem Divider.split_semicolon {divider : Divider} {front back : Text}
    (is : divider.text = front ++ ';' :: back) :
    (∀ c ∈ front, c = ';' ∨ c = '\n' ∨ c = ' ' ∨ c = '\t') ∧
      ∀ c ∈ back, c = ';' ∨ c = '\n' ∨ c = ' ' ∨ c = '\t' :=
  ⟨fun c member => divider.chars c (by rw [is]; simp [member]),
    fun c member => divider.chars c (by rw [is]; simp [member])⟩

variable {construct : Text → Run Unit Tree} {held : List (Text × Tree)}

theorem mapRound_field {key : Word} {value behind : Text} (blank : ∀ c ∈ pre, isRead c = false)
    (more : rest ≠ []) (reads : read blanks ';' '\n' rest = .ok (value, behind)) :
    mapRound blanks construct (pre ++ (key.text ++ '=' :: rest)) held =
      (enter key.text (construct value) held).map fun values => (values, behind) := by
  have round := @mapRound_keyed construct pre held blanks blank (.plain key) [] value rest behind more
    reads
  rwa [keyed, show Layout.stripped [] = [] from rfl, List.append_nil] at round

theorem mapRound_error {key : Word} {stop : Stop Unclosed} (blank : ∀ c ∈ pre, isRead c = false)
    (more : rest ≠ []) (fails : read blanks ';' '\n' rest = .error stop) :
    ∃ stop, mapRound blanks construct (pre ++ (key.text ++ '=' :: rest)) held = .error stop := by
  have entry := @entryOf_keyed pre blanks blank (.plain key) [] rest more
  rw [keyed, show Layout.stripped [] = [] from rfl, List.append_nil, fails] at entry
  rw [mapRound, show key.text = (Key.plain key).text from rfl, entry]
  cases stop <;> exact ⟨_, rfl⟩

theorem Fields.begins (fields : Fields) : ∃ c later, fields.text = c :: later ∧ isRead c = true ∧
    isMarkup c = false := by
  have word (key : Word) (rest : Text) :
      ∃ c later, key.text ++ rest = c :: later ∧ isRead c = true ∧ isMarkup c = false := by
    obtain ⟨c, later, is, readable⟩ := key.begins
    refine ⟨c, later ++ rest, by rw [is, List.cons_append], readable, ?_⟩
    rcases key.chars c (by simp [is]) with ⟨_, plain⟩ | rfl | rfl
    · exact plain
    · cases readable
    · cases readable
  cases fields with
  | last field => exact word field.key _
  | more field => exact word field.key _

theorem Fields.text_ne_nil (fields : Fields) : fields.text ≠ [] := by
  obtain ⟨c, later, is, _⟩ := fields.begins
  simp [is]

/-- Entries that fit are entered one after the other. -/
theorem entriesOf_fits {fields : Fields} (fits : fields.Fits blanks)
    (room : fields.text.length < 2 ^ 32) (blank : ∀ c ∈ pre, isRead c = false) :
    entriesOf blanks (treeOf blanks) (pre ++ fields.text) held = fields.values blanks held := by
  induction fields generalizing pre held with
  | last field =>
    obtain ⟨some, safe⟩ := fits
    rw [Fields.text, List.length_append, List.length_cons] at room
    have nonempty : field.value.text ≠ [] := by
      obtain ⟨c, later, begins, _⟩ := FieldValue.begins some []
      rw [List.append_nil] at begins
      simp [begins]
    have round := @mapRound_field blanks pre _ (treeOf blanks) held field.key _ _ blank nonempty
      (FieldValue.reads_last some (by omega) safe)
    rw [Fields.text, entriesOf_entered round, Fields.values]
    cases enter field.key.text (treeOf blanks (trimEnd field.value.content)) held <;> rfl
  | more field divider rest ih =>
    obtain ⟨here, later⟩ := fits
    simp only [Fields.text, List.length_append, List.length_cons] at room
    have tail := rest.text_ne_nil
    have nonempty : field.value.text ++ (divider.text ++ rest.text) ≠ [] := by simp [tail]
    have step {behind : Text} (unread : ∀ c ∈ behind, isRead c = false)
        (reads : read blanks ';' '\n' (field.value.text ++ (divider.text ++ rest.text)) =
          .ok (field.value.content, behind ++ rest.text)) :
        entriesOf blanks (treeOf blanks) (pre ++ (Fields.more field divider rest).text) held =
          (Fields.more field divider rest).values blanks held := by
      have round := @mapRound_field blanks pre _ (treeOf blanks) held field.key _ _ blank nonempty reads
      rw [Fields.text, entriesOf_entered round, Fields.values]
      cases enter field.key.text (treeOf blanks field.value.content) held with
      | error stop => rfl
      | ok values =>
        rw [Run.bind_ok, Run.bind_ok, if_neg (by simp [tail]), ih later (by omega) unread]
    cases empty : field.value.isEmpty with
    | false =>
      rw [empty, if_neg Bool.false_ne_true] at here
      exact step (Divider.unread divider.behind_chars here)
        (FieldValue.reads empty (by omega) divider tail)
    | true =>
      rw [empty, if_pos rfl] at here
      obtain ⟨front, back, split⟩ := List.append_of_mem (List.one_le_count_iff.mp here.ge)
      obtain ⟨frontChars, backChars⟩ := Divider.split_semicolon split
      rw [split, List.count_append, List.count_cons_self] at here
      have noFront : ';' ∉ front := List.count_eq_zero.mp (by omega)
      have noBack : ';' ∉ back := List.count_eq_zero.mp (by omega)
      refine step (Divider.unread backChars noBack) ?_
      obtain ⟨key, value⟩ := field
      cases value with
      | empty =>
        rw [split, List.append_assoc]
        exact read_semicolon (Divider.unread frontChars noFront)
      | plain | quoted | group => cases empty

end Reading

section Counting
variable {blanks : BlankRun}

theorem Flat.dividers {count : Nat} {text rest : Text}
    (chars : ∀ c ∈ text, c = ';' ∨ c = '\n' ∨ c = ' ' ∨ c = '\t') (flat : Flat true count rest) :
    Flat true count (text ++ rest) := by
  induction text with
  | nil => exact flat
  | cons c text ih =>
    obtain ⟨first, later⟩ := List.forall_mem_cons.mp chars
    refine .char ?_ ?_ ?_ (ih later) <;> rcases first with rfl | rfl | rfl | rfl <;> decide

theorem Flat.fieldValue {count : Nat} {rest : Text} (value : FieldValue)
    (room : value.text.length < 2 ^ 32) (follow : ∀ d ∈ rest.head?, quoteOf d = none)
    (flat : Flat true count rest) : Flat true count (value.text ++ rest) := by
  cases value with
  | empty => exact flat
  | plain word => exact .chars word.chars flat
  | quoted quotation plain => exact .quoted plain follow flat
  | group node isGroup closes => exact .group isGroup closes (node.height_le.trans_lt room) flat

theorem Fields.flat (fields : Fields) (room : fields.text.length < 2 ^ 32) :
    Flat true fields.count fields.text := by
  induction fields with
  | last field =>
    rw [Fields.text, List.length_append, List.length_cons] at room
    have value : Flat true 0 (field.value.text ++ []) :=
      .fieldValue field.value (by omega) (by simp) .nil
    rw [List.append_nil] at value
    exact .chars field.key.chars (.sign value)
  | more field divider rest ih =>
    simp only [Fields.text, List.length_append, List.length_cons] at room
    have later := Flat.dividers divider.chars (ih (by omega))
    exact .chars field.key.chars
      (.sign (.fieldValue field.value (by omega) (quoteOf_divider divider rest.text) later))

theorem Fields.values_length {fields : Fields} {held values : List (Text × Tree)}
    (accepted : fields.values blanks held = .ok values) :
    values.length = held.length + fields.count := by
  have entered {key : Text} {value : Run Unit Tree} {held after : List (Text × Tree)}
      (entered : enter key value held = .ok after) : after.length = held.length + 1 := by
    obtain ⟨tree, _, fresh, rfl⟩ := enter_ok.mp entered
    exact OrderedMap.length_insert tree fresh
  induction fields generalizing held with
  | last field => exact entered accepted
  | more field divider rest ih =>
    obtain ⟨middle, first, later⟩ := Run.bind_eq_ok.mp accepted
    rw [ih later, entered first, Fields.count]
    omega

end Counting

section Holding
variable {blanks : BlankRun} {key : Text} {tree : Tree} {held after : List (Text × Tree)}

/-- What a map holds stays. -/
theorem Fields.values_holds {fields : Fields} (accepted : fields.values blanks held = .ok after)
    (holds : OrderedMap.find? key held = some tree) : OrderedMap.find? key after = some tree := by
  induction fields generalizing held with
  | last field => exact enter_persists accepted holds
  | more field divider rest ih =>
    obtain ⟨middle, first, later⟩ := Run.bind_eq_ok.mp accepted
    exact ih later (enter_persists first holds)

/-- Text that is read from a plain character on begins with it. -/
theorem read_plain_head {delim altdelim c : Char} {value rest later : Text}
    (readable : isRead c = true) (plain : isMarkup c = false)
    (noDelim : isDelim delim altdelim c = false) {pre : Text} (blank : ∀ d ∈ pre, isRead d = false)
    (reads : read blanks delim altdelim (pre ++ c :: rest) = .ok (value, later)) :
    ∃ behind, value = c :: behind := by
  simp only [isMarkup, decide_eq_false_iff_not, List.mem_cons, List.not_mem_nil, or_false, not_or]
    at plain
  obtain ⟨whole, scans, trims⟩ := read_scanned reads
  rw [dropUnread_append blank readable, scan_char readable (by simp [quoteOf, plain]) plain.2.2.2.2.1
    plain.2.2.2.2.2.2.1 noDelim] at scans
  obtain ⟨inner, _, rfl⟩ := prepend_eq_ok scans
  rcases trims with rfl | rfl
  · exact ⟨inner, rfl⟩
  · exact ⟨trimEnd inner, trimEnd_cons_append [] readable inner⟩

theorem treeOf_plain_head {c : Char} {rest : Text} (readable : isRead c = true)
    (plain : isMarkup c = false) (parsed : treeOf blanks (c :: rest) = .ok tree) : tree ≠ emptyTree := by
  have notNul : c ≠ nul := by
    rintro rfl
    cases readable
  rw [treeOf_eq] at parsed
  obtain ⟨⟨value, behind⟩, reads, builds⟩ := Run.bind_eq_ok.mp parsed
  rw [Run.forget_eq_ok] at reads
  have start : read blanks nul nul ([] ++ c :: rest) = .ok (value, behind) := reads
  obtain ⟨later, rfl⟩ := read_plain_head readable plain (by simp [isDelim, notNul])
    (List.forall_mem_nil _) start
  simp only [isMarkup, decide_eq_false_iff_not, List.mem_cons, List.not_mem_nil, or_false, not_or]
    at plain
  have string : treeStep blanks (treeOf blanks) (c :: rest) = .ok (.string () (c :: rest)) :=
    treeStep_string _ plain.2.2.2.2.1 plain.2.2.2.2.2.2.1 reads
  rw [← treeOf_eq, treeOf_eq, string] at parsed
  cases parsed
  simp [emptyTree]

end Holding

section Misfits
variable {blanks : BlankRun} {pre : Text} {held values after : List (Text × Tree)}

/-- A semicolon behind the end of an entry costs the next entry. -/
theorem entriesOf_semicolon {fields : Fields} (room : fields.text.length < 2 ^ 32) {behind : Text}
    (chars : ∀ c ∈ behind, c = ';' ∨ c = '\n' ∨ c = ' ' ∨ c = '\t') (semicolon : ';' ∈ behind)
    (accepted : fields.values blanks held = .ok values)
    (entered : entriesOf blanks (treeOf blanks) (behind ++ fields.text) held = .ok after) :
    after ≠ values := by
  obtain ⟨front, back, rfl, noFront⟩ := List.eq_append_cons_of_mem semicolon
  have blank := Divider.unread (fun c member => chars c (List.mem_append_left _ member)) noFront
  have starts : dropUnread (front ++ ';' :: back ++ fields.text) = ';' :: (back ++ fields.text) := by
    rw [List.append_assoc]
    exact dropUnread_append blank rfl
  have fewer := (Flat.dividers chars (fields.flat room)).entries_semicolon starts entered (by
    cases fields <;> simp [Fields.count])
  have all := Fields.values_length accepted
  rintro rfl
  omega

/-- An empty value in front of newlines takes the next entry for its text. -/
theorem entriesOf_swallowed {key : Word} {fields : Fields} {divider : Divider}
    (noSemicolon : ';' ∉ divider.text) (blank : ∀ c ∈ pre, isRead c = false)
    (entered : entriesOf blanks (treeOf blanks)
      (pre ++ (key.text ++ '=' :: (divider.text ++ fields.text))) held = .ok after) :
    OrderedMap.find? key.text after ≠ some emptyTree := by
  obtain ⟨c, later, begins, readable, plain⟩ := fields.begins
  have unread := Divider.unread divider.chars noSemicolon
  have noDelim : isDelim ';' '\n' c = false := by
    rw [Bool.eq_false_iff, ne_eq, isDelim_iff]
    rintro (rfl | rfl)
    · cases plain
    · cases readable
  cases reads : read blanks ';' '\n' (divider.text ++ fields.text) with
  | error stop =>
    obtain ⟨stop, round⟩ := @mapRound_error blanks pre _ (treeOf blanks) held key stop blank
      (by simp [begins]) reads
    rw [entriesOf_error round] at entered
    cases entered
  | ok found =>
    obtain ⟨value, rest⟩ := found
    have round := @mapRound_field blanks pre _ (treeOf blanks) held key value rest blank
      (by simp [begins]) reads
    rw [entriesOf_entered round] at entered
    obtain ⟨middle, first, others⟩ := Run.bind_eq_ok.mp entered
    obtain ⟨tree, parsed, _, rfl⟩ := enter_ok.mp first
    rw [begins] at reads
    obtain ⟨behind, rfl⟩ := read_plain_head readable plain noDelim unread reads
    have different := treeOf_plain_head readable plain parsed
    have holds : OrderedMap.find? key.text after = some tree := by
      split at others
      · obtain rfl := Except.ok.inj others
        exact OrderedMap.find?_insert_self ..
      · exact entriesOf_persists others (OrderedMap.find?_insert_self ..)
    rw [holds]
    exact fun same => different (Option.some.inj same)

/-- The unbounded loop leaves a text that ends with a closing quote. -/
theorem read_quotation_unchecked {quotation : Quotation} (closes : quotation.Closes) :
    read .unchecked ';' '\n' quotation.text = .error .fault := by
  obtain ⟨is, valid⟩ := quotation.kind_spec
  have found := Quotation.closeQuote closes []
  rw [← List.append_nil quotation.text]
  have start : dropUnread (quotation.text ++ []) = quotation.text ++ [] :=
    dropUnread_append (List.forall_mem_nil _) (isRead_mark quotation)
  have piece : scanPiece .unchecked ';' '\n' (quotation.text ++ []) = .error .fault := by
    rw [Quotation.text, List.cons_append, List.cons_append, List.append_assoc, List.singleton_append,
      scanPiece]
    simp [openQuote, is, found, scanBehind, scanBlanks, isDelim, nul, Run.fault]
  rw [read, start, scan_error (by simp [Quotation.text]) piece]

/-- Entries that do not fit are not all entered. -/
theorem entriesOf_misfits {fields : Fields} (misfits : ¬ fields.Fits blanks)
    (room : fields.text.length < 2 ^ 32) (blank : ∀ c ∈ pre, isRead c = false)
    (accepted : fields.values blanks held = .ok values)
    (entered : entriesOf blanks (treeOf blanks) (pre ++ fields.text) held = .ok after) :
    after ≠ values := by
  induction fields generalizing pre held with
  | last field =>
    exfalso
    obtain ⟨key, value⟩ := field
    cases value with
    | empty =>
      have round := mapRound_bare (treeOf blanks) held blanks blank (.plain key) []
      obtain ⟨front, c, is, readable⟩ := key.ends
      have trimmed : trimEnd key.text = key.text := by
        rw [is]
        exact trimmed_append front readable
      rw [show (Key.plain key).content = key.text from rfl, trimmed, if_neg (by simp [is]), keyed,
        show Layout.stripped [] = [] from rfl, List.append_nil] at round
      rw [Fields.text, show key.text = (Key.plain key).text from rfl,
        show FieldValue.empty.text = [] from rfl, entriesOf_error round] at entered
      cases entered
    | quoted quotation plain =>
      obtain rfl : blanks = .unchecked := by
        cases blanks with
        | unchecked => rfl
        | checked => exact absurd ⟨rfl, fun _ => rfl⟩ misfits
      obtain ⟨stop, round⟩ := @mapRound_error .unchecked pre _ (treeOf .unchecked) held key _ blank
        (by simp [Quotation.text]) (read_quotation_unchecked plain.closes)
      rw [Fields.text, show (FieldValue.quoted quotation plain).text = quotation.text from rfl,
        entriesOf_error round] at entered
      cases entered
    | plain | group => exact misfits ⟨rfl, fun quoted => absurd quoted Bool.false_ne_true⟩
  | more field divider rest ih =>
    simp only [Fields.text, List.length_append, List.length_cons] at room
    have tail := rest.text_ne_nil
    have nonempty : field.value.text ++ (divider.text ++ rest.text) ≠ [] := by simp [tail]
    obtain ⟨middle, first, later⟩ := Run.bind_eq_ok.mp accepted
    -- the entry itself is read, and something is left in front of the next one
    have step {behind : Text} (chars : ∀ c ∈ behind, c = ';' ∨ c = '\n' ∨ c = ' ' ∨ c = '\t')
        (stuck : ';' ∉ behind → ¬ rest.Fits blanks)
        (reads : read blanks ';' '\n' (field.value.text ++ (divider.text ++ rest.text)) =
          .ok (field.value.content, behind ++ rest.text)) : after ≠ values := by
      have round := @mapRound_field blanks pre _ (treeOf blanks) held field.key _ _ blank nonempty reads
      rw [Fields.text, entriesOf_entered round, first, Run.bind_ok, if_neg (by simp [tail])] at entered
      by_cases semicolon : ';' ∈ behind
      · exact entriesOf_semicolon (by omega) chars semicolon later entered
      · exact ih (stuck semicolon) (by omega) (Divider.unread chars semicolon) later entered
    cases empty : field.value.isEmpty with
    | false =>
      refine step divider.behind_chars (fun none fits => misfits ⟨?_, fits⟩)
        (FieldValue.reads empty (by omega) divider tail)
      rwa [empty, if_neg Bool.false_ne_true]
    | true =>
      obtain ⟨key, value⟩ := field
      cases value with
      | empty =>
        by_cases semicolon : ';' ∈ divider.text
        · obtain ⟨front, back, split, noFront⟩ := List.eq_append_cons_of_mem semicolon
          obtain ⟨frontChars, backChars⟩ := Divider.split_semicolon split
          refine step backChars (fun none fits => misfits ⟨?_, fits⟩) ?_
          · rw [show FieldValue.empty.isEmpty = true from rfl, if_pos rfl, split, List.count_append,
              List.count_cons_self, List.count_eq_zero.mpr noFront, List.count_eq_zero.mpr none]
          · rw [split, List.append_assoc]
            exact read_semicolon (Divider.unread frontChars noFront)
        · have other := entriesOf_swallowed semicolon blank entered
          have holds : OrderedMap.find? key.text values = some emptyTree := by
            refine Fields.values_holds later ?_
            obtain ⟨tree, parsed, _, rfl⟩ := enter_ok.mp first
            rw [show FieldValue.empty.content = [] from rfl, treeOf_nil] at parsed
            cases parsed
            exact OrderedMap.find?_insert_self ..
          rintro rfl
          exact other holds
      | plain | quoted | group => cases empty

theorem entriesOf_iff {fields : Fields} (room : fields.text.length < 2 ^ 32)
    (accepted : fields.values blanks [] = .ok values) :
    entriesOf blanks (treeOf blanks) fields.text [] = .ok values ↔ fields.Fits blanks := by
  constructor
  · intro entered
    by_contra misfits
    exact entriesOf_misfits misfits room (List.forall_mem_nil _) accepted entered rfl
  · intro fits
    have entered : entriesOf blanks (treeOf blanks) ([] ++ fields.text) [] = _ :=
      entriesOf_fits fits room (List.forall_mem_nil _)
    rw [List.nil_append] at entered
    rw [entered, accepted]

end Misfits

section Maps
variable {blanks : BlankRun} {values : List (Text × Tree)} {group : GroupKind}

theorem Fields.neutral (known : group.Known) (fields : Fields) : Neutral group fields.text := by
  have divided (divider : Divider) : Neutral group divider.text := .inert known fun c member => by
    rcases divider.chars c member with rfl | rfl | rfl | rfl <;> decide
  have valued (value : FieldValue) : Neutral group value.text := by
    cases value with
    | empty => exact .inert known (List.forall_mem_nil _)
    | plain word => exact .inert known word.inert
    | quoted quotation plain => exact .quotation known plain.closes
    | group node isGroup closes => exact .of_balanced (node.balanced known closes) node.height_le
  have keyed (key : Word) {rest : Text} (later : Neutral group rest) :
      Neutral group (key.text ++ '=' :: rest) :=
    .append (.inert known key.inert) (.cons known (by decide) later)
  induction fields with
  | last field => exact keyed field.key (valued field.value)
  | more field divider rest ih =>
    exact keyed field.key (.append (valued field.value) (.append (divided divider) ih))

/-- What `set` returns is the tree of its text. -/
theorem set_returns_iff (text : Text) (offset : Int) (tree : Tree) :
    ((set blanks text offset).2 = none ∧ (set blanks text offset).1.tree = tree) ↔
      treeOf blanks text = .ok tree := by
  rw [← set_treeOf text offset, Run.forget_eq_ok, Run.map_eq_ok]
  obtain ⟨chunk, _ | stop⟩ := set blanks text offset <;> simp [Setting.construct]

theorem treeOf_fields (fields : Fields) (room : fields.text.length < 2 ^ 32) :
    treeOf blanks ('{' :: (fields.text ++ ['}'])) =
      (entriesOf blanks (treeOf blanks) fields.text []).map (.map ()) := by
  obtain ⟨c, later, begins, readable, _⟩ := fields.begins
  have some : dropUnread fields.text ≠ [] := by
    rw [begins]
    exact dropUnread_ne_nil List.mem_cons_self readable
  have whole := treeOf_enclosed blanks (.inl rfl) (fields.neutral (.inl rfl)) room
  refine whole.trans ?_
  rw [contentOf, if_pos (show brace.opening = '{' from rfl), if_neg some]

/-- The entries of a map, none included. -/
def rowText (fields : Option Fields) : Text := fields.elim [] Fields.text

def rowValues (blanks : BlankRun) (fields : Option Fields) : Run Unit (List (Text × Tree)) :=
  fields.elim (.ok []) fun fields => fields.values blanks []

/-- `set` makes the map of the entries, whatever runs of separators stand between them,
if and only if every run fits. -/
theorem set_fields_iff (fields : Option Fields) (room : (rowText fields).length < 2 ^ 32)
    (accepted : rowValues blanks fields = .ok values) (offset : Int) :
    ((set blanks ('{' :: (rowText fields ++ ['}'])) offset).2 = none ∧
      (set blanks ('{' :: (rowText fields ++ ['}'])) offset).1.tree = .map () values) ↔
      ∀ given ∈ fields, given.Fits blanks := by
  rw [set_returns_iff]
  cases fields with
  | none =>
    obtain rfl := Except.ok.inj accepted
    have empty : treeOf blanks ('{' :: ([] ++ ['}'])) = contentOf blanks brace [] :=
      treeOf_enclosed blanks (.inl rfl) (.nil : Balanced brace 0 []) (by decide)
    simp only [Option.not_mem_none, false_implies, implies_true, iff_true]
    exact empty
  | some fields =>
    have parsed := @treeOf_fields blanks fields room
    have entered := entriesOf_iff room accepted
    simp only [Option.mem_def, Option.some.injEq, forall_eq']
    rw [← entered, rowText, Option.elim_some, parsed, Run.map_eq_ok]
    simp

end Maps

/-- Semicolons only. -/
def Divider.semicolons (more : Nat) : Divider where
  text := List.replicate (more + 1) ';'
  chars _ member := .inl (List.eq_of_mem_replicate member)
  divides := ⟨';', by simp [List.replicate_succ], .inl rfl⟩

/-- `a=1` and `b=2` with a divider between them. -/
def twoFields (divider : Divider) : Fields :=
  .more ⟨.letter 'a' rfl, .plain (.letter '1' rfl)⟩ divider
    (.last ⟨.letter 'b' rfl, .plain (.letter '2' rfl)⟩)

/-- `{a=1;b=2}` -/
theorem set_fields_iff_semicolon :
    ((set .unchecked ['{', 'a', '=', '1', ';', 'b', '=', '2', '}'] 0).2 = none ∧
      (set .unchecked ['{', 'a', '=', '1', ';', 'b', '=', '2', '}'] 0).1.tree =
        .map () [(['a'], .string () ['1']), (['b'], .string () ['2'])]) ↔
      ∀ given ∈ some (twoFields (.semicolons 0)), given.Fits .unchecked :=
  set_fields_iff (some (twoFields (.semicolons 0))) (by decide) rfl 0

/-- `{a=1;;b=2}` is rejected. -/
theorem set_rejects_semicolons :
    ¬ ∀ (blanks : BlankRun) (fields : Option Fields) (values : List (Text × Tree)) (offset : Int),
      (rowText fields).length < 2 ^ 32 → rowValues blanks fields = .ok values →
      (set blanks ('{' :: (rowText fields ++ ['}'])) offset).2 = none ∧
        (set blanks ('{' :: (rowText fields ++ ['}'])) offset).1.tree = .map () values := by
  intro accepts
  obtain ⟨returns, _⟩ := accepts .unchecked
    (some (twoFields (.semicolons 1)))
    [(['a'], .string () ['1']), (['b'], .string () ['2'])] 0 (by decide) rfl
  have throws : (set .unchecked ['{', 'a', '=', '1', ';', ';', 'b', '=', '2', '}'] 0).2.isSome = true :=
    rfl
  have same : (set .unchecked ['{', 'a', '=', '1', ';', ';', 'b', '=', '2', '}'] 0).2 = none := returns
  rw [same] at throws
  cases throws

end Ztd.Filedat
