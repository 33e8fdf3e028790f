import Ztd.Filedat.Loops
import Ztd.Filedat.Sizes

/-! The parser reads every document without comments as the tree it stands for. -/

namespace Ztd.Filedat
open Ztd.Lib

/-- What the constructor makes of a text, at every offset. -/
def Constructs (construct : Construct) (text : Text) (tree : Tree) : Prop :=
  ∀ offset, ∃ chunk, construct text offset = .ok chunk ∧ chunk.tree = tree

/-- The constructor `set` uses for the chunks below it. -/
abbrev below (blanks : BlankRun) (fuel : Nat) : Construct :=
  fun value offset => (setFuel blanks fuel value offset).construct

theorem unread_stripped (layout : Layout) : ∀ c ∈ layout.stripped, isRead c = false := by
  intro c member
  obtain ⟨piece, _, inside⟩ := List.mem_flatMap.mp member
  cases piece with
  | blank d valid =>
    obtain rfl : c = d := by simpa [Piece.stripped] using inside
    rcases valid with rfl | rfl | rfl <;> decide
  | comment =>
    obtain rfl : c = '\n' := by simpa [Piece.stripped] using inside
    decide

/-- Layout is a gap wherever a newline is no delimiter. -/
theorem gap_stripped {delim altdelim : Char} (delimits : Delimits delim altdelim)
    (newline : isDelim delim altdelim '\n' = false) (layout : Layout) :
    ∀ c ∈ layout.stripped, isGap delim altdelim c = true := by
  intro c member
  obtain ⟨piece, _, inside⟩ := List.mem_flatMap.mp member
  have blank : c = ' ' ∨ c = '\t' ∨ c = '\n' := by
    cases piece with
    | blank d valid =>
      obtain rfl : c = d := by simpa [Piece.stripped] using inside
      exact valid
    | comment => exact .inr (.inr (by simpa [Piece.stripped] using inside))
  rcases blank with rfl | rfl | rfl
  · exact isGap_blank delimits (.inl rfl)
  · exact isGap_blank delimits (.inr rfl)
  · simp [isGap, newline, isRead]

theorem words_entry (c : Char) (_ : isRead c = true) (plain : isMarkup c = false) (_ : c ≠ ',') :
    isDelim ';' '\n' c = false := by
  simp only [isMarkup, decide_eq_false_iff_not, List.mem_cons, List.not_mem_nil, or_false,
    not_or] at plain
  have readable : c ≠ '\n' := by rintro rfl; simp [isRead] at *
  simp [isDelim, plain, readable]

theorem words_element (c : Char) (_ : isRead c = true) (plain : isMarkup c = false)
    (noComma : c ≠ ',') : isDelim ',' ';' c = false := by
  simp only [isMarkup, decide_eq_false_iff_not, List.mem_cons, List.not_mem_nil, or_false,
    not_or] at plain
  simp [isDelim, plain, noComma]

theorem escape_length (mark : Char) (text : Text) : text.length ≤ (escape mark text).length := by
  induction text with
  | nil => simp [escape]
  | cons c text ih =>
    rw [escape]
    split <;> simp only [List.length_cons] <;> omega

theorem content_length (value : Value) : value.content.length ≤ value.stripped.length := by
  cases value with
  | quoted quotation =>
    have escaped := escape_length quotation.kind.mark quotation.content
    change quotation.content.length ≤ quotation.text.length
    rw [Quotation.text, List.length_append, List.length_cons]
    omega
  | _ => exact Nat.le_refl _

theorem Key.content_cons (key : Key) : ∃ c later, key.content = c :: later ∧ c ≠ ';' := by
  cases key with
  | plain word =>
    obtain ⟨c, later, is, readable⟩ := word.begins
    refine ⟨c, later, is, ?_⟩
    rintro rfl
    rcases word.chars ';' (by simp [is]) with ⟨_, plain⟩ | same | same
    · simp [isMarkup] at plain
    · simp at same
    · simp at same
  | quoted quotation closes begins => exact begins

theorem Value.stripped_ne_nil (value : Value) : value.stripped ≠ [] := by
  obtain ⟨c, later, is, _⟩ := value.begins_text []
  rw [List.append_nil] at is
  simp [is]

section Rounds
variable {construct : Construct} {pre : Text}

/-- The round of the map loop on an entry, up to the text its value ends before. -/
theorem mapEntry_value (blank : ∀ c ∈ pre, isRead c = false) (key : Key) (before after : Layout)
    (value : Value) {atEnd : Prop} (good : value.Good atEnd) (room : value.stripped.length < 2 ^ 32)
    {following rest : Text} (follows : Follows ';' '\n' following rest)
    (trimmed : rest = [] → atEnd) {values : List (Text × Chunkdat)}
    (fresh : OrderedMap.find? key.content values = none)
    (constructs : Constructs construct value.content value.tree) (input : Text) (offset i : Int) :
    ∃ chunk j, chunk.tree = value.tree ∧
      mapEntry .checked construct input offset
        (pre ++ (key.text ++ before.stripped ++ '=' ::
          (after.stripped ++ value.stripped ++ following))) i values =
      .ok (OrderedMap.insert key.content chunk values, rest, j) := by
  obtain ⟨c, later, keyIs, noSemicolon⟩ := key.content_cons
  have more : after.stripped ++ value.stripped ++ following ≠ [] := by
    simp [value.stripped_ne_nil]
  have keyRead := read_key .checked blank key
    (gap_stripped delimits_key (by decide) before) more
  have valueRead := read_good delimits_entry words_entry (unread_stripped after) value good room
    follows trimmed
  rw [← List.append_assoc key.text] at keyRead
  rw [← List.append_assoc after.stripped] at valueRead
  refine mapEntry_entry ?_ keyRead keyIs noSemicolon more valueRead fresh constructs input offset i
  intro d first
  obtain ⟨e, tail, begins, readable, notEqual⟩ := key.begins_text
    (before.stripped ++ '=' :: (after.stripped ++ value.stripped ++ following))
  rw [List.append_assoc, begins, dropUnread_append blank readable] at first
  obtain rfl : e = d := by simpa using first
  exact notEqual

/-- The round of the list loop on an element. -/
theorem listElement_value (blank : ∀ c ∈ pre, isRead c = false) (value : Value) {atEnd : Prop}
    (good : value.Good atEnd) (room : value.stripped.length < 2 ^ 32) {following rest : Text}
    (follows : Follows ',' ';' following rest) (trimmed : rest = [] → atEnd)
    (constructs : Constructs construct value.content value.tree) (input : Text) (offset i : Int) :
    ∃ chunk j, chunk.tree = value.tree ∧
      listElement .checked construct input offset (pre ++ (value.stripped ++ following)) i =
      .ok (chunk, rest, j) :=
  listElement_element (read_good delimits_element words_element blank value good room follows
    trimmed) constructs input offset i

end Rounds

section Words

theorem isDelim_nul {c : Char} (readable : isRead c = true) : isDelim nul nul c = false := by
  have other : c ≠ nul := by
    rintro rfl
    simp [isRead_nul] at readable
  simp [isDelim, other]

/-- Without a delimiter text without quotes and brackets ends at its first blank. -/
theorem scan_first (text : Text) (chars : ∀ c ∈ text, c ∉ ['"', '\'', '{', '[']) :
    ∃ found, scan .checked nul nul text = .ok found := by
  induction text with
  | nil => exact ⟨_, scan_nil⟩
  | cons c text ih =>
    cases readable : isRead c with
    | false =>
      exact ⟨_, scan_leave (List.cons_ne_nil c text) (by
        rw [scanPiece_unread readable, scanBlanks_whole _ rfl])⟩
    | true =>
      obtain ⟨plain, later⟩ := List.forall_mem_cons.mp chars
      obtain ⟨found, scans⟩ := ih later
      simp only [List.mem_cons, List.not_mem_nil, or_false, not_or] at plain
      exact ⟨_, by rw [scan_char readable (by simp [quoteOf, plain]) plain.2.2.1 plain.2.2.2
        (isDelim_nul readable), scans, prepend_ok]⟩

/-- Text without quotes and brackets that begins readable is kept. -/
theorem reread_unquoted {c : Char} {text : Text} (readable : isRead c = true)
    (chars : ∀ d ∈ c :: text, d ∉ ['"', '\'', '{', '[']) : Reread (c :: text) := by
  obtain ⟨plain, later⟩ := List.forall_mem_cons.mp chars
  simp only [List.mem_cons, List.not_mem_nil, or_false, not_or] at plain
  obtain ⟨⟨val, rest⟩, scans⟩ := scan_first text later
  have start : dropUnread (c :: text) = c :: text :=
    dropUnread_append (List.forall_mem_nil _) readable
  have whole : scan .checked nul nul (c :: text) = .ok (c :: val, rest) := by
    rw [scan_char readable (by simp [quoteOf, plain]) plain.2.2.1 plain.2.2.2
      (isDelim_nul readable), scans, prepend_ok]
    rfl
  refine .inr ?_
  rw [read, start, whole]
  cases rest with
  | nil =>
    have same : trimEnd (c :: val) = c :: trimEnd val := trimEnd_cons_append [] readable val
    exact ⟨c, trimEnd val, [], by simp [same], plain.2.2.1, plain.2.2.2⟩
  | cons d rest => exact ⟨c, val, d :: rest, rfl, plain.2.2.1, plain.2.2.2⟩

theorem Word.reread (word : Word) : Reread word.text := by
  obtain ⟨c, later, is, readable⟩ := word.begins
  rw [is]
  refine reread_unquoted readable fun d member => ?_
  rcases word.chars d (is ▸ member) with ⟨_, plain⟩ | rfl | rfl
  · simp only [isMarkup, decide_eq_false_iff_not, List.mem_cons, List.not_mem_nil, or_false,
      not_or] at plain
    simp [plain]
  · decide
  · decide

end Words

/-- The bare trees of the values of a map. -/
def trees (values : List (Text × Chunkdat)) : List (Text × Tree) :=
  values.map fun entry => (entry.1, entry.2.tree)

theorem trees_insert (key : Text) (chunk : Chunkdat) (values : List (Text × Chunkdat)) :
    trees (OrderedMap.insert key chunk values) =
      OrderedMap.insert key chunk.tree (trees values) :=
  OrderedMap.insert_map Chunk.tree key chunk values

theorem Separator.follows (sep : Separator) (rest : Text) :
    Follows ';' '\n' (sep.render Piece.stripped ++ rest) (sep.after.stripped ++ rest) := by
  have blank : ∀ c ∈ sep.gap, isGap ';' '\n' c = true :=
    fun c member => isGap_blank delimits_entry (sep.blank c member)
  obtain ⟨mark, is, ends⟩ : ∃ mark, sep.mark.render Piece.stripped = [mark] ∧
      isDelim ';' '\n' mark = true := by
    rcases sep.mark.stripped with is | is
    · exact ⟨_, is, rfl⟩
    · exact ⟨_, is, rfl⟩
  have text : sep.render Piece.stripped ++ rest = sep.gap ++ mark :: (sep.after.stripped ++ rest) := by
    simp [Separator.render, is, Layout.stripped]
  rw [text]
  exact .mark delimits_entry blank ends

theorem Entries.stripped_eq_nil {entries : Entries} (empty : entries.stripped = []) :
    entries = .done := by
  cases entries with
  | done => rfl
  | last => simp [Entries.stripped, Entries.render] at empty
  | more => simp [Entries.stripped, Entries.render] at empty

theorem Elements.stripped_ne_nil (elements : Elements) : elements.stripped ≠ [] := by
  cases elements with
  | last value trail =>
    have nonempty := value.stripped_ne_nil
    simp only [Value.stripped] at nonempty
    simp [Elements.stripped, Elements.render, nonempty]
  | more => simp [Elements.stripped, Elements.render]

theorem Entries.eq_done {entries : Entries} {pre : Text} (unread : ∀ c ∈ pre, isRead c = false)
    (blank : dropUnread (pre ++ entries.stripped) = []) : entries = .done := by
  have absurd_ (key : Key) (rest : Text) (blank : dropUnread (pre ++ (key.text ++ rest)) = []) :
      False := by
    obtain ⟨c, later, begins, readable, _⟩ := key.begins_text rest
    rw [begins, dropUnread_append unread readable] at blank
    simp at blank
  cases entries with
  | done => rfl
  | last key before after value trail =>
    simp only [Entries.stripped, Entries.render, List.append_assoc] at blank
    exact (absurd_ key _ blank).elim
  | more key before after value sep rest =>
    simp only [Entries.stripped, Entries.render, List.append_assoc] at blank
    exact (absurd_ key _ blank).elim

theorem Elements.begins (elements : Elements) :
    ∃ c later, elements.stripped = c :: later ∧ isRead c = true := by
  cases elements with
  | last value trail => exact value.begins_text trail.stripped
  | more value before semicolon after rest =>
    obtain ⟨c, later, begins, readable⟩ := value.begins_text
      (before.stripped ++ (if semicolon then ';' else ',') :: (after.stripped ++ rest.stripped))
    exact ⟨c, later, (List.append_assoc ..).trans begins, readable⟩

/-- The map loop reads the entries in front of which it stands. -/
def Entries.Loops (construct : Construct) (entries : Entries) : Prop :=
  ∀ fuel pre, (∀ c ∈ pre, isRead c = false) → (pre ++ entries.stripped).length < fuel →
    ∀ values, (∀ key ∈ entries.keys, OrderedMap.find? key values = none) →
    ∀ input offset i, ∃ values',
      mapLoop .checked construct input offset fuel (pre ++ entries.stripped) i values =
        (values', none) ∧
      trees values' = OrderedMap.override (trees values) entries.assoc

/-- The list loop reads the elements in front of which it stands. -/
def Elements.Loops (construct : Construct) (elements : Elements) : Prop :=
  ∀ fuel pre, (∀ c ∈ pre, isRead c = false) → (pre ++ elements.stripped).length < fuel →
    ∀ built input offset i, ∃ built',
      listLoop .checked construct input offset fuel (pre ++ elements.stripped) i built =
        (built', none) ∧
      built'.map Chunk.tree = built.map Chunk.tree ++ elements.trees

section Groups
variable {pre post : Text} (before : ∀ c ∈ pre, isRead c = false)
  (after : ∀ c ∈ post, isRead c = false) {fuel : Nat} (first : Layout)
include before after

theorem map_constructs {entries : Entries} (closes : entries.Closes)
    (room : (Value.map first entries).stripped.length < 2 ^ 32)
    (loops : entries.Loops (below .checked fuel)) :
    Constructs (below .checked (fuel + 1)) (pre ++ ((Value.map first entries).stripped ++ post))
      (Value.map first entries).tree := by
  intro offset
  have text : (Value.map first entries).stripped =
      '{' :: (first.stripped ++ entries.stripped ++ ['}']) := rfl
  have neutral : Neutral brace (first.stripped ++ entries.stripped) :=
    (Layout.neutral (.inl rfl) first).append (Entries.neutral (.inl rfl) entries closes)
  rw [text] at room ⊢
  simp only [List.length_cons, List.length_append, List.length_nil] at room
  obtain ⟨i, is⟩ := setFuel_map .checked neutral
    (by rw [List.length_append]; omega) before after fuel offset
  rw [below, is]
  split
  · rename_i blank
    obtain rfl := Entries.eq_done (unread_stripped first) blank
    exact ⟨.map offset [], rfl, by
      simp [Value.tree, Entries.assoc, OrderedMap.ofList, OrderedMap.override]⟩
  · obtain ⟨values, ends, same⟩ := loops _ first.stripped (unread_stripped first)
      (Nat.lt_succ_self _) [] (by simp)
      (pre ++ ('{' :: (first.stripped ++ entries.stripped ++ ['}']) ++ post)) offset i
    simp only [ends]
    exact ⟨.map offset values, rfl, by
      simp only [Value.tree, OrderedMap.ofList, Chunk.tree_map, Chunk.map.injEq, true_and]
      exact same⟩

theorem emptyList_constructs (room : (Value.emptyList first).stripped.length < 2 ^ 32) :
    Constructs (below .checked (fuel + 1)) (pre ++ ((Value.emptyList first).stripped ++ post))
      (Value.emptyList first).tree := by
  intro offset
  have text : (Value.emptyList first).stripped = '[' :: (first.stripped ++ [']']) := rfl
  rw [text] at room ⊢
  simp only [List.length_cons, List.length_append, List.length_nil] at room
  obtain ⟨i, is⟩ := setFuel_list .checked (Layout.neutral (.inr rfl) first) (by omega) before after
    fuel offset
  rw [below, is, if_pos (dropUnread_blank (unread_stripped first))]
  exact ⟨.list offset [], rfl, by simp [Value.tree]⟩

theorem list_constructs {elements : Elements} (closes : elements.Closes)
    (room : (Value.list first elements).stripped.length < 2 ^ 32)
    (loops : elements.Loops (below .checked fuel)) :
    Constructs (below .checked (fuel + 1)) (pre ++ ((Value.list first elements).stripped ++ post))
      (Value.list first elements).tree := by
  intro offset
  have text : (Value.list first elements).stripped =
      '[' :: (first.stripped ++ elements.stripped ++ [']']) := rfl
  have neutral : Neutral bracket (first.stripped ++ elements.stripped) :=
    (Layout.neutral (.inr rfl) first).append (Elements.neutral (.inr rfl) elements closes)
  have readable : dropUnread (first.stripped ++ elements.stripped) ≠ [] := by
    obtain ⟨c, later, begins, readable⟩ := elements.begins
    rw [begins, dropUnread_append (unread_stripped first) readable]
    simp
  rw [text] at room ⊢
  simp only [List.length_cons, List.length_append, List.length_nil] at room
  obtain ⟨i, is⟩ := setFuel_list .checked neutral
    (by rw [List.length_append]; omega) before after fuel offset
  obtain ⟨built, ends, same⟩ := loops _ first.stripped (unread_stripped first)
    (Nat.lt_succ_self _) []
    (pre ++ ('[' :: (first.stripped ++ elements.stripped ++ [']']) ++ post)) offset i
  rw [below, is, if_neg readable]
  simp only [ends]
  exact ⟨.list offset built, rfl, by simpa [Value.tree] using same⟩

end Groups

theorem length_map (first : Layout) (entries : Entries) :
    (Value.map first entries).stripped.length =
      first.stripped.length + entries.stripped.length + 2 := by
  change (first.stripped ++ entries.stripped ++ ['}']).length + 1 = _
  simp [Nat.add_assoc]

theorem length_list (first : Layout) (elements : Elements) :
    (Value.list first elements).stripped.length =
      first.stripped.length + elements.stripped.length + 2 := by
  change (first.stripped ++ elements.stripped ++ [']']).length + 1 = _
  simp [Nat.add_assoc]

mutual
/-- The constructor makes the tree of a value from what is read of it. -/
theorem Value.constructs {atEnd : Prop} : ∀ (value : Value), value.Good atEnd →
    ∀ fuel, value.content.length < fuel → value.stripped.length < 2 ^ 32 →
      Constructs (below .checked fuel) value.content value.tree
  | .plain word noComma, _, fuel, enough, _ => by
    obtain ⟨fuel, rfl⟩ : ∃ rest, fuel = rest + 1 := ⟨fuel - 1, by omega⟩
    intro offset
    exact ⟨.string offset word.text, by
      rw [below, show (Value.plain word noComma).content = word.text from rfl,
        setFuel_reread word.reread]; rfl, rfl⟩
  | .quoted quotation, good, fuel, enough, _ => by
    obtain ⟨fuel, rfl⟩ : ∃ rest, fuel = rest + 1 := ⟨fuel - 1, by omega⟩
    intro offset
    exact ⟨.string offset quotation.content, by
      rw [below, show (Value.quoted quotation).content = quotation.content from rfl,
        setFuel_reread good.2.1]; rfl, rfl⟩
  | .map first entries, good, fuel, enough, room => by
    obtain ⟨fuel, rfl⟩ : ∃ rest, fuel = rest + 1 := ⟨fuel - 1, by omega⟩
    have whole : (Value.map first entries).content = (Value.map first entries).stripped := rfl
    have size := length_map first entries
    rw [whole] at enough ⊢
    have loops := Entries.loops entries good.2 good.1 fuel (by omega) (by omega)
    simpa using map_constructs (List.forall_mem_nil _) (List.forall_mem_nil _) first good.2.closes
      room loops
  | .emptyList first, _, fuel, enough, room => by
    obtain ⟨fuel, rfl⟩ : ∃ rest, fuel = rest + 1 := ⟨fuel - 1, by omega⟩
    have whole : (Value.emptyList first).content = (Value.emptyList first).stripped := rfl
    rw [whole]
    simpa using emptyList_constructs (List.forall_mem_nil _) (List.forall_mem_nil _) first room
  | .list first elements, good, fuel, enough, room => by
    obtain ⟨fuel, rfl⟩ : ∃ rest, fuel = rest + 1 := ⟨fuel - 1, by omega⟩
    have whole : (Value.list first elements).content = (Value.list first elements).stripped := rfl
    have size := length_list first elements
    rw [whole] at enough ⊢
    have loops := Elements.loops elements good fuel (by omega) (by omega)
    simpa using list_constructs (List.forall_mem_nil _) (List.forall_mem_nil _) first
      (Elements.Good.closes good) room loops
theorem Entries.loops : ∀ (entries : Entries), entries.Good → entries.keys.Nodup →
    ∀ depth, entries.stripped.length < depth → entries.stripped.length < 2 ^ 32 →
      entries.Loops (below .checked depth)
  | .done, _, _, depth, _, _, fuel, pre, blank, enough, values, _, input, offset, i => by
    have nothing : dropUnread (pre ++ Entries.done.stripped) = [] := by
      rw [show Entries.done.stripped = [] from rfl, List.append_nil]
      exact dropUnread_blank blank
    exact ⟨values, mapLoop_blank _ nothing input offset i values (by omega), rfl⟩
  | .last key before after value trail, good, _, depth, shallow, room, fuel, pre, blank, enough,
      values, fresh, input, offset, i => by
    obtain ⟨fuel, rfl⟩ : ∃ rest, fuel = rest + 1 := ⟨fuel - 1, by omega⟩
    have text : (Entries.last key before after value trail).stripped =
        key.text ++ before.stripped ++ '=' ::
          (after.stripped ++ value.stripped ++ trail.stripped) := rfl
    rw [text] at shallow room enough ⊢
    have inside := content_length value
    simp only [List.length_append, List.length_cons] at shallow room enough
    obtain ⟨rest, follows, unread, _⟩ := Follows.blanks delimits_entry (unread_stripped trail)
    obtain ⟨chunk, j, same, round⟩ := mapEntry_value blank key before after value good (by omega)
      follows (fun _ => trivial) (fresh key.content (by simp [Entries.keys]))
      (Value.constructs value good depth (by omega) (by omega)) input offset i
    refine ⟨OrderedMap.insert key.content chunk values, ?_, by
      simp [trees_insert, same, Entries.assoc, OrderedMap.override]⟩
    simp only [mapLoop, round]
    split
    · exact mapLoop_blank _ (dropUnread_blank unread) input offset j _ (by omega)
    · rfl
  | .more key before after value sep rest, good, distinct, depth, shallow, room, fuel, pre, blank,
      enough, values, fresh, input, offset, i => by
    obtain ⟨fuel, rfl⟩ : ∃ rest, fuel = rest + 1 := ⟨fuel - 1, by omega⟩
    have text : (Entries.more key before after value sep rest).stripped =
        key.text ++ before.stripped ++ '=' :: (after.stripped ++ value.stripped ++
          (sep.render Piece.stripped ++ rest.stripped)) := rfl
    rw [text] at shallow room enough ⊢
    have inside := content_length value
    have separated : (sep.render Piece.stripped).length ≥ sep.after.stripped.length := by
      rw [Separator.render, List.length_append]
      exact Nat.le_add_left _ _
    simp only [List.length_append, List.length_cons] at shallow room enough
    obtain ⟨distinctKey, distinctRest⟩ := List.nodup_cons.mp distinct
    obtain ⟨chunk, j, same, round⟩ := mapEntry_value blank key before after value good.1 (by omega)
      (sep.follows rest.stripped) id (fresh key.content (by simp [Entries.keys]))
      (Value.constructs value good.1 depth (by omega) (by omega)) input offset i
    have freshRest : ∀ other ∈ rest.keys,
        OrderedMap.find? other (OrderedMap.insert key.content chunk values) = none := by
      intro other member
      have different : other ≠ key.content := by
        rintro rfl
        exact distinctKey member
      rw [OrderedMap.find?_insert_ne different]
      exact fresh other (List.mem_cons_of_mem _ member)
    obtain ⟨values', loops, sameRest⟩ := Entries.loops rest good.2 distinctRest depth (by omega)
      (by omega) fuel sep.after.stripped (unread_stripped sep.after)
      (by rw [List.length_append]; omega) _ freshRest input offset j
    simp only [mapLoop, round]
    split
    · refine ⟨values', loops, ?_⟩
      rw [sameRest, trees_insert, same]
      rfl
    · rename_i ends
      have empty : sep.after.stripped ++ rest.stripped = [] := by simpa using ends
      obtain rfl := Entries.stripped_eq_nil (List.append_eq_nil_iff.mp empty).2
      exact ⟨_, rfl, by simp [trees_insert, same, Entries.assoc, OrderedMap.override]⟩
theorem Elements.loops : ∀ (elements : Elements), elements.Good →
    ∀ depth, elements.stripped.length < depth → elements.stripped.length < 2 ^ 32 →
      elements.Loops (below .checked depth)
  | .last value trail, good, depth, shallow, room, fuel, pre, blank, enough, built, input, offset,
      i => by
    obtain ⟨fuel, rfl⟩ : ∃ rest, fuel = rest + 1 := ⟨fuel - 1, by omega⟩
    have text : (Elements.last value trail).stripped = value.stripped ++ trail.stripped := rfl
    rw [text] at shallow room enough ⊢
    have inside := content_length value
    simp only [List.length_append] at shallow room enough
    obtain ⟨chunk, j, same, round⟩ := listElement_value blank value good (by omega)
      (.ending delimits_element (gap_stripped delimits_element rfl trail)) (fun _ => trivial)
      (Value.constructs value good depth (by omega) (by omega)) input offset i
    exact ⟨built ++ [chunk], by simp [listLoop, round], by simp [same, Elements.trees]⟩
  | .more value before semicolon after rest, good, depth, shallow, room, fuel, pre, blank, enough,
      built, input, offset, i => by
    obtain ⟨fuel, rfl⟩ : ∃ rest, fuel = rest + 1 := ⟨fuel - 1, by omega⟩
    have text : (Elements.more value before semicolon after rest).stripped =
        value.stripped ++ (before.stripped ++ (if semicolon then ';' else ',') ::
          (after.stripped ++ rest.stripped)) := List.append_assoc ..
    rw [text] at shallow room enough ⊢
    have inside := content_length value
    simp only [List.length_append, List.length_cons] at shallow room enough
    have more : after.stripped ++ rest.stripped ≠ [] := by simp [rest.stripped_ne_nil]
    have ends : isDelim ',' ';' (if semicolon then ';' else ',') = true := by
      cases semicolon <;> rfl
    obtain ⟨chunk, j, same, round⟩ := listElement_value blank value good.1 (by omega)
      (.mark delimits_element (gap_stripped delimits_element rfl before) ends)
      (fun empty => absurd empty more)
      (Value.constructs value good.1 depth (by omega) (by omega)) input offset i
    obtain ⟨built', loops, sameRest⟩ := Elements.loops rest good.2 depth (by omega) (by omega) fuel
      after.stripped (unread_stripped after) (by rw [List.length_append]; omega)
      (built ++ [chunk]) input offset j
    refine ⟨built', ?_, by simp [sameRest, same, Elements.trees]⟩
    simp only [listLoop, round]
    rw [if_pos (by simpa using more), loops]
end

end Ztd.Filedat
