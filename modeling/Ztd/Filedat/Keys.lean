import Ztd.Filedat.Export
import Ztd.Filedat.Joining
import Ztd.Filedat.Assign
import Ztd.Filedat.Parsed
import Ztd.Filedat.Endings
import Ztd.Filedat.Flat
import Ztd.Filedat.Offsets

/-! The printer writes keys as they are, without quotes: when a document it has
written still has the keys of the one it was made of. -/

namespace Ztd.Filedat
open Ztd.Lib

variable {ι κ : Type}

namespace Chunk

mutual
/-- Every string of the chunk is a word of letters and digits. -/
def Words : Chunk ι → Prop
  | .none _ => True
  | .string _ val => ∀ c ∈ val, c.isAlphanum = true
  | .map _ values => WordsValues values
  | .list _ elements => WordsElements elements
def WordsValues : List (Text × Chunk ι) → Prop
  | [] => True
  | (_, value) :: rest => Words value ∧ WordsValues rest
def WordsElements : List (Chunk ι) → Prop
  | [] => True
  | element :: rest => Words element ∧ WordsElements rest
end

theorem wordsValues_iff (values : List (Text × Chunk ι)) :
    WordsValues values ↔ ∀ entry ∈ values, entry.2.Words := by
  induction values with
  | nil => simp [WordsValues]
  | cons entry rest ih =>
    obtain ⟨key, value⟩ := entry
    simp only [WordsValues, ih, List.forall_mem_cons]

theorem wordsElements_iff (elements : List (Chunk ι)) :
    WordsElements elements ↔ ∀ element ∈ elements, element.Words := by
  induction elements with
  | nil => simp [WordsElements]
  | cons element rest ih => simp only [WordsElements, ih, List.forall_mem_cons]

/-- The keys of a map. -/
def keys? : Chunk ι → Option (List Text)
  | .map _ values => some (values.map Prod.fst)
  | _ => .none

/-- At every path both chunks have a map with the same keys, or none has a map. -/
def SameKeys (chunk : Chunk ι) (other : Chunk κ) : Prop :=
  ∀ path, (chunk.at? path).bind keys? = (other.at? path).bind keys?

theorem child?_tree (chunk : Chunk ι) (access : Access) :
    chunk.tree.child? access = (chunk.child? access).map tree := by
  cases chunk with
  | none | string => cases access <;> rfl
  | map offset values =>
    rw [tree_map]
    cases access with
    | key name => exact OrderedMap.find?_map tree name values
    | index => rfl
  | list offset elements =>
    rw [tree_list]
    cases access with
    | key => rfl
    | index position => exact List.getElem?_map

theorem at?_tree (path : List Access) (chunk : Chunk ι) :
    chunk.tree.at? path = (chunk.at? path).map tree := by
  induction path generalizing chunk with
  | nil => rfl
  | cons access path ih =>
    rw [at?, at?, child?_tree]
    cases chunk.child? access with
    | none => rfl
    | some child => exact ih child

theorem keys?_tree (chunk : Chunk ι) : chunk.tree.keys? = chunk.keys? := by
  cases chunk with
  | map offset values => simp [keys?]
  | _ => simp [keys?]

/-- Chunks with the same data have the same keys. -/
theorem sameKeys_of_tree {chunk : Chunk ι} {other : Chunk κ} (same : chunk.tree = other.tree) :
    SameKeys chunk other := by
  intro path
  have here : (chunk.at? path).map tree = (other.at? path).map tree := by
    rw [← at?_tree, ← at?_tree, same]
  have keys (found : Option (Chunk ι)) : (found.map tree).bind keys? = found.bind keys? := by
    cases found <;> simp [keys?_tree]
  have keysOther (found : Option (Chunk κ)) : (found.map tree).bind keys? = found.bind keys? := by
    cases found <;> simp [keys?_tree]
  rw [← keys, here, keysOther]

end Chunk

section Longer
variable {blanks : BlankRun} {delim altdelim : Char} {text val rest : Text} (more : Text)

theorem scanBlanks_more (given : delim ≠ nul) {reach : Reach}
    (found : scanBlanks blanks delim altdelim text = .ok (val, reach)) (left : reach.rest ≠ []) :
    scanBlanks blanks delim altdelim (text ++ more) = .ok (val, reach.append more) := by
  rcases cases_gap delim altdelim text with blank | ⟨gap, c, later, rfl, blank, stops⟩
  · rw [scanBlanks_end blanks given blank] at found
    split at found
    · cases found
      exact absurd rfl left
    · cases blanks <;> cases found
      exact absurd rfl left
  · rw [scanBlanks_stop blanks given blank stops] at found
    rw [List.append_assoc, List.cons_append, scanBlanks_stop blanks given blank stops]
    split at found <;> cases found <;> rename_i ends
    · rw [if_pos ends, Reach.append]
    · rw [if_neg ends, Reach.append, List.cons_append]

theorem scanBehind_more (given : delim ≠ nul) {reach : Reach}
    (found : scanBehind blanks delim altdelim text = .ok (val, reach)) (left : reach.rest ≠ []) :
    scanBehind blanks delim altdelim (text ++ more) = .ok (val, reach.append more) := by
  cases text with
  | nil =>
    rw [scanBehind, scanBlanks_end blanks given (List.forall_mem_nil _)] at found
    split at found
    · cases found
      exact absurd rfl left
    · cases blanks <;> cases found
      exact absurd rfl left
  | cons c text =>
    exact scanBehind_append more (fun blank => scanBlanks_more more given blank left) found

/-- A value that ends in front of a rest ends there in a longer text. -/
theorem scan_more (given : delim ≠ nul)
    (found : scan blanks delim altdelim text = .ok (val, rest)) (left : rest ≠ []) :
    scan blanks delim altdelim (text ++ more) = .ok (val, rest ++ more) := by
  induction size : text.length using Nat.strongRecOn generalizing text val with
  | _ count ih =>
    subst size
    by_cases nonempty : text = []
    · subst nonempty
      rw [scan_nil] at found
      cases found
      exact absurd rfl left
    · have longer : text ++ more ≠ [] := by simp [nonempty]
      cases piece : scanPiece blanks delim altdelim text with
      | error stop =>
        rw [scan_error nonempty piece] at found
        cases found
      | ok inner =>
        obtain ⟨front, reach⟩ := inner
        have some : reach.rest ≠ [] := by
          cases reach with
          | leave behind =>
            rw [scan_leave nonempty piece] at found
            cases found
            exact left
          | next behind =>
            rintro rfl
            rw [scan_next nonempty piece, scan_nil] at found
            cases found
            exact left rfl
        have pieceLonger : scanPiece blanks delim altdelim (text ++ more) =
            .ok (front, reach.append more) := by
          rw [scanPiece] at piece ⊢
          cases opened : openQuote text with
          | error stop => simp [opened] at piece
          | ok inner =>
            obtain ⟨quoted, behind⟩ := inner
            simp only [opened] at piece
            simp only [openQuote_append more nonempty opened]
            obtain ⟨copied, reads, rfl⟩ := prepend_eq_ok piece
            rw [scanBehind_more more given reads some, prepend_ok]
        cases reach with
        | leave behind =>
          rw [scan_leave nonempty piece] at found
          cases found
          exact scan_leave longer pieceLonger
        | next behind =>
          rw [scan_next nonempty piece] at found
          obtain ⟨inner, later, rfl⟩ := prepend_eq_ok found
          rw [scan_next longer pieceLonger, ih _ (scanPiece_shorter nonempty piece) later rfl,
            prepend_ok]

end Longer

/-- The key, written as the printer writes it, is read up to the equal sign as it is,
and does not begin with a semicolon. -/
def KeyReads (blanks : BlankRun) (key : Text) : Prop :=
  (∃ c ∈ key.head?, isRead c = true ∧ c ≠ '=' ∧ c ≠ ';') ∧
    read blanks '=' nul (key ++ [' ', '=', ' ']) = .ok (key, [' '])

namespace Chunk

mutual
/-- Every key can be read, and every map and list, as printed, is closed by its own
bracket. The loop over blanks leaves a list that has elements if it is not bounded. -/
def Rereads (blanks : BlankRun) (alignment : UInt32) (aligner : Text) : Chunk ι → Prop
  | .none _ | .string _ _ => True
  | .map offset values =>
    let printed := strval alignment aligner (.map offset values)
    Filedat.readGroup brace printed = .ok (printed, []) ∧
      RereadsValues blanks alignment aligner values
  | .list offset elements =>
    let printed := strval alignment aligner (.list offset elements)
    Filedat.readGroup bracket printed = .ok (printed, []) ∧ (elements = [] ∨ blanks = .checked) ∧
      RereadsElements blanks alignment aligner elements
def RereadsValues (blanks : BlankRun) (alignment : UInt32) (aligner : Text) :
    List (Text × Chunk ι) → Prop
  | [] => True
  | (key, value) :: rest => (KeyReads blanks key ∧ Rereads blanks (alignment + 1) aligner value) ∧
      RereadsValues blanks alignment aligner rest
def RereadsElements (blanks : BlankRun) (alignment : UInt32) (aligner : Text) :
    List (Chunk ι) → Prop
  | [] => True
  | element :: rest => Rereads blanks (alignment + 1) aligner element ∧
      RereadsElements blanks alignment aligner rest
end

variable {blanks : BlankRun} {alignment : UInt32} {aligner : Text}

theorem rereadsValues_iff (values : List (Text × Chunk ι)) :
    RereadsValues blanks alignment aligner values ↔ ∀ entry ∈ values,
      KeyReads blanks entry.1 ∧ entry.2.Rereads blanks (alignment + 1) aligner := by
  induction values with
  | nil => simp [RereadsValues]
  | cons entry rest ih =>
    obtain ⟨key, value⟩ := entry
    simp only [RereadsValues, ih, List.forall_mem_cons]

theorem rereadsElements_iff (elements : List (Chunk ι)) :
    RereadsElements blanks alignment aligner elements ↔
      ∀ element ∈ elements, element.Rereads blanks (alignment + 1) aligner := by
  induction elements with
  | nil => simp [RereadsElements]
  | cons element rest ih => simp only [RereadsElements, ih, List.forall_mem_cons]

end Chunk

section Printed
variable {blanks : BlankRun} {delim altdelim : Char} {pre rest : Text}

/-- A key that can be read is read whatever follows its equal sign. -/
theorem KeyReads.read {key : Text} (reads : KeyReads blanks key)
    (blank : ∀ c ∈ pre, isRead c = false) (rest : Text) :
    Filedat.read blanks '=' nul (pre ++ (key ++ ' ' :: '=' :: ' ' :: rest)) = .ok (key, ' ' :: rest) ∧
      (dropUnread (pre ++ (key ++ ' ' :: '=' :: ' ' :: rest))).head? ≠ some '=' := by
  obtain ⟨⟨c, first, readable, notEqual, _⟩, alone⟩ := reads
  obtain ⟨key, rfl⟩ : ∃ later, key = c :: later := by
    cases key with
    | nil => cases first
    | cons d later =>
      obtain rfl := Option.some.inj first
      exact ⟨later, rfl⟩
  have start : dropUnread (pre ++ (c :: key ++ ' ' :: '=' :: ' ' :: rest)) =
      c :: key ++ ' ' :: '=' :: ' ' :: rest := dropUnread_append blank readable
  have scans : scan blanks '=' nul (c :: key ++ [' ', '=', ' ']) = .ok (c :: key, [' ']) := by
    have begins : dropUnread (c :: key ++ [' ', '=', ' ']) = c :: key ++ [' ', '=', ' '] :=
      dropUnread_append (List.forall_mem_nil _) readable
    obtain ⟨whole, scans, same⟩ := read_scanned alone
    rw [begins] at scans
    rw [Filedat.read, begins, scans] at alone
    cases alone
    exact scans
  have longer := scan_more rest (by decide) scans (List.cons_ne_nil _ _)
  have text : c :: key ++ [' ', '=', ' '] ++ rest = c :: key ++ ' ' :: '=' :: ' ' :: rest := by simp
  rw [text] at longer
  rw [Filedat.read, start, longer]
  exact ⟨rfl, by simpa using notEqual⟩

theorem isAlphanum_plain {c : Char} (letter : c.isAlphanum = true) :
    isRead c = true ∧ isMarkup c = false := by
  constructor
  · have ranges : ((decide ('A'.val ≤ c.val ∧ c.val ≤ 'Z'.val) ||
        (decide ('a'.val ≤ c.val) && decide (c.val ≤ 'z'.val))) ||
        (decide ('0'.val ≤ c.val) && decide (c.val ≤ '9'.val))) = true := letter
    simp only [Bool.or_eq_true, Bool.and_eq_true, decide_eq_true_eq,
      UInt32.le_iff_toNat_le] at ranges
    have same : c.val.toNat = c.toNat := rfl
    simp [same] at ranges
    simp only [isRead, Bool.and_eq_true, decide_eq_true_eq]
    omega
  · rw [isMarkup, decide_eq_false_iff_not]
    intro member
    simp only [List.mem_cons, List.not_mem_nil, or_false] at member
    rcases member with rfl | rfl | rfl | rfl | rfl | rfl | rfl | rfl | rfl | rfl | rfl <;>
      exact absurd letter (by decide)

theorem reread_letters {val : Text} (letters : ∀ c ∈ val, c.isAlphanum = true) : Reread val := by
  by_cases empty : val = []
  · exact .inl empty
  · exact (Word.ofKey val empty fun c member => isAlphanum_plain (letters c member)).reread

variable {alignment : UInt32} {aligner : Text} {chunk : Chunk ι}

theorem strval_map (offset : ι) (values : List (Text × Chunk ι)) :
    (Chunk.map offset values).strval alignment aligner = '{' :: ((if values = [] then [] else
      '\n' :: (Chunk.strvalValues alignment aligner values ++
        repeatString aligner alignment.toNat)) ++ ['}']) := by
  cases values with
  | nil => rfl
  | cons entry rest => simp [Chunk.strval]

theorem strval_list (offset : ι) {elements : List (Chunk ι)} {lines : Text}
    (split : Chunk.strvalElements alignment aligner elements = lines ++ [',', '\n']) :
    (Chunk.list offset elements).strval alignment aligner =
      '[' :: ('\n' :: (lines ++ '\n' :: repeatString aligner alignment.toNat) ++ [']']) := by
  cases elements with
  | nil => simp [Chunk.strvalElements] at split
  | cons element rest =>
    have comma := eraseIdx_comma ('[' :: '\n' :: lines)
    simp only [List.cons_append] at comma
    simp only [Chunk.strval, split, List.cons_append, List.nil_append, comma, List.append_assoc]

/-- The lines of a list but for the last comma. -/
theorem strvalElements_split (element : Chunk ι) (rest : List (Chunk ι)) : ∃ later,
    Chunk.strvalElements alignment aligner (element :: rest) =
      repeatString aligner (alignment + 1).toNat ++
        element.item (element.strval (alignment + 1) aligner) ++ later ++ [',', '\n'] := by
  induction rest generalizing element with
  | nil => exact ⟨[], by simp [Chunk.strvalElements]⟩
  | cons next rest ih =>
    obtain ⟨later, split⟩ := ih next
    rw [Chunk.strvalElements, split]
    exact ⟨[',', '\n'] ++ (repeatString aligner (alignment + 1).toNat ++
      next.item (next.strval (alignment + 1) aligner) ++ later), by simp⟩

/-- Maps and lists stand between their brackets. -/
theorem strval_bracketed (isGroup : chunk.type = .map ∨ chunk.type = .list)
    (rereads : chunk.Rereads blanks alignment aligner) : ∃ group inner, GroupKind.Known group ∧
      chunk.strval alignment aligner = group.opening :: (inner ++ [group.closing]) ∧
      readGroup group (chunk.strval alignment aligner) =
        .ok (chunk.strval alignment aligner, []) := by
  cases chunk with
  | none => simp [Chunk.type] at isGroup
  | string => simp [Chunk.type] at isGroup
  | map offset values => exact ⟨brace, _, .inl rfl, strval_map offset values, rereads.1⟩
  | list offset elements =>
    by_cases empty : elements = []
    · subst empty
      exact ⟨bracket, [], .inr rfl, rfl, rereads.1⟩
    · obtain ⟨element, rest, rfl⟩ := List.exists_cons_of_ne_nil empty
      obtain ⟨later, split⟩ := strvalElements_split element rest
      exact ⟨bracket, _, .inr rfl, strval_list offset split, rereads.1⟩

/-- The tree of a group that is closed by its last bracket. -/
theorem treeOf_closed {group : GroupKind} (known : group.Known) {inner : Text}
    (closes : readGroup group (group.opening :: (inner ++ [group.closing])) =
      .ok (group.opening :: (inner ++ [group.closing]), [])) :
    treeOf blanks (group.opening :: (inner ++ [group.closing])) = contentOf blanks group inner := by
  have reads : read blanks nul nul (group.opening :: (inner ++ [group.closing])) =
      .ok (group.opening :: (inner ++ [group.closing]), []) := by
    have start : dropUnread (group.opening :: (inner ++ [group.closing])) =
        group.opening :: (inner ++ [group.closing]) :=
      dropUnread_append (List.forall_mem_nil _) known.readable.1
    have trimmed : Trimmed (group.opening :: inner ++ [group.closing]) :=
      trimmed_append (group.opening :: inner) known.readable.2
    rw [read, start, scan_group known closes, scan_nil, prepend_ok, List.append_nil]
    exact congrArg (fun kept => Except.ok (kept, [])) trimmed
  rw [treeOf_group known reads, insideOf, if_pos (dropUnread_blank (List.forall_mem_nil _)),
    if_neg (by simp), List.dropLast_concat]
  rfl

section Items
variable (words : chunk.Words) (typed : chunk.type ≠ .none)
  (rereads : chunk.Rereads blanks alignment aligner)
include typed rereads

include words in
/-- What is printed inside of a map or a list is scanned as the chunk's own text. -/
theorem scan_item {following : Text} (follow : ∀ d ∈ following.head?, quoteOf d = none)
    (some : following ≠ []) :
    scan blanks delim altdelim (chunk.item (chunk.strval alignment aligner) ++ following) =
      prepend (chunk.strval alignment aligner) (scan blanks delim altdelim following) := by
  by_cases isString : chunk.type = .string
  · cases chunk with
    | string offset val =>
      have closes : Quotation.Closes ⟨false, val⟩ := by
        intro last
        exact absurd (words '\\' (List.mem_of_getLast? last)) (by decide)
      exact scan_quotation closes follow fun empty => absurd empty some
    | none | map | list => simp [Chunk.type] at isString
  · have isGroup : chunk.type = .map ∨ chunk.type = .list := by
      cases is : chunk.type <;> simp_all
    obtain ⟨group, inner, known, bracketed, closes⟩ := strval_bracketed isGroup rereads
    rw [Chunk.item, if_neg isString]
    rw [bracketed] at closes ⊢
    have longer := readGroup_append following (List.cons_ne_nil _ _) closes
    rw [List.cons_append] at longer ⊢
    exact scan_group known longer

theorem item_begins (following : Text) : ∃ c later,
    chunk.item (chunk.strval alignment aligner) ++ following = c :: later ∧ isRead c = true := by
  by_cases isString : chunk.type = .string
  · rw [Chunk.item, if_pos isString]
    exact ⟨'"', _, rfl, rfl⟩
  · have isGroup : chunk.type = .map ∨ chunk.type = .list := by
      cases is : chunk.type <;> simp_all
    obtain ⟨group, inner, known, bracketed, _⟩ := strval_bracketed isGroup rereads
    rw [Chunk.item, if_neg isString, bracketed]
    exact ⟨group.opening, _, rfl, known.readable.1⟩

include words in
theorem strval_trimmed : Trimmed (chunk.strval alignment aligner) := by
  by_cases isString : chunk.type = .string
  · cases chunk with
    | string offset val =>
      rcases List.eq_nil_or_concat val with rfl | ⟨front, c, rfl⟩
      · exact trimmed_nil
      · rw [List.concat_eq_append] at words ⊢
        exact trimmed_append front (isAlphanum_plain (words c (by simp))).1
    | none | map | list => simp [Chunk.type] at isString
  · have isGroup : chunk.type = .map ∨ chunk.type = .list := by
      cases is : chunk.type <;> simp_all
    obtain ⟨group, inner, known, bracketed, _⟩ := strval_bracketed isGroup rereads
    rw [bracketed]
    exact trimmed_append (group.opening :: inner) known.readable.2

include words in
/-- What is printed inside of a map or a list is read up to what ends it. -/
theorem read_item {following kept : Text} (blank : ∀ c ∈ pre, isRead c = false)
    (follow : ∀ d ∈ following.head?, quoteOf d = none) (some : following ≠ [])
    (ends : scan blanks delim altdelim following = .ok (kept, rest))
    (unread : ∀ c ∈ kept, isRead c = false) (nothing : rest ≠ [] → kept = []) :
    read blanks delim altdelim (pre ++ (chunk.item (chunk.strval alignment aligner) ++ following)) =
      .ok (chunk.strval alignment aligner, rest) := by
  obtain ⟨c, later, begins, readable⟩ := item_begins typed rereads following
  have start : dropUnread (pre ++ (chunk.item (chunk.strval alignment aligner) ++ following)) =
      chunk.item (chunk.strval alignment aligner) ++ following := by
    rw [begins, dropUnread_append blank readable]
  rw [read, start, scan_item words typed rereads follow some, ends, prepend_ok]
  cases rest with
  | nil =>
    have trimmed := strval_trimmed words typed rereads
    simp only [trimEnd_append unread, Except.ok.injEq, Prod.mk.injEq, and_true]
    exact trimmed
  | cons d rest => simp [nothing (List.cons_ne_nil d rest)]

end Items

theorem dropUnread_ne_nil {c : Char} {text : Text} (member : c ∈ text) (readable : isRead c = true) :
    dropUnread text ≠ [] := by
  intro nothing
  have blank := List.dropWhile_eq_nil_iff.mp nothing c member
  simp [readable] at blank

theorem unread_newline : ∀ c ∈ ['\n'], isRead c = false := List.forall_mem_singleton.mpr rfl

section Lines
variable (spaces : ∀ c ∈ aligner, c = ' ' ∨ c = '\t')
include spaces

theorem unread_indent (count : Nat) : ∀ c ∈ repeatString aligner count, isRead c = false := by
  intro c member
  rcases spaces c (mem_repeatString member) with rfl | rfl <;> rfl

/-- A line of a map is an entry. -/
theorem mapRound_line {construct : Text → Run Unit Tree} {values : List (Text × Tree)} {key : Text}
    (reads : KeyReads blanks key) (words : chunk.Words) (typed : chunk.type ≠ .none)
    (rereads : chunk.Rereads blanks (alignment + 1) aligner) (blank : ∀ c ∈ pre, isRead c = false) :
    mapRound blanks construct (pre ++ (repeatString aligner (alignment + 1).toNat ++ key ++
        [' ', '=', ' '] ++ chunk.item (chunk.strval (alignment + 1) aligner) ++ ['\n'] ++ rest)) values =
      (enter key (construct (chunk.strval (alignment + 1) aligner)) values).map
        fun values => (values, rest) := by
  have front : ∀ c ∈ pre ++ repeatString aligner (alignment + 1).toNat, isRead c = false := by
    intro c member
    rcases List.mem_append.mp member with first | later
    · exact blank c first
    · exact unread_indent spaces _ c later
  have text : pre ++ (repeatString aligner (alignment + 1).toNat ++ key ++ [' ', '=', ' '] ++
        chunk.item (chunk.strval (alignment + 1) aligner) ++ ['\n'] ++ rest) =
      pre ++ repeatString aligner (alignment + 1).toNat ++ (key ++ ' ' :: '=' :: ' ' ::
        (chunk.item (chunk.strval (alignment + 1) aligner) ++ '\n' :: rest)) := by simp
  obtain ⟨keyRead, notEqual⟩ := reads.read front
    (chunk.item (chunk.strval (alignment + 1) aligner) ++ '\n' :: rest)
  have line : scan blanks ';' '\n' ('\n' :: rest) = .ok ([], rest) :=
    scan_delim (by decide) (List.forall_mem_nil _) rfl rfl (by decide) (by decide) rest
  have valueRead : read blanks ';' '\n' (' ' :: (chunk.item (chunk.strval (alignment + 1) aligner) ++
      '\n' :: rest)) = .ok (chunk.strval (alignment + 1) aligner, rest) := by
    have blank : ∀ c ∈ [' '], isRead c = false := List.forall_mem_singleton.mpr rfl
    exact read_item words typed rereads blank (by simp [quoteOf]) (List.cons_ne_nil _ _) line
      (List.forall_mem_nil _) fun _ => rfl
  obtain ⟨⟨c, first, _, _, noSemicolon⟩, _⟩ := reads
  obtain ⟨key, rfl⟩ : ∃ later, key = c :: later := by
    cases key with
    | nil => cases first
    | cons d later =>
      obtain rfl := Option.some.inj first
      exact ⟨later, rfl⟩
  rw [text, mapRound, entryOf, if_neg notEqual, keyRead, Run.forget_ok, Run.bind_ok, pairOf,
    if_neg noSemicolon, if_neg (List.cons_ne_nil _ _), valueRead]
  rfl

/-- The lines of a map are its entries. -/
theorem entriesOf_lines {values : List (Text × Chunk ι)} {trail : Text}
    (words : ∀ entry ∈ values, entry.2.Words) (typed : ∀ entry ∈ values, entry.2.type ≠ .none)
    (rereads : Chunk.RereadsValues blanks alignment aligner values)
    (trees : ∀ entry ∈ values,
      treeOf blanks (entry.2.strval (alignment + 1) aligner) = .ok entry.2.tree)
    (nodup : (values.map Prod.fst).Nodup) {held : List (Text × Tree)}
    (fresh : ∀ entry ∈ values, OrderedMap.find? entry.1 held = none)
    (blank : ∀ c ∈ pre, isRead c = false) (unread : ∀ c ∈ trail, isRead c = false) :
    entriesOf blanks (treeOf blanks)
        (pre ++ (Chunk.strvalValues alignment aligner values ++ trail)) held =
      .ok (OrderedMap.override held (values.map fun entry => (entry.1, entry.2.tree))) := by
  induction values generalizing pre held with
  | nil =>
    refine entriesOf_blank fun c member => ?_
    rcases List.mem_append.mp member with first | later
    · exact blank c first
    · exact unread c later
  | cons entry rest ih =>
    obtain ⟨key, value⟩ := entry
    obtain ⟨⟨reads, rereadsValue⟩, rereadsRest⟩ := rereads
    obtain ⟨wordsValue, wordsRest⟩ := List.forall_mem_cons.mp words
    obtain ⟨typedValue, typedRest⟩ := List.forall_mem_cons.mp typed
    obtain ⟨treeValue, treesRest⟩ := List.forall_mem_cons.mp trees
    obtain ⟨freshKey, freshRest⟩ := List.forall_mem_cons.mp fresh
    obtain ⟨newKey, nodupRest⟩ := List.nodup_cons.mp nodup
    have round := @mapRound_line _ blanks pre (Chunk.strvalValues alignment aligner rest ++ trail) _ _ _
      spaces (treeOf blanks) held key reads wordsValue typedValue rereadsValue blank
    have entered : enter key (treeOf blanks (value.strval (alignment + 1) aligner)) held =
        .ok (OrderedMap.insert key value.tree held) :=
      enter_ok.mpr ⟨value.tree, treeValue, freshKey, rfl⟩
    have freshLater : ∀ other ∈ rest,
        OrderedMap.find? other.1 (OrderedMap.insert key value.tree held) = none := by
      intro other member
      have different : other.1 ≠ key := by
        intro same
        exact newKey (List.mem_map.mpr ⟨other, member, same⟩)
      rw [OrderedMap.find?_insert_ne different]
      exact freshRest other member
    have later := ih wordsRest typedRest rereadsRest treesRest nodupRest freshLater
      (List.forall_mem_nil (isRead · = false))
    rw [List.nil_append] at later
    rw [Chunk.strvalValues, List.append_assoc _ (Chunk.strvalValues alignment aligner rest) trail,
      entriesOf_entered round, entered, Run.bind_ok, later]
    split
    · rename_i ends
      have stays : entriesOf blanks (treeOf blanks) [] (OrderedMap.insert key value.tree held) = _ :=
        entriesOf_blank (List.forall_mem_nil _)
      rw [← stays, ← ends, later]
      rfl
    · rfl

/-- The lines of a list are its elements. -/
theorem elementsOf_lines {elements : List (Chunk ι)} {lines trail : Text}
    (split : Chunk.strvalElements alignment aligner elements = lines ++ [',', '\n'])
    (words : ∀ element ∈ elements, element.Words) (typed : ∀ element ∈ elements, element.type ≠ .none)
    (rereads : Chunk.RereadsElements .checked alignment aligner elements)
    (trees : ∀ element ∈ elements,
      treeOf .checked (element.strval (alignment + 1) aligner) = .ok element.tree)
    (blank : ∀ c ∈ pre, isRead c = false) (gap : ∀ c ∈ '\n' :: trail, isGap ',' ';' c = true) :
    elementsOf .checked (treeOf .checked) (pre ++ (lines ++ '\n' :: trail)) =
      .ok (elements.map Chunk.tree) := by
  have front (pre : Text) (blank : ∀ c ∈ pre, isRead c = false) :
      ∀ c ∈ pre ++ repeatString aligner (alignment + 1).toNat, isRead c = false := by
    intro c member
    rcases List.mem_append.mp member with first | later
    · exact blank c first
    · exact unread_indent spaces _ c later
  induction elements generalizing pre lines with
  | nil => simp [Chunk.strvalElements] at split
  | cons element rest ih =>
    obtain ⟨rereadsElement, rereadsRest⟩ := rereads
    obtain ⟨wordsElement, wordsRest⟩ := List.forall_mem_cons.mp words
    obtain ⟨typedElement, typedRest⟩ := List.forall_mem_cons.mp typed
    obtain ⟨treeElement, treesRest⟩ := List.forall_mem_cons.mp trees
    rw [Chunk.strvalElements] at split
    cases rest with
    | nil =>
      rw [Chunk.strvalElements, List.append_nil] at split
      obtain rfl := List.append_cancel_right split
      obtain ⟨kept, ends, unread⟩ := scan_end (by decide) gap
      have reads := read_item wordsElement typedElement rereadsElement (front pre blank)
        (by simp [quoteOf]) (List.cons_ne_nil _ _) ends unread fun some => absurd rfl some
      rw [List.append_assoc, ← List.append_assoc] at reads ⊢
      rw [elementsOf_read reads, treeElement]
      rfl
    | cons next rest =>
      obtain ⟨tail, splitRest⟩ := strvalElements_split next rest
      generalize repeatString aligner (alignment + 1).toNat ++
        next.item (next.strval (alignment + 1) aligner) ++ tail = later at splitRest
      rw [splitRest, ← List.append_assoc] at split
      obtain rfl := List.append_cancel_right split
      have comma : scan .checked ',' ';' (',' :: '\n' :: (later ++ '\n' :: trail)) =
          .ok ([], '\n' :: (later ++ '\n' :: trail)) :=
        scan_delim (by decide) (List.forall_mem_nil _) rfl rfl (by decide) (by decide) _
      have reads := read_item wordsElement typedElement rereadsElement (front pre blank)
        (by simp [quoteOf]) (List.cons_ne_nil _ _) comma (List.forall_mem_nil _) fun _ => rfl
      have text : pre ++ (repeatString aligner (alignment + 1).toNat ++
            element.item (element.strval (alignment + 1) aligner) ++ [',', '\n'] ++ later ++
            '\n' :: trail) =
          pre ++ repeatString aligner (alignment + 1).toNat ++
            (element.item (element.strval (alignment + 1) aligner) ++
              ',' :: '\n' :: (later ++ '\n' :: trail)) := by simp
      have others := ih splitRest wordsRest typedRest rereadsRest treesRest
        unread_newline
      rw [List.singleton_append] at others
      rw [text, elementsOf_read reads, treeElement, Run.bind_ok, if_neg (List.cons_ne_nil _ _), others]
      rfl

/-- What the printer writes for a map or a list is parsed as it. -/
theorem treeOf_strval (chunk : Chunk ι) (alignment : UInt32) (ordered : chunk.Ordered)
    (typed : chunk.NoNone) (words : chunk.Words) (rereads : chunk.Rereads blanks alignment aligner) :
    treeOf blanks (chunk.strval alignment aligner) = .ok chunk.tree := by
  have typeOf {chunk : Chunk ι} (typed : chunk.NoNone) : chunk.type ≠ .none := by
    cases chunk <;> simp_all [Chunk.NoNone, Chunk.Every, Chunk.type]
  induction chunk using Chunk.induct generalizing alignment with
  | none => exact absurd rfl (typeOf typed)
  | string offset val => exact treeOf_reread (reread_letters words)
  | map offset values ih =>
    obtain ⟨sorted, orderedValues⟩ := (Chunk.ordered_map_iff offset values).mp ordered
    have typedValues := ((Chunk.every_map_iff offset values).mp typed).2
    have wordsValues := (Chunk.wordsValues_iff values).mp words
    have closes := rereads.1
    rw [strval_map] at closes ⊢
    refine (treeOf_closed (.inl rfl) closes).trans ?_
    rw [contentOf, if_pos (show brace.opening = '{' from rfl)]
    by_cases empty : values = []
    · subst empty
      rfl
    · have trees : ∀ entry ∈ values,
          treeOf blanks (entry.2.strval (alignment + 1) aligner) = .ok entry.2.tree := by
        intro entry member
        exact ih entry member _ (orderedValues entry member) (typedValues entry member)
          (wordsValues entry member) ((Chunk.rereadsValues_iff values).mp rereads.2 entry member).2
      have entries := entriesOf_lines spaces wordsValues
        (fun entry member => typeOf (typedValues entry member)) rereads.2 trees sorted.nodup
        (fun entry _ => OrderedMap.find?_nil entry.1) unread_newline
        (unread_indent spaces alignment.toNat)
      have signed : '=' ∈ '\n' :: (Chunk.strvalValues alignment aligner values ++
          repeatString aligner alignment.toNat) := by
        obtain ⟨entry, rest, rfl⟩ := List.exists_cons_of_ne_nil empty
        simp [Chunk.strvalValues]
      rw [List.singleton_append] at entries
      rw [if_neg empty, if_neg (dropUnread_ne_nil signed rfl), entries, Chunk.tree_map]
      exact congrArg (fun made => Except.ok (Chunk.map () made))
        (OrderedMap.ofList_sorted (sorted.map Chunk.tree))
  | list offset elements ih =>
    have orderedElements := (Chunk.ordered_list_iff offset elements).mp ordered
    have typedElements := ((Chunk.every_list_iff offset elements).mp typed).2
    have wordsElements := (Chunk.wordsElements_iff elements).mp words
    obtain ⟨closes, bounded, rereadsElements⟩ := rereads
    cases elements with
    | nil => exact @treeOf_closed blanks bracket (.inr rfl) [] closes
    | cons element rest =>
      obtain rfl : blanks = .checked := bounded.resolve_left (List.cons_ne_nil _ _)
      obtain ⟨later, split⟩ := strvalElements_split element rest
      rw [strval_list offset split] at closes ⊢
      refine (treeOf_closed (.inr rfl) closes).trans ?_
      have trees : ∀ other ∈ element :: rest,
          treeOf .checked (other.strval (alignment + 1) aligner) = .ok other.tree := by
        intro other member
        exact ih other member _ (orderedElements other member) (typedElements other member)
          (wordsElements other member)
          ((Chunk.rereadsElements_iff (element :: rest)).mp rereadsElements other member)
      have gap : ∀ c ∈ '\n' :: repeatString aligner alignment.toNat, isGap ',' ';' c = true := by
        intro c member
        rcases blank_indent spaces _ c member with rfl | rfl | rfl <;> rfl
      have made := elementsOf_lines spaces split wordsElements
        (fun element member => typeOf (typedElements element member)) rereadsElements trees
        unread_newline gap
      obtain ⟨c, others, begins, readable⟩ := item_begins
        (typeOf (typedElements element List.mem_cons_self)) rereadsElements.1 []
      have written : c ∈ element.item (element.strval (alignment + 1) aligner) := by
        rw [List.append_nil] at begins
        rw [begins]
        exact List.mem_cons_self
      rw [List.singleton_append] at made
      rw [contentOf, if_neg (by decide), if_neg (dropUnread_ne_nil (by simp [written]) readable), made,
        Chunk.tree_list]
      rfl

end Lines

end Printed

/-- What an import returns is sorted, and everything in it has a type. -/
theorem importString_valid {blanks : BlankRun} {data : Text} {file after : Ztd.Filedat}
    {chunk : Chunkdat} (imported : file.importString blanks data = (after, none))
    (held : after.dataChunk = some chunk) : chunk.Ordered ∧ chunk.NoNone := by
  have parsed : treeOf blanks after.data = .ok chunk.tree := by
    rw [treeOf, (importString_returned imported held).2]
    rfl
  obtain ⟨ordered, typed⟩ := treeOf_valid parsed
  exact ⟨(Chunk.ordered_tree chunk).mp ordered, (Chunk.every_tree chunk).mp typed⟩

/-- The keys of an imported document survive if the comments in front of the scanner
leave the exported text as it is, every key can be read as it is printed, and the
brackets of every map and list are closed by each other. -/
theorem importString_keeps_keys {blanks : BlankRun} {data : Text} {file after : Ztd.Filedat}
    {chunk : Chunkdat} (imported : file.importString blanks data = (after, none))
    (held : after.dataChunk = some chunk) (words : chunk.Words)
    (comments : removeComments chunk.str = .ok chunk.str)
    (rereads : chunk.Rereads blanks 0 ['\t']) (other : Ztd.Filedat) :
    ∃ again, other.importString blanks chunk.str =
        ({ data := chunk.str, filePath := [], dataChunk := some again }, none) ∧
      chunk.SameKeys again := by
  obtain ⟨ordered, typed⟩ := importString_valid imported held
  have parsed := treeOf_strval (show ∀ c ∈ ['\t'], c = ' ' ∨ c = '\t' by simp) chunk 0 ordered typed
    words rereads
  rw [treeOf, Run.forget_eq_ok] at parsed
  obtain ⟨again, constructed, same⟩ := Run.map_eq_ok.mp parsed
  exact ⟨again, generateChunk_ok comments constructed, Chunk.sameKeys_of_tree same.symm⟩

/-- The value of `{'x;y'=b}`. -/
def semicolonKey : Chunkdat := .map 0 [(['x', ';', 'y'], .string 1 ['b'])]

/-- `{'x;y'=b}`: the key is printed without its quotes, and read as it is. -/
theorem importString_keeps_semicolon : ∃ again,
    ({} : Ztd.Filedat).importString .unchecked semicolonKey.str =
        ({ data := semicolonKey.str, filePath := [], dataChunk := some again }, none) ∧
      semicolonKey.SameKeys again := by
  have words : semicolonKey.Words := ⟨List.forall_mem_singleton.mpr rfl, trivial⟩
  have key : KeyReads .unchecked ['x', ';', 'y'] := ⟨⟨'x', rfl, by decide⟩, by decide +kernel⟩
  exact @importString_keeps_keys .unchecked ['{', '\'', 'x', ';', 'y', '\'', '=', 'b', '}'] {} _
    semicolonKey rfl rfl words rfl ⟨by decide +kernel, ⟨key, trivial⟩, trivial⟩ {}

/-- The key of `{"=a"=b}` begins with an equal sign and is printed without its quotes. -/
theorem importString_loses_key :
    ¬ ∀ (blanks : BlankRun) (data : Text) (file after other : Ztd.Filedat) (chunk : Chunkdat),
      file.importString blanks data = (after, none) → after.dataChunk = some chunk →
      (chunk.type = .map ∨ chunk.type = .list) → chunk.Words →
      ∃ saved again, other.importString blanks chunk.str = (saved, none) ∧
        saved.dataChunk = some again ∧ chunk.SameKeys again := by
  intro keeps
  obtain ⟨saved, again, imported, _⟩ := keeps .unchecked
    ['{', '"', '=', 'a', '"', '=', 'b', '}'] {} _ {} (.map 0 [(['=', 'a'], .string 1 ['b'])])
    rfl rfl (.inl rfl) ⟨List.forall_mem_singleton.mpr rfl, trivial⟩
  have throws : (({} : Ztd.Filedat).importString .unchecked
      (Chunk.str (.map (0 : Int) [(['=', 'a'], .string 1 ['b'])]))).2.isSome = true := rfl
  rw [imported] at throws
  cases throws

end Ztd.Filedat
