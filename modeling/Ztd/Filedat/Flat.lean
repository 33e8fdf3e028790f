import Ztd.Filedat.Bounded
import Ztd.Filedat.Denote

/-! Texts whose equal signs outside of brackets can be counted, and that the parser
makes no more entries of them than they have signs. -/

namespace Ztd.Filedat
open Ztd.Lib

/-- Quoted plain text, with any blanks. -/
def Quotation.Plain (quotation : Quotation) : Prop :=
  ∀ c ∈ quotation.content, (isRead c = true ∧ isMarkup c = false) ∨ c = ' ' ∨ c = '\t'

def Node.isGroup : Node → Bool
  | .map .. | .list .. => true
  | _ => false

/-- The text is made of characters, quoted plain text and groups, and has so many equal
signs outside of the groups. `quotes` says if anything may be quoted. -/
inductive Flat : Bool → Nat → Text → Prop where
  | nil {quotes : Bool} : Flat quotes 0 []
  | sign {quotes : Bool} {count : Nat} {rest : Text} (later : Flat quotes count rest) :
      Flat quotes (count + 1) ('=' :: rest)
  | char {quotes : Bool} {count : Nat} {c : Char} {rest : Text} (inert : Inert c)
      (noSign : c ≠ '=') (given : c ≠ nul) (later : Flat quotes count rest) :
      Flat quotes count (c :: rest)
  | quoted {count : Nat} {quotation : Quotation} {rest : Text} (plain : quotation.Plain)
      (follow : ∀ d ∈ rest.head?, quoteOf d = none) (later : Flat true count rest) :
      Flat true count (quotation.text ++ rest)
  | group {quotes : Bool} {count : Nat} {node : Node} {rest : Text} (isGroup : node.isGroup = true)
      (closes : node.Closes) (room : node.height < 2 ^ 32) (later : Flat quotes count rest) :
      Flat quotes count (node.stripped ++ rest)

section Scanning
variable {blanks : BlankRun} {delim altdelim : Char} {value rest text : Text}

theorem Quotation.Plain.closes {quotation : Quotation} (plain : quotation.Plain) :
    quotation.Closes := by
  intro last
  rcases plain '\\' (List.mem_of_getLast? last) with ⟨_, markup⟩ | same | same
  · simp [isMarkup] at markup
  · simp at same
  · simp at same

/-- A group is copied, whatever follows. -/
theorem scan_isGroup {node : Node} (isGroup : node.isGroup = true) (closes : node.Closes)
    (room : node.height < 2 ^ 32) :
    scan blanks delim altdelim (node.stripped ++ rest) =
      prepend node.stripped (scan blanks delim altdelim rest) := by
  cases node with
  | plain | quoted => simp [Node.isGroup] at isGroup
  | map first rows =>
    exact scan_balanced (.inl rfl)
      ((first.balanced (.inl rfl)).append (Rows.balanced (.inl rfl) rows closes))
      (Nat.lt_of_succ_lt room)
  | list first cells =>
    exact scan_balanced (.inr rfl)
      ((first.balanced (.inr rfl)).append (Cells.balanced (.inr rfl) cells closes))
      (Nat.lt_of_succ_lt room)

/-- A blank in front of a text that is scanned belongs to the value or is dropped. -/
theorem scan_blank_ok (delimits : Delimits delim altdelim) {c : Char}
    (gap : isGap delim altdelim c = true)
    (scans : scan blanks delim altdelim (c :: text) = .ok (value, rest)) :
    ∃ value', scan blanks delim altdelim text = .ok (value', rest) ∧
      (value = value' ∨ value = c :: value') := by
  have unread : isRead c = false := by
    simp only [isGap, Bool.and_eq_true, Bool.not_eq_true'] at gap
    exact gap.1
  rcases cases_gap delim altdelim text with blank | ⟨front, d, later, rfl, blank, stops⟩
  · have all : ∀ e ∈ c :: text, isGap delim altdelim e = true := List.forall_mem_cons.mpr ⟨gap, blank⟩
    have piece := scanBlanks_end blanks delimits.given all
    rw [← scanPiece_unread unread] at piece
    cases terminates : isDelim delim altdelim nul with
    | true =>
      rw [if_pos terminates] at piece
      rw [scan_leave (List.cons_ne_nil c text) piece] at scans
      cases scans
      refine ⟨[], ?_, .inl rfl⟩
      cases text with
      | nil => exact scan_nil
      | cons e text =>
        have piece := scanBlanks_end blanks delimits.given blank
        rw [← scanPiece_unread (isRead_gap blank e (by simp)), if_pos terminates] at piece
        exact scan_leave (List.cons_ne_nil e text) piece
    | false =>
      rw [if_neg (by simp [terminates])] at piece
      cases blanks with
      | unchecked =>
        rw [scan_error (List.cons_ne_nil c text) piece] at scans
        cases scans
      | checked =>
        rw [scan_next (List.cons_ne_nil c text) piece, scan_nil] at scans
        cases scans
        refine ⟨text, ?_, .inr (by simp)⟩
        cases text with
        | nil => exact scan_nil
        | cons e text =>
          have piece := scanBlanks_end .checked delimits.given blank
          rw [← scanPiece_unread (isRead_gap blank e (by simp)),
            if_neg (by simp [terminates])] at piece
          rw [scan_next (List.cons_ne_nil e text) piece, scan_nil]
          simp
  · have all : ∀ e ∈ c :: front, isGap delim altdelim e = true := List.forall_mem_cons.mpr ⟨gap, blank⟩
    cases ends : isDelim delim altdelim d with
    | true =>
      have inert := delimits.inert d ends
      have noQuote := quoteOf_inert inert
      simp only [Inert, List.mem_cons, List.not_mem_nil, or_false, not_or] at inert
      rw [← List.cons_append, scan_delim delimits.given all ends noQuote inert.1 inert.2.2.1] at scans
      exact ⟨value, by rw [scan_delim delimits.given blank ends noQuote inert.1 inert.2.2.1, scans],
        .inl rfl⟩
    | false =>
      rw [← List.cons_append, scan_gap delimits.given all stops ends] at scans
      obtain ⟨inner, later, rfl⟩ := prepend_eq_ok scans
      exact ⟨front ++ inner, by rw [scan_gap delimits.given blank stops ends, later, prepend_ok],
        .inr rfl⟩

/-- A quotation that is scanned adds its content. -/
theorem scan_quotation_ok {quotation : Quotation} (closes : quotation.Closes)
    (follow : ∀ d ∈ text.head?, quoteOf d = none)
    (scans : scan blanks delim altdelim (quotation.text ++ text) = .ok (value, rest)) :
    ∃ value', scan blanks delim altdelim text = .ok (value', rest) ∧
      value = quotation.content ++ value' := by
  cases text with
  | cons d text =>
    rw [scan_quotation closes follow (by simp)] at scans
    obtain ⟨inner, later, rfl⟩ := prepend_eq_ok scans
    exact ⟨inner, later, rfl⟩
  | nil =>
    have checked : scan .checked delim altdelim (quotation.text ++ []) = .ok (value, rest) := by
      cases blanks with
      | checked => exact scans
      | unchecked =>
        rcases scan_within delim altdelim (quotation.text ++ []) with faults | same
        · rw [faults] at scans
          cases scans
        · rw [← same, scans]
    rw [scan_quotation closes follow (fun _ => rfl), scan_nil] at checked
    cases checked
    exact ⟨[], scan_nil, rfl⟩

/-- Plain text has no equal signs. -/
theorem Flat.chars {quotes : Bool} {count : Nat} {front : Text}
    (plain : ∀ c ∈ front, (isRead c = true ∧ isMarkup c = false) ∨ c = ' ' ∨ c = '\t')
    (flat : Flat quotes count text) : Flat quotes count (front ++ text) := by
  induction front with
  | nil => exact flat
  | cons c front ih =>
    obtain ⟨first, others⟩ := List.forall_mem_cons.mp plain
    have bare : Inert c ∧ c ≠ '=' ∧ c ≠ nul := by
      rcases first with ⟨readable, markup⟩ | rfl | rfl
      · refine ⟨?_, ?_, ?_⟩
        · simp only [isMarkup, decide_eq_false_iff_not, List.mem_cons, List.not_mem_nil, or_false,
            not_or] at markup
          simp [Inert, markup]
        · rintro rfl
          simp [isMarkup] at markup
        · rintro rfl
          simp [isRead, nul] at readable
      · decide
      · decide
    exact .char bare.1 bare.2.1 bare.2.2 (ih others)

/-- What is taken from such a text and what is left of it. -/
theorem Flat.scans {quotes : Bool} {count : Nat} (delimits : Delimits delim altdelim)
    (flat : Flat quotes count text)
    (scans : scan blanks delim altdelim text = .ok (value, rest)) :
    ∃ taken left, Flat false taken value ∧ Flat quotes left rest ∧ taken + left ≤ count ∧
      (delim = '=' → altdelim = nul → taken = 0 ∧ (left + 1 = count ∨ rest = [] ∧ count = 0)) := by
  induction flat generalizing value with
  | nil =>
    rw [scan_nil] at scans
    cases scans
    exact ⟨0, 0, .nil, .nil, Nat.le_refl 0, fun _ _ => ⟨rfl, .inr ⟨rfl, rfl⟩⟩⟩
  | @sign quotes count rest later ih =>
    cases ends : isDelim delim altdelim '=' with
    | true =>
      rw [← List.nil_append ('=' :: _), scan_delim delimits.given (List.forall_mem_nil _) ends rfl
        (by decide) (by decide)] at scans
      cases scans
      exact ⟨0, count, .nil, later, by omega, fun _ _ => ⟨rfl, .inl rfl⟩⟩
    | false =>
      rw [scan_char rfl rfl (by decide) (by decide) ends] at scans
      obtain ⟨inner, within, rfl⟩ := prepend_eq_ok scans
      obtain ⟨taken, left, value, leaves, fits, _⟩ := ih within
      refine ⟨taken + 1, left, .sign value, leaves, by omega, ?_⟩
      rintro rfl rfl
      simp [isDelim] at ends
  | @char quotes count c rest inert noSign given later ih =>
    have noQuote := quoteOf_inert inert
    have noGroup := inert
    simp only [Inert, List.mem_cons, List.not_mem_nil, or_false, not_or] at noGroup
    cases ends : isDelim delim altdelim c with
    | true =>
      rw [← List.nil_append (c :: _), scan_delim delimits.given (List.forall_mem_nil _) ends noQuote
        noGroup.1 noGroup.2.2.1] at scans
      cases scans
      refine ⟨0, count, .nil, later, by omega, ?_⟩
      rintro rfl rfl
      rcases isDelim_iff.mp ends with same | same
      · exact absurd same noSign
      · exact absurd same given
    | false =>
      cases readable : isRead c with
      | true =>
        rw [scan_char readable noQuote noGroup.1 noGroup.2.2.1 ends] at scans
        obtain ⟨inner, within, rfl⟩ := prepend_eq_ok scans
        obtain ⟨taken, left, value, leaves, fits, sign⟩ := ih within
        exact ⟨taken, left, .char inert noSign given value, leaves, fits, sign⟩
      | false =>
        obtain ⟨inner, within, same⟩ := scan_blank_ok delimits (by simp [isGap, readable, ends]) scans
        obtain ⟨taken, left, value, leaves, fits, sign⟩ := ih within
        rcases same with rfl | rfl
        · exact ⟨taken, left, value, leaves, fits, sign⟩
        · exact ⟨taken, left, .char inert noSign given value, leaves, fits, sign⟩
  | @quoted count quotation rest plain follow later ih =>
    obtain ⟨inner, within, rfl⟩ := scan_quotation_ok plain.closes follow scans
    obtain ⟨taken, left, value, leaves, fits, sign⟩ := ih within
    exact ⟨taken, left, .chars plain value, leaves, fits, sign⟩
  | @group quotes count node rest isGroup closes room later ih =>
    rw [scan_isGroup isGroup closes room] at scans
    obtain ⟨inner, within, rfl⟩ := prepend_eq_ok scans
    obtain ⟨taken, left, value, leaves, fits, sign⟩ := ih within
    exact ⟨taken, left, .group isGroup closes room value, leaves, fits, sign⟩

end Scanning

section Parts
variable {quotes : Bool} {count other : Nat} {text rest : Text}

theorem Node.bracketed {node : Node} (isGroup : node.isGroup = true) :
    ∃ group inner, GroupKind.Known group ∧
      node.stripped = group.opening :: (inner ++ [group.closing]) := by
  cases node with
  | plain | quoted => simp [Node.isGroup] at isGroup
  | map first rows => exact ⟨brace, first.stripped ++ rows.stripped, .inl rfl, rfl⟩
  | list first cells => exact ⟨bracket, first.stripped ++ cells.stripped, .inr rfl, rfl⟩

theorem Flat.append {first : Text} (flat : Flat false count first) (later : Flat quotes other text) :
    Flat quotes (count + other) (first ++ text) := by
  generalize is : false = inner at flat
  induction flat with
  | nil => rwa [Nat.zero_add]
  | sign _ ih =>
    rw [Nat.add_right_comm]
    exact .sign (ih is)
  | char inert noSign given _ ih => exact .char inert noSign given (ih is)
  | quoted => cases is
  | group isGroup closes room _ ih =>
    rw [List.append_assoc]
    exact .group isGroup closes room (ih is)

theorem Flat.empty (flat : Flat quotes count text) (nothing : text = []) : count = 0 := by
  cases flat with
  | nil => rfl
  | sign | char => cases nothing
  | quoted => simp [Quotation.text] at nothing
  | @group _ _ node _ isGroup => exact absurd (List.append_eq_nil_iff.mp nothing).1 node.stripped_ne_nil

theorem Flat.tail {c : Char} (flat : Flat quotes count text) (is : text = c :: rest)
    (inert : Inert c) (noSign : c ≠ '=') : Flat quotes count rest := by
  cases flat with
  | nil => cases is
  | sign =>
    cases is
    exact absurd rfl noSign
  | char _ _ _ later =>
    cases is
    exact later
  | @quoted _ quotation =>
    obtain rfl : quotation.kind.mark = c := (List.cons.inj is).1
    have noQuote := quoteOf_inert inert
    rw [quotation.kind_spec.1] at noQuote
    cases noQuote
  | @group _ _ node _ isGroup =>
    obtain ⟨group, inner, known, bracketed⟩ := Node.bracketed isGroup
    rw [bracketed] at is
    obtain rfl : group.opening = c := (List.cons.inj is).1
    rcases known with rfl | rfl <;> exact absurd inert (by decide)

theorem Flat.dropUnread (flat : Flat quotes count text) : Flat quotes count (dropUnread text) := by
  have stays {text later : Text} {c : Char} (begins : text = c :: later) (readable : isRead c = true) :
      Filedat.dropUnread text = text := by
    rw [begins]
    exact dropUnread_append (List.forall_mem_nil _) readable
  induction flat with
  | nil => exact .nil
  | sign later _ =>
    rw [stays rfl rfl]
    exact .sign later
  | @char _ _ c rest inert noSign given later ih =>
    cases readable : isRead c with
    | true =>
      rw [stays rfl readable]
      exact .char inert noSign given later
    | false =>
      have drops : Filedat.dropUnread (c :: rest) = Filedat.dropUnread rest := by
        simp [Filedat.dropUnread, readable]
      rw [drops]
      exact ih
  | @quoted _ quotation rest plain follow later _ =>
    have begins : ∃ later, quotation.text ++ rest = quotation.kind.mark :: later := ⟨_, rfl⟩
    obtain ⟨_, begins⟩ := begins
    rw [stays begins (isRead_mark quotation)]
    exact .quoted plain follow later
  | @group _ _ node rest isGroup closes room later _ =>
    obtain ⟨group, inner, known, bracketed⟩ := Node.bracketed isGroup
    rw [stays (by rw [bracketed, List.cons_append]) known.readable.1]
    exact .group isGroup closes room later

theorem trimEnd_unread {c : Char} (unread : isRead c = false) (text : Text) :
    trimEnd (c :: text) = if trimEnd text = [] then [] else c :: trimEnd text := by
  rw [trimEnd, List.reverse_cons, List.dropWhile_append]
  simp only [trimEnd, List.reverse_eq_nil_iff, List.isEmpty_iff]
  split
  · simp [unread]
  · simp

theorem Flat.trimEnd (flat : Flat false count text) : Flat false count (trimEnd text) := by
  have keeps (front : Text) {c : Char} (readable : isRead c = true) (text : Text) :
      Filedat.trimEnd (front ++ c :: text) = front ++ c :: Filedat.trimEnd text :=
    trimEnd_cons_append front readable text
  generalize is : false = inner at flat ⊢
  induction flat with
  | nil => exact .nil
  | @sign _ _ rest later ih =>
    have same : Filedat.trimEnd ('=' :: rest) = '=' :: Filedat.trimEnd rest := keeps [] rfl rest
    rw [same]
    exact .sign (ih is)
  | @char _ _ c rest inert noSign given later ih =>
    cases readable : isRead c with
    | true =>
      have same : Filedat.trimEnd (c :: rest) = c :: Filedat.trimEnd rest := keeps [] readable rest
      rw [same]
      exact .char inert noSign given (ih is)
    | false =>
      rw [trimEnd_unread readable]
      split
      · rename_i nothing
        rw [(ih is).empty nothing]
        exact .nil
      · exact .char inert noSign given (ih is)
  | quoted => cases is
  | @group _ _ node rest isGroup closes room later ih =>
    obtain ⟨group, inner, known, bracketed⟩ := Node.bracketed isGroup
    have same : Filedat.trimEnd (node.stripped ++ rest) = node.stripped ++ Filedat.trimEnd rest := by
      have kept := keeps (group.opening :: inner) known.readable.2 rest
      rw [bracketed]
      simpa using kept
    rw [same]
    exact .group isGroup closes room (ih is)

end Parts

section Loops
variable {blanks : BlankRun} {delim altdelim : Char} {count : Nat} {text value rest : Text}

theorem Flat.reads {quotes : Bool} (delimits : Delimits delim altdelim) (flat : Flat quotes count text)
    (reads : read blanks delim altdelim text = .ok (value, rest)) :
    ∃ taken left, Flat false taken value ∧ Flat quotes left rest ∧ taken + left ≤ count ∧
      (delim = '=' → altdelim = nul → taken = 0 ∧ (left + 1 = count ∨ rest = [] ∧ count = 0)) := by
  obtain ⟨whole, scans, trims⟩ := read_scanned reads
  obtain ⟨taken, left, flatWhole, leaves, fits, sign⟩ := flat.dropUnread.scans delimits scans
  rcases trims with rfl | rfl
  · exact ⟨taken, left, flatWhole, leaves, fits, sign⟩
  · exact ⟨taken, left, flatWhole.trimEnd, leaves, fits, sign⟩

/-- A round makes an entry only with a sign. -/
theorem Flat.entry {entry : Option (Text × Text)} (flat : Flat true count text)
    (found : entryOf blanks text = .ok (entry, rest)) :
    ∃ left, Flat true left rest ∧ left + entry.toList.length ≤ count := by
  rw [entryOf] at found
  split at found
  · cases found
  · obtain ⟨⟨key, rstr⟩, isRead, pair⟩ := Run.bind_eq_ok.mp found
    rw [Run.forget_eq_ok] at isRead
    obtain ⟨taken, left, flatKey, flatRest, fits, sign⟩ := flat.reads delimits_key isRead
    obtain ⟨rfl, signs⟩ := sign rfl rfl
    cases key with
    | nil =>
      rw [pairOf] at pair
      split at pair
      · cases pair
        exact ⟨0, .nil, by simp⟩
      · cases pair
    | cons c key =>
      rw [pairOf] at pair
      split at pair
      · rename_i semicolon
        cases pair
        have flatTail := flatKey.tail rfl (semicolon ▸ (by decide)) (semicolon ▸ (by decide))
        exact ⟨0 + left, flatTail.append flatRest, by simp; omega⟩
      · split at pair
        · cases pair
        · rename_i more
          obtain ⟨⟨val, behind⟩, valRead, same⟩ := Run.map_eq_ok.mp pair
          rw [Run.forget_eq_ok] at valRead
          cases same
          obtain ⟨_, after, _, flatAfter, fitsAfter, _⟩ := flatRest.reads delimits_entry valRead
          have signed : left + 1 = count := by
            rcases signs with signed | ⟨nothing, _⟩
            · exact signed
            · exact absurd nothing more
          exact ⟨after, flatAfter, by simp; omega⟩

/-- A round on a text that begins with a semicolon makes no entry, but takes a sign. -/
theorem Flat.entry_semicolon {entry : Option (Text × Text)} {later : Text}
    (flat : Flat true count text) (starts : Filedat.dropUnread text = ';' :: later)
    (found : entryOf blanks text = .ok (entry, rest)) :
    entry = none ∧ ∃ left, Flat true left rest ∧ (left + 1 = count ∨ count = 0) := by
  rw [entryOf, starts, if_neg (by simp)] at found
  obtain ⟨⟨key, rstr⟩, isRead, pair⟩ := Run.bind_eq_ok.mp found
  rw [Run.forget_eq_ok] at isRead
  obtain ⟨taken, left, flatKey, flatRest, fits, sign⟩ := flat.reads delimits_key isRead
  obtain ⟨rfl, signs⟩ := sign rfl rfl
  obtain ⟨whole, scans, trims⟩ := read_scanned isRead
  rw [starts, scan_char rfl rfl (by decide) (by decide) (by decide)] at scans
  obtain ⟨inner, _, rfl⟩ := prepend_eq_ok scans
  obtain ⟨key, rfl⟩ : ∃ later, key = ';' :: later := by
    rcases trims with rfl | rfl
    · exact ⟨inner, rfl⟩
    · exact ⟨Filedat.trimEnd inner, trimEnd_cons_append [] (by rfl) inner⟩
  rw [pairOf, if_pos rfl] at pair
  cases pair
  have joined := (flatKey.tail rfl (by decide) (by decide)).append flatRest
  rw [Nat.zero_add] at joined
  refine ⟨rfl, left, joined, ?_⟩
  rcases signs with signed | ⟨_, nothing⟩
  · exact .inl signed
  · exact .inr nothing

variable {construct : Text → Run Unit Tree}

theorem mapRound_entries {values middle : List (Text × Tree)}
    (round : mapRound blanks construct text values = .ok (middle, rest)) :
    ∃ entry, entryOf blanks text = .ok (entry, rest) ∧
      middle.length = values.length + entry.toList.length := by
  obtain ⟨⟨entry, behind⟩, found, adds⟩ := Run.bind_eq_ok.mp round
  obtain ⟨last, added, same⟩ := Run.map_eq_ok.mp adds
  cases same
  refine ⟨entry, found, ?_⟩
  cases entry with
  | none =>
    obtain rfl := Except.ok.inj added
    rfl
  | some pair =>
    obtain ⟨tree, _, fresh, rfl⟩ := enter_ok.mp added
    exact OrderedMap.length_insert tree fresh

/-- The map loop makes no more entries than there are signs. -/
theorem Flat.entries {values after : List (Text × Tree)} (flat : Flat true count text)
    (entered : entriesOf blanks construct text values = .ok after) :
    after.length ≤ values.length + count := by
  induction text, values using entriesOf.induct blanks construct generalizing count with
  | case1 text values stop round =>
    rw [entriesOf_error round] at entered
    cases entered
  | case2 text values middle round =>
    rw [entriesOf_ok round, if_pos rfl] at entered
    obtain rfl := Except.ok.inj entered
    obtain ⟨entry, found, length⟩ := mapRound_entries round
    obtain ⟨left, _, fits⟩ := flat.entry found
    omega
  | case3 text values middle rest round more ih =>
    rw [entriesOf_ok round, if_neg more] at entered
    obtain ⟨entry, found, length⟩ := mapRound_entries round
    obtain ⟨left, leaves, fits⟩ := flat.entry found
    have later := ih leaves entered
    omega

/-- A semicolon at the beginning costs an entry. -/
theorem Flat.entries_semicolon {values after : List (Text × Tree)} {later : Text}
    (flat : Flat true count text) (starts : Filedat.dropUnread text = ';' :: later)
    (entered : entriesOf blanks construct text values = .ok after) (signed : 0 < count) :
    after.length < values.length + count := by
  cases round : mapRound blanks construct text values with
  | error stop =>
    rw [entriesOf_error round] at entered
    cases entered
  | ok found =>
    obtain ⟨middle, rest⟩ := found
    obtain ⟨entry, found, length⟩ := mapRound_entries round
    obtain ⟨rfl, left, leaves, taken⟩ := flat.entry_semicolon starts found
    rw [entriesOf_ok round] at entered
    split at entered
    · obtain rfl := Except.ok.inj entered
      simp at length
      omega
    · have fits := leaves.entries entered
      simp at length
      omega

end Loops

end Ztd.Filedat
