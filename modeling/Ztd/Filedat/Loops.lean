import Ztd.Filedat.Parser
import Ztd.Filedat.Values

/-! Rounds of the map and list loops of `chunkdat::set`, and the cases of `set`,
in terms of what `_getstrval` reads. -/

namespace Ztd.Filedat
open Ztd.Lib

variable {blanks : BlankRun} {delim altdelim : Char} {str key value rstr rest : Text}

theorem charAt_zero {ε : Type} (text : Text) : (charAt text 0 : Run ε Char) = .ok (text.head?.getD nul) := by
  cases text <;> simp [charAt]

theorem read_blank (blank : dropUnread str = []) : read blanks delim altdelim str = .ok ([], []) := by
  rw [read, blank, scan_nil]
  rfl

/-- The value and the rest among the results of `_getstrval`. -/
theorem getstrval_ok (reads : read blanks delim altdelim str = .ok (value, rest)) :
    ∃ tup, getstrval blanks str delim altdelim = .ok tup ∧ tup.value = value ∧ tup.rest = rest ∧
      (dropUnread str ≠ [] → tup.delimFound = (rest != [])) := by
  refine ⟨strVal str (value, rest), ?_, ?_⟩
  · rw [getstrval_eq, reads]
    rfl
  · by_cases blank : dropUnread str = []
    · rw [read_blank blank] at reads
      obtain ⟨rfl, rfl⟩ := Prod.mk.inj (Except.ok.inj reads)
      simp [strVal, blank]
    · simp [strVal, blank]

section KeyVal
variable (blanks) (input : Text) {tup : StrVal} {c : Char} {later : Text}

/-- What `_getkeyval` does behind the key it has isolated. -/
def keyvalOf (tup : StrVal) : Run FormatError KeyVal := do
  let key := tup.value
  let rstr := tup.rest
  if key.length > 0 && (← charAt key 0) == ';' then do
    let key ← eraseBegin key
    pure { key := []
           value := []
           rest := key ++ rstr
           restStart := tup.valueStart + 1
           valueStart := -1
           keyStart := -1 }
  else if key == [] && (← skip rstr).1 != [] then
    Run.raise (formatError (message "Value has no Key") [] input (findChar input tup.restStart))
  else if key != [] && !tup.delimFound then
    Run.raise (formatError (message "Key '" ++ key ++ message "' has no value") [] input
      (tup.valueStart + key.length))
  else do
    let value ← getstrval blanks rstr ';' '\n'
    pure { key := key
           value := value.value
           rest := value.rest
           restStart := if value.restStart ≥ 0 then tup.restStart + value.restStart
             else toInt input.length
           valueStart := value.valueStart
           keyStart := tup.valueStart }

theorem getkeyval_eq :
    getkeyval blanks input = getstrval blanks input '=' nul >>= keyvalOf blanks input := rfl

/-- A key with the value that is isolated behind it. -/
def withValue (tup value : StrVal) : KeyVal where
  key := tup.value
  value := value.value
  rest := value.rest
  restStart := if value.restStart ≥ 0 then tup.restStart + value.restStart else toInt input.length
  valueStart := value.valueStart
  keyStart := tup.valueStart

/-- A semicolon in front of a key is taken off, and what follows it is read again. -/
theorem keyvalOf_semicolon (is : tup.value = ';' :: later) :
    keyvalOf blanks input tup = .ok
      { key := [], value := [], rest := later ++ tup.rest, restStart := tup.valueStart + 1
        valueStart := -1, keyStart := -1 } := by
  simp [keyvalOf, is, charAt_zero, eraseBegin, pure, Except.pure]

theorem keyvalOf_blank (noKey : tup.value = []) (blank : dropUnread tup.rest = []) :
    keyvalOf blanks input tup = (getstrval blanks tup.rest ';' '\n').map (withValue input tup) := by
  simp only [keyvalOf, noKey, charAt_zero, skip_eq, blank]
  cases getstrval blanks tup.rest ';' '\n' <;> simp [withValue, noKey, Except.map, pure, Except.pure]

theorem keyvalOf_noKey (noKey : tup.value = []) (more : dropUnread tup.rest ≠ []) :
    keyvalOf blanks input tup = Run.raise (formatError (message "Value has no Key") [] input
      (findChar input tup.restStart)) := by
  simp [keyvalOf, noKey, charAt_zero, skip_eq, more]

variable (is : tup.value = c :: later) (noSemicolon : c ≠ ';')

include is noSemicolon in
theorem keyvalOf_noValue (noDelim : tup.delimFound = false) :
    keyvalOf blanks input tup = Run.raise (formatError
      (message "Key '" ++ tup.value ++ message "' has no value") [] input
      (tup.valueStart + tup.value.length)) := by
  simp [keyvalOf, is, charAt_zero, skip_eq, noSemicolon, noDelim]

include is noSemicolon in
theorem keyvalOf_keyed (delim : tup.delimFound = true) :
    keyvalOf blanks input tup = (getstrval blanks tup.rest ';' '\n').map (withValue input tup) := by
  simp only [keyvalOf, is, charAt_zero, skip_eq, delim]
  cases getstrval blanks tup.rest ';' '\n' <;>
    simp [withValue, is, noSemicolon, Except.map, pure, Except.pure]

end KeyVal

theorem getkeyval_entry (keyRead : read blanks '=' nul str = .ok (key, rstr))
    {c : Char} {later : Text} (keyIs : key = c :: later) (noSemicolon : c ≠ ';') (more : rstr ≠ [])
    (valueRead : read blanks ';' '\n' rstr = .ok (value, rest)) :
    ∃ pair, getkeyval blanks str = .ok pair ∧ pair.key = key ∧ pair.value = value ∧
      pair.rest = rest := by
  have started : dropUnread str ≠ [] := by
    intro blank
    rw [read_blank blank] at keyRead
    obtain ⟨rfl, rfl⟩ := Prod.mk.inj (Except.ok.inj keyRead)
    exact more rfl
  obtain ⟨keyTup, keyGot, keySame, rstrSame, found⟩ := getstrval_ok keyRead
  obtain ⟨valueTup, valueGot, valueSame, restSame, _⟩ := getstrval_ok valueRead
  have delim : keyTup.delimFound = true := by
    rw [found started]
    simpa using more
  refine ⟨withValue str keyTup valueTup, ?_, keySame, valueSame, restSame⟩
  rw [getkeyval_eq, keyGot, Run.bind_ok, keyvalOf_keyed blanks str (keySame.trans keyIs)
    noSemicolon delim, rstrSame, valueGot]
  rfl

/-- A round of the map loop that inserts a value. -/
theorem mapEntry_entry {construct : Construct} {values : List (Text × Chunkdat)} {tree : Tree}
    (starts : ∀ c ∈ (dropUnread str).head?, c ≠ '=')
    (keyRead : read blanks '=' nul str = .ok (key, rstr))
    {c : Char} {later : Text} (keyIs : key = c :: later) (noSemicolon : c ≠ ';') (more : rstr ≠ [])
    (valueRead : read blanks ';' '\n' rstr = .ok (value, rest))
    (fresh : OrderedMap.find? key values = none)
    (constructs : ∀ offset, ∃ chunk, construct value offset = .ok chunk ∧ chunk.tree = tree)
    (input : Text) (offset i : Int) :
    ∃ chunk j, chunk.tree = tree ∧ mapEntry blanks construct input offset str i values =
      .ok (OrderedMap.insert key chunk values, rest, j) := by
  obtain ⟨pair, got, keySame, valueSame, restSame⟩ :=
    getkeyval_entry keyRead keyIs noSemicolon more valueRead
  obtain ⟨chunk, constructed, same⟩ := constructs (offset + (i + pair.valueStart))
  have noEqual : (dropUnread str).head?.getD nul ≠ '=' := by
    cases first : dropUnread str with
    | nil => decide
    | cons d rest => exact starts d (by simp [first])
  refine ⟨chunk, i + pair.restStart, same, ?_⟩
  simp [mapEntry, skip_eq, charAt_zero, noEqual, got, keySame, valueSame, restSame, keyIs,
    constructed, pure, Except.pure]
  simp [← keyIs, fresh]

variable (blanks) in
/-- A round of the map loop on nothing readable. -/
theorem mapEntry_blank (construct : Construct) (blank : dropUnread str = []) (input : Text)
    (offset i : Int) (values : List (Text × Chunkdat)) :
    ∃ j, mapEntry blanks construct input offset str i values = .ok (values, [], j) := by
  have empty : dropUnread [] = [] := rfl
  have getEmpty {text : Text} (blank : dropUnread text = []) (delim altdelim : Char) :
      getstrval blanks text delim altdelim = .ok
        { value := [], rest := [], restStart := 0, valueStart := 0, delimFound := false } := by
    rw [getstrval_eq, read_blank blank]
    simp [strVal, blank, Except.map, Run.mapError]
  refine ⟨i, ?_⟩
  simp [mapEntry, getkeyval_eq, keyvalOf_blank, withValue, skip_eq, charAt_zero, blank, empty,
    getEmpty blank, getEmpty empty, nul, Except.map, pure, Except.pure]

theorem mapLoop_blank (construct : Construct) (blank : dropUnread str = []) (input : Text)
    (offset i : Int) (values : List (Text × Chunkdat)) {fuel : Nat} (positive : 0 < fuel) :
    mapLoop blanks construct input offset fuel str i values = (values, none) := by
  obtain ⟨fuel, rfl⟩ : ∃ rest, fuel = rest + 1 := ⟨fuel - 1, by omega⟩
  obtain ⟨j, round⟩ := mapEntry_blank blanks construct blank input offset i values
  simp [mapLoop, round]

/-- A round of the list loop. -/
theorem listElement_element {construct : Construct} {tree : Tree}
    (reads : read blanks ',' ';' str = .ok (value, rest))
    (constructs : ∀ offset, ∃ chunk, construct value offset = .ok chunk ∧ chunk.tree = tree)
    (input : Text) (offset i : Int) :
    ∃ chunk j, chunk.tree = tree ∧ listElement blanks construct input offset str i =
      .ok (chunk, rest, j) := by
  obtain ⟨tup, got, valueSame, restSame, _⟩ := getstrval_ok reads
  obtain ⟨chunk, constructed, same⟩ := constructs (offset + (i + tup.valueStart))
  refine ⟨chunk, i + tup.restStart, same, ?_⟩
  simp [listElement, got, valueSame, restSame, constructed, pure, Except.pure]

/-- With no delimiter it does not matter how blanks are read. -/
theorem scan_whole (text : Text) : scan .unchecked nul nul text = scan .checked nul nul text := by
  have pieces (text : Text) : scanPiece .unchecked nul nul text = scanPiece .checked nul nul text := by
    have behind (text : Text) :
        scanBehind .unchecked nul nul text = scanBehind .checked nul nul text := by
      cases text <;> simp [scanBehind, scanBlanks_whole]
    simp only [scanPiece, behind]
  induction size : text.length using Nat.strongRecOn generalizing text with
  | _ count ih =>
    subst size
    by_cases empty : text = []
    · simp [empty]
    · cases found : scanPiece .checked nul nul text with
      | error stop => rw [scan_error empty found, scan_error empty ((pieces text).trans found)]
      | ok inner =>
        obtain ⟨val, reach⟩ := inner
        cases reach with
        | leave rest => rw [scan_leave empty found, scan_leave empty ((pieces text).trans found)]
        | next rest =>
          rw [scan_next empty found, scan_next empty ((pieces text).trans found),
            ih _ (scanPiece_shorter empty found) rest rfl]

theorem read_whole (blanks : BlankRun) (text : Text) :
    read blanks nul nul text = read .checked nul nul text := by
  cases blanks with
  | checked => rfl
  | unchecked => rw [read, read, scan_whole]

/-- Text the parser takes for a string is kept whole. -/
theorem setFuel_reread {input : Text} (reread : Reread input) (fuel : Nat) (offset : Int) :
    setFuel blanks (fuel + 1) input offset = (.string offset input, none) := by
  rcases reread with rfl | ⟨c, rest, after, reads, notBrace, notBracket⟩
  · obtain ⟨tup, got, value, _⟩ := getstrval_ok
      (show read blanks nul nul [] = .ok ([], []) from read_blank rfl)
    simp only [setFuel, got, value]
  · rw [← read_whole blanks] at reads
    obtain ⟨tup, got, value, _⟩ := getstrval_ok reads
    simp only [setFuel, got, value]
    split <;> simp_all

section Brackets
variable {inner pre post : Text} {group : GroupKind}

variable (blanks) in
/-- A group in front of blank text, or of nothing, is isolated from what follows. -/
theorem read_enclosed (known : group.Known) {height : Nat} (balanced : Balanced group height inner)
    (room : height < 2 ^ 32) (before : ∀ c ∈ pre, isRead c = false)
    (after : ∀ c ∈ post.head?, isRead c = false) :
    read blanks nul nul (pre ++ (group.opening :: (inner ++ [group.closing]) ++ post)) =
      .ok (group.opening :: (inner ++ [group.closing]), post) := by
  have readable : isRead group.opening = true ∧ isRead group.closing = true := by
    rcases known with rfl | rfl <;> decide
  have start : dropUnread (pre ++ (group.opening :: (inner ++ [group.closing]) ++ post)) =
      group.opening :: (inner ++ [group.closing]) ++ post := by
    rw [List.cons_append, dropUnread_append before readable.1]
  have found := balanced.readGroup room post
  rw [List.cons_append] at found
  rw [read, start, List.cons_append, scan_group known found]
  cases post with
  | nil =>
    have trimmed := trimmed_append (group.opening :: inner) readable.2
    simp only [scan_nil, prepend_ok, List.append_nil]
    exact congrArg (fun val => Except.ok (val, [])) trimmed
  | cons c post =>
    have stays : scan blanks nul nul (c :: post) = .ok ([], c :: post) := by
      refine scan_leave (List.cons_ne_nil c post) ?_
      rw [scanPiece_unread (after c rfl), scanBlanks_whole blanks rfl]
    simp [stays]

variable (blanks) in
/-- A text that is one group is isolated as that group. -/
theorem read_balanced (known : group.Known) {height : Nat} (balanced : Balanced group height inner)
    (room : height < 2 ^ 32) (before : ∀ c ∈ pre, isRead c = false)
    (after : ∀ c ∈ post, isRead c = false) :
    read blanks nul nul (pre ++ (group.opening :: (inner ++ [group.closing]) ++ post)) =
      .ok (group.opening :: (inner ++ [group.closing]), post) :=
  read_enclosed blanks known balanced room before fun c first => after c (List.mem_of_mem_head? first)

variable (blanks) in
theorem read_group (known : group.Known) (neutral : Neutral group inner)
    (room : inner.length < 2 ^ 32) (before : ∀ c ∈ pre, isRead c = false)
    (after : ∀ c ∈ post, isRead c = false) :
    read blanks nul nul (pre ++ (group.opening :: (inner ++ [group.closing]) ++ post)) =
      .ok (group.opening :: (inner ++ [group.closing]), post) :=
  read_balanced blanks known neutral room before after

theorem insideBrackets_eq (input : Text) {tup : StrVal} {first last : Char}
    (value : tup.value = first :: (inner ++ [last])) (blank : dropUnread tup.rest = []) :
    insideBrackets input tup = .ok (inner, tup.valueStart + 1) := by
  have popped : (popBack (inner ++ [last]) : Run FormatError Text) = .ok inner := by
    obtain ⟨c, rest, is⟩ := List.exists_cons_of_ne_nil (List.append_ne_nil_of_right_ne_nil inner
      (List.cons_ne_nil last []))
    rw [is, popBack, ← is, List.dropLast_concat]
  simp [insideBrackets, skip_eq, blank, value, eraseBegin, popped, pure, Except.pure]

variable (blanks) in
/-- `set` on a map runs the loop over what its braces enclose. -/
theorem setFuel_map (neutral : Neutral brace inner) (room : inner.length < 2 ^ 32)
    (before : ∀ c ∈ pre, isRead c = false) (after : ∀ c ∈ post, isRead c = false) (fuel : Nat)
    (offset : Int) :
    ∃ i, setFuel blanks (fuel + 1) (pre ++ ('{' :: (inner ++ ['}']) ++ post)) offset =
      if dropUnread inner = [] then (.map offset [], none)
      else
        let loop := mapLoop blanks (fun value offset => (setFuel blanks fuel value offset).construct)
          (pre ++ ('{' :: (inner ++ ['}']) ++ post)) offset (inner.length + 1) inner i []
        (.map offset loop.1, loop.2) := by
  obtain ⟨tup, got, value, rest, _⟩ := getstrval_ok
    (read_group blanks (.inl rfl) neutral room before after)
  change tup.value = '{' :: (inner ++ ['}']) at value
  have inside := insideBrackets_eq (pre ++ ('{' :: (inner ++ ['}']) ++ post)) value
    (rest ▸ dropUnread_blank after)
  refine ⟨tup.valueStart + 1, ?_⟩
  change getstrval blanks (pre ++ ('{' :: (inner ++ ['}']) ++ post)) nul nul = .ok tup at got
  simp only [setFuel, got, value, setMap, inside, skip_eq, beq_iff_eq]

variable (blanks) in
/-- `set` on a list runs the loop over what its brackets enclose. -/
theorem setFuel_list (neutral : Neutral bracket inner) (room : inner.length < 2 ^ 32)
    (before : ∀ c ∈ pre, isRead c = false) (after : ∀ c ∈ post, isRead c = false) (fuel : Nat)
    (offset : Int) :
    ∃ i, setFuel blanks (fuel + 1) (pre ++ ('[' :: (inner ++ [']']) ++ post)) offset =
      if dropUnread inner = [] then (.list offset [], none)
      else
        let loop := listLoop blanks (fun value offset => (setFuel blanks fuel value offset).construct)
          (pre ++ ('[' :: (inner ++ [']']) ++ post)) offset (inner.length + 1) inner i []
        (.list offset loop.1, loop.2) := by
  obtain ⟨tup, got, value, rest, _⟩ := getstrval_ok
    (read_group blanks (.inr rfl) neutral room before after)
  change tup.value = '[' :: (inner ++ [']']) at value
  have inside := insideBrackets_eq (pre ++ ('[' :: (inner ++ [']']) ++ post)) value
    (rest ▸ dropUnread_blank after)
  refine ⟨tup.valueStart + 1, ?_⟩
  change getstrval blanks (pre ++ ('[' :: (inner ++ [']']) ++ post)) nul nul = .ok tup at got
  simp only [setFuel, got, value, setList, inside, skip_eq, beq_iff_eq]

end Brackets

/-- The value something ends with, unless it ended early. -/
def outcome {α : Type} : α × Option (Stop FormatError) → Run FormatError α
  | (value, none) => .ok value
  | (_, some stop) => .error stop

section Loops
variable (blanks : BlankRun) (construct : Construct) (input : Text) (offset : Int) (fuel : Nat) (str : Text)
  (i : Int)

theorem outcome_listLoop (elements : List Chunkdat) :
    outcome (listLoop blanks construct input offset (fuel + 1) str i elements) = (do
      let round ← listElement blanks construct input offset str i
      if round.2.1 != [] then
        outcome (listLoop blanks construct input offset fuel round.2.1 round.2.2 (elements ++ [round.1]))
      else pure (elements ++ [round.1])) := by
  rw [listLoop]
  cases listElement blanks construct input offset str i with
  | error stop => rfl
  | ok round =>
    simp only [Run.bind_ok]
    split <;> rfl

theorem outcome_mapLoop (values : List (Text × Chunkdat)) :
    outcome (mapLoop blanks construct input offset (fuel + 1) str i values) = (do
      let round ← mapEntry blanks construct input offset str i values
      if round.2.1 != [] then
        outcome (mapLoop blanks construct input offset fuel round.2.1 round.2.2 round.1)
      else pure round.1) := by
  rw [mapLoop]
  cases mapEntry blanks construct input offset str i values with
  | error stop => rfl
  | ok round =>
    simp only [Run.bind_ok]
    split <;> rfl

end Loops

section Contents
variable (blanks : BlankRun) (construct : Construct) (input : Text) (offset : Int) (tup : StrVal)

theorem setMap_construct :
    (setMap blanks construct input offset tup).construct =
      insideBrackets input tup >>= fun inside =>
        if dropUnread inside.1 = [] then .ok (.map offset [])
        else (outcome (mapLoop blanks construct input offset (inside.1.length + 1) inside.1 inside.2
          [])).map (.map offset) := by
  rw [setMap]
  cases insideBrackets input tup with
  | error stop => rfl
  | ok inside =>
    obtain ⟨str, i⟩ := inside
    simp only [skip_eq, beq_iff_eq, Run.bind_ok]
    split
    · rfl
    · rcases mapLoop blanks construct input offset (str.length + 1) str i [] with ⟨values, _ | stop⟩ <;>
        rfl

theorem setList_construct :
    (setList blanks construct input offset tup).construct =
      insideBrackets input tup >>= fun inside =>
        if dropUnread inside.1 = [] then .ok (.list offset [])
        else (outcome (listLoop blanks construct input offset (inside.1.length + 1) inside.1 inside.2
          [])).map (.list offset) := by
  rw [setList]
  cases insideBrackets input tup with
  | error stop => rfl
  | ok inside =>
    obtain ⟨str, i⟩ := inside
    simp only [skip_eq, beq_iff_eq, Run.bind_ok]
    split
    · rfl
    · rcases listLoop blanks construct input offset (str.length + 1) str i [] with ⟨values, _ | stop⟩ <;>
        rfl

end Contents

/-- The chunk `set` makes of an isolated value. -/
def chunkOf (blanks : BlankRun) (construct : Construct) (input : Text) (offset : Int) (tup : StrVal) :
    Run FormatError Chunkdat :=
  match tup.value with
  | [] => .ok (.string offset [])
  | c :: _ =>
    if c = '{' ∨ c = '[' then
      if c = '{' then (setMap blanks construct input offset tup).construct
      else (setList blanks construct input offset tup).construct
    else .ok (.string offset input)

theorem setFuel_construct (fuel : Nat) (input : Text) (offset : Int) :
    (setFuel blanks (fuel + 1) input offset).construct =
      getstrval blanks input nul nul >>= chunkOf blanks
        (fun value offset => (setFuel blanks fuel value offset).construct) input offset := by
  cases got : getstrval blanks input nul nul with
  | error stop =>
    simp only [setFuel, got]
    rfl
  | ok tup =>
    simp only [setFuel, got, Run.bind_ok, chunkOf]
    split
    · rename_i empty
      simp only [empty]
      rfl
    · rename_i inner is
      simp [is]
    · rename_i inner is
      simp [is]
    · rename_i notEmpty notBrace notBracket
      cases is : tup.value with
      | nil => exact absurd is notEmpty
      | cons c inner =>
        have noGroup : ¬(c = '{' ∨ c = '[') := by
          rintro (rfl | rfl)
          · exact notBrace inner is
          · exact notBracket inner is
        simp only [noGroup, if_false]
        rfl

end Ztd.Filedat
