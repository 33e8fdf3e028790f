import Ztd.Filedat.Documents
import Ztd.Filedat.Sizes

/-! The tree a text stands for, without offsets and messages. The recursion is on
the text alone; `set` and its loops compute it within their fuel. -/

namespace Ztd.Filedat
open Ztd.Lib

section Meaning
variable (blanks : BlankRun)

/-- What `_getkeyval` makes of a key and what is behind it: an entry or nothing,
and the text it leaves. -/
def pairOf : Text → Text → Run Unit (Option (Text × Text) × Text)
  | [], rstr => if dropUnread rstr = [] then .ok (none, []) else Run.raise ()
  | c :: key, rstr =>
    if c = ';' then .ok (none, key ++ rstr)
    else if rstr = [] then Run.raise ()
    else (read blanks ';' '\n' rstr).forget.map fun found => (some (c :: key, found.1), found.2)

def entryOf (str : Text) : Run Unit (Option (Text × Text) × Text) :=
  if (dropUnread str).head? = some '=' then Run.raise ()
  else (read blanks '=' nul str).forget >>= fun found => pairOf blanks found.1 found.2

/-- The values of a map with one more entry; no key may occur twice. -/
def addEntry (construct : Text → Run Unit Tree) (values : List (Text × Tree)) :
    Option (Text × Text) → Run Unit (List (Text × Tree))
  | none => .ok values
  | some (key, value) => construct value >>= fun tree =>
    if OrderedMap.find? key values = none then .ok (OrderedMap.insert key tree values)
    else Run.raise ()

variable {blanks} in
theorem pairOf_length {key rstr rest : Text} {entry : Option (Text × Text)}
    (found : pairOf blanks key rstr = .ok (entry, rest)) :
    (∀ pair ∈ entry, pair.2.length ≤ rstr.length) ∧
      rest.length ≤ (key.length - 1) + rstr.length := by
  cases key with
  | nil =>
    rw [pairOf] at found
    split at found
    · obtain ⟨rfl, rfl⟩ := by simpa using found
      simp
    · simp [Run.raise] at found
  | cons c key =>
    rw [pairOf] at found
    split at found
    · obtain ⟨rfl, rfl⟩ := by simpa using found
      simp
    · split at found
      · simp [Run.raise] at found
      · cases valueRead : read blanks ';' '\n' rstr with
        | error stop => cases stop <;> simp [valueRead, Except.map] at found
        | ok inner =>
          obtain ⟨size, _⟩ := read_length valueRead
          obtain ⟨rfl, rfl⟩ := by simpa [valueRead, Except.map] using found
          refine ⟨fun pair is => ?_, by omega⟩
          obtain rfl := by simpa using is.symm
          simp only
          omega

variable {blanks} in
/-- The rest is shorter than the text, and so is the value. -/
theorem entryOf_length {str rest : Text} {entry : Option (Text × Text)}
    (found : entryOf blanks str = .ok (entry, rest)) :
    (∀ pair ∈ entry, pair.2.length ≤ str.length) ∧ rest.length ≤ str.length ∧
      (str ≠ [] → (∀ pair ∈ entry, pair.2.length < str.length) ∧ rest.length < str.length) := by
  rw [entryOf] at found
  split at found
  · simp [Run.raise] at found
  · cases keyRead : read blanks '=' nul str with
    | error stop => cases stop <;> simp [keyRead] at found
    | ok tup =>
      obtain ⟨key, rstr⟩ := tup
      obtain ⟨size, shorter⟩ := read_length keyRead
      simp only [keyRead, Run.forget_ok, Run.bind_ok] at found
      obtain ⟨valueSize, restSize⟩ := pairOf_length found
      refine ⟨fun pair is => (valueSize pair is).trans (by omega), by omega, fun nonempty => ?_⟩
      have less := shorter nonempty
      exact ⟨fun pair is => (valueSize pair is).trans_lt less, by omega⟩

/-- A round of the map loop: the values behind it and the text it leaves. -/
def mapRound (construct : Text → Run Unit Tree) (str : Text) (values : List (Text × Tree)) :
    Run Unit (List (Text × Tree) × Text) :=
  entryOf blanks str >>= fun found =>
    (addEntry construct values found.1).map fun values => (values, found.2)

/-- A round of the list loop: the element and the text it leaves. -/
def listRound (construct : Text → Run Unit Tree) (str : Text) : Run Unit (Tree × Text) :=
  (read blanks ',' ';' str).forget >>= fun found =>
    (construct found.1).map fun tree => (tree, found.2)

section Rests
variable {blanks} {construct : Text → Run Unit Tree} {str rest : Text}

theorem shorter_of_ne_nil (size : rest.length ≤ str.length)
    (shorter : str ≠ [] → rest.length < str.length) (more : rest ≠ []) :
    rest.length < str.length := by
  have positive := List.length_pos_iff.mpr more
  exact shorter (List.length_pos_iff.mp (by omega))

theorem mapRound_length {values after : List (Text × Tree)}
    (found : mapRound blanks construct str values = .ok (after, rest)) (more : rest ≠ []) :
    rest.length < str.length := by
  rw [mapRound] at found
  cases split : entryOf blanks str with
  | error stop => simp [split] at found
  | ok inner =>
    obtain ⟨entry, behind⟩ := inner
    obtain ⟨_, size, shorter⟩ := entryOf_length split
    cases added : addEntry construct values entry with
    | error stop => simp [split, added, Except.map] at found
    | ok values =>
      obtain ⟨_, rfl⟩ := by simpa [split, added, Except.map] using found
      exact shorter_of_ne_nil size (fun nonempty => (shorter nonempty).2) more

theorem listRound_length {tree : Tree} (found : listRound blanks construct str = .ok (tree, rest))
    (more : rest ≠ []) : rest.length < str.length := by
  rw [listRound] at found
  cases reads : read blanks ',' ';' str with
  | error stop => cases stop <;> simp [reads] at found
  | ok inner =>
    obtain ⟨value, behind⟩ := inner
    obtain ⟨size, shorter⟩ := read_length reads
    cases built : construct value with
    | error stop => simp [reads, built, Except.map] at found
    | ok tree =>
      obtain ⟨_, rfl⟩ := by simpa [reads, built, Except.map] using found
      exact shorter_of_ne_nil (by omega) shorter more

end Rests

/-- The entries of a text inside of braces, behind those there are. -/
def entriesOf (construct : Text → Run Unit Tree) (str : Text) (values : List (Text × Tree)) :
    Run Unit (List (Text × Tree)) :=
  match _found : mapRound blanks construct str values with
  | .error stop => .error stop
  | .ok (values, rest) => if _ends : rest = [] then .ok values else entriesOf construct rest values
termination_by str.length
decreasing_by exact mapRound_length _found _ends

/-- The elements of a text inside of brackets. -/
def elementsOf (construct : Text → Run Unit Tree) (str : Text) : Run Unit (List Tree) :=
  match _found : listRound blanks construct str with
  | .error stop => .error stop
  | .ok (tree, rest) =>
    if _ends : rest = [] then .ok [tree] else (elementsOf construct rest).map (tree :: ·)
termination_by str.length
decreasing_by exact listRound_length _found _ends

/-- What is inside of the brackets of an isolated text; nothing may follow it. -/
def insideOf (inner rest : Text) : Run Unit Text :=
  if dropUnread rest = [] then
    if inner = [] then Run.fault else .ok inner.dropLast
  else Run.raise ()

/-- The tree of a text by that of the texts in it. -/
def treeStep (construct : Text → Run Unit Tree) (text : Text) : Run Unit Tree :=
  (read blanks nul nul text).forget >>= fun found =>
    match found.1 with
    | [] => .ok (.string () [])
    | '{' :: inner => insideOf inner found.2 >>= fun str =>
      if dropUnread str = [] then .ok (.map () [])
      else (entriesOf blanks construct str []).map (.map ())
    | '[' :: inner => insideOf inner found.2 >>= fun str =>
      if dropUnread str = [] then .ok (.list () [])
      else (elementsOf blanks construct str).map (.list ())
    | _ => .ok (.string () text)

/-- The tree of the chunk `set` makes of a text. -/
def treeOf (text : Text) : Run Unit Tree :=
  Run.forget ((set blanks text 0).construct.map Chunk.tree)

end Meaning

section Loops
variable {blanks : BlankRun} {construct : Text → Run Unit Tree} {str rest : Text}

theorem entriesOf_error {values : List (Text × Tree)} {stop : Stop Unit}
    (found : mapRound blanks construct str values = .error stop) :
    entriesOf blanks construct str values = .error stop := by
  rw [entriesOf]
  split <;> simp_all

theorem entriesOf_ok {values after : List (Text × Tree)}
    (found : mapRound blanks construct str values = .ok (after, rest)) :
    entriesOf blanks construct str values =
      if rest = [] then .ok after else entriesOf blanks construct rest after := by
  rw [entriesOf]
  split <;> simp_all

theorem elementsOf_error {stop : Stop Unit} (found : listRound blanks construct str = .error stop) :
    elementsOf blanks construct str = .error stop := by
  rw [elementsOf]
  split <;> simp_all

theorem elementsOf_ok {tree : Tree} (found : listRound blanks construct str = .ok (tree, rest)) :
    elementsOf blanks construct str =
      if rest = [] then .ok [tree] else (elementsOf blanks construct rest).map (tree :: ·) := by
  rw [elementsOf]
  split <;> simp_all

end Loops

section Rounds
variable {blanks : BlankRun} {construct : Construct} {meaning : Text → Run Unit Tree} {size : Nat}
  (constructs : ∀ value offset, value.length ≤ size →
    Run.forget ((construct value offset).map Chunk.tree) = meaning value)
include constructs

omit constructs in
variable (blanks) in
/-- The entry among the results of `_getkeyval`; without a key there is none. -/
theorem getkeyval_meaning {str : Text} (starts : (dropUnread str).head? ≠ some '=') :
    Run.forget ((getkeyval blanks str).map fun pair =>
        (if pair.key = [] then none else some (pair.key, pair.value), pair.rest)) =
      entryOf blanks str := by
  rw [entryOf, if_neg starts]
  cases keyRead : read blanks '=' nul str with
  | error stop =>
    rw [getkeyval_eq, getstrval_eq, keyRead]
    cases stop <;> rfl
  | ok found =>
    obtain ⟨key, rstr⟩ := found
    obtain ⟨tup, got, rfl, rfl, delim⟩ := getstrval_ok keyRead
    rw [Run.forget_ok, Run.bind_ok, getkeyval_eq, got, Run.bind_ok]
    cases key : tup.value with
    | nil =>
      by_cases blank : dropUnread tup.rest = []
      · obtain ⟨value, gotValue, _, rest, _⟩ := getstrval_ok
          (show read blanks ';' '\n' tup.rest = .ok ([], []) from read_blank blank)
        simp [keyvalOf_blank blanks str key blank, withValue, key, pairOf, blank, gotValue, rest, Except.map]
      · simp [keyvalOf_noKey blanks str key blank, pairOf, blank, Except.map, Run.raise]
    | cons c later =>
      have started : dropUnread str ≠ [] := by
        intro blank
        rw [read_blank blank] at keyRead
        simp [key] at keyRead
      by_cases semicolon : c = ';'
      · subst semicolon
        simp [keyvalOf_semicolon blanks str key, pairOf, Except.map]
      · by_cases more : tup.rest = []
        · have noDelim : tup.delimFound = false := by simpa [more] using delim started
          simp [keyvalOf_noValue blanks str key semicolon noDelim, pairOf, semicolon, more, Except.map,
            Run.raise]
        · have found : tup.delimFound = true := by
            rw [delim started]
            simpa using more
          rw [keyvalOf_keyed blanks str key semicolon found]
          cases valueRead : read blanks ';' '\n' tup.rest with
          | error stop =>
            cases stop <;>
              simp [pairOf, semicolon, more, getstrval_eq blanks tup.rest, valueRead, Run.mapError,
                Except.map]
          | ok inner =>
            obtain ⟨value, gotValue, same, rest, _⟩ := getstrval_ok valueRead
            simp [withValue, key, pairOf, semicolon, more, gotValue, same, rest, valueRead, Except.map]

variable (blanks) in
theorem listElement_meaning {str : Text} (inside : str.length ≤ size) (input : Text)
    (offset i : Int) :
    Run.forget ((listElement blanks construct input offset str i).map fun found =>
        (found.1.tree, found.2.1)) = listRound blanks meaning str := by
  cases reads : read blanks ',' ';' str with
  | error stop =>
    rw [listElement, getstrval_eq, listRound, reads]
    cases stop <;> rfl
  | ok found =>
    obtain ⟨value, rest⟩ := found
    obtain ⟨tup, got, rfl, rfl, _⟩ := getstrval_ok reads
    have shorter := (read_length reads).1
    have same := constructs tup.value (offset + (i + tup.valueStart)) (by omega)
    simp only [listElement, listRound, reads, got, Run.catchError_ok, Run.bind_ok, Run.forget_ok]
    rw [← same]
    cases construct tup.value (offset + (i + tup.valueStart)) with
    | ok chunk => rfl
    | error stop => cases stop <;> rfl

variable (blanks) in
theorem listLoop_meaning {str : Text} (inside : str.length ≤ size) {fuel : Nat}
    (enough : str.length < fuel) (input : Text) (offset i : Int) (elements : List Chunkdat) :
    Run.forget ((outcome (listLoop blanks construct input offset fuel str i elements)).map
        (List.map Chunk.tree)) =
      (elementsOf blanks meaning str).map (elements.map Chunk.tree ++ ·) := by
  induction fuel generalizing str i elements with
  | zero => omega
  | succ fuel ih =>
    have round := listElement_meaning blanks constructs inside input offset i
    rw [outcome_listLoop]
    cases element : listElement blanks construct input offset str i with
    | error stop =>
      rw [element] at round
      cases stop <;> simp [elementsOf_error round.symm, Except.map]
    | ok found =>
      obtain ⟨chunk, rest, j⟩ := found
      rw [element] at round
      rw [elementsOf_ok round.symm, Run.bind_ok]
      by_cases ends : rest = []
      · simp [ends, Except.map, pure, Except.pure]
      · have shorter : rest.length < str.length := listRound_length round.symm ends
        have later := ih (show rest.length ≤ size by omega) (by omega) j (elements ++ [chunk])
        simp only [ends, bne_iff_ne, ne_eq, not_false_eq_true, if_true, if_false, later]
        cases elementsOf blanks meaning rest <;> simp [Except.map]

variable (blanks) in
theorem mapEntry_meaning {str : Text} (inside : str.length ≤ size) (input : Text)
    (offset i : Int) (values : List (Text × Chunkdat)) :
    Run.forget ((mapEntry blanks construct input offset str i values).map fun found =>
        (trees found.1, found.2.1)) = mapRound blanks meaning str (trees values) := by
  have fresh (key : Text) : (OrderedMap.find? key (trees values) = none) =
      (OrderedMap.find? key values = none) := by
    rw [trees, OrderedMap.find?_map, Option.map_eq_none_iff]
  by_cases starts : (dropUnread str).head? = some '='
  · simp [mapEntry, skip_eq, charAt_zero, starts, mapRound, entryOf, Except.map, Run.raise]
  · have notEqual : (dropUnread str).head?.getD nul ≠ '=' := by
      cases head : (dropUnread str).head? with
      | none => decide
      | some c => simpa [head] using starts
    have pair := getkeyval_meaning blanks starts
    rw [mapRound, ← pair]
    cases got : getkeyval blanks str with
    | error stop =>
      cases stop <;>
        simp [mapEntry, skip_eq, charAt_zero, notEqual, got, Run.catchError, Except.map, Run.raise]
    | ok tup =>
      by_cases noKey : tup.key = []
      · simp [mapEntry, skip_eq, charAt_zero, notEqual, got, noKey, addEntry, Except.map, pure,
          Except.pure]
      · have is : entryOf blanks str = .ok (some (tup.key, tup.value), tup.rest) := by
          rw [← pair, got]
          simp [Except.map, noKey]
        have shorter : tup.value.length ≤ str.length := (entryOf_length is).1 _ rfl
        have same := constructs tup.value (offset + (i + tup.valueStart)) (by omega)
        simp only [Except.map, noKey, if_false, Run.forget_ok, Run.bind_ok, addEntry, ← same]
        cases built : construct tup.value (offset + (i + tup.valueStart)) with
        | error stop =>
          cases stop <;>
            simp [mapEntry, skip_eq, charAt_zero, notEqual, got, noKey, built, Run.catchError,
              Run.raise]
        | ok chunk =>
          cases held : OrderedMap.find? tup.key values with
          | none =>
            simp [mapEntry, skip_eq, charAt_zero, notEqual, got, noKey, built, held, fresh,
              trees_insert, pure, Except.pure]
          | some other =>
            simp [mapEntry, skip_eq, charAt_zero, notEqual, got, noKey, built, held, fresh, Run.raise]

variable (blanks) in
theorem mapLoop_meaning {str : Text} (inside : str.length ≤ size) {fuel : Nat}
    (enough : str.length < fuel) (input : Text) (offset i : Int)
    (values : List (Text × Chunkdat)) :
    Run.forget ((outcome (mapLoop blanks construct input offset fuel str i values)).map trees) =
      entriesOf blanks meaning str (trees values) := by
  induction fuel generalizing str i values with
  | zero => omega
  | succ fuel ih =>
    have round := mapEntry_meaning blanks constructs inside input offset i values
    rw [outcome_mapLoop]
    cases entry : mapEntry blanks construct input offset str i values with
    | error stop =>
      rw [entry] at round
      cases stop <;> simp [entriesOf_error round.symm, Except.map]
    | ok found =>
      obtain ⟨after, rest, j⟩ := found
      rw [entry] at round
      rw [entriesOf_ok round.symm, Run.bind_ok]
      by_cases ends : rest = []
      · simp [ends, Except.map, pure, Except.pure]
      · have shorter : rest.length < str.length := mapRound_length round.symm ends
        have later := ih (show rest.length ≤ size by omega) (by omega) j after
        simp only [ends, bne_iff_ne, ne_eq, not_false_eq_true, if_true, if_false, later]

end Rounds

section Steps
variable {blanks : BlankRun} {text value rest inner : Text}

theorem insideBrackets_meaning (input : Text) {tup : StrVal} {c : Char}
    (is : tup.value = c :: inner) :
    Run.forget ((insideBrackets input tup).map Prod.fst) = insideOf inner tup.rest := by
  by_cases follows : dropUnread tup.rest = []
  · cases inner with
    | nil => simp [insideBrackets, insideOf, skip_eq, follows, is, eraseBegin, popBack, Except.map,
        Run.fault]
    | cons d inner =>
      simp [insideBrackets, insideOf, skip_eq, follows, is, eraseBegin, popBack, Except.map, pure,
        Except.pure]
  · simp [insideBrackets, insideOf, skip_eq, follows, Except.map, Run.raise]

section
variable (meaning : Text → Run Unit Tree)

theorem treeStep_error {stop : Stop Unclosed} (reads : read blanks nul nul text = .error stop) :
    treeStep blanks meaning text = Run.forget (.error stop) := by
  cases stop <;> simp [treeStep, reads]

theorem treeStep_empty (reads : read blanks nul nul text = .ok ([], rest)) :
    treeStep blanks meaning text = .ok (.string () []) := by
  simp [treeStep, reads]

theorem treeStep_map (reads : read blanks nul nul text = .ok ('{' :: inner, rest)) :
    treeStep blanks meaning text = insideOf inner rest >>= fun str =>
      if dropUnread str = [] then .ok (.map () [])
      else (entriesOf blanks meaning str []).map (.map ()) := by
  simp [treeStep, reads]

theorem treeStep_list (reads : read blanks nul nul text = .ok ('[' :: inner, rest)) :
    treeStep blanks meaning text = insideOf inner rest >>= fun str =>
      if dropUnread str = [] then .ok (.list () [])
      else (elementsOf blanks meaning str).map (.list ()) := by
  simp [treeStep, reads]

theorem treeStep_string {c : Char} (notBrace : c ≠ '{') (notBracket : c ≠ '[')
    (reads : read blanks nul nul text = .ok (c :: inner, rest)) :
    treeStep blanks meaning text = .ok (.string () text) := by
  simp only [treeStep, reads, Run.forget_ok, Run.bind_ok]
  split <;> simp_all

end

theorem insideOf_length {inner rest str : Text} (inside : insideOf inner rest = .ok str) :
    str.length + 1 = inner.length := by
  rw [insideOf] at inside
  split at inside
  · split at inside
    · simp [Run.fault] at inside
    · rename_i nonempty
      obtain rfl := by simpa using inside.symm
      have positive := List.length_pos_iff.mpr nonempty
      rw [List.length_dropLast]
      omega
  · simp [Run.raise] at inside

section Brackets
variable {construct : Construct} {meaning : Text → Run Unit Tree} {size : Nat} {tup : StrVal} {c : Char}

variable (blanks) (constructs : ∀ value offset, value.length ≤ size →
    Run.forget ((construct value offset).map Chunk.tree) = meaning value)
  (is : tup.value = c :: inner)
  (room : ∀ str, insideOf inner tup.rest = .ok str → str.length ≤ size) (input : Text) (offset : Int)

include constructs is room

theorem setMap_meaning :
    Run.forget ((setMap blanks construct input offset tup).construct.map Chunk.tree) =
      insideOf inner tup.rest >>= fun str =>
        if dropUnread str = [] then .ok (.map () [])
        else (entriesOf blanks meaning str []).map (.map ()) := by
  have inside := insideBrackets_meaning input is
  rw [setMap_construct, ← inside]
  cases stripped : insideBrackets input tup with
  | error stop => cases stop <;> rfl
  | ok found =>
    obtain ⟨str, i⟩ := found
    rw [stripped] at inside
    have loop := mapLoop_meaning blanks constructs (room str inside.symm) (Nat.lt_succ_self _) input
      offset i []
    simp only [Except.map, Run.forget_ok, Run.bind_ok]
    by_cases blank : dropUnread str = []
    · simp [blank]
    · rw [if_neg blank, if_neg blank, ← show trees [] = [] from rfl, ← loop]
      rcases outcome (mapLoop blanks construct input offset (str.length + 1) str i []) with stop | values
      · cases stop <;> rfl
      · simp [Except.map, trees]

theorem setList_meaning :
    Run.forget ((setList blanks construct input offset tup).construct.map Chunk.tree) =
      insideOf inner tup.rest >>= fun str =>
        if dropUnread str = [] then .ok (.list () [])
        else (elementsOf blanks meaning str).map (.list ()) := by
  have inside := insideBrackets_meaning input is
  rw [setList_construct, ← inside]
  cases stripped : insideBrackets input tup with
  | error stop => cases stop <;> rfl
  | ok found =>
    obtain ⟨str, i⟩ := found
    rw [stripped] at inside
    have loop := listLoop_meaning blanks constructs (room str inside.symm) (Nat.lt_succ_self _) input
      offset i []
    simp only [Except.map, Run.forget_ok, Run.bind_ok]
    by_cases blank : dropUnread str = []
    · simp [blank]
    · have whole : elementsOf blanks meaning str = Run.forget ((outcome (listLoop blanks construct
          input offset (str.length + 1) str i [])).map (List.map Chunk.tree)) := by
        rw [loop]
        cases elementsOf blanks meaning str <;> simp [Except.map]
      rw [if_neg blank, if_neg blank, whole]
      rcases outcome (listLoop blanks construct input offset (str.length + 1) str i []) with
        stop | elements
      · cases stop <;> rfl
      · simp [Except.map]

end Brackets

theorem setFuel_step {meaning : Text → Run Unit Tree} {fuel : Nat}
    (constructs : ∀ value offset, value.length < text.length →
      Run.forget ((setFuel blanks fuel value offset).construct.map Chunk.tree) = meaning value)
    (offset : Int) :
    Run.forget ((setFuel blanks (fuel + 1) text offset).construct.map Chunk.tree) =
      treeStep blanks meaning text := by
  rw [setFuel_construct]
  cases reads : read blanks nul nul text with
  | error stop =>
    rw [treeStep_error meaning reads, getstrval_eq, reads]
    cases stop <;> rfl
  | ok found =>
    obtain ⟨value, rest⟩ := found
    obtain ⟨tup, got, rfl, rfl, _⟩ := getstrval_ok reads
    have size := (read_length reads).1
    rw [got, Run.bind_ok, chunkOf]
    cases is : tup.value with
    | nil =>
      rw [is] at reads
      rw [treeStep_empty meaning reads]
      rfl
    | cons c inner =>
      have room (str : Text) (inside : insideOf inner tup.rest = .ok str) :
          str.length ≤ text.length - 2 := by
        have shorter := insideOf_length inside
        rw [is, List.length_cons] at size
        omega
      have positive : 0 < text.length := by
        rw [is, List.length_cons] at size
        omega
      have below (value : Text) (offset : Int) (less : value.length ≤ text.length - 2) :=
        constructs value offset (by omega)
      rw [is] at reads
      by_cases map : c = '{'
      · subst map
        rw [treeStep_map meaning reads]
        exact setMap_meaning blanks below is room text offset
      · by_cases list : c = '['
        · subst list
          rw [treeStep_list meaning reads]
          exact setList_meaning blanks below is room text offset
        · rw [treeStep_string meaning map list reads]
          simp [map, list, Except.map]

/-- With enough fuel `set` makes the tree of its text, wherever the text is. -/
theorem setFuel_treeOf {fuel : Nat} (enough : text.length < fuel) (offset : Int) :
    Run.forget ((setFuel blanks fuel text offset).construct.map Chunk.tree) =
      treeOf blanks text := by
  induction size : text.length using Nat.strongRecOn generalizing text fuel offset with
  | _ count ih =>
    subst size
    obtain ⟨fuel, rfl⟩ : ∃ rest, fuel = rest + 1 := ⟨fuel - 1, by omega⟩
    have constructs {fuel : Nat} (enough : text.length ≤ fuel) (value : Text) (offset : Int)
        (shorter : value.length < text.length) :
        Run.forget ((setFuel blanks fuel value offset).construct.map Chunk.tree) =
          treeOf blanks value := ih _ shorter (by omega) offset rfl
    rw [treeOf, set, setFuel_step (constructs (by omega)), setFuel_step (constructs le_rfl)]

theorem set_treeOf (text : Text) (offset : Int) :
    Run.forget ((set blanks text offset).construct.map Chunk.tree) = treeOf blanks text :=
  setFuel_treeOf (Nat.lt_succ_self _) offset

/-- The tree of a text is made of the trees of the texts in it. -/
theorem treeOf_eq (text : Text) : treeOf blanks text = treeStep blanks (treeOf blanks) text :=
  setFuel_step (fun _ _ shorter => setFuel_treeOf shorter _) 0

end Steps

section Contents
variable (blanks : BlankRun)

/-- The tree of a map or a list by what is inside of its brackets. -/
def contentOf (group : GroupKind) (str : Text) : Run Unit Tree :=
  if group.opening = '{' then
    if dropUnread str = [] then .ok (.map () [])
    else (entriesOf blanks (treeOf blanks) str []).map (.map ())
  else
    if dropUnread str = [] then .ok (.list () [])
    else (elementsOf blanks (treeOf blanks) str).map (.list ())

variable {blanks} {group : GroupKind}

theorem treeOf_group (known : group.Known) {text inner rest : Text}
    (reads : read blanks nul nul text = .ok (group.opening :: inner, rest)) :
    treeOf blanks text = insideOf inner rest >>= contentOf blanks group := by
  rw [treeOf_eq]
  rcases known with rfl | rfl
  · exact treeStep_map _ reads
  · exact treeStep_list _ reads

end Contents

end Ztd.Filedat
