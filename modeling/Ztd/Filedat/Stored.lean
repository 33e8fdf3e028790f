import Ztd.Filedat.Joining
import Ztd.Filedat.Endings
import Ztd.Filedat.Assign
import Ztd.Lib.Trace
import Mathlib.Logic.Function.Basic

/-! The strings of chunks: `set` brings in strings that can be read back, and of
the operations on chunks only concatenation makes new ones. -/

namespace Ztd.Filedat
open Ztd.Lib

variable {ι : Type}

namespace Chunk

mutual
/-- The values of the string chunks. -/
def strings : Chunk ι → List Text
  | .none _ => []
  | .string _ val => [val]
  | .map _ values => stringsValues values
  | .list _ elements => stringsElements elements
def stringsValues : List (Text × Chunk ι) → List Text
  | [] => []
  | (_, value) :: rest => strings value ++ stringsValues rest
def stringsElements : List (Chunk ι) → List Text
  | [] => []
  | element :: rest => strings element ++ stringsElements rest
end

theorem stringsValues_eq (values : List (Text × Chunk ι)) :
    stringsValues values = values.flatMap fun entry => entry.2.strings := by
  induction values with
  | nil => rfl
  | cons entry rest ih =>
    obtain ⟨key, value⟩ := entry
    rw [stringsValues, ih, List.flatMap_cons]

theorem stringsElements_eq (elements : List (Chunk ι)) :
    stringsElements elements = elements.flatMap strings := by
  induction elements with
  | nil => rfl
  | cons element rest ih => rw [stringsElements, ih, List.flatMap_cons]

/-- Every string of the chunk can be read back. -/
def Stable (chunk : Chunk ι) : Prop := ∀ val ∈ chunk.strings, Reread val

@[simp] theorem stable_none (offset : ι) : (Chunk.none offset).Stable := by
  simp [Stable, strings]

@[simp] theorem stable_string (offset : ι) (val : Text) :
    (Chunk.string offset val).Stable ↔ Reread val := by
  simp [Stable, strings]

@[simp] theorem stable_map (offset : ι) (values : List (Text × Chunk ι)) :
    (Chunk.map offset values).Stable ↔ ∀ entry ∈ values, entry.2.Stable := by
  simp only [Stable, strings, stringsValues_eq, List.mem_flatMap]
  exact ⟨fun stable entry member val inside => stable val ⟨entry, member, inside⟩,
    fun stable val ⟨entry, member, inside⟩ => stable entry member val inside⟩

@[simp] theorem stable_list (offset : ι) (elements : List (Chunk ι)) :
    (Chunk.list offset elements).Stable ↔ ∀ element ∈ elements, element.Stable := by
  simp only [Stable, strings, stringsElements_eq, List.mem_flatMap]
  exact ⟨fun stable element member val inside => stable val ⟨element, member, inside⟩,
    fun stable val ⟨element, member, inside⟩ => stable element member val inside⟩

section Operations
variable {this chk : Chunk ι}

theorem stable_insert {key : Text} {values : List (Text × Chunk ι)} (value : chk.Stable)
    (stable : ∀ entry ∈ values, entry.2.Stable) :
    ∀ entry ∈ OrderedMap.insert key chk values, entry.2.Stable := by
  intro entry member
  rcases OrderedMap.mem_insert member with rfl | old
  · exact value
  · exact stable entry old

theorem stable_addToMap (stable : this.Stable) (value : chk.Stable) (name : Text) :
    (this.addToMap name chk).1.Stable := by
  cases this with
  | none => simpa [addToMap] using value
  | string => exact stable
  | list => exact stable
  | map offset values =>
    rw [addToMap]
    split
    · exact stable
    · rw [stable_map] at stable ⊢
      exact stable_insert (by simpa using value) stable

theorem stable_addToList (stable : this.Stable) (value : chk.Stable) :
    (this.addToList chk).1.Stable := by
  cases this with
  | none => simpa [addToList] using value
  | string => exact stable
  | map => exact stable
  | list offset elements =>
    rw [stable_list] at stable
    simpa [addToList, or_imp, forall_and] using ⟨stable, value⟩

theorem stable_addAllToMap (stable : this.Stable) {values : List (Text × Chunk ι)}
    (added : ∀ entry ∈ values, entry.2.Stable) : (this.addAllToMap values).1.Stable := by
  induction values generalizing this with
  | nil => exact stable
  | cons entry rest ih =>
    obtain ⟨name, value⟩ := entry
    have first : value.Stable := added (name, value) List.mem_cons_self
    have next := stable_addToMap stable first name
    rw [addAllToMap]
    cases result : this.addToMap name value with
    | mk after stop =>
      rw [result] at next
      cases stop with
      | none => exact ih next fun entry member => added entry (List.mem_cons_of_mem _ member)
      | some error => exact next

theorem stable_addAllToList (stable : this.Stable) {elements : List (Chunk ι)}
    (added : ∀ element ∈ elements, element.Stable) : (this.addAllToList elements).1.Stable := by
  induction elements generalizing this with
  | nil => exact stable
  | cons element rest ih =>
    have next := stable_addToList stable (added element List.mem_cons_self)
    rw [addAllToList]
    cases result : this.addToList element with
    | mk after stop =>
      rw [result] at next
      cases stop with
      | none => exact ih next fun element member => added element (List.mem_cons_of_mem _ member)
      | some error => exact next

theorem stable_mergeValues {overwrite : Bool} {ys : List (Text × Chunk ι)}
    (merged : ∀ entry ∈ ys, ∀ x : Chunk ι, x.Stable → (x.merge overwrite entry.2).1.Stable)
    (upper : ∀ entry ∈ ys, entry.2.Stable) {xs : List (Text × Chunk ι)}
    (stable : ∀ entry ∈ xs, entry.2.Stable) :
    ∀ entry ∈ (mergeValues overwrite xs ys).1, entry.2.Stable := by
  induction ys generalizing xs with
  | nil => exact stable
  | cons entry rest ih =>
    obtain ⟨key, y⟩ := entry
    have later := fun {xs} => @ih
      (fun entry member => merged entry (List.mem_cons_of_mem _ member))
      (fun entry member => upper entry (List.mem_cons_of_mem _ member)) xs
    cases held : OrderedMap.find? key xs with
    | none =>
      rw [mergeValues_new held]
      exact later (stable_insert (upper (key, y) List.mem_cons_self) stable)
    | some x =>
      have joined := merged (key, y) List.mem_cons_self x
        (stable (key, x) (OrderedMap.mem_of_find? held))
      cases stops : (x.merge overwrite y).2 with
      | none =>
        rw [mergeValues_shared held stops]
        exact later (stable_insert joined stable)
      | some error =>
        rw [mergeValues_stop held stops]
        exact stable_insert joined stable

theorem stable_mergeConflict (overwrite : Bool) (stable : this.Stable) (other : chk.Stable) :
    (mergeConflict overwrite this chk).1.Stable := by
  cases overwrite with
  | false => exact stable
  | true => simpa [mergeConflict] using other

/-- Merging takes every string of the result from one of the two chunks. -/
theorem stable_merge (overwrite : Bool) (chk : Chunk ι) : ∀ this : Chunk ι, this.Stable →
    chk.Stable → (this.merge overwrite chk).1.Stable := by
  induction chk using induct with
  | none offset =>
    intro this stable other
    cases this with
    | none => simp [merge]
    | _ => exact stable_mergeConflict overwrite stable other
  | string offset val =>
    intro this stable other
    cases this with
    | none => simpa [merge] using other
    | string thisOffset thisVal =>
      cases overwrite with
      | false => exact stable
      | true => simpa [merge] using other
    | map => exact stable_mergeConflict overwrite stable other
    | list => exact stable_mergeConflict overwrite stable other
  | map offset values ih =>
    intro this stable other
    cases this with
    | none => simpa [merge] using other
    | map thisOffset thisValues =>
      rw [stable_map] at stable other
      rw [merge]
      exact (stable_map ..).mpr (stable_mergeValues
        (fun entry member x kept => ih entry member x kept (other entry member)) other stable)
    | string => exact stable_mergeConflict overwrite stable other
    | list => exact stable_mergeConflict overwrite stable other
  | list offset elements ih =>
    intro this stable other
    cases this with
    | none => simpa [merge] using other
    | list thisOffset thisElements =>
      rw [merge]
      exact stable_addAllToList stable ((stable_list ..).mp other)
    | string => exact stable_mergeConflict overwrite stable other
    | map => exact stable_mergeConflict overwrite stable other

theorem stable_concatenate (stable : this.Stable) (other : chk.Stable)
    (joins : ∀ offset first before second, this = .string offset first →
      chk = .string before second → Joinable first second) :
    (this.concatenate chk).1.Stable := by
  cases this with
  | none => simpa [concatenate] using other
  | string offset first =>
    cases chk with
    | string before second =>
      simp only [stable_string] at stable other
      exact (stable_string ..).mpr
        ((reread_append_iff stable other).mpr (joins offset first before second rfl rfl))
    | _ => exact stable
  | map offset values =>
    cases chk with
    | map before added => exact stable_addAllToMap stable ((stable_map ..).mp other)
    | _ => exact stable
  | list offset elements =>
    cases chk with
    | list before added => exact stable_addAllToList stable ((stable_list ..).mp other)
    | _ => exact stable

theorem stable_eraseKey (stable : this.Stable) (key : Text) : (this.eraseKey key).1.Stable := by
  cases this with
  | map offset values =>
    rw [eraseKey]
    split
    · rw [stable_map] at stable ⊢
      exact fun entry member => stable entry (List.mem_of_mem_filter member)
    · exact stable
  | _ => exact stable

theorem stable_eraseIndex (stable : this.Stable) (index : UInt32) :
    (this.eraseIndex index).1.Stable := by
  cases this with
  | list offset elements =>
    rw [eraseIndex]
    split
    · rw [stable_list] at stable ⊢
      exact fun element member => stable element (List.mem_of_mem_eraseIdx member)
    · exact stable
  | _ => exact stable

end Operations

end Chunk

section Reading
variable {blanks : BlankRun} {construct : Construct}
  (constructs : ∀ value offset chunk, construct value offset = .ok chunk → chunk.Stable)
include constructs

theorem stable_mapLoop (input : Text) (offset : Int) (fuel : Nat) (str : Text) (i : Int)
    (values : List (Text × Chunkdat)) (stable : ∀ entry ∈ values, entry.2.Stable) :
    ∀ entry ∈ (mapLoop blanks construct input offset fuel str i values).1, entry.2.Stable := by
  induction fuel generalizing str i values with
  | zero => exact stable
  | succ fuel ih =>
    rw [mapLoop]
    cases round : mapEntry blanks construct input offset str i values with
    | error stop => exact stable
    | ok found =>
      obtain ⟨after, rest, j⟩ := found
      obtain ⟨_, tup, _, _, _, added⟩ := mapEntry_cases round
      have stableAfter : ∀ entry ∈ after, entry.2.Stable := by
        rcases added with ⟨_, rfl⟩ | ⟨_, _, chunk, built, rfl⟩
        · exact stable
        · exact Chunk.stable_insert (constructs _ _ chunk built) stable
      simp only
      split
      · exact ih rest j after stableAfter
      · exact stableAfter

theorem stable_listLoop (input : Text) (offset : Int) (fuel : Nat) (str : Text) (i : Int)
    (elements : List Chunkdat) (stable : ∀ element ∈ elements, element.Stable) :
    ∀ element ∈ (listLoop blanks construct input offset fuel str i elements).1,
      element.Stable := by
  induction fuel generalizing str i elements with
  | zero => exact stable
  | succ fuel ih =>
    rw [listLoop]
    cases round : listElement blanks construct input offset str i with
    | error stop => exact stable
    | ok found =>
      obtain ⟨element, rest, j⟩ := found
      obtain ⟨tup, _, _, _, built⟩ := listElement_cases round
      have stableAfter : ∀ other ∈ elements ++ [element], other.Stable := by
        simpa [or_imp, forall_and] using ⟨stable, constructs _ _ element built⟩
      simp only
      split
      · exact ih rest j _ stableAfter
      · exact stableAfter

end Reading

/-- Whether it returns or throws, `set` leaves strings that can be read back. -/
theorem stable_setFuel (blanks : BlankRun) (fuel : Nat) (text : Text) (offset : Int) :
    (setFuel blanks fuel text offset).1.Stable := by
  induction fuel generalizing text offset with
  | zero => exact Chunk.stable_none offset
  | succ fuel ih =>
    have constructs : ∀ value offset chunk,
        (setFuel blanks fuel value offset).construct = .ok chunk → chunk.Stable := by
      intro value offset chunk built
      have stable := ih value offset
      generalize setFuel blanks fuel value offset = setting at *
      obtain ⟨left, stop⟩ := setting
      cases stop with
      | none => exact Except.ok.inj built ▸ stable
      | some stop => cases built
    cases reads : read blanks nul nul text with
    | error stop =>
      rw [setFuel, getstrval_eq, reads]
      cases stop <;> exact Chunk.stable_none offset
    | ok found =>
      obtain ⟨value, rest⟩ := found
      obtain ⟨tup, got, rfl, rfl, _⟩ := getstrval_ok reads
      simp only [setFuel, got]
      split
      · exact (Chunk.stable_string ..).mpr (.inl rfl)
      · rw [setMap]
        split
        · exact Chunk.stable_none offset
        · rename_i str i _
          split
          · exact (Chunk.stable_map ..).mpr (by simp)
          · split
            · exact (Chunk.stable_map ..).mpr (by simp)
            · exact (Chunk.stable_map ..).mpr
                (stable_mapLoop constructs text offset _ str i [] (by simp))
      · rw [setList]
        split
        · exact Chunk.stable_none offset
        · rename_i str i _
          split
          · exact (Chunk.stable_list ..).mpr (by simp)
          · split
            · exact (Chunk.stable_list ..).mpr (by simp)
            · exact (Chunk.stable_list ..).mpr
                (stable_listLoop constructs text offset _ str i [] (by simp))
      · rename_i empty notBrace notBracket
        cases is : tup.value with
        | nil => exact absurd is empty
        | cons c inner =>
          rw [is, read_whole blanks] at reads
          exact (Chunk.stable_string ..).mpr (.inr ⟨c, inner, tup.rest, reads,
            fun same => notBrace inner (same ▸ is), fun same => notBracket inner (same ▸ is)⟩)

namespace Chunk

/-- The chunk with another sub-chunk at a path. -/
def replaceAt : List Access → Chunk ι → Chunk ι → Chunk ι
  | [], new, _ => new
  | .key name :: path, new, .map offset values =>
    .map offset (values.map fun entry =>
      if entry.1 = name then (entry.1, replaceAt path new entry.2) else entry)
  | .index position :: path, new, .list offset elements =>
    .list offset (elements.modify position (replaceAt path new))
  | _ :: _, _, chunk => chunk

theorem stable_at {path : List Access} {this found : Chunk ι} (stable : this.Stable)
    (at_ : this.at? path = some found) : found.Stable := by
  induction path generalizing this with
  | nil => exact Option.some.inj at_ ▸ stable
  | cons access path ih =>
    obtain ⟨child, is, below⟩ := Option.bind_eq_some_iff.mp at_
    refine ih ?_ below
    match access, this with
    | .key name, .map offset values =>
      exact (stable_map ..).mp stable (name, child) (OrderedMap.mem_of_find? is)
    | .index position, .list offset elements =>
      exact (stable_list ..).mp stable child (List.mem_of_getElem? is)
    | .key _, .none _ | .key _, .string _ _ | .key _, .list _ _ => cases is
    | .index _, .none _ | .index _, .string _ _ | .index _, .map _ _ => cases is

theorem stable_replaceAt {path : List Access} {this new : Chunk ι} (stable : this.Stable)
    (put : new.Stable) : (replaceAt path new this).Stable := by
  induction path generalizing this with
  | nil => exact put
  | cons access path ih =>
    match access, this with
    | .key name, .map offset values =>
      rw [stable_map] at stable
      refine (stable_map ..).mpr fun entry member => ?_
      obtain ⟨old, inside, rfl⟩ := List.mem_map.mp member
      split
      · exact ih (stable old inside)
      · exact stable old inside
    | .index position, .list offset elements =>
      rw [stable_list] at stable
      refine (stable_list ..).mpr fun element member => ?_
      obtain ⟨index, is⟩ := List.mem_iff_getElem?.mp member
      rw [List.getElem?_modify] at is
      obtain ⟨old, inside, rfl⟩ := Option.map_eq_some_iff.mp is
      split
      · exact ih (stable old (List.mem_of_getElem? inside))
      · exact stable old (List.mem_of_getElem? inside)
    | .key _, .none _ | .key _, .string _ _ | .key _, .list _ _ => exact stable
    | .index _, .none _ | .index _, .string _ _ | .index _, .map _ _ => exact stable

end Chunk

/-- A call on a chunk, with the values of its operands. -/
inductive Edit where
  | setText (text : Text) (offset : Int)
  | setChunk (input : Chunkdat)
  | addToMap (name : Text) (val : Chunkdat)
  | addToList (val : Chunkdat)
  | concatenate (chk : Chunkdat)
  | merge (chk : Chunkdat) (overwrite : Bool)
  | eraseKey (key : Text)
  | eraseIndex (index : UInt32)

namespace Edit

def operand : Edit → Option Chunkdat
  | .setChunk chunk | .addToMap _ chunk | .addToList chunk | .concatenate chunk
  | .merge chunk _ => some chunk
  | .setText _ _ | .eraseKey _ | .eraseIndex _ => none

/-- What the call leaves of the chunk, whether it returns or throws; nothing if it
reads outside of its text. -/
def leaves (blanks : BlankRun) (this : Chunkdat) : Edit → Option Chunkdat
  | .setText text offset =>
    match set blanks text offset with
    | (_, some .fault) => none
    | (chunk, _) => some chunk
  | .setChunk input => some (this.setChunk input)
  | .addToMap name val => some (this.addToMap name val).1
  | .addToList val => some (this.addToList val).1
  | .concatenate chk => some (this.concatenate chk).1
  | .merge chk overwrite => some (this.merge overwrite chk).1
  | .eraseKey key => some (this.eraseKey key).1
  | .eraseIndex index => some (this.eraseIndex index).1

end Edit

/-- The chunks of a program that are not part of another one. -/
abbrev Variables := Nat → Chunkdat

structure Place where
  variable_ : Nat
  path : List Access := []

def Variables.read (vars : Variables) (place : Place) : Option Chunkdat :=
  (vars place.variable_).at? place.path

def Variables.write (vars : Variables) (place : Place) (chunk : Chunkdat) : Variables :=
  Function.update vars place.variable_ (Chunk.replaceAt place.path chunk (vars place.variable_))

/-- A call on the chunk at a place, whose operand is at some place as well. -/
inductive Variables.Step (blanks : BlankRun) : Variables → Place × Edit → Variables → Prop where
  | call {vars : Variables} {place : Place} {edit : Edit} {this after : Chunkdat}
      (target : vars.read place = some this)
      (operand : ∀ chunk ∈ edit.operand, ∃ other, vars.read other = some chunk)
      (leaves : edit.leaves blanks this = some after) :
      Step blanks vars (place, edit) (vars.write place after)

/-- If the call concatenates two strings, they can be joined. -/
def Variables.Joins (vars : Variables) (call : Place × Edit) : Prop :=
  ∀ offset first before second, vars.read call.1 = some (.string offset first) →
    call.2 = .concatenate (.string before second) → Joinable first second

section Runs
variable {blanks : BlankRun}

theorem Edit.stable_leaves {this after : Chunkdat} {edit : Edit} (stable : this.Stable)
    (operand : ∀ chunk ∈ edit.operand, chunk.Stable)
    (joins : ∀ offset first before second, this = .string offset first →
      edit = .concatenate (.string before second) → Joinable first second)
    (leaves : edit.leaves blanks this = some after) : after.Stable := by
  cases edit with
  | setText text offset =>
    have kept := stable_setFuel blanks (text.length + 1) text offset
    rw [Edit.leaves, set] at leaves
    split at leaves
    · cases leaves
    · rename_i chunk stop _ is
      rw [is] at kept
      exact Option.some.inj leaves ▸ kept
  | setChunk input =>
    obtain rfl := by simpa [Edit.leaves] using leaves
    exact operand _ rfl
  | addToMap name val =>
    obtain rfl := Option.some.inj leaves
    exact Chunk.stable_addToMap stable (operand val rfl) name
  | addToList val =>
    obtain rfl := Option.some.inj leaves
    exact Chunk.stable_addToList stable (operand val rfl)
  | concatenate chk =>
    obtain rfl := Option.some.inj leaves
    exact Chunk.stable_concatenate stable (operand chk rfl)
      fun offset first before second is other => joins offset first before second is (other ▸ rfl)
  | merge chk overwrite =>
    obtain rfl := Option.some.inj leaves
    exact Chunk.stable_merge overwrite chk this stable (operand chk rfl)
  | eraseKey key =>
    obtain rfl := Option.some.inj leaves
    exact Chunk.stable_eraseKey stable key
  | eraseIndex index =>
    obtain rfl := Option.some.inj leaves
    exact Chunk.stable_eraseIndex stable index

/-- Every string of every chunk can be read back. -/
def Variables.Stable (vars : Variables) : Prop := ∀ name, (vars name).Stable

theorem Variables.Step.stable {vars after : Variables} {call : Place × Edit}
    (step : Step blanks vars call after) (joins : vars.Joins call)
    (stable : vars.Stable) : after.Stable := by
  have read {place : Place} {chunk : Chunkdat} (is : vars.read place = some chunk) :
      chunk.Stable := Chunk.stable_at (stable place.variable_) is
  cases step with
  | @call place edit this left target operand leaves =>
    have kept : left.Stable := Edit.stable_leaves (read target)
      (fun chunk member => (operand chunk member).elim fun _ is => read is)
      (fun offset first before second is edit => joins offset first before second (is ▸ target) edit)
      leaves
    intro name
    rw [Variables.write, Function.update_apply]
    split
    · exact Chunk.stable_replaceAt (stable place.variable_) kept
    · exact stable name

/-- In a run that only concatenates strings that can be joined, every string of
every chunk can be read back at every time. -/
theorem run_strings_reread {calls : List (Place × Edit)} {vars : Variables}
    (run : Trace (fun before call after => Variables.Step blanks before call after ∧
      before.Joins call) (fun _ => .none 0) calls vars) :
    ∀ name, ∀ val ∈ (vars name).strings, ∀ offset,
      set blanks val offset = (.string offset val, none) := by
  have stable : vars.Stable := by
    refine Trace.invariant ?_ run fun _ => Chunk.stable_none 0
    intro before call after stable step
    exact step.1.stable step.2 stable
  intro name val member offset
  rw [set, setFuel_reread (stable name val member)]

/-- Setting one chunk to the text `"a"`, another one to a second text, and
concatenating the second one to the first. -/
def joiningCalls (second : Text) : List (Place × Edit) :=
  [(⟨0, []⟩, .setText ['"', 'a', '"'] 0), (⟨1, []⟩, .setText second 0),
    (⟨0, []⟩, .concatenate (.string 0 second))]

def joined (second : Text) : Variables :=
  ((Variables.write (fun _ => .none 0) ⟨0, []⟩ (.string 0 ['"', 'a', '"'])).write ⟨1, []⟩
    (.string 0 second)).write ⟨0, []⟩ (.string 0 (['"', 'a', '"'] ++ second))

theorem joined_run {second : Text} (stored : set .unchecked second 0 = (.string 0 second, none))
    {allowed : Variables → Place × Edit → Prop}
    (sets : ∀ vars place text, allowed vars (place, .setText text 0))
    (joins : ∀ vars : Variables, vars.read ⟨0, []⟩ = some (.string 0 ['"', 'a', '"']) →
      allowed vars (⟨0, []⟩, .concatenate (.string 0 second))) :
    Trace (fun before call after => Variables.Step .unchecked before call after ∧
      allowed before call) (fun _ => .none 0) (joiningCalls second) (joined second) := by
  refine .next ⟨.call rfl (by simp [Edit.operand]) rfl, sets ..⟩
    (.next ⟨.call rfl (by simp [Edit.operand]) (by simp [Edit.leaves, stored]), sets ..⟩
      (.next ⟨.call rfl ?_ rfl, joins _ rfl⟩ (.done _)))
  simp only [Edit.operand, Option.mem_def, Option.some.injEq, forall_eq']
  exact ⟨⟨1, []⟩, rfl⟩

/-- The text `"a"` with a letter concatenated to it is read back as it is. -/
theorem run_strings_reread_letter : set .unchecked ['"', 'a', '"', 'b'] 0 =
    (.string 0 ['"', 'a', '"', 'b'], none) :=
  run_strings_reread (joined_run rfl (fun _ _ _ _ _ _ _ _ other => nomatch other)
    fun _ _ _ _ _ _ _ other _ c rest is mark => by
      obtain ⟨_, rfl⟩ := Chunk.string.inj (Edit.concatenate.inj other)
      obtain ⟨rfl, _⟩ := List.cons.inj is
      exact absurd mark (by decide)) 0 ['"', 'a', '"', 'b'] List.mem_cons_self 0

/-- A second quote concatenated to the first one does not close any more. -/
theorem run_strings_unreadable :
    ¬ ∀ (blanks : BlankRun) (calls : List (Place × Edit)) (vars : Variables),
      Trace (Variables.Step blanks) (fun _ => .none 0) calls vars →
      ∀ name, ∀ val ∈ (vars name).strings, ∀ offset,
        set blanks val offset = (.string offset val, none) := by
  intro reread
  have run : Trace (fun before call after => Variables.Step .unchecked before call after ∧ True)
      (fun _ => .none 0) (joiningCalls ['"', 'b', '"']) (joined ['"', 'b', '"']) :=
    joined_run rfl (fun _ _ _ => trivial) (fun _ _ => trivial)
  have stored := reread .unchecked _ _ (run.mono And.left) 0 (['"', 'a', '"'] ++ ['"', 'b', '"'])
    (by simp [joined, Variables.write, Chunk.replaceAt, Chunk.strings]) 0
  exact absurd (congrArg Prod.snd stored) (by decide)

end Runs

end Ztd.Filedat
