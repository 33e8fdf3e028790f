import Ztd.Filedat.Reached

/-! Parsing ends on every text, and it stays inside of its strings unless it comes
to one of the places where it leaves them. -/

namespace Ztd.Filedat
open Ztd.Lib

section Set
variable {blanks : BlankRun}

theorem set_fault_iff (text : Text) (offset : Int) :
    (set blanks text offset).2 = some .fault ↔ treeOf blanks text = .error .fault := by
  rw [← set_treeOf text offset]
  rcases set blanks text offset with ⟨chunk, _ | error | _ | _⟩ <;>
    simp [Setting.construct, Except.map]

theorem set_ends_iff (text : Text) (offset : Int) :
    ((set blanks text offset).2 = none ∨ ∃ error, (set blanks text offset).2 = some (.thrown error)) ↔
      treeOf blanks text ≠ .error .fault := by
  have ends : treeOf blanks text ≠ .error .diverged := treeOf_ne_diverged text
  rw [← set_treeOf text offset] at ends ⊢
  generalize set blanks text offset = setting at ends ⊢
  rcases setting with ⟨chunk, _ | error | _ | _⟩ <;> simp_all [Setting.construct, Except.map]

end Set

section Loops
variable {blanks : BlankRun} {construct : Construct} {input str rest : Text} {offset i j : Int}

theorem getstrval_length {delim altdelim : Char} {tup : StrVal}
    (got : getstrval blanks str delim altdelim = .ok tup) :
    tup.value.length + tup.rest.length ≤ str.length ∧ (str ≠ [] → tup.rest.length < str.length) := by
  cases reads : read blanks delim altdelim str with
  | error stop =>
    rw [getstrval_eq, reads] at got
    cases stop <;> simp [Except.map, Run.mapError] at got
  | ok found =>
    obtain ⟨value, rest⟩ := found
    obtain ⟨other, same, rfl, rfl, _⟩ := getstrval_ok reads
    obtain rfl := Except.ok.inj (got.symm.trans same)
    exact read_length reads

/-- What a round of the map loop that returns has done. -/
theorem mapEntry_cases {values after : List (Text × Chunkdat)}
    (round : mapEntry blanks construct input offset str i values = .ok (after, rest, j)) :
    (dropUnread str).head? ≠ some '=' ∧ ∃ tup, getkeyval blanks str = .ok tup ∧
      rest = tup.rest ∧ j = i + tup.restStart ∧
      (tup.key = [] ∧ after = values ∨
        tup.key ≠ [] ∧ OrderedMap.find? tup.key values = none ∧ ∃ chunk,
          construct tup.value (offset + (i + tup.valueStart)) = .ok chunk ∧
          after = OrderedMap.insert tup.key chunk values) := by
  by_cases starts : (dropUnread str).head? = some '='
  · simp [mapEntry, skip_eq, charAt_zero, starts, Run.raise] at round
  · refine ⟨starts, ?_⟩
    have notEqual : (dropUnread str).head?.getD nul ≠ '=' := by
      cases head : (dropUnread str).head? with
      | none => decide
      | some c => simpa [head] using starts
    cases got : getkeyval blanks str with
    | error stop =>
      cases stop <;>
        simp [mapEntry, skip_eq, charAt_zero, notEqual, got, Run.catchError, Run.raise] at round
    | ok tup =>
      refine ⟨tup, rfl, ?_⟩
      by_cases noKey : tup.key = []
      · obtain ⟨rfl, rfl, rfl⟩ := by
          simpa [mapEntry, skip_eq, charAt_zero, notEqual, got, noKey, pure, Except.pure] using round
        exact ⟨rfl, rfl, .inl ⟨noKey, rfl⟩⟩
      · cases built : construct tup.value (offset + (i + tup.valueStart)) with
        | error stop =>
          cases stop <;>
            simp [mapEntry, skip_eq, charAt_zero, notEqual, got, noKey, built, Run.catchError,
              Run.raise] at round
        | ok chunk =>
          cases held : OrderedMap.find? tup.key values with
          | none =>
            obtain ⟨rfl, rfl, rfl⟩ := by
              simpa [mapEntry, skip_eq, charAt_zero, notEqual, got, noKey, built, held, pure,
                Except.pure] using round
            exact ⟨rfl, rfl, .inr ⟨noKey, rfl, chunk, rfl, rfl⟩⟩
          | some other =>
            simp [mapEntry, skip_eq, charAt_zero, notEqual, got, noKey, built, held, Run.raise]
              at round

theorem mapEntry_length {values after : List (Text × Chunkdat)} (nonempty : str ≠ [])
    (round : mapEntry blanks construct input offset str i values = .ok (after, rest, j)) :
    rest.length < str.length := by
  obtain ⟨starts, tup, got, rfl, _⟩ := mapEntry_cases round
  have pair := getkeyval_meaning blanks starts
  rw [got] at pair
  exact ((entryOf_length pair.symm).2.2 nonempty).2

/-- What a round of the list loop that returns has done. -/
theorem listElement_cases {element : Chunkdat}
    (round : listElement blanks construct input offset str i = .ok (element, rest, j)) :
    ∃ tup, getstrval blanks str ',' ';' = .ok tup ∧ rest = tup.rest ∧ j = i + tup.restStart ∧
      construct tup.value (offset + (i + tup.valueStart)) = .ok element := by
  cases got : getstrval blanks str ',' ';' with
  | error stop => cases stop <;> simp [listElement, got, Run.catchError, Run.raise] at round
  | ok tup =>
    cases built : construct tup.value (offset + (i + tup.valueStart)) with
    | error stop =>
      cases stop <;> simp [listElement, got, built, Run.catchError, Run.raise] at round
    | ok chunk =>
      obtain ⟨rfl, rfl, rfl⟩ := by simpa [listElement, got, built, pure, Except.pure] using round
      exact ⟨tup, rfl, rfl, rfl, built⟩

theorem listElement_length {element : Chunkdat} (nonempty : str ≠ [])
    (round : listElement blanks construct input offset str i = .ok (element, rest, j)) :
    rest.length < str.length := by
  obtain ⟨tup, got, rfl, _⟩ := listElement_cases round
  exact (getstrval_length got).2 nonempty

end Loops

section Comments
variable {str : Text}

theorem commentQuoteLoop_ne_fault (mark : Char) (fuel : Nat) (i : UInt32) :
    commentQuoteLoop mark str fuel i ≠ .error .fault := by
  induction fuel generalizing i with
  | zero => simp [commentQuoteLoop, Run.diverged]
  | succ fuel ih =>
    rw [commentQuoteLoop]
    split
    · rename_i inside
      rw [charAt_of_lt inside, Run.bind_ok]
      split
      · simp [pure, Except.pure]
      · split
        · rename_i more
          rw [charAt_of_lt (by simp only [Bool.and_eq_true, decide_eq_true_eq] at more; exact more.1)]
          exact ih _
        · exact ih _
    · simp [pure, Except.pure]

theorem commentQuote_ne_fault (quote : QuoteKind) (i : UInt32) :
    commentQuote quote str i ≠ .error .fault := by
  intro faults
  rcases Run.bind_eq_error.mp faults with here | ⟨index, _, here⟩
  · exact commentQuoteLoop_ne_fault quote.mark indexFuel (i + 1) here
  · split at here <;> simp [Run.raise, pure, Except.pure] at here

theorem commentLoop_ne_fault (fuel : Nat) (str : Text) (i : UInt32) :
    commentLoop fuel str i ≠ .error .fault := by
  induction fuel generalizing str i with
  | zero => simp [commentLoop, Run.diverged]
  | succ fuel ih =>
    have quoted (quote : QuoteKind) :
        (commentQuote quote str i >>= fun i => commentLoop fuel str (i + 1)) ≠ .error .fault := by
      intro faults
      rcases Run.bind_eq_error.mp faults with here | ⟨index, _, here⟩
      · exact commentQuote_ne_fault quote i here
      · exact ih _ _ here
    rw [commentLoop]
    split
    · rename_i inside
      rw [charAt_of_lt inside, Run.bind_ok]
      split
      · exact ih _ _
      · split
        · exact quoted doubleQuote
        · split
          · exact quoted singleQuote
          · split <;> exact ih _ _
    · simp [pure, Except.pure]

/-- Whatever its index does, `removeComments` reads inside of its string. -/
theorem removeComments_ne_fault (str : Text) : removeComments str ≠ .error .fault :=
  commentLoop_ne_fault _ str 0

end Comments

section Results
open Relation

/-- What it takes for the parse of a text to come to an end, where the loop over
blanks stops at the end of its string. -/
structure Terminates (text : Text) : Prop where
  /-- `set` returns or throws. -/
  ends : ∀ offset, (set .checked text offset).2 = none ∨
    ∃ error, (set .checked text offset).2 = some (.thrown error)
  scans : ∀ str delim altdelim,
    (∃ error, getstrval .checked str delim altdelim = .error (.thrown error)) ∨
      ∃ tup, getstrval .checked str delim altdelim = .ok tup ∧
        tup.value.length + tup.rest.length ≤ str.length ∧
        (str ≠ [] → tup.rest.length < str.length)
  entries : ∀ construct input offset str i values after rest j, str ≠ [] →
    mapEntry .checked construct input offset str i values = .ok (after, rest, j) →
    rest.length < str.length
  elements : ∀ construct input offset str i element rest j, str ≠ [] →
    listElement .checked construct input offset str i = .ok (element, rest, j) →
    rest.length < str.length
  /-- Chunks below are made of shorter texts. -/
  nested : ∀ value, TransGen (Proceeds .checked) (.chunk text) (.chunk value) →
    value.length < text.length

/-- Every place the parse of a text comes to is inside of its strings. -/
def Inside (blanks : BlankRun) (text : Text) : Prop :=
  ∀ site, ReflTransGen (Proceeds blanks) (.chunk text) site → ¬site.Faulty blanks

variable {blanks : BlankRun}

theorem inside_iff (text : Text) : Inside blanks text ↔ treeOf blanks text ≠ .error .fault := by
  rw [Inside, ne_eq, treeOf_fault_iff]
  simp only [not_exists, not_and]

theorem inside_checked_iff (text : Text) : Inside .checked text ↔
    ∀ value, ReflTransGen (Proceeds .checked) (.chunk text) (.chunk value) → ¬Lone value := by
  constructor
  · intro inside value run lone
    exact inside _ run (.inl ⟨value, rfl, lone⟩)
  · rintro alone site run (⟨value, rfl, lone⟩ | ⟨unchecked, _⟩)
    · exact alone value run lone
    · simp at unchecked

theorem getstrval_ends (str : Text) (delim altdelim : Char) :
    (∃ error, getstrval .checked str delim altdelim = .error (.thrown error)) ∨
      ∃ tup, getstrval .checked str delim altdelim = .ok tup := by
  cases reads : read .checked delim altdelim str with
  | ok found =>
    obtain ⟨value, rest⟩ := found
    obtain ⟨tup, got, _⟩ := getstrval_ok reads
    exact .inr ⟨tup, got⟩
  | error stop =>
    rcases read_halts reads with ⟨unclosed, rfl⟩ | ⟨_, unchecked, _⟩
    · rw [getstrval_eq, reads]
      exact .inl ⟨_, rfl⟩
    · simp at unchecked

theorem Proceeds.run_shrinks {site next : Site} (run : TransGen (Proceeds blanks) site next) :
    next.size < site.size := by
  induction run with
  | single step => exact step.shrinks
  | tail _ step ih => exact step.shrinks.trans ih

/-- The parse ends with a chunk or an exception if and only if no text it comes to
is a quoted bracket and nothing else. -/
theorem terminates_iff (text : Text) : Terminates text ↔
    ∀ value, ReflTransGen (Proceeds .checked) (.chunk text) (.chunk value) → ¬Lone value := by
  rw [← inside_checked_iff, inside_iff]
  constructor
  · intro terminates
    exact (set_ends_iff text 0).mp (terminates.ends 0)
  · intro inside
    constructor
    · intro offset
      exact (set_ends_iff text offset).mpr inside
    · intro str delim altdelim
      rcases getstrval_ends str delim altdelim with throws | ⟨tup, got⟩
      · exact .inl throws
      · exact .inr ⟨tup, got, getstrval_length got⟩
    · intro construct input offset str i values after rest j nonempty round
      exact mapEntry_length nonempty round
    · intro construct input offset str i element rest j nonempty round
      exact listElement_length nonempty round
    · intro value run
      have shrinks := Proceeds.run_shrinks run
      simp only [Site.size] at shrinks
      omega

theorem quoted_brace_not_terminates : ¬Terminates ['"', '{', '"'] := by
  intro terminates
  have faults : (set .checked ['"', '{', '"'] 0).2 = some .fault := rfl
  rcases terminates.ends 0 with returns | ⟨error, throws⟩
  · simp [faults] at returns
  · simp [faults] at throws

theorem importString_fault_iff (data : Text) (file : Filedat) :
    (file.importString blanks data).2 = some .fault ↔
      ∃ text, removeComments data = .ok text ∧ treeOf blanks text = .error .fault := by
  rw [Filedat.importString, Filedat.generateChunk]
  cases comments : removeComments data with
  | error stop =>
    have notFault := removeComments_ne_fault data
    cases stop <;> simp_all [Filedat.failed]
  | ok text =>
    have ends : (set blanks text 0).2 = some .fault ↔ _ := set_fault_iff text 0
    simp only [Except.ok.injEq, exists_eq_left', ← ends]
    cases set blanks text 0 with
    | mk chunk stop =>
      rcases stop with _ | error | _ | _ <;> simp [Setting.construct, Filedat.failed]

/-- A parse reads and cuts inside of its strings if and only if every place it comes
to is one where it does; taking out the comments always is. -/
theorem parse_inside_iff (data text : Text) (offset : Int) (file : Filedat) :
    removeComments data ≠ .error .fault ∧
    ((set .unchecked text offset).2 ≠ some .fault ↔ Inside .unchecked text) ∧
    ((file.importString .unchecked data).2 ≠ some .fault ↔
      ∀ text, removeComments data = .ok text → Inside .unchecked text) := by
  refine ⟨removeComments_ne_fault data, ?_, ?_⟩
  · rw [inside_iff, ne_eq, set_fault_iff]
  · rw [ne_eq, importString_fault_iff]
    simp only [not_exists, not_and, inside_iff, ne_eq]

/-- The last value of a map in front of a blank, and a quoted bracket. -/
theorem parse_leaves_strings :
    (({} : Filedat).importString .unchecked ['{', 'a', '=', 'b', ' ', '}']).2 = some .fault ∧
      (set .unchecked ['"', '{', '"'] 0).2 = some .fault := by
  constructor
  · refine (importString_fault_iff _ _).mpr ⟨['{', 'a', '=', 'b', ' ', '}'], rfl, ?_⟩
    exact (set_fault_iff _ 0).mp rfl
  · rfl

end Results

section Trees

theorem treeOf_within (text : Text) :
    Run.Within (treeOf .unchecked text) (treeOf .checked text) :=
  ((set_within text 0).construct.map Chunk.tree).mapError fun _ => ()

/-- The loop over blanks changes what is parsed only by leaving its string. -/
theorem treeOf_unchecked_iff (text : Text) (tree : Tree) :
    treeOf .unchecked text = .ok tree ↔
      Inside .unchecked text ∧ treeOf .checked text = .ok tree := by
  rw [inside_iff]
  constructor
  · intro parsed
    rcases treeOf_within text with faults | same
    · simp [faults, Run.fault] at parsed
    · exact ⟨by simp [parsed], same ▸ parsed⟩
  · rintro ⟨inside, parsed⟩
    rcases treeOf_within text with faults | same
    · exact absurd faults inside
    · rw [same, parsed]

/-- An import returns if the text without comments has a tree. -/
theorem importString_tree_iff {blanks : BlankRun} {data text : Text}
    (comments : removeComments data = .ok text) (file : Ztd.Filedat) (keeps : Tree → Prop) :
    ((file.importString blanks data).2 = none ∧
      ∃ chunk, (file.importString blanks data).1.dataChunk = some chunk ∧ keeps chunk.tree) ↔
      ∃ tree, treeOf blanks text = .ok tree ∧ keeps tree := by
  rw [Filedat.importString, Filedat.generateChunk]
  simp only [comments, treeOf]
  rcases set blanks text 0 with ⟨chunk, _ | error | _ | _⟩ <;>
    simp [Setting.construct, Filedat.failed, Except.map]

theorem importString_returns_iff {blanks : BlankRun} {data text : Text}
    (comments : removeComments data = .ok text) (file : Ztd.Filedat) :
    (file.importString blanks data).2 = none ↔ ∃ tree, treeOf blanks text = .ok tree := by
  rw [Filedat.importString, Filedat.generateChunk]
  simp only [comments, treeOf]
  rcases set blanks text 0 with ⟨chunk, _ | error | _ | _⟩ <;>
    simp [Setting.construct, Filedat.failed, Except.map]

theorem contentOf_ne_string (group : GroupKind) (inner text : Text) :
    contentOf .checked group inner ≠ .ok (.string () text) := by
  rw [contentOf]
  intro same
  split at same <;> split at same
  · simp at same
  · obtain ⟨values, _, other⟩ := Run.map_eq_ok.mp same
    cases other
  · simp at same
  · obtain ⟨elements, _, other⟩ := Run.map_eq_ok.mp same
    cases other

/-- A text parsed as a string is that string, or is blank. -/
theorem treeOf_string {text kept : Text} (parsed : treeOf .checked text = .ok (.string () kept)) :
    kept = [] ∨ kept = text ∧ Reread text := by
  cases reads : read .checked nul nul text with
  | error stop =>
    rw [treeOf_eq, treeStep_error _ reads] at parsed
    cases stop <;> simp at parsed
  | ok found =>
    obtain ⟨value, rest⟩ := found
    cases value with
    | nil =>
      rw [treeOf_eq, treeStep_empty _ reads] at parsed
      cases parsed
      exact .inl rfl
    | cons c value =>
      have noGroup {group : GroupKind} (known : group.Known) : c ≠ group.opening := by
        rintro rfl
        rw [treeOf_group known reads] at parsed
        obtain ⟨inner, _, content⟩ := Run.bind_eq_ok.mp parsed
        exact contentOf_ne_string group inner kept content
      have notBrace : c ≠ '{' := noGroup (.inl rfl)
      have notBracket : c ≠ '[' := noGroup (.inr rfl)
      rw [treeOf_eq, treeStep_string _ notBrace notBracket reads] at parsed
      cases parsed
      exact .inr ⟨rfl, .inr ⟨c, value, rest, reads, notBrace, notBracket⟩⟩

end Trees

end Ztd.Filedat
