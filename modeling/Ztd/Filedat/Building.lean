import Ztd.Filedat.Editing

/-! `chunkdat::set` on a string in memory. The chunk becomes the one its text says;
where that throws, the containers of the chunks that were being constructed are
lost, because a constructor that throws has no destructor behind it. -/

namespace Ztd.Filedat
open Ztd.Lib Ztd.Lib.Assertion

namespace Memory

section Parsing
variable (allocator : Allocator Cell) (blanks : BlankRun)

/-- `new chunkdat(value, offset, parent)`, by how the text is set: an exception
frees the object, whose destructor does not run. -/
def constructWith (setText : Nat → Text → Int → Code Unit) (value : Text) (offset : Int) :
    Code Nat := do
  let this ← Heap.alloc allocator (.chunkdat 0 none)
  Act.onThrow (setText this value offset) (Heap.free this)
  pure this

section Rounds
variable (construct : Text → Int → Code Nat) (input : Text) (offset : Int) (tch : Nat)

/-- One round of the map loop: the rest and where it starts. -/
def mapEntry (str : Text) (i : Int) : Code (Text × Int) := do
  let p ← Act.lift (skip str)
  let first ← Act.lift (charAt p.1 0)
  if first == '=' then
    Act.raise (formatError (message "Value has no key") [] input (i + p.2))
  else do
    let tup ← Act.lift ((getkeyval blanks str).catchError fun e =>
      Run.raise (formatError e.what e.origin input (i + e.index)))
    let valstart := i + tup.valueStart
    let keystart := i + tup.keyStart
    let i := i + tup.restStart
    if tup.key != [] then do
      Act.catchError (do
          let chk ← construct tup.value (offset + valstart)
          if ← insertKey tch tup.key chk then pure ()
          else do
            delete chk
            Act.raise (formatError (message "Key '" ++ tup.key ++ message "' already present")
              [] input keystart))
        fun e => Act.raise (formatError e.what [] input (e.index + valstart))
      pure (tup.rest, i)
    else pure (tup.rest, i)

def mapLoop : Nat → Text → Int → Code Unit
  | 0, _, _ => Act.diverged
  | fuel + 1, str, i => do
    let (str, i) ← mapEntry blanks construct input offset tch str i
    if str != [] then mapLoop fuel str i else pure ()

/-- One round of the list loop: the rest and where it starts. -/
def listElement (str : Text) (i : Int) : Code (Text × Int) := do
  let tup ← Act.lift ((getstrval blanks str ',' ';').catchError fun e =>
    Run.raise (formatError e.what e.origin input (e.index + i)))
  let valstart := i + tup.valueStart
  let i := i + tup.restStart
  Act.catchError (do
      let chk ← construct tup.value (offset + valstart)
      pushBack tch chk)
    fun e => Act.raise (formatError e.what e.origin input (e.index + valstart))
  pure (tup.rest, i)

def listLoop : Nat → Text → Int → Code Unit
  | 0, _, _ => Act.diverged
  | fuel + 1, str, i => do
    let (str, i) ← listElement blanks construct input offset tch str i
    if str != [] then listLoop fuel str i else pure ()

end Rounds

section Kinds
variable (construct : Text → Int → Code Nat) (input : Text) (offset : Int) (tup : StrVal)
  (this : Nat)

def setMap : Code Unit := do
  let (str, i) ← Act.lift (insideBrackets input tup)
  let tch ← Heap.alloc allocator (.map [])
  setHeld this tch
  let p ← Act.lift (skip str)
  if p.1 == [] then pure ()
  else mapLoop blanks construct input offset tch (str.length + 1) str i

def setList : Code Unit := do
  let (str, i) ← Act.lift (insideBrackets input tup)
  let tch ← Heap.alloc allocator (.list [])
  setHeld this tch
  let p ← Act.lift (skip str)
  if p.1 == [] then pure ()
  else listLoop blanks construct input offset tch (str.length + 1) str i

/-- A `chunk_string` with the value. -/
def setString (val : Text) : Code Unit := do
  let cv ← Heap.alloc allocator (.string val)
  setHeld this cv

end Kinds

/-- `set(std::string const&)`; the fuel bounds the depth of the text. -/
def setTextFuel : Nat → Nat → Text → Int → Code Unit
  | 0, _, _, _ => Act.diverged
  | fuel + 1, this, input, offset => do
    clear this
    Heap.store this (.chunkdat offset none)
    let tup ← Act.lift (getstrval blanks input nul nul)
    let construct := constructWith allocator (setTextFuel fuel)
    match tup.value with
    | [] => setString allocator this []
    | '{' :: _ => setMap allocator blanks construct input offset tup this
    | '[' :: _ => setList allocator blanks construct input offset tup this
    | _ => setString allocator this input

def setText (this : Nat) (input : Text) (offset : Int) : Code Unit :=
  setTextFuel allocator blanks (input.length + 1) this input offset

/-- `new chunkdat(value, offset)` -/
def construct (value : Text) (offset : Int) : Code Nat :=
  constructWith allocator (setText allocator blanks) value offset

end Parsing

section Losing
open Chunk

/-- What a chunk holds, without the chunk. -/
def Detached (chunk : Allocated) : Assertion Cell :=
  ⨆ cell, ⨆ _ : chunk.cell? = some cell ∧ chunk.KeysAscend,
    pointsTo chunk.offset.achunk cell * OwnsAll chunk.children

/-- What chunks held that are not there any more. -/
def Lost : Assertion Cell := ⨆ chunks : List Allocated, (chunks.map Detached).prod

theorem one_le_lost : 1 ≤ Lost := le_iSup_of_le [] le_rfl

theorem lost_mul (P : Assertion Cell) : P ≤ P * Lost :=
  (mul_one P).ge.trans (mul_le_mul_right one_le_lost P)

theorem detached_lost (chunk : Allocated) : Detached chunk * Lost ≤ Lost := by
  rw [Lost, mul_iSup]
  exact iSup_le fun chunks => le_iSup_of_le (chunk :: chunks) (by
    rw [List.map_cons, List.prod_cons])

/-- A chunk is its object and what it holds. -/
theorem owns_le_detached {chunk : Allocated} (filled : chunk.type ≠ .none) :
    Owns chunk ≤ pointsTo chunk.address (.chunkdat chunk.offset.offset
      (some chunk.offset.achunk)) * Detached chunk := by
  cases is : chunk.cell? with
  | none => cases chunk <;> first | exact absurd rfl filled | cases is
  | some cell =>
    rw [owns_some is]
    exact iSup_le fun ascend => mul_le_mul_right
      (le_iSup₂_of_le (f := fun cell (_ : chunk.cell? = some cell ∧ chunk.KeysAscend) =>
        pointsTo chunk.offset.achunk cell * OwnsAll chunk.children) cell ⟨is, ascend⟩ le_rfl) _

/-- How code ends that stops for this reason: an exception leaves what is said. -/
def Stops {α : Type} (left : Assertion Cell) (stop : Stop FormatError) :
    Except (Stop FormatError) α → Assertion Cell :=
  match stop with
  | .thrown _ => endsIn (.error stop) left
  | _ => endsIn (.error stop) ⊤

theorem le_stops {α : Type} {P left : Assertion Cell} (leaves : P ≤ left)
    (stop : Stop FormatError) : P ≤ Stops (α := α) left stop (.error stop) := by
  cases stop with
  | thrown error => exact le_endsIn leaves
  | fault | diverged => exact le_endsIn le_top

/-- Code that stops is not continued. -/
theorem stops_bind {α β : Type} {pre P left after F : Assertion Cell} {act : Code α}
    {next : α → Code β} {stop : Stop FormatError} (first : Triple P act (Stops left stop))
    (split : pre = P * F) (keeps : left * F ≤ after) :
    Triple pre (act >>= next) (Stops after stop) := by
  cases stop with
  | thrown error => exact .stop first F split (le_endsIn keeps)
  | fault | diverged => exact .stop first F split (le_endsIn le_top)

/-- How code ends that does what stateless code does: a result is returned and its
assertion holds, or it stops and something may be lost. -/
def Ends {α β : Type} (before : Assertion Cell) (result : α → β) (now : α → Assertion Cell) :
    Run FormatError α → Except (Stop FormatError) β → Assertion Cell
  | .ok found => endsIn (.ok (result found)) (now found)
  | .error stop => Stops (before * Lost) stop

section Ends
variable {α β δ : Type} {before pre : Assertion Cell} {result : α → β} {now : α → Assertion Cell}
  {act : Code β} {run : Run FormatError α}

theorem raise_ends (error : FormatError) : Triple before (Act.raise error)
    (Ends before result now (Run.raise error)) := .raise (le_endsIn (lost_mul before))

theorem lift_ends {first : Run FormatError δ} {next : δ → Code β} {next' : δ → Run FormatError α}
    (later : ∀ found, first = .ok found →
      Triple before (next found) (Ends before result now (next' found))) :
    Triple before (Act.lift first >>= next) (Ends before result now (first >>= next')) := by
  refine .lift_bind (fun found is => ?_) fun stop is => ?_
  · rw [is, Run.bind_ok]
    exact later found is
  · rw [is, Run.bind_error]
    exact le_stops (lost_mul before) stop

theorem ends_bind {ζ η : Type} {result' : η → ζ} {now' : η → Assertion Cell} {next : β → Code ζ}
    {next' : α → Run FormatError η} (first : Triple pre act (Ends before result now run))
    (later : ∀ found, run = .ok found → Triple (now found) (next (result found))
      (Ends before result' now' (next' found))) :
    Triple pre (act >>= next) (Ends before result' now' (run >>= next')) := by
  cases run with
  | ok found =>
    refine .step first 1 (mul_one _).symm ?_
    rw [mul_one]
    exact later found rfl
  | error stop => exact stops_bind first (mul_one _).symm (mul_one _).le

/-- A handler that throws another exception. -/
theorem rethrow_ends (rename : FormatError → FormatError)
    (does : Triple pre act (Ends before result now run)) :
    Triple pre (act.catchError fun error => Act.raise (rename error))
      (Ends before result now (run.catchError fun error => Run.raise (rename error))) := by
  cases run with
  | ok found =>
    refine .catchError does (fun _ => le_rfl) (fun error => ?_) le_rfl le_rfl
    exact .exists_pre fun same => nomatch same
  | error stop =>
    cases stop with
    | thrown thrown =>
      refine .catchError does (fun value => iSup_le fun same => nomatch same) (fun error => ?_)
        (iSup_le fun same => nomatch same) (iSup_le fun same => nomatch same)
      refine .exists_pre fun same => ?_
      cases same
      exact .raise (le_endsIn le_rfl)
    | fault =>
      exact .catchError does (fun _ => le_rfl)
        (fun error => .exists_pre fun same => nomatch same) le_rfl le_rfl
    | diverged =>
      exact .catchError does (fun _ => le_rfl)
        (fun error => .exists_pre fun same => nomatch same) le_rfl le_rfl

end Ends

/-- The construction of a chunk. -/
def Made : Run FormatError Chunkdat → Except (Stop FormatError) Nat → Assertion Cell
  | .ok chunk => returns fun address => ValueAt address chunk
  | .error stop => Stops Lost stop

end Losing

section Containers
open Chunk

/-- The map has these entries. -/
def MapIs (tch : Nat) (values : List (Text × Chunkdat)) : Assertion Cell :=
  ⨆ now : List (Text × Allocated), ⨆ _ : plainValues now = values ∧ OrderedMap.Sorted now,
    MapAt tch now

/-- The list has these elements. -/
def ListIs (tch : Nat) (elements : List Chunkdat) : Assertion Cell :=
  ⨆ now : List Allocated, ⨆ _ : now.map plain = elements, ListAt tch now

theorem mapAt_le (tch : Nat) {values : List (Text × Allocated)}
    (sorted : OrderedMap.Sorted values) : MapAt tch values ≤ MapIs tch (plainValues values) :=
  le_iSup₂_of_le values ⟨rfl, sorted⟩ le_rfl

theorem listAt_le (tch : Nat) (elements : List Allocated) :
    ListAt tch elements ≤ ListIs tch (elements.map plain) := le_iSup₂_of_le elements rfl le_rfl

section Frame
variable {tch : Nat} {F : Assertion Cell}

theorem mapIs_le {values : List (Text × Chunkdat)} {Q : List (Text × Chunkdat) → Assertion Cell}
    (each : ∀ now, OrderedMap.Sorted now → MapAt tch now * F ≤ Q (plainValues now)) :
    MapIs tch values * F ≤ Q values := by
  simp only [MapIs, iSup_mul]
  exact iSup₂_le fun now is => is.1 ▸ each now is.2

theorem listIs_le {elements : List Chunkdat} {Q : List Chunkdat → Assertion Cell}
    (each : ∀ now, ListAt tch now * F ≤ Q (now.map plain)) : ListIs tch elements * F ≤ Q elements := by
  simp only [ListIs, iSup_mul]
  exact iSup₂_le fun now is => is ▸ each now

end Frame

end Containers

section Rounds
open Chunk
variable (blanks : BlankRun) {construct : Text → Int → Code Nat} {constructed : Construct}
  (builds : ∀ value offset, Triple 1 (construct value offset) (Made (constructed value offset)))
  (input : Text) (offset : Int) (tch : Nat) (str : Text) (i : Int)
include builds

/-- A value is constructed and put into a map. -/
theorem insertMade {values : List (Text × Allocated)} (sorted : OrderedMap.Sorted values)
    (key value : Text) (start : Int) (present : FormatError) :
    Triple (MapAt tch values)
      (do
        let chk ← construct value start
        if ← insertKey tch key chk then pure ()
        else do
          delete chk
          Act.raise present)
      (Ends (MapAt tch values) (fun _ => ()) (MapIs tch) (do
        let chk ← constructed value start
        match OrderedMap.find? key (plainValues values) with
        | .none => pure (OrderedMap.insert key chk (plainValues values))
        | some _ => Run.raise present)) := by
  have makes := builds value start
  cases built : constructed value start with
  | error stop =>
    rw [built] at makes
    exact stops_bind makes (one_mul _).symm (mul_comm _ _).le
  | ok chunk =>
    rw [built] at makes
    refine .step_returns makes _ (one_mul _).symm fun chk => ?_
    simp only [ValueAt, iSup_mul]
    refine .exists_pre fun made => .exists_pre fun is => ?_
    obtain ⟨rfl, rfl⟩ := is
    rw [Run.bind_ok, find?_plainValues]
    cases is : OrderedMap.find? key values with
    | none =>
      refine .step (insertKey_new tch key values made is)
        (Owns made * OwnsAll (values.map Prod.snd)) (by rw [MapAt]; ac_rfl) (.pure (le_endsIn ?_))
      rw [mapAt_insert tch made is]
      exact le_iSup₂_of_le (OrderedMap.insert key made values)
        ⟨insert_plainValues values made, sorted.insert key made⟩ le_rfl
    | some found =>
      refine .step (insertKey_present made.address is)
        (Owns made * OwnsAll (values.map Prod.snd)) (by rw [MapAt]; ac_rfl) ?_
      refine .step (delete_spec made) (MapAt tch values) (by rw [MapAt]; ac_rfl) ?_
      rw [one_mul]
      exact raise_ends present

theorem mapEntry_spec {values : List (Text × Allocated)} (sorted : OrderedMap.Sorted values) :
    Triple (MapAt tch values) (mapEntry blanks construct input offset tch str i)
      (Ends (MapAt tch values) Prod.snd (fun round => MapIs tch round.1)
        (Filedat.mapEntry blanks constructed input offset str i (plainValues values))) := by
  rw [mapEntry, Filedat.mapEntry]
  refine lift_ends fun p _ => lift_ends fun first _ => ?_
  by_cases starts : first == '='
  · rw [if_pos starts, if_pos starts]
    exact raise_ends _
  · rw [if_neg starts, if_neg starts]
    refine lift_ends fun tup _ => ?_
    by_cases named : tup.key != []
    · rw [if_pos named, if_pos named]
      refine ends_bind (rethrow_ends _ (insertMade builds tch sorted _ _ _ _)) fun after _ => ?_
      exact .pure (le_endsIn le_rfl)
    · rw [if_neg named, if_neg named]
      exact .pure (le_endsIn (mapAt_le tch sorted))

/-- How the loop of a container ends, by the entries it has then. -/
def LoopEnds {α : Type} (now : α → Assertion Cell) :
    α × Option (Stop FormatError) → Except (Stop FormatError) Unit → Assertion Cell
  | (after, .none) => endsIn (.ok ()) (now after)
  | (after, some stop) => Stops (now after * Lost) stop

theorem mapLoop_spec (fuel : Nat) {values : List (Text × Allocated)}
    (sorted : OrderedMap.Sorted values) :
    Triple (MapAt tch values) (mapLoop blanks construct input offset tch fuel str i)
      (LoopEnds (MapIs tch)
        (Filedat.mapLoop blanks constructed input offset fuel str i (plainValues values))) := by
  induction fuel generalizing str i values with
  | zero => exact fun frame heap holds => mul_le_mul_left (le_stops le_top .diverged) frame heap holds
  | succ fuel ih =>
    have round := mapEntry_spec blanks builds input offset tch str i sorted
    rw [Filedat.mapLoop]
    cases is : Filedat.mapEntry blanks constructed input offset str i (plainValues values) with
    | error stop =>
      rw [is] at round
      refine stops_bind round (mul_one _).symm ((mul_one _).le.trans ?_)
      exact mul_le_mul_left (mapAt_le tch sorted) _
    | ok found =>
      obtain ⟨after, rest, j⟩ := found
      rw [is] at round
      refine .step round 1 (mul_one _).symm ?_
      rw [mul_one]
      refine .exists_pre fun now => .exists_pre fun same => ?_
      obtain ⟨rfl, ordered⟩ := same
      simp only
      by_cases ended : rest != []
      · rw [if_pos ended, if_pos ended]
        exact ih rest j ordered
      · rw [if_neg ended, if_neg ended]
        exact .pure (le_endsIn (mapAt_le tch ordered))

theorem listElement_spec (elements : List Allocated) :
    Triple (ListAt tch elements) (listElement blanks construct input offset tch str i)
      (Ends (ListAt tch elements) Prod.snd
        (fun round => ListIs tch (elements.map plain ++ [round.1]))
        (Filedat.listElement blanks constructed input offset str i)) := by
  rw [listElement, Filedat.listElement]
  refine lift_ends fun tup _ => ?_
  have makes (value : Text) (start : Int) : Triple (ListAt tch elements)
      (do
        let chk ← construct value start
        pushBack tch chk)
      (Ends (ListAt tch elements) (fun _ => ())
        (fun made => ListIs tch (elements.map plain ++ [made])) (constructed value start)) := by
    have makes := builds value start
    cases built : constructed value start with
    | error stop =>
      rw [built] at makes
      exact stops_bind makes (one_mul _).symm (mul_comm _ _).le
    | ok chunk =>
      rw [built] at makes
      refine .step_returns makes _ (one_mul _).symm fun chk => ?_
      simp only [ValueAt, iSup_mul]
      refine .exists_pre fun made => .exists_pre fun is => ?_
      obtain ⟨rfl, rfl⟩ := is
      refine .step .load (Owns made * OwnsAll elements) (by rw [ListAt]; ac_rfl) ?_
      refine .last (.store _) _ rfl (le_iSup₂_of_le (elements ++ [made]) (by simp) (le_of_eq ?_))
      simp only [ListAt, List.map_append, List.map_cons, List.map_nil, ownsAll_append,
        ownsAll_cons, ownsAll_nil, mul_one]
      ac_rfl
  refine ends_bind (rethrow_ends _ (makes _ _)) fun made _ => ?_
  exact .pure (le_endsIn le_rfl)

theorem listLoop_spec (fuel : Nat) (elements : List Allocated) :
    Triple (ListAt tch elements) (listLoop blanks construct input offset tch fuel str i)
      (LoopEnds (ListIs tch)
        (Filedat.listLoop blanks constructed input offset fuel str i (elements.map plain))) := by
  induction fuel generalizing str i elements with
  | zero => exact fun frame heap holds => mul_le_mul_left (le_stops le_top .diverged) frame heap holds
  | succ fuel ih =>
    have round := listElement_spec blanks builds input offset tch str i elements
    rw [Filedat.listLoop]
    cases is : Filedat.listElement blanks constructed input offset str i with
    | error stop =>
      rw [is] at round
      refine stops_bind round (mul_one _).symm ((mul_one _).le.trans ?_)
      exact mul_le_mul_left (listAt_le tch elements) _
    | ok found =>
      obtain ⟨element, rest, j⟩ := found
      rw [is] at round
      refine .step round 1 (mul_one _).symm ?_
      rw [mul_one]
      refine .exists_pre fun now => .exists_pre fun same => ?_
      simp only
      rw [← same]
      by_cases ended : rest != []
      · rw [if_pos ended, if_pos ended]
        exact ih rest j now
      · rw [if_neg ended, if_neg ended]
        exact .pure (le_endsIn (listAt_le tch now))

end Rounds

section Setting
open Chunk
variable {allocator : Allocator Cell} {blanks : BlankRun}

/-- What setting a text may lose, by the chunk it leaves: nothing unless the chunk got
a map or a list. -/
def losses (chunk : Chunkdat) : Assertion Cell := if chunk.type = .none then 1 else Lost

/-- How setting the text of a chunk ends. -/
def Sets (address : Nat) : Setting → Except (Stop FormatError) Unit → Assertion Cell
  | (chunk, .none) => endsIn (.ok ()) (ValueAt address chunk)
  | (chunk, some stop) => Stops (ValueAt address chunk * losses chunk) stop

/-- How constructing a chunk from a text ends: it keeps nothing of what throws. -/
def Constructs : Setting → Except (Stop FormatError) Nat → Assertion Cell
  | (chunk, .none) => returns fun address => ValueAt address chunk
  | (chunk, some stop) => Stops (if chunk.type = .none then 1 else
      ⨆ copy : Allocated, ⨆ _ : copy.plain = chunk, Detached copy * Lost) stop

theorem constructs_made (setting : Setting) (outcome : Except (Stop FormatError) Nat) :
    Constructs setting outcome ≤ Made setting.construct outcome := by
  obtain ⟨chunk, stop⟩ := setting
  rcases stop with _ | error | _ | _
  · exact le_rfl
  · refine iSup_mono fun _ => ?_
    split
    · exact one_le_lost
    · exact iSup₂_le fun copy _ => detached_lost copy
  · exact le_rfl
  · exact le_rfl

theorem constructWith_spec {setText : Nat → Text → Int → Code Unit} {value : Text}
    {offset : Int} {setting : Setting}
    (sets : ∀ slot : Slot, Triple (Owns (.none slot)) (setText slot.address value offset)
      (Sets slot.address setting)) :
    Triple 1 (constructWith allocator setText value offset) (Constructs setting) := by
  refine .step_returns (.alloc allocator _) 1 (mul_one _).symm fun this => ?_
  have sets := sets ⟨0, this, 0⟩
  rw [owns_none] at sets
  rw [mul_one]
  obtain ⟨chunk, stop⟩ := setting
  rcases stop with _ | error | _ | _
  · refine .step (.onThrow sets fun _ thrown => by cases thrown) 1 (mul_one _).symm (.pure (mul_one _).le)
  · have freed : Triple (ValueAt this chunk * losses chunk) (Heap.free this : Code Unit)
        (endsIn (.ok ()) (if chunk.type = .none then 1 else
          ⨆ copy : Allocated, ⨆ _ : copy.plain = chunk, Detached copy * Lost)) := by
      simp only [ValueAt, iSup_mul]
      refine .exists_pre fun copy => .exists_pre fun copied => ?_
      obtain ⟨rfl, rfl⟩ := copied
      rw [losses, plain_type]
      by_cases empty : copy.type = .none
      · rw [if_pos empty, if_pos empty, mul_one]
        cases copy with
        | none slot =>
          rw [owns_none]
          exact .free
        | string | map | list => cases empty
      · rw [if_neg empty, if_neg empty]
        refine .consequence (.last .free (Detached copy * Lost) rfl ?_)
          ((mul_le_mul_left (owns_le_detached empty) _).trans (mul_assoc ..).le) fun _ => le_rfl
        exact (one_mul _).le.trans (le_iSup₂_of_le (f := fun (other : Allocated)
          (_ : other.plain = copy.plain) => Detached other * Lost) copy rfl le_rfl)
    exact .stop (.onThrow_thrown sets freed) 1 (mul_one _).symm (le_endsIn (mul_one _).le)
  · exact .stop (.onThrow sets (by intro _ thrown; cases thrown)) 1 (mul_one _).symm (le_endsIn le_top)
  · exact .stop (.onThrow sets (by intro _ thrown; cases thrown)) 1 (mul_one _).symm (le_endsIn le_top)

theorem setString_spec (slot : Slot) (val : Text) :
    Triple (Owns (.none slot)) (setString allocator slot.address val)
      (endsIn (.ok ()) (ValueAt slot.address (.string slot.offset val))) := by
  refine .step_returns (.alloc allocator _) _ (one_mul _).symm fun cv => ?_
  refine .last (setHeld_spec slot cv (.string val) []) 1
    (by simp only [ownsAll_nil, mul_one]; ac_rfl) ?_
  rw [mul_one]
  have plain_ : plain (.string { slot with achunk := cv } val) = .string slot.offset val := rfl
  exact (body_le (.string { slot with achunk := cv } val) rfl trivial).trans
    (owns_le_valueAt plain_)

/-- The loop of a container that a chunk holds. -/
theorem loop_sets {α : Type} {P F : Assertion Cell} {act : Code Unit} {now : α → Assertion Cell}
    {after : α} {stop : Option (Stop FormatError)} {address : Nat} {chunk : Chunkdat}
    (loops : Triple P act (LoopEnds now (after, stop))) (filled : chunk.type ≠ .none)
    (holds : now after * F ≤ ValueAt address chunk) :
    Triple (P * F) act (Sets address (chunk, stop)) := by
  rcases stop with _ | error | _ | _
  · exact .last loops F rfl holds
  · refine .last loops F rfl ?_
    rw [losses, if_neg filled]
    exact le_trans (le_of_eq (by ac_rfl)) (mul_le_mul_left holds Lost)
  · exact .last loops F rfl le_top
  · exact .last loops F rfl le_top

section Kinds
variable {construct : Text → Int → Code Nat} {constructed : Construct}
  (builds : ∀ value offset, Triple 1 (construct value offset) (Made (constructed value offset)))
  (slot : Slot) (input : Text) (tup : StrVal)
include builds

theorem setMap_spec : Triple (Owns (.none slot))
    (setMap allocator blanks construct input slot.offset tup slot.address)
    (Sets slot.address (Filedat.setMap blanks constructed input slot.offset tup)) := by
  rw [setMap, Filedat.setMap]
  refine .lift_bind (fun found is => ?_) fun stop is => ?_
  · obtain ⟨str, i⟩ := found
    rw [is]
    refine .step_returns (.alloc allocator _) _ (one_mul _).symm fun tch => ?_
    refine .step (setHeld_spec slot tch (.map []) []) 1
      (by simp only [ownsAll_nil, mul_one]; ac_rfl) ?_
    rw [mul_one]
    have entries (now : List (Text × Allocated)) (sorted : OrderedMap.Sorted now) :
        MapAt tch now * pointsTo slot.address (.chunkdat slot.offset (some tch)) ≤
          ValueAt slot.address (.map slot.offset (plainValues now)) := by
      have plain_ : plain (.map { slot with achunk := tch } now) =
          .map slot.offset (plainValues now) := plain_map ..
      refine le_trans (le_of_eq ?_) ((body_le (.map { slot with achunk := tch } now) rfl
        sorted).trans (owns_le_valueAt plain_))
      simp only [MapAt, Body, children, offset]
      ac_rfl
    have empty : Body { slot with achunk := tch } (.map []) [] ≤
        ValueAt slot.address (.map slot.offset []) := by
      refine le_trans (le_of_eq ?_) (entries [] .nil)
      simp only [MapAt, Body, List.map_nil, ownsAll_nil, mul_one]
      ac_rfl
    refine .lift_bind (fun p skips => ?_) fun stop skips => ?_
    · simp only [skips]
      by_cases nothing : p.1 == []
      · rw [if_pos nothing, if_pos nothing]
        exact .pure (le_endsIn empty)
      · rw [if_neg nothing, if_neg nothing]
        have loops := mapLoop_spec blanks builds input slot.offset tch str i (str.length + 1)
          OrderedMap.Sorted.nil
        refine .consequence (loop_sets (F := pointsTo slot.address (.chunkdat slot.offset
          (some tch))) loops (by simp [Chunk.type]) (mapIs_le
          (Q := fun values => ValueAt slot.address (.map slot.offset values)) entries))
          (le_of_eq ?_) fun _ => le_rfl
        · simp only [MapAt, Body, pointers, List.map_nil, ownsAll_nil, mul_one]
          ac_rfl
    · simp only [skips]
      exact le_stops (empty.trans (lost_mul _)) stop
  · rw [is]
    exact le_stops ((owns_le_valueAt rfl).trans (mul_one _).ge) stop

theorem setList_spec : Triple (Owns (.none slot))
    (setList allocator blanks construct input slot.offset tup slot.address)
    (Sets slot.address (Filedat.setList blanks constructed input slot.offset tup)) := by
  rw [setList, Filedat.setList]
  refine .lift_bind (fun found is => ?_) fun stop is => ?_
  · obtain ⟨str, i⟩ := found
    rw [is]
    refine .step_returns (.alloc allocator _) _ (one_mul _).symm fun tch => ?_
    refine .step (setHeld_spec slot tch (.list []) []) 1
      (by simp only [ownsAll_nil, mul_one]; ac_rfl) ?_
    rw [mul_one]
    have entries (now : List Allocated) :
        ListAt tch now * pointsTo slot.address (.chunkdat slot.offset (some tch)) ≤
          ValueAt slot.address (.list slot.offset (now.map plain)) := by
      have plain_ : plain (.list { slot with achunk := tch } now) =
          .list slot.offset (now.map plain) := plain_list ..
      refine le_trans (le_of_eq ?_) ((body_le (.list { slot with achunk := tch } now) rfl
        trivial).trans (owns_le_valueAt plain_))
      simp only [ListAt, Body, children, offset]
      ac_rfl
    have empty : Body { slot with achunk := tch } (.list []) [] ≤
        ValueAt slot.address (.list slot.offset []) := by
      refine le_trans (le_of_eq ?_) (entries [])
      simp only [ListAt, Body, List.map_nil, ownsAll_nil, mul_one]
      ac_rfl
    refine .lift_bind (fun p skips => ?_) fun stop skips => ?_
    · simp only [skips]
      by_cases nothing : p.1 == []
      · rw [if_pos nothing, if_pos nothing]
        exact .pure (le_endsIn empty)
      · rw [if_neg nothing, if_neg nothing]
        have loops := listLoop_spec blanks builds input slot.offset tch str i (str.length + 1) []
        refine .consequence (loop_sets (F := pointsTo slot.address (.chunkdat slot.offset
          (some tch))) loops (by simp [Chunk.type]) (listIs_le
          (Q := fun elements => ValueAt slot.address (.list slot.offset elements)) entries))
          (le_of_eq ?_) fun _ => le_rfl
        · simp only [ListAt, Body, List.map_nil, ownsAll_nil, mul_one]
          ac_rfl
    · simp only [skips]
      exact le_stops (empty.trans (lost_mul _)) stop
  · rw [is]
    exact le_stops ((owns_le_valueAt rfl).trans (mul_one _).ge) stop

end Kinds

theorem setTextFuel_spec (fuel : Nat) (this : Allocated) (input : Text) (offset : Int) :
    Triple (Owns this) (setTextFuel allocator blanks fuel this.address input offset)
      (Sets this.address (setFuel blanks fuel input offset)) := by
  induction fuel generalizing this input offset with
  | zero => exact fun frame heap holds => mul_le_mul_left (le_stops le_top .diverged) frame heap holds
  | succ fuel ih =>
    have builds (value : Text) (offset : Int) :
        Triple 1 (constructWith allocator (setTextFuel allocator blanks fuel) value offset)
          (Made (setFuel blanks fuel value offset).construct) :=
      .consequence (constructWith_spec fun slot => ih (.none slot) value offset) le_rfl
        (constructs_made _)
    let slot : Slot := ⟨offset, this.address, 0⟩
    have empties : Owns (.none slot) = pointsTo this.address (.chunkdat offset .none) := owns_none slot
    refine .step (clear_spec this) 1 (mul_one _).symm ?_
    rw [mul_one, owns_none]
    refine .step (.store _) 1 (mul_one _).symm ?_
    rw [mul_one, ← empties]
    rw [setFuel]
    refine .lift_bind (fun tup is => ?_) fun stop is => ?_
    · simp only [is]
      cases value : tup.value with
      | nil => exact setString_spec slot []
      | cons c rest =>
        by_cases brace : c = '{'
        · subst brace
          simp only
          exact setMap_spec builds slot input tup
        by_cases bracket : c = '['
        · subst bracket
          simp only
          exact setList_spec builds slot input tup
        · simp only [List.cons.injEq, brace, bracket, false_and, imp_false, not_false_eq_true,
            implies_true]
          exact setString_spec slot input
    · simp only [is]
      exact le_stops ((owns_le_valueAt rfl).trans (mul_one _).ge) stop

/-- `set` on a string does in memory what it does on values. -/
theorem setText_spec (allocator : Allocator Cell) (blanks : BlankRun) (this : Allocated) (input : Text) (offset : Int) :
    Triple (Owns this) (setText allocator blanks this.address input offset)
      (Sets this.address (set blanks input offset)) := setTextFuel_spec _ this input offset

theorem construct_spec (allocator : Allocator Cell) (blanks : BlankRun) (input : Text) (offset : Int) :
    Triple 1 (construct allocator blanks input offset) (Constructs (set blanks input offset)) :=
  constructWith_spec fun slot => setText_spec allocator blanks (.none slot) input offset

end Setting

end Memory

end Ztd.Filedat
