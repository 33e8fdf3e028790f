import Ztd.Filedat.Counting
import Ztd.Filedat.Stripping

/-! The offsets of an imported document against the places of its values. -/

namespace Ztd.Filedat
open Ztd.Lib

variable {blanks : BlankRun} {data text : Text}

theorem fits_ofData (room : data.length < 2 ^ 31) : (Placed.ofData data).Fits data 0 := by
  have places : (Placed.ofData data).places = List.range' 0 data.length := List.zipIdx_map_snd 0 data
  refine ⟨?_, fun place member => ?_, by simpa [Placed.ofData] using room, fun mark member => ?_⟩
  · rw [places]
    exact List.pairwise_lt_range'
  · rw [places, List.mem_range'_1] at member
    omega
  · exact List.mem_zipIdx_iff_getElem?.mp member

/-- The chunk of a document, against the places in its data. -/
theorem set_matches (room : data.length < 2 ^ 31) :
    Run.Matches (Chunk.Alike Tracks) (Blames data 0) (set blanks data 0).construct
      (locateData blanks data) := by
  have tracks : Tracks 0 (some ⟨0, true⟩) := by
    intro spot member
    obtain rfl := Option.some.inj member
    exact ⟨Int.le_refl 0, Int.le_refl 0, by simp⟩
  have built := @setFuel_matches data blanks (data.length + 1) (.ofData data) 0 (some ⟨0, true⟩)
    (Int.le_refl 0) tracks (fits_ofData room)
  rwa [Placed.text_ofData] at built

/-- Every value of a map and every element of a list that has text has the place
of its text for an offset. -/
def Records (chunk : Chunkdat) (located : Located) : Prop :=
  ∀ path ≠ [], ∀ sub other spot, chunk.at? path = some sub → located.at? path = some other →
    other.offset = some spot → sub.offset = spot.place

/-- Every value of a map and every element of a list that has text starts at a
straight spot. -/
def Straight (located : Located) : Prop :=
  ∀ path ≠ [], ∀ other spot, located.at? path = some other → other.offset = some spot →
    spot.straight = true

theorem records_iff {chunk : Chunkdat} {located : Located} (alike : chunk.Alike Tracks located) :
    Records chunk located ↔ Straight located := by
  constructor
  · intro records path below other spot here is
    have same := alike.at? path
    rw [here] at same
    cases found : chunk.at? path with
    | none =>
      rw [found] at same
      cases same
    | some sub =>
      rw [found] at same
      cases same with
      | some same => exact (same.offset spot is).exact.mp (records path below sub other spot found here is)
  · intro straight path below sub other spot found here is
    have same := alike.at? path
    rw [found, here] at same
    cases same with
    | some same => exact (same.offset spot is).exact.mpr (straight path below other spot here is)

theorem importString_returned {file after : Ztd.Filedat} {chunk : Chunkdat}
    (imported : file.importString blanks data = (after, none)) (held : after.dataChunk = some chunk) :
    removeComments data = .ok after.data ∧ (set blanks after.data 0).construct = .ok chunk := by
  rw [Filedat.importString, Filedat.generateChunk] at imported
  cases comments : removeComments data with
  | error stop => cases stop <;> simp [comments, Filedat.failed] at imported
  | ok text =>
    cases built : (set blanks text 0).construct with
    | error stop => cases stop <;> simp [comments, built, Filedat.failed] at imported
    | ok made =>
      simp only [comments, built, Prod.mk.injEq, and_true] at imported
      subst imported
      obtain rfl := Option.some.inj held
      exact ⟨rfl, built⟩

/-- An imported document has its places, and its offsets are these places if and only if
every spot is straight: no value of a map has text, and in front of no element of a list
has a quote mark or a backslash been taken out. -/
theorem importString_records_iff (room : data.length < 2 ^ 31) {file after : Ztd.Filedat}
    {chunk : Chunkdat} (imported : file.importString blanks data = (after, none))
    (held : after.dataChunk = some chunk) :
    ∃ located, locateData blanks after.data = .ok located ∧ located.tree = chunk.tree ∧
      (Records chunk located ↔ Straight located) := by
  obtain ⟨comments, built⟩ := importString_returned imported held
  have shorter := strip_length (removeComments_ok (by omega) comments)
  have same : Run.Matches (Chunk.Alike Tracks) (Blames after.data 0) _ (locateData blanks after.data) :=
    set_matches (by omega)
  rw [built] at same
  cases is : locateData blanks after.data with
  | error stop =>
    rw [is] at same
    cases stop <;> exact same.elim
  | ok located =>
    rw [is] at same
    exact ⟨located, rfl, same.tree.symm, records_iff same⟩

/-- `[a,b]`: both elements have their places. -/
theorem importString_records_iff_list : ∃ located,
    locateData .unchecked ['[', 'a', ',', 'b', ']'] = .ok located ∧
      located.tree = .list () [.string () ['a'], .string () ['b']] ∧
      (Records (.list 0 [.string 1 ['a'], .string 3 ['b']]) located ↔ Straight located) :=
  @importString_records_iff .unchecked ['[', 'a', ',', 'b', ']'] (by decide) {} _ _ rfl rfl

/-- The value of `{a=b}` is said to be where its key is. -/
theorem importString_misplaces_value :
    ¬ ∀ (blanks : BlankRun) (data : Text) (file after : Ztd.Filedat) (chunk : Chunkdat)
      (located : Located), data.length < 2 ^ 31 →
      file.importString blanks data = (after, none) → after.dataChunk = some chunk →
      locateData blanks after.data = .ok located → Records chunk located := by
  intro records
  have spot : ((locateData .unchecked ['{', 'a', '=', 'b', '}']).toOption.bind
      (·.at? [.key ['a']])).map Chunk.offset = some (some ⟨3, false⟩) := by decide +kernel
  cases is : locateData .unchecked ['{', 'a', '=', 'b', '}'] with
  | error stop => simp [is, Except.toOption] at spot
  | ok located =>
    obtain ⟨other, here, offset⟩ : ∃ other, located.at? [.key ['a']] = some other ∧
        other.offset = some ⟨3, false⟩ := by simpa [is, Except.toOption] using spot
    have place := records .unchecked ['{', 'a', '=', 'b', '}'] {} _ _ located (by decide) rfl rfl is
      [.key ['a']] (List.cons_ne_nil _ _) (.string 1 ['b']) other ⟨3, false⟩ rfl here offset
    exact absurd place (by decide)

end Ztd.Filedat
