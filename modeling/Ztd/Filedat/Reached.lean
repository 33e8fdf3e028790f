import Ztd.Filedat.Meaning
import Ztd.Filedat.Overread
import Ztd.Lib.Trace

/-! The places a parse comes to, and those where it leaves its objects. -/

namespace Ztd.Filedat
open Ztd.Lib

/-- Where a parse is: in front of a text to set, in the loop of a map, with the
values it has so far, or in the loop of a list. -/
inductive Site where
  | chunk (text : Text)
  | entries (str : Text) (values : List (Text × Tree))
  | elements (str : Text)

/-- Where a parse goes on from a place, into a text below or to the next round. -/
inductive Proceeds (blanks : BlankRun) : Site → Site → Prop where
  | map {text inner rest str : Text} (reads : read blanks nul nul text = .ok ('{' :: inner, rest))
      (inside : insideOf inner rest = .ok str) (filled : dropUnread str ≠ []) :
      Proceeds blanks (.chunk text) (.entries str [])
  | list {text inner rest str : Text} (reads : read blanks nul nul text = .ok ('[' :: inner, rest))
      (inside : insideOf inner rest = .ok str) (filled : dropUnread str ≠ []) :
      Proceeds blanks (.chunk text) (.elements str)
  | value {str key value rest : Text} {values : List (Text × Tree)}
      (found : entryOf blanks str = .ok (some (key, value), rest)) :
      Proceeds blanks (.entries str values) (.chunk value)
  | entries {str rest : Text} {values after : List (Text × Tree)}
      (round : mapRound blanks (treeOf blanks) str values = .ok (after, rest)) (more : rest ≠ []) :
      Proceeds blanks (.entries str values) (.entries rest after)
  | element {str value rest : Text} (reads : read blanks ',' ';' str = .ok (value, rest)) :
      Proceeds blanks (.elements str) (.chunk value)
  | elements {str rest : Text} {tree : Tree}
      (round : listRound blanks (treeOf blanks) str = .ok (tree, rest)) (more : rest ≠ []) :
      Proceeds blanks (.elements str) (.elements rest)

/-- The text is a quoted bracket and nothing else: both ends are taken off one
character. -/
def Lone (text : Text) : Prop :=
  ∃ c rest, read .checked nul nul text = .ok ([c], rest) ∧ (c = '{' ∨ c = '[') ∧
    dropUnread rest = []

/-- What is read for a value over-reads. -/
def Site.OverReads : Site → Prop
  | .chunk _ => False
  | .entries str _ => (dropUnread str).head? ≠ some '=' ∧ ∃ c key rstr,
      read .unchecked '=' nul str = .ok (c :: key, rstr) ∧ c ≠ ';' ∧
        Filedat.OverReads ';' '\n' (dropUnread rstr)
  | .elements str => Filedat.OverReads ',' ';' (dropUnread str)

/-- The parse leaves its objects at this place. -/
def Site.Faulty (blanks : BlankRun) (site : Site) : Prop :=
  (∃ text, site = .chunk text ∧ Lone text) ∨ blanks = .unchecked ∧ site.OverReads

/-- How the parse ends that starts at a place. -/
def Site.outcome (blanks : BlankRun) : Site → Run Unit Unit
  | .chunk text => (treeOf blanks text).map fun _ => ()
  | .entries str values => (entriesOf blanks (treeOf blanks) str values).map fun _ => ()
  | .elements str => (elementsOf blanks (treeOf blanks) str).map fun _ => ()

/-- A measure that every step lowers. -/
def Site.size : Site → Nat
  | .chunk text => 2 * text.length
  | .entries str _ | .elements str => 2 * str.length + 1

variable {blanks : BlankRun}

theorem Proceeds.shrinks {site next : Site} (step : Proceeds blanks site next) :
    next.size < site.size := by
  cases step with
  | map reads inside _ | list reads inside _ =>
    have size := (read_length reads).1
    have shorter := insideOf_length inside
    simp only [Site.size, List.length_cons] at size ⊢
    omega
  | value found =>
    have shorter := (entryOf_length found).1 _ rfl
    simp only [Site.size] at shorter ⊢
    omega
  | entries round more =>
    have shorter := mapRound_length round more
    simp only [Site.size]
    omega
  | element reads =>
    have shorter := (read_length reads).1
    simp only [Site.size]
    omega
  | elements round more =>
    have shorter := listRound_length round more
    simp only [Site.size]
    omega

theorem proceeds_ends (blanks : BlankRun) :
    WellFounded fun later earlier => Proceeds blanks earlier later :=
  Subrelation.wf (fun step => step.shrinks) (InvImage.wf Site.size Nat.lt_wfRel.wf)

section Steps
variable {stop : Stop Unit}

theorem insideOf_eq_error (notThrown : stop ≠ .thrown ()) {inner rest : Text} :
    insideOf inner rest = .error stop ↔ stop = .fault ∧ inner = [] ∧ dropUnread rest = [] := by
  rw [insideOf]
  split
  · split
    · rename_i follows empty
      simp only [Run.fault, Except.error.injEq, empty, follows, and_self, and_true]
      exact eq_comm
    · rename_i nonempty
      simp [nonempty]
  · rename_i follows
    simp only [Run.raise, Except.error.injEq, follows, and_false, iff_false]
    exact fun same => notThrown same.symm

theorem lone_iff {c : Char} {text inner rest : Text} (bracket : c = '{' ∨ c = '[')
    (reads : read blanks nul nul text = .ok (c :: inner, rest)) :
    Lone text ↔ inner = [] ∧ dropUnread rest = [] := by
  rw [read_whole] at reads
  constructor
  · rintro ⟨d, after, found, _, follows⟩
    obtain ⟨same, rfl⟩ := Prod.mk.inj (Except.ok.inj (reads.symm.trans found))
    exact ⟨(List.cons.inj same).2, follows⟩
  · rintro ⟨rfl, follows⟩
    exact ⟨c, rest, reads, bracket, follows⟩

/-- Only brackets lead on from a text, and only they can be alone. -/
theorem bracket_of_reason {text : Text}
    (reason : Lone text ∨ ∃ next, Proceeds blanks (.chunk text) next) :
    ∃ c inner rest, read blanks nul nul text = .ok (c :: inner, rest) ∧ (c = '{' ∨ c = '[') := by
  rcases reason with ⟨c, rest, reads, bracket, _⟩ | ⟨next, step⟩
  · exact ⟨c, [], rest, (read_whole blanks text).trans reads, bracket⟩
  · cases step with
    | map reads => exact ⟨_, _, _, reads, .inl rfl⟩
    | list reads => exact ⟨_, _, _, reads, .inr rfl⟩

/-- In front of what is between the brackets of a group. -/
def Site.inside (group : GroupKind) (str : Text) : Site :=
  if group.opening = '{' then .entries str [] else .elements str

section Group
variable {group : GroupKind} (known : group.Known) {text inner rest : Text}
  (reads : read blanks nul nul text = .ok (group.opening :: inner, rest))

include known reads

theorem proceeds_group {next : Site} : Proceeds blanks (.chunk text) next ↔
    ∃ str, insideOf inner rest = .ok str ∧ dropUnread str ≠ [] ∧ next = .inside group str := by
  constructor
  · intro step
    cases step with
    | map found inside filled | list found inside filled =>
      obtain ⟨same, rfl⟩ := Prod.mk.inj (Except.ok.inj (reads.symm.trans found))
      obtain ⟨opening, rfl⟩ := List.cons.inj same
      refine ⟨_, inside, filled, ?_⟩
      rw [Site.inside, opening]
      rfl
  · rintro ⟨str, inside, filled, rfl⟩
    rcases known with rfl | rfl
    · exact .map reads inside filled
    · exact .list reads inside filled

theorem contentOf_eq_error {str : Text} : contentOf blanks group str = .error stop ↔
    dropUnread str ≠ [] ∧ (Site.inside group str).outcome blanks = .error stop := by
  by_cases blank : dropUnread str = []
  · rcases known with rfl | rfl <;> simp [contentOf, blank, brace, bracket]
  · rcases known with rfl | rfl <;>
      simp [contentOf, Site.inside, Site.outcome, blank, brace, bracket, Run.map_eq_error]

/-- A group ends early where it is alone, or where what is inside of it does. -/
theorem group_step (notThrown : stop ≠ .thrown ()) :
    (Site.chunk text).outcome blanks = .error stop ↔ (stop = .fault ∧ Lone text) ∨
      ∃ next, Proceeds blanks (.chunk text) next ∧ next.outcome blanks = .error stop := by
  have mark : group.opening = '{' ∨ group.opening = '[' := by
    rcases known with rfl | rfl
    · exact .inl rfl
    · exact .inr rfl
  rw [Site.outcome, Run.map_eq_error, treeOf_group known reads, Run.bind_eq_error,
    insideOf_eq_error notThrown, lone_iff mark reads]
  refine or_congr Iff.rfl ?_
  constructor
  · rintro ⟨str, inside, ends⟩
    obtain ⟨filled, ends⟩ := (contentOf_eq_error known reads).mp ends
    exact ⟨_, (proceeds_group known reads).mpr ⟨str, inside, filled, rfl⟩, ends⟩
  · rintro ⟨next, step, ends⟩
    obtain ⟨str, inside, filled, rfl⟩ := (proceeds_group known reads).mp step
    exact ⟨str, inside, (contentOf_eq_error known reads).mpr ⟨filled, ends⟩⟩

end Group

theorem chunk_step (notThrown : stop ≠ .thrown ()) (text : Text) :
    (Site.chunk text).outcome blanks = .error stop ↔
      (stop = .fault ∧ Lone text) ∨
        ∃ next, Proceeds blanks (.chunk text) next ∧ next.outcome blanks = .error stop := by
  have none (ends : treeOf blanks text ≠ .error stop)
      (plain : ∀ c inner rest, read blanks nul nul text = .ok (c :: inner, rest) →
        ¬(c = '{' ∨ c = '[')) :
      (Site.chunk text).outcome blanks = .error stop ↔ (stop = .fault ∧ Lone text) ∨
        ∃ next, Proceeds blanks (.chunk text) next ∧ next.outcome blanks = .error stop := by
    rw [Site.outcome, Run.map_eq_error]
    refine iff_of_false ends ?_
    rintro (⟨_, lone⟩ | ⟨next, step, _⟩)
    · obtain ⟨c, inner, rest, reads, bracket⟩ := bracket_of_reason (.inl lone)
      exact plain c inner rest reads bracket
    · obtain ⟨c, inner, rest, reads, bracket⟩ := bracket_of_reason (.inr ⟨next, step⟩)
      exact plain c inner rest reads bracket
  cases reads : read blanks nul nul text with
  | error other =>
    rcases read_halts reads with ⟨unclosed, rfl⟩ | ⟨_, _, whole, _⟩
    · refine none ?_ (by simp [reads])
      rw [treeOf_eq, treeStep_error _ reads]
      exact fun same => notThrown (Except.error.inj same).symm
    · exact absurd rfl whole
  | ok found =>
    obtain ⟨value, rest⟩ := found
    cases value with
    | nil =>
      refine none ?_ (by simp [reads])
      simp [treeOf_eq, treeStep_empty _ reads]
    | cons c inner =>
      by_cases map : c = '{'
      · subst map
        exact group_step (show brace.Known from .inl rfl) reads notThrown
      · by_cases list : c = '['
        · subst list
          exact group_step (show bracket.Known from .inr rfl) reads notThrown
        · refine none ?_ ?_
          · simp [treeOf_eq, treeStep_string _ map list reads]
          · intro d inner rest found
            obtain ⟨⟨rfl, _⟩, _⟩ := by simpa [reads] using found
            simp [map, list]

/-- A read that ends early without an exception over-reads. -/
theorem read_eq_error (notThrown : stop ≠ .thrown ()) {delim altdelim : Char} {str : Text}
    (delimited : delim ≠ nul) (notNul : isDelim delim altdelim nul = false) :
    Run.forget (read blanks delim altdelim str) = .error stop ↔
      stop = .fault ∧ blanks = .unchecked ∧ OverReads delim altdelim (dropUnread str) := by
  constructor
  · intro ends
    cases reads : read blanks delim altdelim str with
    | ok found => simp [reads] at ends
    | error other =>
      rw [reads] at ends
      rcases read_halts reads with ⟨unclosed, rfl⟩ | ⟨rfl, rfl, _⟩
      · exact absurd (Except.error.inj ends).symm notThrown
      · exact ⟨(Except.error.inj ends).symm, rfl, (read_fault_iff delimited notNul).mp reads⟩
  · rintro ⟨rfl, rfl, overReads⟩
    rw [(read_fault_iff delimited notNul).mpr overReads]
    rfl

theorem pairOf_eq_error (notThrown : stop ≠ .thrown ()) {key rstr : Text} :
    pairOf blanks key rstr = .error stop ↔
      (∃ c later, key = c :: later ∧ c ≠ ';') ∧
        stop = .fault ∧ blanks = .unchecked ∧ OverReads ';' '\n' (dropUnread rstr) := by
  have raised {α : Type} : (Run.raise () : Run Unit α) ≠ .error stop :=
    fun same => notThrown (Except.error.inj same).symm
  cases key with
  | nil =>
    rw [pairOf]
    refine iff_of_false ?_ (by simp)
    split
    · simp
    · exact raised
  | cons c key =>
    rw [pairOf]
    by_cases semicolon : c = ';'
    · simp [semicolon]
    · rw [if_neg semicolon, ← read_eq_error notThrown (by decide) (by decide)]
      have starts : ∃ d later, c :: key = d :: later ∧ d ≠ ';' := ⟨c, key, rfl, semicolon⟩
      simp only [starts, true_and]
      by_cases ends : rstr = []
      · rw [if_pos ends]
        refine iff_of_false raised ?_
        rw [ends, read_blank rfl]
        simp
      · rw [if_neg ends, Run.map_eq_error]

theorem entryOf_eq_error (notThrown : stop ≠ .thrown ()) (str : Text)
    (values : List (Text × Tree)) :
    entryOf blanks str = .error stop ↔
      stop = .fault ∧ blanks = .unchecked ∧ (Site.entries str values).OverReads := by
  have raised {α : Type} : (Run.raise () : Run Unit α) ≠ .error stop :=
    fun same => notThrown (Except.error.inj same).symm
  by_cases starts : (dropUnread str).head? = some '='
  · rw [entryOf, if_pos starts]
    exact iff_of_false raised fun reason => reason.2.2.1 starts
  · rw [entryOf, if_neg starts, Run.bind_eq_error]
    constructor
    · rintro (ends | ⟨⟨key, rstr⟩, reads, ends⟩)
      · cases reads : read blanks '=' nul str with
        | ok found => simp [reads] at ends
        | error other =>
          rcases read_halts reads with ⟨unclosed, rfl⟩ | ⟨_, _, _, notNul⟩
          · rw [reads] at ends
            exact absurd ends raised
          · simp [isDelim] at notNul
      · obtain ⟨⟨c, later, rfl, notSemicolon⟩, rfl, rfl, overReads⟩ :=
          (pairOf_eq_error notThrown).mp ends
        exact ⟨rfl, rfl, starts, c, later, rstr, (Run.forget_eq_ok _).mp reads, notSemicolon,
          overReads⟩
    · rintro ⟨rfl, rfl, _, c, key, rstr, reads, notSemicolon, overReads⟩
      refine .inr ⟨(c :: key, rstr), (Run.forget_eq_ok _).mpr reads, ?_⟩
      exact (pairOf_eq_error notThrown).mpr ⟨⟨c, key, rfl, notSemicolon⟩, rfl, rfl, overReads⟩

/-- Adding an entry ends early without an exception if its value does. -/
theorem addEntry_eq_error (notThrown : stop ≠ .thrown ()) {construct : Text → Run Unit Tree}
    {values : List (Text × Tree)} {entry : Option (Text × Text)} :
    addEntry construct values entry = .error stop ↔
      ∃ key value, entry = some (key, value) ∧ construct value = .error stop := by
  cases entry with
  | none => simp [addEntry]
  | some pair =>
    obtain ⟨key, value⟩ := pair
    rw [addEntry, Run.bind_eq_error]
    constructor
    · rintro (ends | ⟨tree, _, ends⟩)
      · exact ⟨key, value, rfl, ends⟩
      · split at ends
        · simp at ends
        · exact absurd (Except.error.inj ends).symm notThrown
    · rintro ⟨_, _, same, ends⟩
      obtain ⟨rfl, rfl⟩ := by simpa using same
      exact .inl ends

theorem entries_step (notThrown : stop ≠ .thrown ()) (str : Text) (values : List (Text × Tree)) :
    (Site.entries str values).outcome blanks = .error stop ↔
      (stop = .fault ∧ blanks = .unchecked ∧ (Site.entries str values).OverReads) ∨
        ∃ next, Proceeds blanks (.entries str values) next ∧ next.outcome blanks = .error stop := by
  rw [← entryOf_eq_error notThrown str values]
  constructor
  · intro ends
    rw [Site.outcome, Run.map_eq_error] at ends
    cases round : mapRound blanks (treeOf blanks) str values with
    | error other =>
      rw [entriesOf_error round] at ends
      obtain rfl := Except.error.inj ends
      rw [mapRound, Run.bind_eq_error] at round
      rcases round with here | ⟨⟨entry, rest⟩, found, ends⟩
      · exact .inl here
      · obtain ⟨key, value, rfl, valueEnds⟩ :=
          (addEntry_eq_error notThrown).mp (Run.map_eq_error.mp ends)
        exact .inr ⟨_, .value found, Run.map_eq_error.mpr valueEnds⟩
    | ok found =>
      obtain ⟨after, rest⟩ := found
      rw [entriesOf_ok round] at ends
      split at ends
      · simp at ends
      · rename_i more
        exact .inr ⟨_, .entries round more, Run.map_eq_error.mpr ends⟩
  · rintro (here | ⟨next, step, ends⟩)
    · rw [Site.outcome, Run.map_eq_error]
      exact entriesOf_error (by rw [mapRound, here]; rfl)
    · rw [Site.outcome, Run.map_eq_error]
      cases step with
      | value found =>
        rw [Site.outcome, Run.map_eq_error] at ends
        refine entriesOf_error ?_
        rw [mapRound, found, Run.bind_ok, Run.map_eq_error]
        exact (addEntry_eq_error notThrown).mpr ⟨_, _, rfl, ends⟩
      | entries round more =>
        rw [Site.outcome, Run.map_eq_error] at ends
        rw [entriesOf_ok round, if_neg more]
        exact ends

theorem elements_step (notThrown : stop ≠ .thrown ()) (str : Text) :
    (Site.elements str).outcome blanks = .error stop ↔
      (stop = .fault ∧ blanks = .unchecked ∧ (Site.elements str).OverReads) ∨
        ∃ next, Proceeds blanks (.elements str) next ∧ next.outcome blanks = .error stop := by
  have overReads : Run.forget (read blanks ',' ';' str) = .error stop ↔
      stop = .fault ∧ blanks = .unchecked ∧ (Site.elements str).OverReads :=
    read_eq_error notThrown (by decide) (by decide)
  rw [← overReads]
  constructor
  · intro ends
    rw [Site.outcome, Run.map_eq_error] at ends
    cases round : listRound blanks (treeOf blanks) str with
    | error other =>
      rw [elementsOf_error round] at ends
      obtain rfl := Except.error.inj ends
      rw [listRound, Run.bind_eq_error] at round
      rcases round with here | ⟨found, reads, ends⟩
      · exact .inl here
      · exact .inr ⟨_, .element ((Run.forget_eq_ok _).mp reads),
          Run.map_eq_error.mpr (Run.map_eq_error.mp ends)⟩
    | ok found =>
      obtain ⟨tree, rest⟩ := found
      rw [elementsOf_ok round] at ends
      split at ends
      · simp at ends
      · rename_i more
        exact .inr ⟨_, .elements round more, Run.map_eq_error.mpr (Run.map_eq_error.mp ends)⟩
  · rintro (here | ⟨next, step, ends⟩)
    · rw [Site.outcome, Run.map_eq_error]
      exact elementsOf_error (by rw [listRound, here]; rfl)
    · rw [Site.outcome, Run.map_eq_error]
      cases step with
      | element reads =>
        rw [Site.outcome, Run.map_eq_error] at ends
        refine elementsOf_error ?_
        rw [listRound, reads]
        exact Run.map_eq_error.mpr ends
      | elements round more =>
        rw [Site.outcome, Run.map_eq_error] at ends
        rw [elementsOf_ok round, if_neg more, Run.map_eq_error]
        exact ends

theorem site_step (notThrown : stop ≠ .thrown ()) (site : Site) :
    site.outcome blanks = .error stop ↔ (stop = .fault ∧ site.Faulty blanks) ∨
      ∃ next, Proceeds blanks site next ∧ next.outcome blanks = .error stop := by
  cases site with
  | chunk text =>
    rw [chunk_step notThrown]
    simp [Site.Faulty, Site.OverReads]
  | entries str values =>
    rw [entries_step notThrown]
    simp [Site.Faulty]
  | elements str =>
    rw [elements_step notThrown]
    simp [Site.Faulty]

/-- A parse never runs out of fuel. -/
theorem treeOf_ne_diverged (text : Text) : treeOf blanks text ≠ .error .diverged := by
  intro diverges
  have notThrown : (Stop.diverged : Stop Unit) ≠ .thrown () := by simp
  obtain ⟨reached, _, fault, _⟩ := (reaches_iff (proceeds_ends blanks) (site_step notThrown)
    (.chunk text)).mp (Run.map_eq_error.mpr diverges)
  simp at fault

/-- A parse leaves its objects if and only if it comes to a place where it does. -/
theorem treeOf_fault_iff (text : Text) : treeOf blanks text = .error .fault ↔
    ∃ site, Relation.ReflTransGen (Proceeds blanks) (.chunk text) site ∧ site.Faulty blanks := by
  have notThrown : (Stop.fault : Stop Unit) ≠ .thrown () := by simp
  have places := reaches_iff (proceeds_ends blanks) (site_step notThrown) (.chunk text)
  simpa [Site.outcome, Run.map_eq_error] using places

end Steps

end Ztd.Filedat
