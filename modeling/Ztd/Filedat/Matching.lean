import Ztd.Lib.Levels
import Ztd.Filedat.Closing

/-! The bracket scans of `_getstrval` against the depth of brackets: they stop at
the first place where it returns to zero, and one is the mirror image of the other. -/

namespace Ztd.Filedat
open Ztd.Lib

/-- The characters of a text that are outside of its quotes, at their places. -/
def unquoted : Text → List (Option Char)
  | [] => []
  | c :: rest =>
    match quoteOf c with
    | none => some c :: unquoted rest
    | some quote =>
      match _found : closeQuote quote.mark rest with
      | none => List.replicate (rest.length + 1) none
      | some (raw, after) => List.replicate (raw.length + 2) none ++ unquoted after
termination_by text => text.length
decreasing_by
  all_goals simp only [List.length_cons]
  · omega
  · exact Nat.lt_succ_of_lt (closeQuote_length _found)

/-- What a character outside of quotes adds to the depth. -/
def GroupKind.weight (group : GroupKind) : Option Char → Int
  | none => 0
  | some c => if c = group.opening then 1 else if c = group.closing then -1 else 0

/-- How deep in brackets of the one kind a text is behind a place of it. -/
def GroupKind.depthAt (group : GroupKind) (text : Text) (place : Nat) : Int :=
  levelAt group.weight 0 (unquoted text) place

/-- A place outside of quotes where the depth is zero again. -/
structure Returns (group : GroupKind) (text : Text) (place : Nat) : Prop where
  outside : ∃ c, (unquoted text)[place]? = some (some c)
  zero : group.depthAt text place = 0

/-- The first such place: the bracket there matches the first one of the text. -/
structure ClosesAt (group : GroupKind) (text : Text) (place : Nat) : Prop where
  returns : Returns group text place
  first : ∀ earlier < place, ¬Returns group text earlier

section Unquoted
variable {c : Char} {rest : Text}

theorem unquoted_plain (noQuote : quoteOf c = none) :
    unquoted (c :: rest) = some c :: unquoted rest := by
  rw [unquoted]
  split
  · rfl
  · simp [noQuote] at *

theorem unquoted_quote {quote : QuoteKind} (is : quoteOf c = some quote) {raw after : Text}
    (closes : closeQuote quote.mark rest = some (raw, after)) :
    unquoted (c :: rest) = List.replicate (raw.length + 2) none ++ unquoted after := by
  rw [unquoted]
  split
  · simp [is] at *
  · rename_i other found
    obtain rfl := Option.some.inj (is.symm.trans found)
    split
    · simp [closes] at *
    · rename_i found
      obtain ⟨rfl, rfl⟩ := Prod.mk.inj (Option.some.inj (closes.symm.trans found))
      rfl

theorem unquoted_open {quote : QuoteKind} (is : quoteOf c = some quote)
    (open_ : closeQuote quote.mark rest = none) :
    unquoted (c :: rest) = List.replicate (rest.length + 1) none := by
  rw [unquoted]
  split
  · simp [is] at *
  · rename_i other found
    obtain rfl := Option.some.inj (is.symm.trans found)
    split
    · rfl
    · simp [open_] at *

end Unquoted

section Depth
variable {group : GroupKind}

theorem weight_quoted (count : Nat) :
    ∀ element ∈ List.replicate count (none : Option Char), group.weight element = 0 := by
  intro element member
  rw [List.eq_of_mem_replicate member]
  rfl

/-- The bracket that matches stands at the first place where the depth is zero. -/
theorem matchGroup_firstZero (known : group.Known) (depth : Nat) (text : Text) :
    (matchGroup group depth text).map (·.1.length) =
      firstZero group.weight (depth + 1) (unquoted text) := by
  have valid := known.valid
  have sunken (depth : Nat) : (depth : Int) + 1 ≠ 0 := by omega
  induction depth, text using matchGroup.induct group with
  | case1 depth => simp [matchGroup, unquoted, firstZero]
  | case2 rest =>
    simp [matchGroup, unquoted_plain valid.closing, firstZero, GroupKind.weight,
      Ne.symm valid.different]
  | case3 depth rest inner ih =>
    obtain ⟨above, rfl⟩ := Nat.exists_eq_succ_of_ne_zero inner
    have up : ((above + 1 : Nat) : Int) + 1 + -1 = (above : Int) + 1 := by omega
    rw [Nat.succ_sub_one] at ih
    rw [matchGroup, if_pos rfl, if_neg inner, unquoted_plain valid.closing, firstZero,
      GroupKind.weight, if_neg (Ne.symm valid.different), if_pos rfl, Nat.succ_eq_add_one, up,
      if_neg (sunken above), ← ih]
    simp [Option.map_map, Function.comp_def]
  | case4 depth rest other ih =>
    have down : (depth : Int) + 1 + 1 = ((depth + 1 : Nat) : Int) + 1 := by omega
    rw [matchGroup, if_neg other, if_pos rfl, unquoted_plain valid.opening, firstZero,
      GroupKind.weight, if_pos rfl, down, if_neg (sunken (depth + 1)), ← ih]
    simp [Option.map_map, Function.comp_def]
  | case5 depth c rest notClosing notOpening is ih =>
    have still : group.weight (some c) = 0 := by
      rw [GroupKind.weight, if_neg notOpening, if_neg notClosing]
    rw [matchGroup_plain notClosing notOpening is, unquoted_plain is, firstZero, still,
      Int.add_zero, if_neg (sunken depth), ← ih]
    simp [Option.map_map, Function.comp_def]
  | case6 depth c rest notClosing notOpening quote is open_ =>
    have never : firstZero group.weight (depth + 1)
        (List.replicate (rest.length + 1) (none : Option Char) ++ []) = _ :=
      firstZero_still (sunken depth) (weight_quoted (rest.length + 1))
    rw [List.append_nil] at never
    rw [unquoted_open is open_, never, matchGroup_quote_open notClosing notOpening is open_]
    rfl
  | case7 depth c rest notClosing notOpening quote is raw after closes ih =>
    have size (found : Text × Text) :
        (c :: raw ++ c :: found.1).length = raw.length + 2 + found.1.length := by
      simp only [List.length_append, List.length_cons]
      omega
    rw [unquoted_quote is closes, firstZero_still (sunken depth) (weight_quoted _), ← ih,
      matchGroup_quote notClosing notOpening is closes, Option.map_map, Option.map_map]
    simp only [Function.comp_def, size, List.length_replicate]

/-- Where the depth is zero first, the text is outside of its quotes. -/
theorem closesAt_iff {text : Text} {place : Nat} (known : group.Known) {rest : Text}
    (starts : text = group.opening :: rest) : ClosesAt group text place ↔
      firstZero group.weight 0 (unquoted text) = some place := by
  have opens : unquoted text = some group.opening :: unquoted rest := by
    rw [starts, unquoted_plain known.valid.opening]
  have outside {place : Nat} (found : firstZero group.weight 0 (unquoted text) = some place) :
      Returns group text place := by
    refine ⟨?_, (firstZero_eq_some_iff.mp found).2.1⟩
    have first : group.weight (some group.opening) = 1 := by rw [GroupKind.weight, if_pos rfl]
    rw [opens, firstZero, first, if_neg (by decide), Option.map_eq_some_iff] at found
    obtain ⟨inner, found, rfl⟩ := found
    obtain ⟨_ | c, here, weighs⟩ := firstZero_weight (by decide) found
    · exact absurd rfl weighs
    · exact ⟨c, by rw [opens, List.getElem?_cons_succ, here]⟩
  constructor
  · rintro ⟨⟨⟨c, here⟩, zero⟩, first⟩
    have inside := (List.getElem?_eq_some_iff.mp here).1
    cases found : firstZero group.weight 0 (unquoted text) with
    | none => exact absurd zero (firstZero_eq_none_iff.mp found place inside)
    | some earliest =>
      rcases Nat.lt_trichotomy earliest place with less | rfl | greater
      · exact absurd (outside found) (first earliest less)
      · rfl
      · exact absurd zero ((firstZero_eq_some_iff.mp found).2.2 place greater)
  · intro found
    refine ⟨outside found, fun earlier less returns => ?_⟩
    exact (firstZero_eq_some_iff.mp found).2.2 earlier less returns.zero

theorem closesAt_iff_match (known : group.Known) {rest : Text} {place : Nat} :
    ClosesAt group (group.opening :: rest) place ↔
      ∃ found, matchGroup group 0 rest = some found ∧ found.1.length + 1 = place := by
  have first : group.weight (some group.opening) = 1 := by rw [GroupKind.weight, if_pos rfl]
  have inner := matchGroup_firstZero known 0 rest
  rw [closesAt_iff known rfl, unquoted_plain known.valid.opening, firstZero, first,
    if_neg (by decide), show (0 : Int) + 1 = ((0 : Nat) : Int) + 1 from rfl, ← inner,
    Option.map_map, Option.map_eq_some_iff]
  rfl

end Depth

section Scan
variable {group : GroupKind} {str : Text} {i : Nat}

theorem behindStep_group (known : group.Known) {rest : Text}
    (at_ : At str i (group.opening :: rest)) (blanks : BlankRun) (delim altdelim : Char)
    (val : Text) : behindStep blanks delim altdelim str i val =
      (copyGroup group str i val).map fun end_ => .next end_.1 end_.2 := by
  rcases known with rfl | rfl <;>
    simp only [behindStep, at_.charAt, Run.bind_ok] <;>
    rfl

section Copying
variable {rest : Text} (known : group.Known) (at_ : At str i (group.opening :: rest))
  (room : str.length < 2 ^ 32) (val : Text)

include known at_ room

theorem closed_match : closed (closeGroup group 0 rest) = matchGroup group 0 rest := by
  have size := at_.next.size
  have same : closed (closeGroup group (group.level 0) rest) = matchGroup group 0 rest :=
    closeGroup_match known (by omega)
  rwa [level_zero] at same

/-- The scan of a group stops behind the bracket that matches the first one. -/
theorem copyGroup_match {body after : Text} (found : matchGroup group 0 rest = some (body, after)) :
    copyGroup group str i val =
      .ok (i + (body.length + 2), val ++ (group.opening :: rest).take (body.length + 2)) := by
  rw [← closed_match known at_ room] at found
  rw [copyGroup_eq rfl at_, readGroup, List.drop_one, List.tail_cons]
  cases closes : closeGroup group 0 rest with
  | error stop => simp [closes, closed] at found
  | ok inner =>
    obtain ⟨body', _ | after'⟩ := inner
    · simp [closes, closed] at found
    · obtain ⟨rfl, rfl⟩ : body' = body ∧ after' = after := by simpa [closes, closed] using found
      have copied : (group.opening :: rest).take (body'.length + 2) =
          group.opening :: body' ++ [group.closing] := by
        rw [closeGroup_split group closes, Option.elim_some, List.take_succ_cons, List.append_cons,
          List.take_left' (by simp), List.cons_append]
      simp [copied, Except.map, Run.mapError]

theorem copyGroup_unmatched (never : matchGroup group 0 rest = none) :
    ∃ error, copyGroup group str i val = .error (.thrown error) := by
  rw [← closed_match known at_ room] at never
  rw [copyGroup_eq rfl at_, readGroup, List.drop_one, List.tail_cons]
  cases closes : closeGroup group 0 rest with
  | error stop =>
    obtain ⟨unclosed, rfl⟩ := closeGroup_throws group 0 closes
    exact ⟨_, rfl⟩
  | ok inner =>
    obtain ⟨body, _ | after⟩ := inner
    · exact ⟨_, rfl⟩
    · simp [closes, closed] at never

end Copying

end Scan

/-- The two kinds of brackets swapped. -/
def mirror (c : Char) : Char :=
  if c = '{' then '[' else if c = '[' then '{'
  else if c = '}' then ']' else if c = ']' then '}'
  else c

def FormatError.mirror (error : FormatError) : FormatError :=
  { error with sdat := error.sdat.map Filedat.mirror }

/-- Two scans end at the same index with mirrored values, or with mirrored exceptions. -/
def Mirrored : Run FormatError (Nat × Text) → Run FormatError (Nat × Text) → Prop :=
  Run.Matches (fun end_ other => other = (end_.1, end_.2.map mirror))
    (fun error other => other = error.mirror)

section Mirror
variable {str val : Text}

theorem mirror_mirror (c : Char) : mirror (mirror c) = c := by
  grind [mirror]

@[simp] theorem mirror_beq (c d : Char) : (mirror c == d) = (c == mirror d) := by
  rw [Bool.eq_iff_iff, beq_iff_eq, beq_iff_eq]
  constructor
  · rintro rfl
    rw [mirror_mirror]
  · rintro rfl
    rw [mirror_mirror]

theorem charAt_mirror (i : Nat) :
    Run.Matches (fun c d => d = mirror c) (fun error other => other = error.mirror)
      (charAt str i : Run FormatError Char) (charAt (str.map mirror) i) := by
  simp only [charAt, List.length_map]
  split
  · simp [Run.Matches]
  · split
    · rfl
    · trivial

theorem quoteLoop_mirror {mark : Char} (stays : mirror mark = mark) (keep : Bool) (fuel i : Nat) :
    Mirrored (quoteLoop mark keep str fuel i val)
      (quoteLoop mark keep (str.map mirror) fuel i (val.map mirror)) := by
  induction fuel generalizing i val with
  | zero => trivial
  | succ fuel ih =>
    rw [quoteLoop, quoteLoop, List.length_map]
    split
    · refine Run.Matches.bind (charAt_mirror i) ?_
      rintro c _ rfl
      have later (escaped : Bool) : Mirrored
          (charAt str (if escaped then i + 1 else i) >>= fun d =>
            quoteLoop mark keep str fuel ((if escaped then i + 1 else i) + 1)
              ((if escaped && keep then val ++ [c] else val) ++ [d]))
          (charAt (str.map mirror) (if escaped then i + 1 else i) >>= fun d =>
            quoteLoop mark keep (str.map mirror) fuel ((if escaped then i + 1 else i) + 1)
              ((if escaped && keep then val.map mirror ++ [mirror c] else val.map mirror) ++
                [d])) := by
        refine Run.Matches.bind (charAt_mirror _) ?_
        rintro d _ rfl
        have copied : (if (escaped && keep) = true then val.map mirror ++ [mirror c]
            else val.map mirror) ++ [mirror d] =
            ((if (escaped && keep) = true then val ++ [c] else val) ++ [d]).map mirror := by
          split <;> simp
        rw [copied]
        exact ih _
      rw [mirror_beq, mirror_beq, stays, show mirror '\\' = '\\' from rfl]
      split
      · rfl
      · dsimp only
        split
        · have ahead : Run.Matches (fun escaped other => other = escaped)
              (fun error other => other = FormatError.mirror error)
              (charAt str (i + 1) >>= fun d => pure (d == mark))
              (charAt (str.map mirror) (i + 1) >>= fun d => pure (d == mark)) := by
            refine Run.Matches.bind (charAt_mirror (i + 1)) ?_
            rintro d _ rfl
            rw [mirror_beq, stays]
            rfl
          refine Run.Matches.bind ahead ?_
          rintro _ escaped rfl
          exact later escaped
        · exact later false
    · rfl

theorem raise_mirror (what : Text) (i : Nat) : Mirrored
    (Run.raise (formatError what [] str i)) (Run.raise (formatError what [] (str.map mirror) i)) := by
  rw [Mirrored, Run.raise, Run.raise, Run.Matches, formatError, formatError, FormatError.mirror]

theorem groupQuote_mirror {quote : QuoteKind} (stays : mirror quote.mark = quote.mark) (i : Nat) :
    Mirrored (groupQuote quote str i val) (groupQuote quote (str.map mirror) i (val.map mirror)) := by
  rw [groupQuote, groupQuote, List.length_map]
  refine Run.Matches.bind (charAt_mirror i) ?_
  rintro c _ rfl
  rw [show val.map mirror ++ [mirror c] = (val ++ [c]).map mirror by simp]
  refine Run.Matches.bind (quoteLoop_mirror stays true _ _) ?_
  rintro ⟨stop, copied⟩ _ rfl
  dsimp only
  split
  · exact raise_mirror _ _
  · rfl

/-- The counters of the two scans are each other's negation, modulo 2^32. -/
theorem groupLoop_mirror (fuel i : Nat) (counter : UInt32) :
    Mirrored (groupLoop bracket str fuel i counter val)
      (groupLoop brace (str.map mirror) fuel i (-counter) (val.map mirror)) := by
  induction fuel generalizing i counter val with
  | zero => trivial
  | succ fuel ih =>
    have later (i : Nat) (counter : UInt32) (val : Text) : Mirrored
        (charAt str i >>= fun d => groupLoop bracket str fuel (i + 1) counter (val ++ [d]))
        (charAt (str.map mirror) i >>= fun d =>
          groupLoop brace (str.map mirror) fuel (i + 1) (-counter) (val.map mirror ++ [d])) := by
      refine Run.Matches.bind (charAt_mirror i) ?_
      rintro d _ rfl
      rw [show val.map mirror ++ [mirror d] = (val ++ [d]).map mirror by simp]
      exact ih _ _
    have zero : (-counter == 0) = (counter == 0) := by
      rw [Bool.eq_iff_iff, beq_iff_eq, beq_iff_eq]
      exact UInt32.neg_inj (b := 0)
    rw [groupLoop, groupLoop, List.length_map]
    split
    · refine Run.Matches.bind (charAt_mirror i) ?_
      rintro c _ rfl
      simp only [mirror_beq, zero]
      rw [show mirror brace.closing = bracket.closing from rfl,
        show mirror brace.down = bracket.up from rfl, show mirror brace.up = bracket.down from rfl,
        show mirror '"' = '"' from rfl, show mirror '\'' = '\'' from rfl]
      split
      · rfl
      · by_cases opens : (c == bracket.down) = true
        · have other : ¬(c == bracket.up) = true := by
            rw [beq_iff_eq.mp opens]
            decide
          rw [if_pos opens, if_neg other, if_pos opens]
          have down : -(counter - 1) = -counter + 1 := by
            rw [UInt32.neg_sub, UInt32.sub_eq_add_neg, UInt32.add_comm]
          exact down ▸ later i (counter - 1) val
        · by_cases closes : (c == bracket.up) = true
          · rw [if_neg opens, if_pos closes, if_pos closes]
            exact UInt32.neg_add (a := counter) ▸ later i (counter + 1) val
          · rw [if_neg opens, if_neg closes, if_neg closes, if_neg opens]
            split
            · refine Run.Matches.bind (groupQuote_mirror rfl i) ?_
              rintro ⟨stop, copied⟩ _ rfl
              exact later stop counter copied
            · split
              · refine Run.Matches.bind (groupQuote_mirror rfl i) ?_
                rintro ⟨stop, copied⟩ _ rfl
                exact later stop counter copied
              · exact later i counter val
    · rfl

/-- The scan of a list is the scan of a map on the mirrored string. -/
theorem copyGroup_mirror (i : Nat) : Mirrored (copyGroup bracket str i val)
    (copyGroup brace (str.map mirror) i (val.map mirror)) := by
  rw [copyGroup, copyGroup, List.length_map]
  refine Run.Matches.bind (charAt_mirror i) ?_
  rintro c _ rfl
  have loops : Mirrored (groupLoop bracket str (str.length + 1) (i + 1) 0 (val ++ [c]))
      (groupLoop brace (str.map mirror) (str.length + 1) (i + 1) (-0) ((val ++ [c]).map mirror)) :=
    groupLoop_mirror _ _ 0
  rw [UInt32.neg_zero, List.map_append, List.map_singleton] at loops
  refine Run.Matches.bind loops ?_
  rintro ⟨stop, copied⟩ _ rfl
  dsimp only
  split
  · exact raise_mirror _ _
  · refine Run.Matches.bind (charAt_mirror stop) ?_
    rintro d _ rfl
    exact congrArg (Prod.mk (stop + 1)) (by simp)

end Mirror

/-- The scan of a group stops behind the first place outside of quotes where the
depth of its brackets returns to zero, or throws where there is none; the scan of a
list is that of a map with the two kinds of brackets swapped. -/
theorem behindStep_returns {group : GroupKind} (known : group.Known) {str : Text} {i : Nat}
    (opens : str[i]? = some group.opening) (room : str.length < 2 ^ 32) (blanks : BlankRun)
    (delim altdelim : Char) (val : Text) :
    (∀ place, ClosesAt group (str.drop i) place →
      behindStep blanks delim altdelim str i val =
        .ok (.next (i + place + 1) (val ++ (str.drop i).take (place + 1)))) ∧
    ((¬∃ place, ClosesAt group (str.drop i) place) →
      ∃ error, behindStep blanks delim altdelim str i val = .error (.thrown error)) ∧
    Mirrored (copyGroup bracket str i val) (copyGroup brace (str.map mirror) i (val.map mirror)) := by
  obtain ⟨inside, first⟩ := List.getElem?_eq_some_iff.mp opens
  have starts : str.drop i = group.opening :: str.drop (i + 1) := by
    rw [← first, List.drop_eq_getElem_cons inside]
  have at_ : At str i (group.opening :: str.drop (i + 1)) :=
    ⟨by rw [← starts, List.length_drop]; omega, starts⟩
  rw [behindStep_group known at_, starts]
  refine ⟨fun place closes => ?_, fun never => ?_, copyGroup_mirror i⟩
  · obtain ⟨⟨body, after⟩, found, rfl⟩ := (closesAt_iff_match known).mp closes
    rw [copyGroup_match known at_ room val found]
    rfl
  · cases found : matchGroup group 0 (str.drop (i + 1)) with
    | none =>
      obtain ⟨error, throws⟩ := copyGroup_unmatched known at_ room val found
      exact ⟨error, by rw [throws]; rfl⟩
    | some inner => exact absurd ⟨_, (closesAt_iff_match known).mpr ⟨inner, found, rfl⟩⟩ never

theorem behindStep_returns_list :
    behindStep .unchecked nul nul ['[', '"', ']', '"', '{', ']', 'x'] 0 [] =
      .ok (.next 6 ['[', '"', ']', '"', '{', ']']) := by
  have closes : ClosesAt bracket ['[', '"', ']', '"', '{', ']', 'x'] 5 := by
    refine (closesAt_iff_match (show bracket.Known from .inr rfl)).mpr
      ⟨(['"', ']', '"', '{'], ['x']), ?_, rfl⟩
    simp [matchGroup, bracket, quoteOf, closeQuote]
  have opens : ['[', '"', ']', '"', '{', ']', 'x'][0]? = some bracket.opening := rfl
  exact (behindStep_returns (.inr rfl) opens (by decide) .unchecked nul nul []).1 5 closes

end Ztd.Filedat
