import Ztd.Filedat.Reached

/-! What may stand behind the bracket that matches the first one of a text. -/

namespace Ztd.Filedat
open Ztd.Lib

/-- What is inside of the bracket that matches an opening one, and the text behind
it: brackets of the one kind are counted outside of quotes. -/
def matchGroup (group : GroupKind) (depth : Nat) : Text → Option (Text × Text)
  | [] => none
  | c :: rest =>
    if c = group.closing then
      if depth = 0 then some ([], rest)
      else (matchGroup group (depth - 1) rest).map fun found => (c :: found.1, found.2)
    else if c = group.opening then
      (matchGroup group (depth + 1) rest).map fun found => (c :: found.1, found.2)
    else
      match quoteOf c with
      | none => (matchGroup group depth rest).map fun found => (c :: found.1, found.2)
      | some quote =>
        match _found : closeQuote quote.mark rest with
        | none => none
        | some (raw, after) =>
          (matchGroup group depth after).map fun found => (c :: raw ++ c :: found.1, found.2)
termination_by text => text.length
decreasing_by
  all_goals simp only [List.length_cons]
  · omega
  · omega
  · omega
  · exact Nat.lt_succ_of_lt (closeQuote_length _found)

section Matching
variable {group : GroupKind}

section Steps
variable {depth : Nat} {c : Char} {rest : Text} (notClosing : c ≠ group.closing)
  (notOpening : c ≠ group.opening)

include notClosing notOpening

theorem matchGroup_plain (noQuote : quoteOf c = none) : matchGroup group depth (c :: rest) =
    (matchGroup group depth rest).map fun found => (c :: found.1, found.2) := by
  rw [matchGroup, if_neg notClosing, if_neg notOpening]
  split
  · rfl
  · simp [noQuote] at *

theorem matchGroup_quote {quote : QuoteKind} (is : quoteOf c = some quote) {raw after : Text}
    (closes : closeQuote quote.mark rest = some (raw, after)) :
    matchGroup group depth (c :: rest) =
      (matchGroup group depth after).map fun found => (c :: raw ++ c :: found.1, found.2) := by
  rw [matchGroup, if_neg notClosing, if_neg notOpening]
  split
  · simp [is] at *
  · rename_i other found
    obtain rfl := Option.some.inj (is.symm.trans found)
    split
    · simp [closes] at *
    · rename_i found
      obtain ⟨rfl, rfl⟩ := Prod.mk.inj (Option.some.inj (closes.symm.trans found))
      rfl

theorem matchGroup_quote_open {quote : QuoteKind} (is : quoteOf c = some quote)
    (open_ : closeQuote quote.mark rest = none) : matchGroup group depth (c :: rest) = none := by
  rw [matchGroup, if_neg notClosing, if_neg notOpening]
  split
  · simp [is] at *
  · rename_i other found
    obtain rfl := Option.some.inj (is.symm.trans found)
    split
    · rfl
    · simp [open_] at *

end Steps

/-- The inside of a group and what is behind it, if the group is closed. -/
def closed (found : Run Unclosed (Text × Option Text)) : Option (Text × Text) :=
  match found with
  | .ok (body, some after) => some (body, after)
  | _ => none

theorem closed_prepend (front : Text) (found : Run Unclosed (Text × Option Text)) :
    closed (prepend front found) = (closed found).map fun inner => (front ++ inner.1, inner.2) := by
  rcases found with stop | ⟨body, _ | after⟩ <;> rfl

/-- The counter of 32 bits finds the bracket that matches, in a text it can count. -/
theorem closeGroup_match (known : group.Known) {depth : Nat} {text : Text}
    (room : depth + text.length < 2 ^ 32) :
    closed (closeGroup group (group.level depth) text) = matchGroup group depth text := by
  have valid := known.valid
  induction depth, text using matchGroup.induct group with
  | case1 depth => simp [closeGroup, matchGroup, closed]
  | case2 rest =>
    rw [level_zero, closeGroup_closing, matchGroup, if_pos rfl, if_pos rfl]
    rfl
  | case3 depth rest inner ih =>
    obtain ⟨above, rfl⟩ := Nat.exists_eq_succ_of_ne_zero inner
    simp only [List.length_cons] at room
    rw [closeGroup_inner valid (by omega), closed_prepend, matchGroup, if_pos rfl, if_neg inner,
      ← ih (by simp only [Nat.succ_sub_one]; omega)]
    rfl
  | case4 depth rest other ih =>
    simp only [List.length_cons] at room
    rw [closeGroup_opening valid, closed_prepend, ih (by omega), matchGroup, if_neg other,
      if_pos rfl]
    rfl
  | case5 depth c rest notClosing notOpening is ih =>
    simp only [List.length_cons] at room
    have passes : ∀ d ∈ [c], group.Passes d := by simpa using ⟨notOpening, notClosing, is⟩
    rw [← List.singleton_append, closeGroup_passes valid passes, closed_prepend, ih (by omega),
      List.singleton_append, matchGroup_plain notClosing notOpening is]
    rfl
  | case6 depth c rest notClosing notOpening quote is open_ =>
    have down : c ≠ group.down := by
      rcases valid.counts with ⟨down, _⟩ | ⟨down, _⟩ <;> rw [down] <;> assumption
    have up : c ≠ group.up := by
      rcases valid.counts with ⟨_, up⟩ | ⟨_, up⟩ <;> rw [up] <;> assumption
    rw [closeGroup_quote_open group (fun closes => notClosing closes.2) down up is open_,
      matchGroup_quote_open notClosing notOpening is open_]
    rfl
  | case7 depth c rest notClosing notOpening quote is raw after closes ih =>
    have down : c ≠ group.down := by
      rcases valid.counts with ⟨down, _⟩ | ⟨down, _⟩ <;> rw [down] <;> assumption
    have up : c ≠ group.up := by
      rcases valid.counts with ⟨_, up⟩ | ⟨_, up⟩ <;> rw [up] <;> assumption
    have shorter := closeQuote_length closes
    simp only [List.length_cons] at room
    rw [closeGroup_quote group (fun closes => notClosing closes.2) down up is closes,
      closed_prepend, ih (by omega), matchGroup_quote notClosing notOpening is closes]
    simp

end Matching

/-- The text begins with an opening bracket, and this is what is inside of it up to
the bracket that matches it, and behind that. -/
def Encloses (group : GroupKind) (text body after : Text) : Prop :=
  ∃ rest, dropUnread text = group.opening :: rest ∧
    readGroup group (group.opening :: rest) = .ok (group.opening :: body ++ [group.closing], after)

theorem encloses_iff_match {group : GroupKind} (known : group.Known) {text rest : Text}
    (starts : dropUnread text = group.opening :: rest) (room : text.length < 2 ^ 32)
    (body after : Text) :
    Encloses group text body after ↔ matchGroup group 0 rest = some (body, after) := by
  have shorter := dropUnread_length text
  rw [starts, List.length_cons] at shorter
  have same : closed (closeGroup group (group.level 0) rest) = matchGroup group 0 rest :=
    closeGroup_match known (by omega)
  rw [level_zero] at same
  rw [← same]
  have whole : Encloses group text body after ↔ readGroup group (group.opening :: rest) =
      .ok (group.opening :: body ++ [group.closing], after) := by
    constructor
    · rintro ⟨_, first, found⟩
      obtain ⟨_, rfl⟩ := List.cons.inj (starts.symm.trans first)
      exact found
    · exact fun found => ⟨rest, starts, found⟩
  rw [whole, readGroup, List.drop_one, List.tail_cons]
  rcases closeGroup group 0 rest with stop | ⟨inner, _ | behind⟩ <;> simp [closed]

section Contents
variable {blanks : BlankRun} {group : GroupKind}
variable {text body after : Text}

theorem GroupKind.Known.trimmed (known : group.Known) (body glued : Text) :
    trimEnd (group.opening :: body ++ [group.closing] ++ glued) =
      group.opening :: body ++ [group.closing] ++ trimEnd glued := by
  rw [List.append_assoc, List.append_assoc, List.singleton_append,
    trimEnd_cons_append _ known.readable.2, List.singleton_append]

variable (blanks) in
/-- The bracket that matches the first one ends what is isolated. -/
theorem read_apart (known : group.Known) (encloses : Encloses group text body after)
    (apart : ¬∃ d ∈ after.head?, isRead d = true) :
    read blanks nul nul text = .ok (group.opening :: body ++ [group.closing], after) := by
  obtain ⟨rest, starts, found⟩ := encloses
  rw [read, starts, scan_group known found]
  cases after with
  | nil =>
    have ends := known.trimmed body []
    rw [List.append_nil, show trimEnd [] = [] from rfl, List.append_nil] at ends
    simp only [scan_nil, prepend_ok, List.append_nil, ends]
  | cons d later =>
    have first : isRead d = false := by simpa using apart
    have stays : scan blanks nul nul (d :: later) = .ok ([], d :: later) := by
      refine scan_leave (List.cons_ne_nil d later) ?_
      rw [scanPiece_unread first, scanBlanks_whole blanks rfl]
    simp only [stays, prepend_ok, List.append_nil]

variable (blanks) in
/-- What is glued to the bracket that matches the first one is isolated with it. -/
theorem read_glued (known : group.Known) (encloses : Encloses group text body after)
    (touches : ∃ d ∈ after.head?, isRead d = true) :
    read blanks nul nul text =
      prepend (group.opening :: body ++ [group.closing]) (read blanks nul nul after) := by
  obtain ⟨rest, starts, found⟩ := encloses
  obtain ⟨d, first, readable⟩ := touches
  obtain ⟨later, rfl⟩ := List.head?_eq_some_iff.mp first
  have same : dropUnread (d :: later) = d :: later := by simp [dropUnread, readable]
  rw [read, starts, scan_group known found, read, same]
  rcases scan blanks nul nul (d :: later) with stop | ⟨glued, _ | ⟨e, behind⟩⟩
  · rfl
  · simp only [prepend_ok, known.trimmed]
  · rfl

theorem set_ok_iff (text : Text) (offset : Int) (tree : Tree) :
    (set blanks text offset).2 = none ∧ (set blanks text offset).1.tree = tree ↔
      treeOf blanks text = .ok tree := by
  rw [← set_treeOf text offset]
  rcases set blanks text offset with ⟨chunk, _ | error | _ | _⟩ <;>
    simp [Setting.construct, Except.map]

theorem set_thrown_iff (text : Text) (offset : Int) :
    (∃ error, (set blanks text offset).2 = some (.thrown error)) ↔
      treeOf blanks text = .error (.thrown ()) := by
  rw [← set_treeOf text offset]
  rcases set blanks text offset with ⟨chunk, _ | error | _ | _⟩ <;>
    simp [Setting.construct, Except.map]

/-- Nothing readable follows the bracket that matches the first one: such a text is
not accepted, and what is accepted has its tree from inside of the brackets. -/
structure Final (blanks : BlankRun) (group : GroupKind) (text : Text) : Prop where
  accepted : ∀ offset, (set blanks text offset).2 = none →
    ∃ body after, Encloses group text body after ∧ dropUnread after = [] ∧
      contentOf blanks group body = .ok (set blanks text offset).1.tree
  throws : ∀ offset body after, Encloses group text body after → dropUnread after ≠ [] →
    ∃ error, (set blanks text offset).2 = some (.thrown error)

/-- Where nothing is glued to the matching bracket, the tree is that of its inside,
and what follows must not be readable. -/
theorem treeOf_apart (known : group.Known) (encloses : Encloses group text body after)
    (apart : ¬∃ d ∈ after.head?, isRead d = true) :
    treeOf blanks text =
      if dropUnread after = [] then contentOf blanks group body else Run.raise () := by
  have reads := read_apart blanks known encloses apart
  rw [List.cons_append] at reads
  rw [treeOf_group known reads, insideOf]
  split
  · rw [if_neg (List.append_ne_nil_of_right_ne_nil body (List.cons_ne_nil _ _)),
      List.dropLast_concat, Run.bind_ok]
  · rfl

variable (blanks) in
theorem treeOf_glued (known : group.Known) (encloses : Encloses group text body after)
    (touches : ∃ d ∈ after.head?, isRead d = true) :
    (∃ stop, read blanks nul nul after = .error stop ∧ treeOf blanks text = .error (.thrown ())) ∨
      ∃ glued behind, read blanks nul nul after = .ok (glued, behind) ∧
        treeOf blanks text =
          if dropUnread behind = [] then
            contentOf blanks group (body ++ group.closing :: glued).dropLast
          else Run.raise () := by
  have reads := read_glued blanks known encloses touches
  cases isolates : read blanks nul nul after with
  | error stop =>
    refine .inl ⟨stop, rfl, ?_⟩
    rw [isolates, prepend_error] at reads
    rcases read_halts reads with ⟨unclosed, rfl⟩ | ⟨_, _, whole, _⟩
    · rw [treeOf_eq, treeStep_error _ reads]
      rfl
    · exact absurd rfl whole
  | ok found =>
    obtain ⟨glued, behind⟩ := found
    refine .inr ⟨glued, behind, rfl, ?_⟩
    rw [isolates, prepend_ok, List.append_assoc, List.cons_append, List.singleton_append] at reads
    rw [treeOf_group known reads, insideOf]
    split
    · rw [if_neg (List.append_ne_nil_of_right_ne_nil body (List.cons_ne_nil _ _)), Run.bind_ok]
    · rfl

/-- An accepted text closes its first bracket. -/
theorem encloses_of_treeOf (known : group.Known) {tree : Tree}
    (starts : (dropUnread text).head? = some group.opening)
    (accepts : treeOf blanks text = .ok tree) : ∃ body after, Encloses group text body after := by
  obtain ⟨rest, is⟩ := List.head?_eq_some_iff.mp starts
  cases found : readGroup group (group.opening :: rest) with
  | error stop =>
    obtain ⟨unclosed, rfl⟩ := readGroup_throws found
    have reads : read blanks nul nul text = .error (.thrown unclosed) := by
      rw [read, is, scan_group_error known found]
    rw [treeOf_eq, treeStep_error _ reads] at accepts
    simp at accepts
  | ok inner =>
    obtain ⟨copied, after⟩ := inner
    obtain ⟨body, _, rfl⟩ := readGroup_closed found
    exact ⟨body, after, rest, is, found⟩

/-- Behind the matching bracket nothing follows if and only if what is glued to it,
if anything is, makes the text no map or list. -/
theorem final_iff (known : group.Known) (starts : (dropUnread text).head? = some group.opening) :
    Final blanks group text ↔ ∀ body after, Encloses group text body after →
      ∀ d ∈ after.head?, isRead d = true →
        ∀ glued behind, read blanks nul nul after = .ok (glued, behind) → dropUnread behind = [] →
          contentOf blanks group (body ++ group.closing :: glued).dropLast =
            .error (.thrown ()) := by
  constructor
  · intro final body after encloses d first readable glued behind reads blank
    have more : dropUnread after ≠ [] := by
      obtain ⟨later, rfl⟩ := List.head?_eq_some_iff.mp first
      simp [dropUnread, readable]
    have throws := (set_thrown_iff text 0).mp (final.throws 0 body after encloses more)
    rcases treeOf_glued blanks known encloses ⟨d, first, readable⟩ with
      ⟨stop, fails, _⟩ | ⟨glued', behind', reads', is⟩
    · rw [reads] at fails
      simp at fails
    · obtain ⟨rfl, rfl⟩ := Prod.mk.inj (Except.ok.inj (reads.symm.trans reads'))
      rwa [is, if_pos blank] at throws
  · intro fails
    have outcome (body after : Text) (encloses : Encloses group text body after) :
        dropUnread after = [] ∧ treeOf blanks text = contentOf blanks group body ∨
          treeOf blanks text = .error (.thrown ()) := by
      by_cases touches : ∃ d ∈ after.head?, isRead d = true
      · refine .inr ?_
        rcases treeOf_glued blanks known encloses touches with
          ⟨_, _, throws⟩ | ⟨glued, behind, reads, is⟩
        · exact throws
        · rw [is]
          split
          · rename_i blank
            obtain ⟨d, first, readable⟩ := touches
            exact fails body after encloses d first readable glued behind reads blank
          · rfl
      · rw [treeOf_apart known encloses touches]
        split
        · rename_i blank
          exact .inl ⟨blank, rfl⟩
        · exact .inr rfl
    constructor
    · intro offset returns
      have accepts := (set_ok_iff text offset _).mp ⟨returns, rfl⟩
      obtain ⟨body, after, encloses⟩ := encloses_of_treeOf known starts accepts
      refine ⟨body, after, encloses, ?_⟩
      rcases outcome body after encloses with ⟨blank, same⟩ | throws
      · exact ⟨blank, same.symm.trans accepts⟩
      · rw [throws] at accepts
        simp at accepts
    · intro offset body after encloses more
      rw [set_thrown_iff]
      rcases outcome body after encloses with ⟨blank, _⟩ | throws
      · exact absurd blank more
      · exact throws

variable (blanks) in
/-- The text begins with something readable that closes its quotes and brackets, and
nothing readable follows that. -/
def Glued (after : Text) : Prop :=
  (∃ d ∈ after.head?, isRead d = true) ∧
    ∃ glued behind, read blanks nul nul after = .ok (glued, behind) ∧ dropUnread behind = []

/-- Behind the matching bracket nothing follows, unless something is glued to it that
the bracket could be isolated with. -/
theorem final_of_not_glued (known : group.Known)
    (starts : (dropUnread text).head? = some group.opening) :
    (text.length < 2 ^ 32 → ∀ body after, Encloses group text body after ↔
      matchGroup group 0 ((dropUnread text).drop 1) = some (body, after)) ∧
    ((∀ body after, Encloses group text body after → ¬Glued blanks after) →
      Final blanks group text) := by
  constructor
  · intro room body after
    obtain ⟨rest, is⟩ := List.head?_eq_some_iff.mp starts
    rw [is, List.drop_one, List.tail_cons]
    exact encloses_iff_match known is room body after
  · intro apart
    refine (final_iff known starts).mpr ?_
    intro body after encloses d first readable glued behind reads blank
    exact absurd ⟨⟨d, first, readable⟩, glued, behind, reads, blank⟩ (apart body after encloses)

/-- A newline behind the bracket is not readable, and an open quote is not closed. -/
theorem final_map :
    Final .unchecked brace ['{', 'a', '=', '1', ';', 'b', '=', '[', '2', ']', '}', '\n'] ∧
      Final .unchecked brace ['{', 'a', '=', '1', '}', '"', 'x'] := by
  constructor
  · obtain ⟨matches_, final⟩ := @final_of_not_glued .unchecked brace
      ['{', 'a', '=', '1', ';', 'b', '=', '[', '2', ']', '}', '\n'] (.inl rfl) rfl
    refine final fun body after encloses glued => ?_
    have found := (matches_ (by decide) body after).mp encloses
    obtain ⟨_, rfl⟩ : ['a', '=', '1', ';', 'b', '=', '[', '2', ']'] = body ∧
        ['\n'] = after := by
      simpa [dropUnread, isRead, matchGroup, brace, quoteOf] using found
    obtain ⟨⟨d, first, readable⟩, _⟩ := glued
    obtain rfl : '\n' = d := by simpa using first
    simp [isRead] at readable
  · obtain ⟨matches_, final⟩ := @final_of_not_glued .unchecked brace
      ['{', 'a', '=', '1', '}', '"', 'x'] (.inl rfl) rfl
    refine final fun body after encloses glued => ?_
    have found := (matches_ (by decide) body after).mp encloses
    obtain ⟨_, rfl⟩ : ['a', '=', '1'] = body ∧ ['"', 'x'] = after := by
      simpa [dropUnread, isRead, matchGroup, brace, quoteOf] using found
    obtain ⟨_, glued, behind, reads, _⟩ := glued
    have starts : dropUnread ['"', 'x'] = ['"', 'x'] := by simp [dropUnread, isRead]
    have unclosed : scan .unchecked nul nul ['"', 'x'] = .error (.thrown _) :=
      scan_error (List.cons_ne_nil _ _) rfl
    simp [read, starts, unclosed] at reads

/-- The closing bracket becomes a part of the last value. -/
theorem not_final_glued :
    (set .unchecked ['{', 'a', '=', '1', '}', 'x'] 0).2 = none ∧
      (set .unchecked ['{', 'a', '=', '1', '}', 'x'] 0).1.tree =
        .map () [(['a'], .string () ['1', '}'])] ∧
      ¬Final .unchecked brace ['{', 'a', '=', '1', '}', 'x'] := by
  refine ⟨rfl, rfl, fun final => ?_⟩
  obtain ⟨body, after, encloses, blank, _⟩ := final.accepted 0 rfl
  have found := (encloses_iff_match (.inl rfl) (show dropUnread
    ['{', 'a', '=', '1', '}', 'x'] = brace.opening :: ['a', '=', '1', '}', 'x'] from rfl)
    (by decide) body after).mp encloses
  obtain ⟨_, rfl⟩ : ['a', '=', '1'] = body ∧ ['x'] = after := by
    simpa [matchGroup, brace, quoteOf] using found
  simp [dropUnread, isRead] at blank

end Contents

end Ztd.Filedat
