import Ztd.Filedat.Stripping

/-! Deleting exactly the comments of a text, and when that is what `removeComments`
does, which passes over the character behind a closing quote. -/

namespace Ztd.Filedat
open Ztd.Lib

/-- A text without its comments, how much text is left where each of them starts,
and the texts behind the closing quotes. -/
structure Swept where
  left : Text
  comments : List Nat
  closings : List Text

/-- Text that stays in front of what is swept. -/
def Swept.keep (text : Text) (swept : Swept) : Swept := { swept with left := text ++ swept.left }

/-- Deletes from each `#` and `//` up to the newline, outside of quotes and not
behind a backslash. As many characters as `passed` behind a closing quote stay
whatever they are; a quote that is not closed stays with all behind it. -/
def sweep (passed : Nat) : Text → Swept
  | [] => { left := [], comments := [], closings := [] }
  | c :: rest =>
    if c = '\\' then (sweep passed (rest.drop 1)).keep (c :: rest.take 1)
    else
      match quoteOf c with
      | some quote =>
        match _found : closeQuote quote.mark rest with
        | none => { left := c :: rest, comments := [], closings := [] }
        | some (raw, after) =>
          let swept := sweep passed (after.drop passed)
          { swept.keep (c :: raw ++ c :: after.take passed) with
            closings := after :: swept.closings }
      | none =>
        if startsComment (c :: rest) then
          let swept := sweep passed (rest.dropWhile (· != '\n'))
          { swept with comments := (c :: rest).length :: swept.comments }
        else (sweep passed rest).keep [c]
termination_by text => text.length
decreasing_by
  all_goals simp only [List.length_cons, List.length_drop]
  · omega
  · have shorter := closeQuote_length _found
    omega
  · have shorter := (List.dropWhile_sublist (l := rest) (· != '\n')).length_le
    omega
  · omega

/-- A text with exactly its comments deleted: behind a closing quote the next
character is looked at like any other. -/
def uncomment (text : Text) : Text := (sweep 0 text).left

@[simp] theorem Swept.keep_left (text : Text) (swept : Swept) :
    (swept.keep text).left = text ++ swept.left := rfl

@[simp] theorem Swept.keep_comments (text : Text) (swept : Swept) :
    (swept.keep text).comments = swept.comments := rfl

@[simp] theorem Swept.keep_closings (text : Text) (swept : Swept) :
    (swept.keep text).closings = swept.closings := rfl

theorem Swept.keep_keep (first second : Text) (swept : Swept) :
    (swept.keep second).keep first = swept.keep (first ++ second) := by
  simp [Swept.keep]

section Steps
variable {passed : Nat} {c : Char} {rest : Text}

@[simp] theorem sweep_nil :
    sweep passed [] = { left := [], comments := [], closings := [] } := by
  rw [sweep]

theorem sweep_escaped :
    sweep passed ('\\' :: rest) = (sweep passed (rest.drop 1)).keep ('\\' :: rest.take 1) := by
  rw [sweep, if_pos rfl]

theorem sweep_quote {quote : QuoteKind} (is : quoteOf c = some quote) {raw after : Text}
    (closes : closeQuote quote.mark rest = some (raw, after)) :
    sweep passed (c :: rest) =
      { (sweep passed (after.drop passed)).keep (c :: raw ++ c :: after.take passed) with
        closings := after :: (sweep passed (after.drop passed)).closings } := by
  obtain ⟨same, valid⟩ := quoteOf_eq_some is
  rw [sweep, if_neg (same ▸ valid.notBackslash : c ≠ '\\')]
  split
  · rename_i other found
    obtain rfl := Option.some.inj (is.symm.trans found)
    split
    · simp [closes] at *
    · rename_i found
      obtain ⟨rfl, rfl⟩ := Prod.mk.inj (Option.some.inj (closes.symm.trans found))
      rfl
  · simp [is] at *

theorem sweep_quote_open {quote : QuoteKind} (is : quoteOf c = some quote)
    (open_ : closeQuote quote.mark rest = none) :
    sweep passed (c :: rest) = { left := c :: rest, comments := [], closings := [] } := by
  obtain ⟨same, valid⟩ := quoteOf_eq_some is
  rw [sweep, if_neg (same ▸ valid.notBackslash : c ≠ '\\')]
  split
  · rename_i other found
    obtain rfl := Option.some.inj (is.symm.trans found)
    split
    · rfl
    · simp [open_] at *
  · simp [is] at *

theorem sweep_comment (notBackslash : c ≠ '\\') (noQuote : quoteOf c = none)
    (comment : startsComment (c :: rest) = true) :
    sweep passed (c :: rest) =
      { sweep passed (rest.dropWhile (· != '\n')) with
        comments := (c :: rest).length ::
          (sweep passed (rest.dropWhile (· != '\n'))).comments } := by
  rw [sweep, if_neg notBackslash]
  split
  · simp [noQuote] at *
  · rw [if_pos comment]

theorem sweep_plain (notBackslash : c ≠ '\\') (noQuote : quoteOf c = none)
    (plain : startsComment (c :: rest) = false) :
    sweep passed (c :: rest) = (sweep passed rest).keep [c] := by
  rw [sweep, if_neg notBackslash]
  split
  · simp [noQuote] at *
  · rw [if_neg (by simp [plain])]

/-- Every second backslash is behind another one. -/
theorem sweep_backslashes (count : Nat) (rest : Text) :
    sweep passed (List.replicate count '\\' ++ rest) =
      (sweep passed (rest.drop (count % 2))).keep
        (List.replicate count '\\' ++ rest.take (count % 2)) := by
  induction count using Nat.twoStepInduction with
  | zero => simp [Swept.keep]
  | one => exact sweep_escaped
  | more count ih _ =>
    have step : sweep passed (List.replicate (count + 2) '\\' ++ rest) =
        (sweep passed (List.replicate count '\\' ++ rest)).keep ['\\', '\\'] := sweep_escaped
    rw [step, ih, Swept.keep_keep, Nat.add_mod_right]
    rfl

end Steps

/-- What `removeComments` leaves is what is left when one character is passed. -/
theorem sweep_of_strip {text left : Text} (strips : strip text = .ok left) :
    (sweep 1 text).left = left := by
  induction text using strip.induct generalizing left with
  | case1 =>
    obtain rfl : [] = left := by simpa [strip] using strips
    simp
  | case2 rest ih =>
    rw [strip_escaped] at strips
    obtain ⟨later, stripped, rfl⟩ := lead_eq_ok strips
    rw [sweep_escaped, Swept.keep_left, ih stripped]
  | case3 c rest notBackslash quote is found =>
    rw [strip_quote_open is found] at strips
    simp at strips
  | case4 c rest notBackslash quote is raw after found ih =>
    rw [strip_quote is found] at strips
    obtain ⟨later, stripped, rfl⟩ := lead_eq_ok strips
    rw [sweep_quote is found, Swept.keep_left, ih stripped]
  | case5 c rest notBackslash is comment after =>
    rename_i ih
    rw [strip_comment notBackslash is comment] at strips
    obtain ⟨later, stripped, rfl⟩ := lead_eq_ok strips
    have same := ih stripped
    rw [sweep_comment notBackslash is comment]
    cases ends : rest.dropWhile (· != '\n') with
    | nil =>
      rw [ends] at stripped
      obtain rfl : [] = later := by simpa [strip] using stripped
      simp
    | cons d more =>
      have newline : d = '\n' := by
        have first := List.head_dropWhile_not (p := (· != '\n')) (l := rest) (by simp [ends])
        simpa [ends] using first
      subst newline
      simp only [after, ends] at same
      rw [sweep_plain (by simp) (by simp [quoteOf]) (by simp [startsComment]), Swept.keep_left]
      exact congrArg (['\n'] ++ ·) same
  | case6 c rest notBackslash is plain ih =>
    rw [strip_plain notBackslash is (by simpa using plain)] at strips
    obtain ⟨later, stripped, rfl⟩ := lead_eq_ok strips
    rw [sweep_plain notBackslash is (by simpa using plain), Swept.keep_left, ih stripped]

/-- What is left of a text when comments are deleted where they are said to start. -/
inductive Cuts : Text → Text → List Nat → Prop where
  | done : Cuts [] [] []
  | keep (c : Char) {text left : Text} {comments : List Nat} (later : Cuts text left comments) :
    Cuts (c :: text) (c :: left) comments
  | cut {c : Char} {text left : Text} {comments : List Nat}
    (comment : startsComment (c :: text) = true)
    (later : Cuts (text.dropWhile (· != '\n')) left comments) :
    Cuts (c :: text) left ((c :: text).length :: comments)

namespace Cuts
variable {text left left' : Text} {comments comments' : List Nat}

theorem append (front : Text) (later : Cuts text left comments) :
    Cuts (front ++ text) (front ++ left) comments := by
  induction front with
  | nil => exact later
  | cons c front ih => exact .keep c ih

theorem starts_le (cuts : Cuts text left comments) : ∀ start ∈ comments, start ≤ text.length := by
  induction cuts with
  | done => simp
  | keep c later ih =>
    intro start member
    exact (ih start member).trans (Nat.le_succ _)
  | @cut c text _ _ comment later ih =>
    intro start member
    rcases List.mem_cons.mp member with rfl | member
    · exact le_rfl
    · have shorter := (List.dropWhile_suffix (· != '\n') (l := text)).length_le
      have bound := ih start member
      rw [List.length_cons]
      omega

/-- Behind a comment is the end or a newline, which stays. -/
theorem newline (cuts : Cuts (text.dropWhile (· != '\n')) left comments) :
    left = [] ∨ ∃ later, left = '\n' :: later := by
  cases ends : text.dropWhile (· != '\n') with
  | nil =>
    rw [ends] at cuts
    cases cuts
    exact .inl rfl
  | cons d more =>
    have newline : d = '\n' := by
      have first := List.head_dropWhile_not (p := (· != '\n')) (l := text) (by simp [ends])
      simpa [ends] using first
    rw [ends, newline] at cuts
    cases cuts with
    | keep _ later => exact .inr ⟨_, rfl⟩
    | cut comment later => simp [startsComment] at comment

/-- A character that stays is not left by a comment that starts with it. -/
theorem keep_ne_cut {c : Char} (comment : startsComment (c :: text) = true)
    (kept : Cuts text left comments)
    (cut : Cuts (text.dropWhile (· != '\n')) left' comments') :
    c :: left ≠ left' ∧ comments ≠ (c :: text).length :: comments' := by
  constructor
  · intro same
    rcases cut.newline with rfl | ⟨later, rfl⟩
    · simp at same
    · obtain ⟨rfl, _⟩ := List.cons.inj same
      simp [startsComment] at comment
  · rintro rfl
    have bound := kept.starts_le _ List.mem_cons_self
    rw [List.length_cons] at bound
    omega

/-- What is left tells where the comments were. -/
theorem left_eq_iff (first : Cuts text left comments) (second : Cuts text left' comments') :
    left = left' ↔ comments = comments' := by
  induction first generalizing left' comments' with
  | done =>
    cases second
    simp
  | keep c later ih =>
    cases second with
    | keep _ other => simp [ih other]
    | cut comment other =>
      obtain ⟨different, apart⟩ := keep_ne_cut comment later other
      exact iff_of_false different apart
  | cut comment later ih =>
    cases second with
    | keep _ other =>
      obtain ⟨different, apart⟩ := keep_ne_cut comment other later
      exact iff_of_false (Ne.symm different) (Ne.symm apart)
    | cut _ other => simp [ih other]

end Cuts

/-- Somewhere in the text a comment could start. -/
def HoldsComment (text : Text) : Prop := '#' ∈ text ∨ ['/', '/'] <:+: text

theorem holdsComment_of_starts {text : Text} (comment : startsComment text = true) :
    HoldsComment text := by
  rw [startsComment, Bool.or_eq_true] at comment
  rcases comment with hash | slashes
  · exact .inl (List.mem_of_head? (by simpa using hash))
  · have front := List.take_prefix 2 text
    rw [beq_iff_eq.mp slashes] at front
    exact .inr front.isInfix

/-- Behind more text there are no fewer comments. -/
theorem HoldsComment.append {text : Text} (holds : HoldsComment text) (front : Text) :
    HoldsComment (front ++ text) := by
  rcases holds with hash | slashes
  · exact .inl (List.mem_append_right _ hash)
  · exact .inr (slashes.trans (List.suffix_append front text).isInfix)

theorem Cuts.none {text left : Text} {comments : List Nat} (cuts : Cuts text left comments)
    (bare : ¬ HoldsComment text) : comments = [] := by
  induction cuts with
  | done => rfl
  | keep c later ih => exact ih fun holds => bare (holds.append [c])
  | cut comment later ih => exact absurd (holdsComment_of_starts comment) bare

theorem sweep_cuts (passed : Nat) (text : Text) :
    Cuts text (sweep passed text).left (sweep passed text).comments := by
  induction text using sweep.induct passed with
  | case1 =>
    rw [sweep_nil]
    exact .done
  | case2 rest ih =>
    rw [sweep_escaped]
    have whole := ih.append ('\\' :: rest.take 1)
    rwa [List.cons_append, List.take_append_drop] at whole
  | case3 c rest notBackslash quote is found =>
    rw [sweep_quote_open is found]
    have whole := Cuts.done.append (c :: rest)
    rwa [List.append_nil] at whole
  | case4 c rest notBackslash quote is raw after found ih =>
    rw [sweep_quote is found]
    obtain ⟨same, _⟩ := quoteOf_eq_some is
    have whole := ih.append (c :: raw ++ c :: after.take passed)
    rw [List.append_assoc, List.cons_append, List.cons_append, List.take_append_drop] at whole
    rwa [same, ← (closed_of_closeQuote found).2, ← same] at whole
  | case5 c rest notBackslash is comment ih =>
    rw [sweep_comment notBackslash is comment]
    exact .cut comment ih
  | case6 c rest notBackslash is plain ih =>
    rw [sweep_plain notBackslash is (by simpa using plain)]
    exact .keep c ih

section Closings

/-- A text from its first character on that is not a backslash. -/
def pastBackslashes (text : Text) : Text := text.dropWhile (· == '\\')

def startsQuote (text : Text) : Bool := (text.head?.bind quoteOf).isSome

theorem past_split (text : Text) :
    ∃ count, text = List.replicate count '\\' ++ pastBackslashes text := by
  refine ⟨(text.takeWhile (· == '\\')).length, ?_⟩
  have same : List.replicate (text.takeWhile (· == '\\')).length '\\' =
      text.takeWhile (· == '\\') := by
    refine (List.eq_replicate_iff.mpr ⟨rfl, fun c member => ?_⟩).symm
    simpa using List.mem_takeWhile_imp member
  rw [same, pastBackslashes, List.takeWhile_append_dropWhile]

theorem past_head_ne (text : Text) : (pastBackslashes text).head? ≠ some '\\' := by
  intro first
  have other := List.head?_dropWhile_not (· == '\\') text
  rw [show text.dropWhile (· == '\\') = pastBackslashes text from rfl, first] at other
  simp at other

theorem past_length (text : Text) : (pastBackslashes text).length ≤ text.length :=
  (List.dropWhile_suffix _).length_le

variable {after : Text}

/-- The two ways to go on behind a closing quote disagree on what is escaped. -/
theorem sweep_behind (after : Text) : ∃ escaped,
    (∃ front, sweep 0 after = (sweep 0 ((pastBackslashes after).drop escaped)).keep front) ∧
    (∃ front, sweep 1 (after.drop 1) =
      (sweep 1 ((pastBackslashes after).drop (1 - escaped))).keep front) ∧
    (escaped = 0 ∨ escaped = 1) := by
  obtain ⟨count, split⟩ := past_split after
  generalize pastBackslashes after = rest at split ⊢
  subst split
  refine ⟨count % 2, ⟨_, sweep_backslashes count rest⟩, ?_, Nat.mod_two_eq_zero_or_one count⟩
  cases count with
  | zero => exact ⟨[], by simp [Swept.keep]⟩
  | succ count =>
    have parity : 1 - (count + 1) % 2 = count % 2 := by omega
    rw [parity]
    exact ⟨_, sweep_backslashes count rest⟩

theorem sweep_starts_le (passed : Nat) (text : Text) :
    ∀ start ∈ (sweep passed text).comments, start ≤ text.length :=
  (sweep_cuts passed text).starts_le

/-- In front of neither quote nor comment it is the same whether the first
character is escaped. -/
theorem sweep_calm (passed : Nat) {rest : Text} (notBackslash : rest.head? ≠ some '\\')
    (noQuote : startsQuote rest = false) (noComment : startsComment rest = false)
    (escaped : Nat) (which : escaped = 0 ∨ escaped = 1) :
    ∃ front, sweep passed (rest.drop escaped) = (sweep passed (rest.drop 1)).keep front := by
  rcases which with rfl | rfl
  · cases rest with
    | nil => exact ⟨[], by simp [Swept.keep]⟩
    | cons c rest =>
      have none : quoteOf c = none := by simpa [startsQuote] using noQuote
      exact ⟨[c], sweep_plain (by simpa using notBackslash) none noComment⟩
  · exact ⟨[], by simp [Swept.keep]⟩

/-- A comment right behind a closing quote, or behind it and backslashes, starts
in only one of the two ways to go on. -/
theorem sweep_behind_comment (noQuote : startsQuote (pastBackslashes after) = false)
    (comment : startsComment (pastBackslashes after) = true) :
    (sweep 1 (after.drop 1)).comments ≠ (sweep 0 after).comments := by
  obtain ⟨escaped, ⟨front, claimed⟩, ⟨front', code⟩, which⟩ := sweep_behind after
  have notBackslash := past_head_ne after
  generalize pastBackslashes after = rest at *
  rw [claimed, code, Swept.keep_comments, Swept.keep_comments]
  cases rest with
  | nil => simp [startsComment] at comment
  | cons c rest =>
    have none : quoteOf c = none := by simpa [startsQuote] using noQuote
    have other : c ≠ '\\' := by simpa using notBackslash
    have found (passed : Nat) : (sweep passed (c :: rest)).comments ≠
        (sweep (1 - passed) rest).comments := by
      intro same
      have member : (c :: rest).length ∈ (sweep (1 - passed) rest).comments := by
        rw [← same, sweep_comment other none comment]
        exact List.mem_cons_self
      have bound := sweep_starts_le _ _ _ member
      rw [List.length_cons] at bound
      omega
    rcases which with rfl | rfl
    · exact Ne.symm (found 0)
    · exact found 1

/-- A quote or a comment follows a closing quote, behind it or behind it and backslashes. -/
def stirred (after : Text) : Bool :=
  startsQuote (pastBackslashes after) || startsComment (pastBackslashes after)

/-- Behind a closing quote that nothing stirs, the two ways to go on come together. -/
theorem sweep_behind_calm (calm : stirred after = false) : ∃ rest, rest.length ≤ after.length ∧
    (sweep 0 after).closings = (sweep 0 rest).closings ∧
    (sweep 0 after).comments = (sweep 0 rest).comments ∧
    (sweep 1 (after.drop 1)).comments = (sweep 1 rest).comments := by
  obtain ⟨noQuote, noComment⟩ := Bool.or_eq_false_iff.mp calm
  obtain ⟨escaped, ⟨front, claimed⟩, ⟨front', code⟩, which⟩ := sweep_behind after
  obtain ⟨_, calm⟩ := sweep_calm 0 (past_head_ne after) noQuote noComment escaped which
  obtain ⟨_, calm'⟩ := sweep_calm 1 (past_head_ne after) noQuote noComment
    (1 - escaped) (by omega)
  have shorter := past_length after
  refine ⟨(pastBackslashes after).drop 1, ?_, ?_, ?_, ?_⟩
  · rw [List.length_drop]
    omega
  · rw [claimed, calm, Swept.keep_closings, Swept.keep_closings]
  · rw [claimed, calm, Swept.keep_comments, Swept.keep_comments]
  · rw [code, calm', Swept.keep_comments, Swept.keep_comments]

/-- Two ways to delete comments do the same if what stirs the closing quotes is in front
of no comment, and not the same if it is one the first time. -/
structure Settled (closings : List Text) (same : Prop) : Prop where
  quiet : (∀ after ∈ closings, stirred after = true → ¬ HoldsComment after) → same
  apart : ∀ after, closings.find? stirred = some after →
    startsQuote (pastBackslashes after) = false → ¬ same

theorem comments_settled (text : Text) :
    Settled (sweep 0 text).closings ((sweep 1 text).comments = (sweep 0 text).comments) := by
  induction size : text.length using Nat.strongRecOn generalizing text with
  | _ count ih =>
    subst size
    cases text with
    | nil => exact ⟨fun _ => by simp, by simp⟩
    | cons c rest =>
      by_cases escaped : c = '\\'
      · subst escaped
        rw [sweep_escaped, sweep_escaped]
        exact ih _ (by simp only [List.length_drop, List.length_cons]; omega) _ rfl
      · cases is : quoteOf c with
        | some quote =>
          cases closes : closeQuote quote.mark rest with
          | none =>
            rw [sweep_quote_open is closes, sweep_quote_open is closes]
            exact ⟨fun _ => rfl, by simp⟩
          | some found =>
            obtain ⟨raw, after⟩ := found
            have shorter := closeQuote_length closes
            rw [sweep_quote is closes, sweep_quote is closes]
            simp only [Swept.keep_comments, List.drop_zero]
            cases stirs : stirred after with
            | true =>
              constructor
              · intro quiet
                have bare := quiet after List.mem_cons_self stirs
                rw [(sweep_cuts 0 after).none bare]
                refine (sweep_cuts 1 (after.drop 1)).none fun holds => bare ?_
                have whole := holds.append (after.take 1)
                rwa [List.take_append_drop] at whole
              · intro first found noQuote
                rw [List.find?_cons_of_pos stirs] at found
                obtain rfl := Option.some.inj found
                have comment : startsComment (pastBackslashes after) = true := by
                  simpa [stirred, noQuote] using stirs
                exact sweep_behind_comment noQuote comment
            | false =>
              obtain ⟨others, below, closings, claimed, code⟩ := sweep_behind_calm stirs
              have settled := ih others.length (by rw [List.length_cons]; omega) others rfl
              rw [closings, claimed, code]
              constructor
              · exact fun quiet => settled.quiet (List.forall_mem_cons.mp quiet).2
              · intro first found
                rw [List.find?_cons_of_neg (by simp [stirs])] at found
                exact settled.apart first found
        | none =>
          cases comment : startsComment (c :: rest) with
          | true =>
            rw [sweep_comment escaped is comment, sweep_comment escaped is comment]
            have shorter := (List.dropWhile_suffix (· != '\n') (l := rest)).length_le
            have settled := ih _ (show _ < (c :: rest).length from Nat.lt_succ_of_le shorter) _ rfl
            simp only [List.cons.injEq, true_and]
            exact settled
          | false =>
            rw [sweep_plain escaped is comment, sweep_plain escaped is comment]
            exact ih _ (Nat.lt_succ_self _) _ rfl

end Closings

/-- `removeComments` deletes exactly the comments where no closing quote is followed, but for
backslashes, by a quote or a comment, or only in front of text that holds none. Where the
first one that is followed so is followed by a comment, it does not. -/
theorem removeComments_exact {str result : Text} (room : str.length < 2 ^ 32)
    (returns : removeComments str = .ok result) :
    ((∀ after ∈ (sweep 0 str).closings, stirred after = true → ¬ HoldsComment after) →
      result = uncomment str) ∧
    ∀ after, (sweep 0 str).closings.find? stirred = some after →
      startsQuote (pastBackslashes after) = false → result ≠ uncomment str := by
  have exact_ : result = uncomment str ↔ (sweep 1 str).comments = (sweep 0 str).comments := by
    rw [← sweep_of_strip (removeComments_ok room returns)]
    exact (sweep_cuts 1 str).left_eq_iff (sweep_cuts 0 str)
  obtain ⟨same, apart⟩ := comments_settled str
  exact ⟨fun quiet => exact_.mpr (same quiet),
    fun after first noQuote equal => apart after first noQuote (exact_.mp equal)⟩

/-- A comment behind a blank goes, one behind a closing quote and two backslashes stays. -/
theorem removeComments_exact_spaced :
    ['"', 'a', '"', ' '] = uncomment ['"', 'a', '"', ' ', '#', 'b'] ∧
      ['"', 'a', '"', '\\', '\\', '#'] ≠ uncomment ['"', 'a', '"', '\\', '\\', '#'] := by
  have returns : removeComments ['"', 'a', '"', ' ', '#', 'b'] = .ok ['"', 'a', '"', ' '] := rfl
  have returns' : removeComments ['"', 'a', '"', '\\', '\\', '#'] =
    .ok ['"', 'a', '"', '\\', '\\', '#'] := rfl
  constructor
  · apply (removeComments_exact (by decide) returns).1
    simp [sweep, quoteOf, closeQuote, Swept.keep, startsComment, startsQuote, pastBackslashes,
      stirred]
  · apply (removeComments_exact (by decide) returns').2 ['\\', '\\', '#'] <;>
      simp [sweep, quoteOf, closeQuote, Swept.keep, startsComment, startsQuote, pastBackslashes,
        stirred]

/-- A comment right behind a closing quote stays. -/
theorem removeComments_keeps_comment :
    removeComments ['"', 'a', '"', '#', 'b'] = .ok ['"', 'a', '"', '#', 'b'] ∧
      uncomment ['"', 'a', '"', '#', 'b'] = ['"', 'a', '"'] := by
  constructor
  · rfl
  · simp [uncomment, sweep, quoteOf, closeQuote, Swept.keep, startsComment]

end Ztd.Filedat
