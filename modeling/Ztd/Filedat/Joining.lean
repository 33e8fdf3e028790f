import Ztd.Filedat.Loops
import Ztd.Filedat.Sizes

/-! Two texts the parser takes for strings, one behind the other: where reading
the first one stops decides how the second one is read. -/

namespace Ztd.Filedat
open Ztd.Lib

/-- Reading goes up to the end of the text, and a quote closes there. -/
inductive EndsQuoted : Text → Prop where
  | quote {c : Char} {rest raw : Text} {kind : QuoteKind} (is : quoteOf c = some kind)
      (closes : closeQuote kind.mark rest = some (raw, [])) : EndsQuoted (c :: rest)
  | piece {text val rest : Text} (reads : scanPiece .checked nul nul text = .ok (val, .next rest))
      (later : EndsQuoted rest) : EndsQuoted text

/-- A mark right behind a closing quote opens none: it is read like a letter. -/
def Joinable (first second : Text) : Prop :=
  EndsQuoted (dropUnread first) → ∀ c rest, second = c :: rest → (quoteOf c).isSome = true →
    ∃ found, scan .checked nul nul rest = .ok found

/-- What is read right behind a closing quote. -/
def scanClosed : Text → Run Unclosed (Text × Text)
  | [] => .ok ([], [])
  | c :: rest =>
    if (quoteOf c).isSome then prepend [c] (scan .checked nul nul rest)
    else scan .checked nul nul (c :: rest)

section Append
variable {text val rest : Text} (more : Text)

theorem closeQuote_append {mark : Char} (valid : IsMark mark) {raw after : Text}
    (found : closeQuote mark text = some (raw, after)) :
    closeQuote mark (text ++ more) = some (raw, after ++ more) := by
  obtain ⟨closed, rfl⟩ := closed_of_closeQuote found
  rw [List.append_assoc, List.cons_append]
  exact closeQuote_closed valid closed (after ++ more)

theorem quoteOf_valid {c : Char} {kind : QuoteKind} (is : quoteOf c = some kind) :
    IsMark kind.mark := by
  rcases quoteOf_cases is with ⟨_, rfl⟩ | ⟨_, rfl⟩
  · exact isMark_double
  · exact isMark_single

theorem closeGroup_append (group : GroupKind) {counter : UInt32} {body after : Text}
    (found : closeGroup group counter text = .ok (body, some after)) :
    closeGroup group counter (text ++ more) = .ok (body, some (after ++ more)) := by
  have prepended {piece inner : Text} {read : Run Unclosed (Text × Option Text)}
      {longer : Run Unclosed (Text × Option Text)}
      (later : ∀ body, read = .ok (body, some after) → longer = .ok (body, some (after ++ more)))
      (found : prepend piece read = .ok (inner, some after)) :
      prepend piece longer = .ok (inner, some (after ++ more)) := by
    obtain ⟨body, is, rfl⟩ := prepend_eq_ok found
    simp [later body is]
  induction counter, text using closeGroup.induct group generalizing body with
  | case1 => simp [closeGroup] at found
  | case2 counter c text closes =>
    obtain ⟨rfl, rfl⟩ := closes
    rw [closeGroup_closing] at found
    rw [List.cons_append, closeGroup_closing]
    simp_all
  | case3 counter text inner ih =>
    rw [closeGroup_down group inner] at found
    rw [List.cons_append, closeGroup_down group inner]
    exact prepended (fun _ => ih) found
  | case4 counter text inner other ih =>
    rw [closeGroup_up group inner other] at found
    rw [List.cons_append, closeGroup_up group inner other]
    exact prepended (fun _ => ih) found
  | case5 counter c text inner down up noQuote ih =>
    rw [closeGroup_plain group inner down up noQuote] at found
    rw [List.cons_append, closeGroup_plain group inner down up noQuote]
    exact prepended (fun _ => ih) found
  | case6 counter c text inner down up quote is open_ =>
    rw [closeGroup_quote_open group inner down up is open_] at found
    cases found
  | case7 counter c text inner down up quote is raw behind closes ih =>
    rw [closeGroup_quote group inner down up is closes] at found
    rw [List.cons_append, closeGroup_quote group inner down up is
      (closeQuote_append more (quoteOf_valid is) closes)]
    exact prepended (fun _ => ih) found

theorem readGroup_append {group : GroupKind} {copied after : Text} (nonempty : text ≠ [])
    (found : readGroup group text = .ok (copied, after)) :
    readGroup group (text ++ more) = .ok (copied, after ++ more) := by
  obtain ⟨c, text, rfl⟩ := List.exists_cons_of_ne_nil nonempty
  obtain ⟨body, closes, rfl⟩ := readGroup_closed found
  rw [readGroup, List.cons_append, List.drop_one, List.tail_cons,
    closeGroup_append more group (by simpa using closes)]

def Reach.append (more : Text) : Reach → Reach
  | .next rest => .next (rest ++ more)
  | .leave rest => .leave (rest ++ more)

/-- A piece that is read in a text is read with more text behind it, if its blanks are. -/
theorem scanBehind_append {blanks : BlankRun} {delim altdelim c : Char} {reach : Reach}
    (blank : scanBlanks blanks delim altdelim (c :: text) = .ok (val, reach) →
      scanBlanks blanks delim altdelim (c :: text ++ more) = .ok (val, reach.append more))
    (found : scanBehind blanks delim altdelim (c :: text) = .ok (val, reach)) :
    scanBehind blanks delim altdelim (c :: text ++ more) = .ok (val, reach.append more) := by
  have group {kind : GroupKind}
      (found : (readGroup kind (c :: text)).map (fun found => (found.1, Reach.next found.2)) =
        .ok (val, reach)) :
      (readGroup kind (c :: (text ++ more))).map (fun found => (found.1, Reach.next found.2)) =
        .ok (val, reach.append more) := by
    obtain ⟨⟨copied, after⟩, reads, is⟩ := Run.map_eq_ok.mp found
    cases is
    have longer := readGroup_append more (List.cons_ne_nil c text) reads
    rw [List.cons_append] at longer
    rw [longer]
    rfl
  rw [scanBehind] at found
  rw [List.cons_append, scanBehind]
  split at found
  · rename_i brace
    rw [if_pos brace]
    exact group found
  · rename_i notBrace
    rw [if_neg notBrace]
    split at found
    · rename_i bracket
      rw [if_pos bracket]
      exact group found
    · rename_i notBracket
      rw [if_neg notBracket]
      split at found
      · rename_i readable
        rw [if_pos readable]
        split at found <;> cases found <;> rename_i ends
        · rw [if_pos ends, Reach.append]
        · rw [if_neg ends, Reach.append]
      · rename_i unread
        rw [if_neg unread]
        exact blank found

/-- Without a delimiter a piece ends in front of blanks. -/
theorem scanBehind_append_nul {c : Char} {reach : Reach}
    (found : scanBehind .checked nul nul (c :: text) = .ok (val, reach)) :
    scanBehind .checked nul nul (c :: text ++ more) = .ok (val, reach.append more) := by
  refine scanBehind_append more (fun stays => ?_) found
  rw [scanBlanks_whole .checked rfl] at stays ⊢
  cases stays
  rfl

theorem openQuote_append {quoted behind : Text} (nonempty : text ≠ [])
    (opened : openQuote text = .ok (quoted, behind)) :
    openQuote (text ++ more) = .ok (quoted, behind ++ more) := by
  obtain ⟨c, text, rfl⟩ := List.exists_cons_of_ne_nil nonempty
  cases is : quoteOf c with
  | none =>
    obtain ⟨rfl, rfl⟩ := by simpa [openQuote, is] using opened
    simp [openQuote, is]
  | some kind =>
    cases closes : closeQuote kind.mark text with
    | none => simp [openQuote, is, closes] at opened
    | some found =>
      obtain ⟨raw, after⟩ := found
      obtain ⟨rfl, rfl⟩ := by simpa [openQuote, is, closes] using opened
      simp [openQuote, is, closeQuote_append more (quoteOf_valid is) closes]

end Append

section Scan
variable {text val rest : Text}

/-- Texts whose first pieces differ by a front are scanned so. -/
theorem scan_prepend {other front : Text} (nonempty : text ≠ []) (otherNonempty : other ≠ [])
    (pieces : scanPiece .checked nul nul text = prepend front (scanPiece .checked nul nul other)) :
    scan .checked nul nul text = prepend front (scan .checked nul nul other) := by
  cases piece : scanPiece .checked nul nul other with
  | error stop =>
    rw [piece, prepend_error] at pieces
    rw [scan_error nonempty pieces, scan_error otherNonempty piece, prepend_error]
  | ok found =>
    obtain ⟨val, reach⟩ := found
    rw [piece, prepend_ok] at pieces
    cases reach with
    | next rest => rw [scan_next nonempty pieces, scan_next otherNonempty piece, prepend_prepend]
    | leave rest => rw [scan_leave nonempty pieces, scan_leave otherNonempty piece, prepend_ok]

theorem not_endsQuoted_nil : ¬ EndsQuoted [] := by
  intro ends
  cases ends with
  | piece reads => simp [scanPiece, openQuote, scanBehind, scanBlanks_whole] at reads

/-- A value that ends in front of something blank ends there in a longer text. -/
theorem scanBehind_leave {c : Char} (found : scanBehind .checked nul nul (c :: text) =
    .ok (val, .leave rest)) : rest ≠ [] := by
  have group {kind : GroupKind} (found : (readGroup kind (c :: text)).map
      (fun found => (found.1, Reach.next found.2)) = .ok (val, .leave rest)) : False := by
    obtain ⟨_, _, is⟩ := Run.map_eq_ok.mp found
    cases is
  rw [scanBehind] at found
  split at found
  · exact (group found).elim
  · split at found
    · exact (group found).elim
    · split at found
      · rename_i readable
        split at found
        · rename_i ends
          obtain rfl : c = nul := by simpa [isDelim] using ends
          exact absurd readable (by decide)
        · simp at found
      · rw [scanBlanks_whole .checked rfl] at found
        obtain ⟨_, rfl⟩ := by simpa using found
        simp

theorem scan_closed (is : openQuote text = .ok (val, [])) (nonempty : text ≠ []) (more : Text) :
    scan .checked nul nul (text ++ more) = prepend val (scanClosed more) := by
  have opened := openQuote_append more nonempty is
  rw [List.nil_append] at opened
  have longer : text ++ more ≠ [] := by simp [nonempty]
  have piece : scanPiece .checked nul nul (text ++ more) =
      prepend val (scanBehind .checked nul nul more) := by rw [scanPiece, opened]
  cases more with
  | nil =>
    rw [scanBehind, scanBlanks_whole .checked rfl, prepend_ok] at piece
    rw [scan_leave longer piece, scanClosed, prepend_ok]
  | cons d more =>
    rw [scanClosed]
    split
    · rename_i mark
      obtain ⟨kind, mark⟩ := Option.isSome_iff_exists.mp mark
      have plain : scanBehind .checked nul nul (d :: more) = .ok ([d], .next more) := by
        rcases quoteOf_cases mark with ⟨rfl, _⟩ | ⟨rfl, _⟩ <;>
          simp [scanBehind, isRead, isDelim, nul]
      rw [plain, prepend_ok] at piece
      rw [scan_next longer piece, prepend_prepend]
    · rename_i noMark
      have noQuote : quoteOf d = none := by simpa using noMark
      exact scan_prepend longer (List.cons_ne_nil d more) (by rw [piece, scanPiece_plain noQuote])

theorem endsQuoted_next (piece : scanPiece .checked nul nul text = .ok (val, .next rest)) :
    EndsQuoted text ↔ EndsQuoted rest := by
  constructor
  · intro ends
    cases ends with
    | quote is closes =>
      -- right behind the closing quote stands nothing that reading could go on with
      simp [scanPiece, openQuote, is, closes, scanBehind, scanBlanks_whole] at piece
    | piece reads later =>
      obtain ⟨rfl, rfl⟩ : _ = val ∧ _ = rest := by simpa using reads.symm.trans piece
      exact later
  · exact .piece piece

theorem not_endsQuoted_leave (nonempty : rest ≠ [])
    (piece : scanPiece .checked nul nul text = .ok (val, .leave rest)) : ¬ EndsQuoted text := by
  intro ends
  cases ends with
  | quote is closes =>
    simp only [scanPiece, openQuote, is, closes, scanBehind, scanBlanks_whole, prepend_ok,
      Except.ok.injEq, Prod.mk.injEq, Reach.leave.injEq] at piece
    exact nonempty piece.2.symm
  | piece reads => simp [reads] at piece

/-- What reading makes of a text with more behind it: it stops in the text as
before, or goes on behind its end, right behind a closing quote or not. -/
theorem scan_append (found : scan .checked nul nul text = .ok (val, rest)) (more : Text) :
    (rest ≠ [] ∧ ¬ EndsQuoted text ∧
      scan .checked nul nul (text ++ more) = .ok (val, rest ++ more)) ∨
    (rest = [] ∧ EndsQuoted text ∧
      scan .checked nul nul (text ++ more) = prepend val (scanClosed more)) ∨
    (rest = [] ∧ ¬ EndsQuoted text ∧
      scan .checked nul nul (text ++ more) = prepend val (scan .checked nul nul more)) := by
  induction size : text.length using Nat.strongRecOn generalizing text val with
  | _ count ih =>
    by_cases nonempty : text = []
    · subst nonempty
      obtain ⟨rfl, rfl⟩ := by simpa using found
      exact .inr (.inr ⟨rfl, not_endsQuoted_nil, by simp⟩)
    · have longer : text ++ more ≠ [] := by simp [nonempty]
      cases opened : openQuote text with
      | error stop =>
        rw [scan_error nonempty (show scanPiece .checked nul nul text = .error stop by
          rw [scanPiece, opened])] at found
        cases found
      | ok inner =>
        obtain ⟨quoted, behind⟩ := inner
        cases behind with
        | nil =>
          have piece : scanPiece .checked nul nul text = .ok (quoted, .leave []) := by
            simp [scanPiece, opened, scanBehind, scanBlanks_whole]
          rw [scan_leave nonempty piece] at found
          obtain ⟨rfl, rfl⟩ := by simpa using found
          have ends : EndsQuoted text := by
            obtain ⟨c, tail, rfl⟩ := List.exists_cons_of_ne_nil nonempty
            cases is : quoteOf c with
            | none => simp [openQuote, is] at opened
            | some kind =>
              cases closes : closeQuote kind.mark tail with
              | none => simp [openQuote, is, closes] at opened
              | some found =>
                obtain ⟨raw, after⟩ := found
                obtain ⟨_, rfl⟩ := by simpa [openQuote, is, closes] using opened
                exact .quote is closes
          exact .inr (.inl ⟨rfl, ends, scan_closed opened nonempty more⟩)
        | cons c behind =>
          have piece : scanPiece .checked nul nul text =
              prepend quoted (scanBehind .checked nul nul (c :: behind)) := by
            rw [scanPiece, opened]
          have pieceLonger : scanPiece .checked nul nul (text ++ more) =
              prepend quoted (scanBehind .checked nul nul (c :: behind ++ more)) := by
            rw [scanPiece, openQuote_append more nonempty opened]
          cases read : scanBehind .checked nul nul (c :: behind) with
          | error stop =>
            rw [read, prepend_error] at piece
            rw [scan_error nonempty piece] at found
            cases found
          | ok inner =>
            obtain ⟨copied, reach⟩ := inner
            have readLonger := scanBehind_append_nul more read
            rw [read, prepend_ok] at piece
            rw [readLonger, prepend_ok] at pieceLonger
            cases reach with
            | leave left =>
              rw [scan_leave nonempty piece] at found
              obtain ⟨rfl, rfl⟩ := by simpa using found
              have stops := scanBehind_leave read
              exact .inl ⟨stops, not_endsQuoted_leave stops piece, scan_leave longer pieceLonger⟩
            | next left =>
              rw [scan_next nonempty piece] at found
              obtain ⟨inner, later, rfl⟩ := prepend_eq_ok found
              have shorter := scanPiece_shorter nonempty piece
              rw [endsQuoted_next piece, scan_next longer pieceLonger]
              rcases ih _ (size ▸ shorter) later rfl with
                ⟨stops, notQuoted, whole⟩ | ⟨rfl, ends, whole⟩ | ⟨rfl, notQuoted, whole⟩
              · exact .inl ⟨stops, notQuoted, by rw [whole, prepend_ok]⟩
              · exact .inr (.inl ⟨rfl, ends, by rw [whole, prepend_prepend]⟩)
              · exact .inr (.inr ⟨rfl, notQuoted, by rw [whole, prepend_prepend]⟩)

/-- Text the parser takes for a string can be scanned from its first character on. -/
theorem Reread.scans (reread : Reread text) : ∃ found, scan .checked nul nul text = .ok found := by
  rcases reread with rfl | ⟨c, value, after, reads, _⟩
  · exact ⟨_, scan_nil⟩
  · cases text with
    | nil => exact ⟨_, scan_nil⟩
    | cons d text =>
      cases readable : isRead d with
      | false =>
        have piece : scanPiece .checked nul nul (d :: text) = .ok ([], .leave (d :: text)) := by
          rw [scanPiece_unread readable, scanBlanks_whole .checked rfl]
        exact ⟨_, scan_leave (List.cons_ne_nil d text) piece⟩
      | true =>
        obtain ⟨whole, scans, _⟩ := read_scanned reads
        have start : dropUnread (d :: text) = d :: text := by simp [dropUnread, readable]
        exact ⟨_, start ▸ scans⟩

end Scan

section Joined
variable {first second : Text}

/-- What is left of a front when blanks are taken off its end begins the front,
and what is left when more stands behind it. -/
theorem trimEnd_head {c : Char} {front val : Text} (trimmed : trimEnd front = c :: val)
    (more : Text) : (∃ rest, front = c :: rest) ∧ ∃ rest, trimEnd (front ++ more) = c :: rest := by
  rcases cases_unread front.reverse with blank | ⟨d, before, is, readable⟩
  · rw [trimEnd, show front.reverse.dropWhile (!isRead ·) = [] from blank] at trimmed
    cases trimmed
  · have kept : trimEnd front = before.reverse ++ [d] := by
      rw [trimEnd, show front.reverse.dropWhile (!isRead ·) = d :: before from is,
        List.reverse_cons]
    have split := List.takeWhile_append_dropWhile (p := (!isRead ·)) (l := front.reverse)
    rw [show front.reverse.dropWhile (!isRead ·) = d :: before from is] at split
    have frontIs := congrArg List.reverse split
    rw [List.reverse_reverse, List.reverse_append, List.reverse_cons, List.append_assoc,
      List.singleton_append] at frontIs
    have longer : trimEnd (front ++ more) = before.reverse ++ d :: trimEnd
        ((front.reverse.takeWhile (!isRead ·)).reverse ++ more) := by
      rw [← trimEnd_cons_append _ readable, ← List.cons_append, ← List.append_assoc, frontIs]
    rw [trimmed] at kept
    rw [longer, ← frontIs]
    cases reversed : before.reverse with
    | nil =>
      rw [reversed, List.nil_append] at kept
      rw [List.nil_append, List.nil_append, (List.cons.inj kept).1]
      exact ⟨⟨_, rfl⟩, _, rfl⟩
    | cons e middle =>
      rw [reversed, List.cons_append] at kept
      rw [List.cons_append, List.cons_append, (List.cons.inj kept).1]
      exact ⟨⟨_, rfl⟩, _, rfl⟩

theorem dropUnread_append_of_ne_nil (nonempty : dropUnread first ≠ []) (more : Text) :
    dropUnread (first ++ more) = dropUnread first ++ more := by
  rw [dropUnread, List.dropWhile_append]
  split
  · rename_i blank
    exact absurd (List.isEmpty_iff.mp blank) nonempty
  · rfl

/-- Two strings joined are a string again exactly when a mark that comes to stand
right behind a closing quote leaves what follows it readable. -/
theorem reread_append_iff (left : Reread first) (right : Reread second) :
    Reread (first ++ second) ↔ Joinable first second := by
  rcases left with rfl | ⟨c, value, after, reads, notBrace, notBracket⟩
  · exact iff_of_true right fun ends => absurd ends not_endsQuoted_nil
  · have nonempty : first ++ second ≠ [] := by
      rintro empty
      rw [(List.append_eq_nil_iff.mp empty).1, read_blank rfl] at reads
      cases reads
    have started : dropUnread first ≠ [] := by
      intro blank
      rw [read_blank blank] at reads
      cases reads
    have start := dropUnread_append_of_ne_nil started second
    cases scans : scan .checked nul nul (dropUnread first) with
    | error stop => simp [read, scans] at reads
    | ok found =>
      obtain ⟨whole, rest⟩ := found
      rcases scan_append scans second with
        ⟨stops, notQuoted, longer⟩ | ⟨rfl, ends, longer⟩ | ⟨rfl, notQuoted, longer⟩
      · -- reading stops at a blank of the first text, as it did without the second
        obtain ⟨d, rest, rfl⟩ := List.exists_cons_of_ne_nil stops
        obtain ⟨rfl, rfl⟩ := by simpa [read, scans] using reads
        refine iff_of_true (.inr ⟨c, value, d :: rest ++ second, ?_, notBrace, notBracket⟩)
          fun ends => absurd ends notQuoted
        simp [read, start, longer]
      all_goals
        have trimmed : trimEnd whole = c :: value := by
          have both : trimEnd whole = c :: value ∧ [] = after := by
            simpa [read, scans] using reads
          exact both.1
        have string {behind : Run Unclosed (Text × Text)} {found : Text × Text}
            (is : behind = .ok found) (longer : scan .checked nul nul (dropUnread first ++ second) =
              prepend whole behind) : Reread (first ++ second) := by
          obtain ⟨⟨tail, wholeIs⟩, later, trimmed⟩ := trimEnd_head trimmed found.1
          rw [is, prepend_ok] at longer
          cases left : found.2 with
          | nil =>
            exact .inr ⟨c, later, [], by simp [read, start, longer, left, trimmed], notBrace,
              notBracket⟩
          | cons d rest =>
            exact .inr ⟨c, tail ++ found.1, d :: rest,
              by simp [read, start, longer, left, wholeIs], notBrace, notBracket⟩
      · constructor
        · rintro joined _ d tail rfl mark
          rw [scanClosed, if_pos mark, prepend_prepend] at longer
          cases behind : scan .checked nul nul tail with
          | ok found => exact ⟨found, rfl⟩
          | error stop =>
            rw [behind, prepend_error] at longer
            rcases joined with empty | ⟨_, _, _, reads, _⟩
            · exact absurd empty nonempty
            · simp [read, start, longer] at reads
        · intro joinable
          cases second with
          | nil => exact string rfl longer
          | cons d tail =>
            rw [scanClosed] at longer
            split at longer
            · rename_i mark
              obtain ⟨found, is⟩ := joinable ends d tail rfl mark
              rw [is] at longer
              exact string rfl longer
            · obtain ⟨found, is⟩ := right.scans
              exact string is longer
      · obtain ⟨found, is⟩ := right.scans
        exact iff_of_true (string is longer) fun ends => absurd ends notQuoted

end Joined

end Ztd.Filedat
