import Ztd.Filedat.Printer
import Mathlib.Data.List.TakeWhile

/-! The reading loop of `import_file` and `import_stdin`. -/

namespace Ztd.Filedat
open Ztd.Lib

/-- `std::istream`: what is left to read, and the state bits reading can set. -/
structure InputStream where
  content : Text
  eofbit : Bool := false
  failbit : Bool := false
deriving DecidableEq, Repr

namespace InputStream

def good (stream : InputStream) : Bool := !stream.eofbit && !stream.failbit

/-- `std::getline`: the stream behind the line, and the line's string. A stream
that is not good leaves the string as it was. -/
def getline (stream : InputStream) (line : Text) : InputStream × Text :=
  if !stream.good then ({ stream with failbit := true }, line)
  else
    let read := stream.content.takeWhile (· != '\n')
    match stream.content.dropWhile (· != '\n') with
    | _ :: rest => ({ stream with content := rest }, read)
    | [] => ({ content := [], eofbit := true, failbit := read.isEmpty }, read)

/-- `while(stream) { getline(stream, line); m_data += (line + '\n'); }` -/
def readLoop : Nat → InputStream → Text → Text → Run FormatError Text
  | 0, _, _, _ => Run.diverged
  | fuel + 1, stream, line, data =>
    if !stream.failbit then
      let (stream, line) := stream.getline line
      readLoop fuel stream line (data ++ (line ++ ['\n']))
    else .ok data

/-- `m_data` after the loop, which starts with an empty line and no data. -/
def readData (stream : InputStream) : Run FormatError Text :=
  readLoop (stream.content.length + 3) stream [] []

end InputStream

/-- A newline ends a line, and so does the end of the text behind anything else. -/
def lines : Text → List Text
  | [] => []
  | c :: rest =>
    if c = '\n' then [] :: lines rest
    else
      match lines rest with
      | [] => [[c]]
      | first :: others => (c :: first) :: others

/-- Every line once and in order, each ended by a newline, then empty lines. -/
def EachLineOnce (content data : Text) : Prop :=
  ∃ extra, data = (lines content).flatMap (· ++ ['\n']) ++ List.replicate extra '\n'

def FollowedByNewlines (content data : Text) : Prop :=
  ∃ extra, data = content ++ List.replicate extra '\n'

def EndsLine (content : Text) : Prop := content = [] ∨ content.getLast? = some '\n'

/-- What a text has behind its last newline. -/
def lastLine (content : Text) : Text := (content.reverse.takeWhile (· != '\n')).reverse

/-- What the loop makes of a content: a last line without a newline comes twice. -/
def reread (content : Text) : Text :=
  content ++ '\n' :: if lastLine content = [] then [] else lastLine content ++ ['\n']

theorem not_newline {line : Text} (single : '\n' ∉ line) : ∀ c ∈ line, (c != '\n') = true := by
  intro c member
  have other : c ≠ '\n' := by rintro rfl; exact single member
  simpa using other

theorem lastLine_single {line : Text} (single : '\n' ∉ line) : lastLine line = line := by
  rw [lastLine, List.takeWhile_eq_self_iff.mpr
    (fun c member => not_newline single c (List.mem_reverse.mp member)), List.reverse_reverse]

theorem lastLine_append (line rest : Text) : lastLine (line ++ '\n' :: rest) = lastLine rest := by
  simp only [lastLine, List.reverse_append, List.reverse_cons, List.append_assoc,
    List.takeWhile_append]
  split
  · rename_i whole
    have all := (List.takeWhile_prefix (· != '\n') (l := rest.reverse)).eq_of_length whole
    simp [all]
  · rfl

theorem lastLine_eq_nil_iff (content : Text) : lastLine content = [] ↔ EndsLine content := by
  rcases List.eq_nil_or_concat content with rfl | ⟨before, last, rfl⟩
  · simp [lastLine, EndsLine]
  · by_cases newline : last = '\n' <;> simp [lastLine, EndsLine, newline]

/-- A text is its last line, or a first line in front of further text. -/
theorem cases_line (content : Text) :
    '\n' ∉ content ∨ ∃ line rest, content = line ++ '\n' :: rest ∧ '\n' ∉ line := by
  induction content with
  | nil => simp
  | cons c content ih =>
    by_cases newline : c = '\n'
    · exact .inr ⟨[], content, by simp [newline]⟩
    · rcases ih with single | ⟨line, rest, rfl, single⟩
      · exact .inl (by simp [single, Ne.symm newline])
      · exact .inr ⟨c :: line, rest, rfl, by simp [single, Ne.symm newline]⟩

theorem getline_line {line : Text} (single : '\n' ∉ line) (rest stale : Text) :
    InputStream.getline { content := line ++ '\n' :: rest } stale = ({ content := rest }, line) := by
  have whole := not_newline single
  simp [InputStream.getline, InputStream.good, List.takeWhile_append_of_pos whole,
    List.dropWhile_append_of_pos whole]

theorem getline_last {line : Text} (single : '\n' ∉ line) (stale : Text) :
    InputStream.getline { content := line } stale =
      ({ content := [], eofbit := true, failbit := line.isEmpty }, line) := by
  have whole := not_newline single
  simp [InputStream.getline, InputStream.good, List.takeWhile_eq_self_iff.mpr whole,
    List.dropWhile_eq_nil_iff.mpr whole]

theorem readLoop_step (fuel : Nat) {stream : InputStream} (holds : stream.failbit = false)
    (line data : Text) :
    InputStream.readLoop (fuel + 1) stream line data =
      InputStream.readLoop fuel (stream.getline line).1 (stream.getline line).2
        (data ++ ((stream.getline line).2 ++ ['\n'])) := by
  simp [InputStream.readLoop, holds]

theorem readLoop_stop (fuel : Nat) {stream : InputStream} (failed : stream.failbit = true)
    (line data : Text) : InputStream.readLoop (fuel + 1) stream line data = .ok data := by
  simp [InputStream.readLoop, failed]

theorem readLoop_eq (content : Text) {fuel : Nat} (enough : content.length + 3 ≤ fuel)
    (stale data : Text) :
    InputStream.readLoop fuel { content := content } stale data = .ok (data ++ reread content) := by
  induction size : content.length using Nat.strongRecOn generalizing content fuel stale data with
  | _ count ih =>
    subst size
    obtain ⟨fuel, rfl⟩ : ∃ rest, fuel = rest + 3 := ⟨fuel - 3, by omega⟩
    rw [readLoop_step (fuel + 2) rfl]
    rcases cases_line content with single | ⟨line, rest, rfl, single⟩
    · rw [getline_last single]
      by_cases empty : content = []
      · rw [readLoop_stop (fuel + 1) (by simp [empty])]
        simp [empty, reread, lastLine]
      · -- the stream is at its end but not failed, so the line is appended again
        rw [readLoop_step (fuel + 1) (by simpa using empty), readLoop_stop fuel rfl]
        simp [empty, reread, lastLine_single single, InputStream.getline, InputStream.good]
    · have shorter : rest.length < (line ++ '\n' :: rest).length := by
        simp only [List.length_append, List.length_cons]
        omega
      rw [getline_line single, ih _ shorter rest (by omega) _ _ rfl]
      simp [reread, lastLine_append]

theorem readData_eq (content : Text) :
    InputStream.readData { content := content } = .ok (reread content) := by
  rw [InputStream.readData, readLoop_eq content (Nat.le_refl _), List.nil_append]

theorem lines_single {line : Text} (single : '\n' ∉ line) (nonempty : line ≠ []) :
    lines line = [line] := by
  induction line with
  | nil => exact absurd rfl nonempty
  | cons c line ih =>
    have other : c ≠ '\n' := by rintro rfl; simp at single
    cases line with
    | nil => simp [lines, other]
    | cons d line =>
      rw [lines, if_neg other, ih (fun member => single (List.mem_cons_of_mem c member)) (by simp)]

theorem lines_append {line : Text} (single : '\n' ∉ line) (rest : Text) :
    lines (line ++ '\n' :: rest) = line :: lines rest := by
  induction line with
  | nil => simp [lines]
  | cons c line ih =>
    have other : c ≠ '\n' := by rintro rfl; simp at single
    rw [List.cons_append, lines, if_neg other,
      ih (fun member => single (List.mem_cons_of_mem c member))]

theorem flatMap_lines (content : Text) :
    (lines content).flatMap (· ++ ['\n']) =
      if lastLine content = [] then content else content ++ ['\n'] := by
  induction size : content.length using Nat.strongRecOn generalizing content with
  | _ count ih =>
    subst size
    rcases cases_line content with single | ⟨line, rest, rfl, single⟩
    · by_cases empty : content = []
      · simp [empty, lines, lastLine]
      · simp [lines_single single empty, lastLine_single single, empty]
    · have shorter : rest.length < (line ++ '\n' :: rest).length := by
        simp only [List.length_append, List.length_cons]
        omega
      rw [lines_append single, List.flatMap_cons, ih _ shorter rest rfl, lastLine_append]
      split <;> simp

/-- An unfinished last line has characters of its own behind the content. -/
theorem reread_ne (content : Text) (unfinished : lastLine content ≠ []) (extra : Nat) :
    lastLine content ++ ['\n'] ≠ List.replicate extra '\n' := by
  intro same
  obtain ⟨c, member⟩ := List.exists_mem_of_ne_nil _ unfinished
  have newline : c = '\n' :=
    List.eq_of_mem_replicate (same ▸ List.mem_append_left _ member)
  have other := List.mem_takeWhile_imp (List.mem_reverse.mp member)
  simp [newline] at other

theorem followedByNewlines_reread_iff (content : Text) :
    FollowedByNewlines content (reread content) ↔ EndsLine content := by
  rw [← lastLine_eq_nil_iff]
  constructor
  · rintro ⟨extra, same⟩
    by_contra unfinished
    simp only [reread, if_neg unfinished, List.append_cancel_left_eq] at same
    cases extra with
    | zero => simp at same
    | succ extra =>
      rw [List.replicate_succ, List.cons.injEq] at same
      exact reread_ne content unfinished extra same.2
  · intro finished
    exact ⟨1, by simp [reread, finished]⟩

theorem eachLineOnce_reread_iff (content : Text) :
    EachLineOnce content (reread content) ↔ EndsLine content := by
  rw [← lastLine_eq_nil_iff, EachLineOnce, flatMap_lines]
  constructor
  · rintro ⟨extra, same⟩
    by_contra unfinished
    simp only [reread, if_neg unfinished, List.append_assoc, List.append_cancel_left_eq,
      List.cons_append, List.nil_append, List.cons.injEq, true_and] at same
    exact reread_ne content unfinished extra same
  · intro finished
    exact ⟨1, by simp [reread, finished]⟩

/-- Reading ends with every line once exactly when the content ends in a newline. -/
theorem readData_lines_once_iff (content : Text) :
    ∃ data, InputStream.readData { content := content } = .ok data ∧
      (EachLineOnce content data ↔ EndsLine content) ∧
      (FollowedByNewlines content data ↔ EndsLine content) :=
  ⟨_, readData_eq content, eachLineOnce_reread_iff content, followedByNewlines_reread_iff content⟩

/-- The exported empty map comes back twice. -/
theorem readData_exported_map :
    ∃ data, InputStream.readData { content := (Chunk.map () []).strval 0 ['\t'] } = .ok data ∧
      data = ['{', '}', '\n', '{', '}', '\n'] ∧
      ¬ EachLineOnce ((Chunk.map () []).strval 0 ['\t']) data ∧
      ¬ FollowedByNewlines ((Chunk.map () []).strval 0 ['\t']) data :=
  ⟨_, readData_eq _, by decide,
    by rw [eachLineOnce_reread_iff]; simp [EndsLine, Chunk.strval],
    by rw [followedByNewlines_reread_iff]; simp [EndsLine, Chunk.strval]⟩

end Ztd.Filedat
