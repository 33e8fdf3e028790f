import Ztd.Filedat.Nesting
import Ztd.Filedat.Stripping

/-! Removing the comments of a document: no comment may start directly behind a
closing quote, where `removeComments` does not look. -/

namespace Ztd.Filedat
open Ztd.Lib

def Layout.Apart (layout : Layout) : Prop := ∀ piece ∈ layout.head?, piece.isComment = false

def Mark.isComment : Mark → Bool
  | .semicolon => false
  | .line piece _ => piece.isComment

def Separator.Apart (sep : Separator) : Prop := sep.gap = [] → sep.mark.isComment = false

def Key.quotes : Key → Bool
  | .plain _ => false
  | .quoted .. => true

def Value.quotes : Value → Bool
  | .quoted _ => true
  | _ => false

mutual
/-- No comment starts directly behind a closing quote. -/
def Value.Apart : Value → Prop
  | .plain .. => True
  | .quoted _ => True
  | .map _ entries => entries.Apart
  | .emptyList _ => True
  | .list _ elements => elements.Apart
def Entries.Apart : Entries → Prop
  | .done => True
  | .last key before _ value trail =>
    (key.quotes = true → before.Apart) ∧ value.Apart ∧ (value.quotes = true → trail.Apart)
  | .more key before _ value sep rest =>
    (key.quotes = true → before.Apart) ∧ value.Apart ∧ (value.quotes = true → sep.Apart) ∧ rest.Apart
def Elements.Apart : Elements → Prop
  | .last value trail => value.Apart ∧ (value.quotes = true → trail.Apart)
  | .more value before _ _ rest =>
    value.Apart ∧ (value.quotes = true → before.Apart) ∧ rest.Apart
end

/-- Text without quotes, backslashes and comments. -/
def Bare (c : Char) : Prop := c ∉ ['"', '\'', '\\', '#', '/']

instance (c : Char) : Decidable (Bare c) := inferInstanceAs (Decidable (c ∉ _))

/-- Text whose first character stays. -/
def Behind (rest : Text) : Prop :=
  ∀ c later, rest = c :: later → strip rest = lead [c] (strip later)

section Pieces
variable {rest : Text}

theorem strip_bare {c : Char} (bare : Bare c) (rest : Text) :
    strip (c :: rest) = lead [c] (strip rest) := by
  simp only [Bare, List.mem_cons, List.not_mem_nil, or_false, not_or] at bare
  refine strip_plain bare.2.2.1 (by simp [quoteOf, bare]) ?_
  simp [startsComment, bare]

theorem strip_bares {text : Text} (bare : ∀ c ∈ text, Bare c) (rest : Text) :
    strip (text ++ rest) = lead text (strip rest) := by
  induction text with
  | nil => exact (lead_nil _).symm
  | cons c text ih =>
    obtain ⟨first, later⟩ := List.forall_mem_cons.mp bare
    rw [List.cons_append, strip_bare first, ih later, lead_lead]
    rfl

theorem behind_bare {c : Char} (bare : Bare c) (rest : Text) : Behind (c :: rest) := by
  intro d later same
  obtain ⟨rfl, rfl⟩ := List.cons.inj same
  exact strip_bare bare rest

theorem bare_blank {c : Char} (blank : c = ' ' ∨ c = '\t' ∨ c = '\n') : Bare c := by
  rcases blank with rfl | rfl | rfl <;> decide

/-- A comment without its newline leaves nothing. -/
theorem strip_remark (slashes : Bool) {text : Text} (single : '\n' ∉ text) (rest : Text)
    (ends : ∀ c ∈ rest.head?, c = '\n') :
    strip ((if slashes then ['/', '/'] else ['#']) ++ text ++ rest) =
      lead (rest.take 1) (strip (rest.drop 1)) := by
  have passes (front : Text) (plain : ∀ c ∈ front, (c != '\n') = true) :
      (front ++ rest).dropWhile (· != '\n') = rest := by
    rw [List.dropWhile_append_of_pos plain]
    cases rest with
    | nil => rfl
    | cons c rest => rw [List.dropWhile_cons_of_neg (by simpa using ends c rfl)]
  have plain : ∀ c ∈ text, (c != '\n') = true := by
    intro c member
    have different : c ≠ '\n' := fun same => single (same ▸ member)
    simpa using different
  cases slashes with
  | true =>
    have passed : ('/' :: (text ++ rest)).dropWhile (· != '\n') = rest :=
      passes ('/' :: text) (List.forall_mem_cons.mpr ⟨rfl, plain⟩)
    change strip ('/' :: '/' :: (text ++ rest)) = _
    rw [strip_comment (by decide) rfl rfl, passed]
  | false =>
    change strip ('#' :: (text ++ rest)) = _
    rw [strip_comment (by decide) rfl rfl, passes text plain]

theorem strip_piece (piece : Piece) (rest : Text) :
    strip (piece.text ++ rest) = lead piece.stripped (strip rest) := by
  cases piece with
  | blank c valid => exact strip_bare (bare_blank valid) rest
  | comment slashes text single =>
    rw [Piece.text, List.append_assoc]
    exact strip_remark slashes single ('\n' :: rest) (by simp)

theorem strip_layout (layout : Layout) (rest : Text) :
    strip (layout.render Piece.text ++ rest) = lead layout.stripped (strip rest) := by
  induction layout with
  | nil => exact (lead_nil _).symm
  | cons piece layout ih =>
    change strip (piece.text ++ Layout.render Piece.text layout ++ rest) = _
    rw [List.append_assoc, strip_piece, ih, lead_lead]
    rfl

theorem Layout.Apart.behind {layout : Layout} (apart : layout.Apart) (behind : Behind rest) :
    Behind (layout.render Piece.text ++ rest) := by
  cases layout with
  | nil => exact behind
  | cons piece layout =>
    cases piece with
    | blank c valid => exact behind_bare (bare_blank valid) _
    | comment => simp [Layout.Apart, Piece.isComment] at apart

theorem strip_mark (mark : Mark) (rest : Text) :
    strip (mark.render Piece.text ++ rest) = lead (mark.render Piece.stripped) (strip rest) := by
  cases mark with
  | semicolon => exact strip_bare (by decide) rest
  | line piece ends => exact strip_piece piece rest

theorem strip_separator (sep : Separator) (rest : Text) :
    strip (sep.render Piece.text ++ rest) = lead (sep.render Piece.stripped) (strip rest) := by
  have gap : ∀ c ∈ sep.gap, Bare c := by
    intro c member
    rcases sep.blank c member with rfl | rfl <;> decide
  rw [Separator.render, List.append_assoc, List.append_assoc, strip_bares gap _, strip_mark,
    strip_layout, lead_lead, lead_lead]
  rfl

theorem Separator.Apart.behind {sep : Separator} (apart : sep.Apart) (rest : Text) :
    Behind (sep.render Piece.text ++ rest) := by
  obtain ⟨gap, blank, mark, after⟩ := sep
  cases gap with
  | cons c gap =>
    have bare : Bare c := by
      rcases blank c (by simp) with rfl | rfl <;> decide
    exact behind_bare bare _
  | nil =>
    cases mark with
    | semicolon => exact behind_bare (by decide) _
    | line piece ends =>
      cases piece with
      | blank c valid => exact behind_bare (bare_blank valid) _
      | comment => simp [Separator.Apart, Mark.isComment, Piece.isComment] at apart

end Pieces

section Documents
variable {rest : Text}

theorem strip_word (word : Word) (rest : Text) :
    strip (word.text ++ rest) = lead word.text (strip rest) := by
  refine strip_bares (fun c member => ?_) rest
  rcases word.chars c member with ⟨_, plain⟩ | rfl | rfl
  · simp only [isMarkup, decide_eq_false_iff_not, List.mem_cons, List.not_mem_nil, or_false,
      not_or] at plain
    simp [Bare, plain]
  · decide
  · decide

/-- Quoted text stays, and the character behind it as well. -/
theorem strip_quotation {quotation : Quotation} (closes : quotation.Closes) (behind : Behind rest) :
    strip (quotation.text ++ rest) = lead quotation.text (strip rest) := by
  have found := Quotation.closeQuote closes rest
  rw [Quotation.text, List.cons_append, List.cons_append, List.append_assoc, List.singleton_append,
    strip_quote quotation.kind_spec.1 found]
  cases rest with
  | nil => simp [strip]
  | cons c rest => simp [behind c rest rfl, lead_lead]

theorem strip_key (key : Key) (behind : key.quotes = true → Behind rest) :
    strip (key.text ++ rest) = lead key.text (strip rest) := by
  cases key with
  | plain word => exact strip_word word rest
  | quoted quotation closes begins => exact strip_quotation closes (behind rfl)

/-- The key of an entry, up to its value. -/
theorem strip_equal (key : Key) {before : Layout} (apart : key.quotes = true → before.Apart)
    (after : Layout) (rest : Text) :
    strip (key.text ++ before.render Piece.text ++ '=' :: (after.render Piece.text ++ rest)) =
      lead (key.text ++ before.stripped ++ '=' :: after.stripped) (strip rest) := by
  rw [List.append_assoc, strip_key key fun quotes => (apart quotes).behind
    (behind_bare (by decide) _), strip_layout, strip_bare (by decide), strip_layout, lead_lead,
    lead_lead, lead_lead]
  simp

mutual
theorem Value.strip_text : ∀ value : Value, value.Closes → value.Apart →
    ∀ rest, (value.quotes = true → Behind rest) →
      strip (value.text ++ rest) = lead value.stripped (strip rest)
  | .plain word _, _, _, rest, _ => strip_word word rest
  | .quoted _, closes, _, rest, behind => strip_quotation closes (behind rfl)
  | .map first entries, closes, apart, rest, _ => by
    have inside := Entries.strip_text entries closes apart ('}' :: rest)
      (behind_bare (by decide) rest)
    change strip ('{' :: (first.render Piece.text ++ entries.render Piece.text ++ ['}'] ++ rest)) = _
    rw [strip_bare (by decide), List.append_assoc, List.append_assoc, List.singleton_append,
      strip_layout, inside, strip_bare (by decide)]
    simp [lead_lead, Value.stripped, Value.render, Entries.stripped, Layout.stripped]
  | .emptyList first, _, _, rest, _ => by
    change strip ('[' :: (first.render Piece.text ++ [']'] ++ rest)) = _
    rw [strip_bare (by decide), List.append_assoc, List.singleton_append, strip_layout,
      strip_bare (by decide)]
    simp [lead_lead, Value.stripped, Value.render, Layout.stripped]
  | .list first elements, closes, apart, rest, _ => by
    have inside := Elements.strip_text elements closes apart (']' :: rest)
      (behind_bare (by decide) rest)
    change strip ('[' :: (first.render Piece.text ++ elements.render Piece.text ++ [']'] ++ rest)) = _
    rw [strip_bare (by decide), List.append_assoc, List.append_assoc, List.singleton_append,
      strip_layout, inside, strip_bare (by decide)]
    simp [lead_lead, Value.stripped, Value.render, Elements.stripped, Layout.stripped]
theorem Entries.strip_text : ∀ entries : Entries, entries.Closes → entries.Apart →
    ∀ rest, Behind rest →
      strip (entries.render Piece.text ++ rest) = lead entries.stripped (strip rest)
  | .done, _, _, rest, _ => (lead_nil _).symm
  | .last key before after value trail, closes, apart, rest, behind => by
    obtain ⟨keyApart, valueApart, trailApart⟩ := apart
    have inside := Value.strip_text value closes valueApart (trail.render Piece.text ++ rest)
      (fun quotes => (trailApart quotes).behind behind)
    have text : (Entries.last key before after value trail).render Piece.text ++ rest =
        key.text ++ before.render Piece.text ++ '=' ::
          (after.render Piece.text ++ (value.text ++ (trail.render Piece.text ++ rest))) := by
      simp [Entries.render, Value.text]
    rw [text, strip_equal key keyApart, inside, strip_layout, lead_lead, lead_lead]
    simp [Entries.stripped, Entries.render, Value.stripped, Layout.stripped]
  | .more key before after value sep others, closes, apart, rest, behind => by
    obtain ⟨keyApart, valueApart, sepApart, othersApart⟩ := apart
    have later := Entries.strip_text others closes.2 othersApart rest behind
    have inside := Value.strip_text value closes.1 valueApart
      (sep.render Piece.text ++ (others.render Piece.text ++ rest))
      (fun quotes => (sepApart quotes).behind _)
    have text : (Entries.more key before after value sep others).render Piece.text ++ rest =
        key.text ++ before.render Piece.text ++ '=' :: (after.render Piece.text ++
          (value.text ++ (sep.render Piece.text ++ (others.render Piece.text ++ rest)))) := by
      simp [Entries.render, Value.text]
    rw [text, strip_equal key keyApart, inside, strip_separator, later, lead_lead, lead_lead,
      lead_lead]
    simp [Entries.stripped, Entries.render, Value.stripped, Layout.stripped]
theorem Elements.strip_text : ∀ elements : Elements, elements.Closes → elements.Apart →
    ∀ rest, Behind rest →
      strip (elements.render Piece.text ++ rest) = lead elements.stripped (strip rest)
  | .last value trail, closes, apart, rest, behind => by
    have inside := Value.strip_text value closes apart.1 (trail.render Piece.text ++ rest)
      (fun quotes => (apart.2 quotes).behind behind)
    have text : (Elements.last value trail).render Piece.text ++ rest =
        value.text ++ (trail.render Piece.text ++ rest) := by simp [Elements.render, Value.text]
    rw [text, inside, strip_layout, lead_lead]
    rfl
  | .more value before semicolon after others, closes, apart, rest, behind => by
    obtain ⟨valueApart, beforeApart, othersApart⟩ := apart
    have bare : Bare (if semicolon then ';' else ',') := by cases semicolon <;> decide
    have later := Elements.strip_text others closes.2 othersApart rest behind
    have inside := Value.strip_text value closes.1 valueApart
      (before.render Piece.text ++ (if semicolon then ';' else ',') ::
        (after.render Piece.text ++ (others.render Piece.text ++ rest)))
      (fun quotes => (beforeApart quotes).behind (behind_bare bare _))
    have text : (Elements.more value before semicolon after others).render Piece.text ++ rest =
        value.text ++ (before.render Piece.text ++ (if semicolon then ';' else ',') ::
          (after.render Piece.text ++ (others.render Piece.text ++ rest))) := by
      simp [Elements.render, Value.text]
    rw [text, inside, strip_layout, strip_bare bare, strip_layout, later, lead_lead, lead_lead,
      lead_lead, lead_lead]
    simp [Elements.stripped, Elements.render, Value.stripped, Layout.stripped]
end

end Documents

end Ztd.Filedat
