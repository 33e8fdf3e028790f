import Ztd.Filedat.Scanning

/-! A group scan goes over every part of a document and is back at its depth. -/

namespace Ztd.Filedat
open Ztd.Lib

/-- A scan of the group comes out of the text at the depth it went in, and is at
most `height` deeper in between. -/
def Balanced (group : GroupKind) (height : Nat) (text : Text) : Prop :=
  ∀ depth rest, depth + height < 2 ^ 32 →
    closeGroup group (group.level depth) (text ++ rest) =
      prepend text (closeGroup group (group.level depth) rest)

/-- A scan of the group comes out of the text at the depth it went in. -/
def Neutral (group : GroupKind) (text : Text) : Prop :=
  ∀ depth rest, depth + text.length < 2 ^ 32 →
    closeGroup group (group.level depth) (text ++ rest) =
      prepend text (closeGroup group (group.level depth) rest)

/-- A character that is neither a bracket nor a quote. -/
def Inert (c : Char) : Prop := c ∉ ['{', '}', '[', ']', '"', '\'']

instance (c : Char) : Decidable (Inert c) :=
  inferInstanceAs (Decidable (c ∉ ['{', '}', '[', ']', '"', '\'']))

theorem quoteOf_inert {c : Char} (inert : Inert c) : quoteOf c = none := by
  simp only [Inert, List.mem_cons, List.not_mem_nil, or_false, not_or] at inert
  simp [quoteOf, inert]

def GroupKind.Known (group : GroupKind) : Prop := group = brace ∨ group = bracket

theorem GroupKind.Known.readable {group : GroupKind} (known : group.Known) :
    isRead group.opening = true ∧ isRead group.closing = true := by
  rcases known with rfl | rfl <;> decide

theorem GroupKind.Known.valid {group : GroupKind} (known : group.Known) : group.Valid := by
  rcases known with rfl | rfl
  · exact brace_valid
  · exact bracket_valid

theorem Quotation.kind_spec (quotation : Quotation) :
    quoteOf quotation.kind.mark = some quotation.kind ∧ IsMark quotation.kind.mark := by
  rw [Quotation.kind]
  split
  · exact ⟨rfl, isMark_single⟩
  · exact ⟨rfl, isMark_double⟩

/-- The text of a quotation closes where it is written to. -/
theorem Quotation.closeQuote {quotation : Quotation} (closes : quotation.Closes) (rest : Text) :
    Filedat.closeQuote quotation.kind.mark
      (escape quotation.kind.mark quotation.content ++ quotation.kind.mark :: rest) =
      some (escape quotation.kind.mark quotation.content, rest) :=
  have valid := quotation.kind_spec.2
  closeQuote_closed valid (closed_escape valid closes) rest

section Texts
variable {group : GroupKind}

theorem GroupKind.Known.passes (known : group.Known) {c : Char} (inert : Inert c) :
    group.Passes c := by
  have noQuote := quoteOf_inert inert
  simp only [Inert, List.mem_cons, List.not_mem_nil, or_false, not_or] at inert
  obtain ⟨a, b, c, d, _⟩ := inert
  rcases known with rfl | rfl
  · exact ⟨a, b, noQuote⟩
  · exact ⟨c, d, noQuote⟩

namespace Balanced
variable {height other : Nat} {text first second : Text}

theorem mono (balanced : Balanced group height text) (higher : height ≤ other) :
    Balanced group other text := fun depth rest room => balanced depth rest (by omega)

theorem nil : Balanced group height [] := fun _ _ _ => by simp

theorem append (left : Balanced group height first) (right : Balanced group height second) :
    Balanced group height (first ++ second) := by
  intro depth rest room
  rw [List.append_assoc, left depth _ room, right depth _ room, prepend_prepend]

theorem passes (known : group.Known) (passes : ∀ c ∈ text, group.Passes c) :
    Balanced group height text := fun _ _ _ => closeGroup_passes known.valid passes _

theorem inert (known : group.Known) (inert : ∀ c ∈ text, Inert c) : Balanced group height text :=
  .passes known (fun c member => known.passes (inert c member))

theorem cons (known : group.Known) {c : Char} (inert : Inert c)
    (balanced : Balanced group height text) : Balanced group height (c :: text) :=
  append (.inert known (show ∀ d ∈ [c], Inert d by simpa using inert)) balanced

theorem quotation (known : group.Known) {quotation : Quotation} (closes : quotation.Closes) :
    Balanced group height quotation.text := by
  intro depth rest _
  obtain ⟨is, _⟩ := quotation.kind_spec
  have apart (c : Char) (noQuote : quoteOf c = none) : quotation.kind.mark ≠ c := by
    intro same
    rw [same, noQuote] at is
    simp at is
  have valid := known.valid
  have down : quotation.kind.mark ≠ group.down := by
    rcases valid.counts with ⟨down, _⟩ | ⟨down, _⟩ <;> rw [down]
    exacts [apart _ valid.closing, apart _ valid.opening]
  have up : quotation.kind.mark ≠ group.up := by
    rcases valid.counts with ⟨_, up⟩ | ⟨_, up⟩ <;> rw [up]
    exacts [apart _ valid.opening, apart _ valid.closing]
  have found := Quotation.closeQuote closes rest
  rw [Quotation.text, List.cons_append, List.cons_append, List.append_assoc, List.singleton_append,
    closeGroup_quote group (fun ends => apart _ valid.closing ends.2) down up is found,
    List.cons_append]

/-- Brackets around a text are one level higher. -/
theorem enclosed {kind : GroupKind} (known : group.Known) (kindKnown : kind.Known)
    (balanced : Balanced group height text) :
    Balanced group (height + 1) (kind.opening :: (text ++ [kind.closing])) := by
  by_cases same : kind = group
  · subst same
    intro depth rest room
    rw [List.cons_append, List.append_assoc, List.singleton_append,
      closeGroup_opening known.valid, balanced (depth + 1) _ (by omega),
      closeGroup_inner known.valid (by omega), prepend_prepend, prepend_prepend,
      List.append_assoc, List.singleton_append]
  · have passes : group.Passes kind.opening ∧ group.Passes kind.closing := by
      rcases known with rfl | rfl <;> rcases kindKnown with rfl | rfl
      · exact absurd rfl same
      · exact ⟨⟨by decide, by decide, rfl⟩, ⟨by decide, by decide, rfl⟩⟩
      · exact ⟨⟨by decide, by decide, rfl⟩, ⟨by decide, by decide, rfl⟩⟩
      · exact absurd rfl same
    exact append
      (.passes known (show ∀ c ∈ [kind.opening], group.Passes c by simpa using passes.1))
      (append (balanced.mono (Nat.le_succ height))
        (.passes known (by simpa using passes.2)))

/-- A balanced text is what the brackets around it enclose. -/
theorem readGroup (balanced : Balanced group height text) (room : height < 2 ^ 32) (rest : Text) :
    Filedat.readGroup group (group.opening :: (text ++ [group.closing]) ++ rest) =
      .ok (group.opening :: (text ++ [group.closing]), rest) := by
  have inside := balanced 0 (group.closing :: rest) (by omega)
  rw [level_zero, closeGroup_closing] at inside
  have whole : closeGroup group 0 (text ++ [group.closing] ++ rest) = .ok (text, some rest) := by
    simpa using inside
  rw [Filedat.readGroup, List.cons_append, List.drop_one, List.tail_cons, whole]
  rfl

end Balanced

namespace Neutral
variable {text first second : Text}

/-- A text nests no deeper than it is long. -/
theorem of_balanced {height : Nat} (balanced : Balanced group height text)
    (inside : height ≤ text.length) : Neutral group text := balanced.mono inside

theorem append (left : Neutral group first) (right : Neutral group second) :
    Neutral group (first ++ second) := by
  refine Balanced.append (Balanced.mono left ?_) (Balanced.mono right ?_) <;>
    rw [List.length_append] <;> omega

theorem inert (known : group.Known) (inert : ∀ c ∈ text, Inert c) : Neutral group text :=
  Balanced.inert known inert

theorem cons (known : group.Known) {c : Char} (inert : Inert c) (neutral : Neutral group text) :
    Neutral group (c :: text) := Balanced.cons known inert (Balanced.mono neutral (Nat.le_succ _))

theorem quotation (known : group.Known) {quotation : Quotation} (closes : quotation.Closes) :
    Neutral group quotation.text := Balanced.quotation known closes

theorem enclosed {kind : GroupKind} (known : group.Known) (kindKnown : kind.Known)
    (neutral : Neutral group text) :
    Neutral group (kind.opening :: (text ++ [kind.closing])) := by
  refine of_balanced (Balanced.enclosed known kindKnown neutral) ?_
  rw [List.length_cons, List.length_append]
  exact Nat.succ_le_succ (Nat.le_add_right _ _)

end Neutral

/-- A neutral text is what the brackets around it enclose. -/
theorem readGroup_neutral {inner : Text} (neutral : Neutral group inner)
    (room : inner.length < 2 ^ 32) (rest : Text) :
    readGroup group (group.opening :: (inner ++ [group.closing]) ++ rest) =
      .ok (group.opening :: (inner ++ [group.closing]), rest) :=
  Balanced.readGroup neutral room rest

end Texts

theorem Piece.stripped_inert (piece : Piece) : ∀ c ∈ piece.stripped, Inert c := by
  cases piece with
  | blank c valid =>
    intro d member
    obtain rfl : d = c := by simpa [Piece.stripped] using member
    rcases valid with rfl | rfl | rfl <;> decide
  | comment => simp [Piece.stripped, Inert]

theorem Layout.stripped_inert (layout : Layout) : ∀ c ∈ layout.stripped, Inert c := by
  intro c member
  obtain ⟨piece, _, inside⟩ := List.mem_flatMap.mp member
  exact piece.stripped_inert c inside

theorem Mark.stripped (mark : Mark) :
    mark.render Piece.stripped = [';'] ∨ mark.render Piece.stripped = ['\n'] := by
  cases mark with
  | semicolon => exact .inl rfl
  | line piece ends => exact .inr ends

theorem Separator.stripped_inert (sep : Separator) : ∀ c ∈ sep.render Piece.stripped, Inert c := by
  intro c member
  rw [Separator.render, List.append_assoc, List.mem_append, List.mem_append] at member
  rcases member with gap | mark | after
  · rcases sep.blank c gap with rfl | rfl <;> decide
  · rcases sep.mark.stripped with is | is <;> rw [is, List.mem_singleton] at mark <;> subst mark <;>
      decide
  · exact Layout.stripped_inert sep.after c after

theorem Word.inert (word : Word) : ∀ c ∈ word.text, Inert c := by
  intro c member
  rcases word.chars c member with ⟨_, plain⟩ | rfl | rfl
  · simp only [isMarkup, decide_eq_false_iff_not, List.mem_cons, List.not_mem_nil, or_false,
      not_or] at plain
    simp [Inert, plain]
  · decide
  · decide

section Values
variable {group : GroupKind} (known : group.Known)
include known

theorem Key.neutral (key : Key) : Neutral group key.text := by
  cases key with
  | plain word => exact .inert known word.inert
  | quoted quotation closes begins => exact .quotation known closes

theorem Layout.neutral (layout : Layout) : Neutral group layout.stripped :=
  .inert known layout.stripped_inert

mutual
theorem Value.neutral : ∀ value : Value, value.Closes →
    Neutral group value.stripped
  | .plain word _, _ => .inert known word.inert
  | .quoted _, closes => .quotation known closes
  | .map first entries, closes =>
    .enclosed known (.inl rfl) (.append (Layout.neutral known first) (Entries.neutral entries closes))
  | .emptyList first, _ => .enclosed known (.inr rfl) (Layout.neutral known first)
  | .list first elements, closes =>
    .enclosed known (.inr rfl)
      (.append (Layout.neutral known first) (Elements.neutral elements closes))
theorem Entries.neutral : ∀ entries : Entries, entries.Closes → Neutral group entries.stripped
  | .done, _ => Balanced.nil
  | .last key before after value trail, closes =>
    .append (.append (key.neutral known) (Layout.neutral known before)) (.cons known (by decide)
      (.append (.append (Layout.neutral known after) (Value.neutral value closes))
        (Layout.neutral known trail)))
  | .more key before after value sep rest, closes =>
    .append (.append (key.neutral known) (Layout.neutral known before)) (.cons known (by decide)
      (.append (.append (Layout.neutral known after) (Value.neutral value closes.1))
        (.append (.inert known sep.stripped_inert) (Entries.neutral rest closes.2))))
theorem Elements.neutral : ∀ elements : Elements, elements.Closes → Neutral group elements.stripped
  | .last value trail, closes =>
    .append (Value.neutral value closes) (Layout.neutral known trail)
  | .more value before semicolon after rest, closes =>
    .append (.append (Value.neutral value closes.1) (Layout.neutral known before))
      (.cons known (by cases semicolon <;> decide)
        (.append (Layout.neutral known after) (Elements.neutral rest closes.2)))
end

end Values

end Ztd.Filedat
