import Ztd.Filedat.Reading

/-! ZFD documents: maps, lists and strings with their layout, the text they are
written as and the tree they stand for. -/

namespace Ztd.Filedat
open Ztd.Lib

/-- One blank or one comment with the newline that ends it. -/
inductive Piece where
  | blank (c : Char) (valid : c = ' ' ∨ c = '\t' ∨ c = '\n')
  | comment (slashes : Bool) (text : Text) (single : '\n' ∉ text)

namespace Piece

def text : Piece → Text
  | .blank c _ => [c]
  | .comment slashes text _ => (if slashes then ['/', '/'] else ['#']) ++ text ++ ['\n']

/-- What is left of it when comments are removed. -/
def stripped : Piece → Text
  | .blank c _ => [c]
  | .comment .. => ['\n']

def isComment : Piece → Bool
  | .blank .. => false
  | .comment .. => true

end Piece

/-- What may stand between the parts of a document. -/
abbrev Layout := List Piece

def Layout.render (piece : Piece → Text) (layout : Layout) : Text := layout.flatMap piece

/-- Characters that have a meaning of their own. -/
def isMarkup (c : Char) : Bool :=
  c ∈ ['=', ';', '"', '\'', '{', '}', '[', ']', '#', '/', '\\']

/-- Text without quotes: readable at both ends, blanks only inside. -/
structure Word where
  text : Text
  chars : ∀ c ∈ text, (isRead c = true ∧ isMarkup c = false) ∨ c = ' ' ∨ c = '\t'
  begins : ∃ c rest, text = c :: rest ∧ isRead c = true
  ends : ∃ before c, text = before ++ [c] ∧ isRead c = true

/-- A key of printable characters without a meaning of their own. -/
def Word.ofKey (key : Text) (nonempty : key ≠ [])
    (plain : ∀ c ∈ key, isRead c = true ∧ isMarkup c = false) : Word where
  text := key
  chars c member := .inl (plain c member)
  begins := by
    obtain ⟨c, rest, rfl⟩ := List.exists_cons_of_ne_nil nonempty
    exact ⟨c, rest, rfl, (plain c List.mem_cons_self).1⟩
  ends := by
    refine ⟨key.dropLast, key.getLast nonempty, (List.dropLast_append_getLast nonempty).symm, ?_⟩
    exact (plain _ (List.getLast_mem nonempty)).1

/-- A word of one character. -/
def Word.letter (c : Char) (plain : (isRead c && !isMarkup c) = true) : Word :=
  .ofKey [c] (List.cons_ne_nil c []) (List.forall_mem_singleton.mpr (by simpa using plain))

/-- Text between quotes, as the printer escapes it. -/
structure Quotation where
  single : Bool
  content : Text

namespace Quotation

def kind (quotation : Quotation) : QuoteKind :=
  if quotation.single then singleQuote else doubleQuote

def text (quotation : Quotation) : Text :=
  quotation.kind.mark :: escape quotation.kind.mark quotation.content ++ [quotation.kind.mark]

/-- The closing quote closes. -/
def Closes (quotation : Quotation) : Prop := quotation.content.getLast? ≠ some '\\'

end Quotation

inductive Key where
  | plain (word : Word)
  | quoted (quotation : Quotation) (closes : quotation.Closes)
      (begins : ∃ c rest, quotation.content = c :: rest ∧ c ≠ ';')

namespace Key

def text : Key → Text
  | .plain word => word.text
  | .quoted quotation _ _ => quotation.text

def content : Key → Text
  | .plain word => word.text
  | .quoted quotation _ _ => quotation.content

end Key

/-- What ends an entry: a semicolon, a newline or a comment up to its newline. -/
inductive Mark where
  | semicolon
  | line (piece : Piece) (ends : piece.stripped = ['\n'])

def Mark.render (piece : Piece → Text) : Mark → Text
  | .semicolon => [';']
  | .line ending _ => piece ending

/-- What stands between two entries of a map. -/
structure Separator where
  gap : Text
  blank : ∀ c ∈ gap, c = ' ' ∨ c = '\t'
  mark : Mark
  after : Layout

def Separator.render (piece : Piece → Text) (sep : Separator) : Text :=
  sep.gap ++ sep.mark.render piece ++ sep.after.render piece

mutual
inductive Value where
  | plain (word : Word) (noComma : ',' ∉ word.text)
  | quoted (quotation : Quotation)
  | map (first : Layout) (entries : Entries)
  | emptyList (first : Layout)
  | list (first : Layout) (elements : Elements)
/-- The entries of a map, with the layout up to its closing brace. -/
inductive Entries where
  | done
  | last (key : Key) (before after : Layout) (value : Value) (trail : Layout)
  | more (key : Key) (before after : Layout) (value : Value) (sep : Separator) (rest : Entries)
/-- The elements of a list, with the layout up to its closing bracket. -/
inductive Elements where
  | last (value : Value) (trail : Layout)
  | more (value : Value) (before : Layout) (semicolon : Bool) (after : Layout) (rest : Elements)
end

section Render
variable (piece : Piece → Text)

mutual
/-- The text of a value, by how the pieces of its layout are written. -/
def Value.render : Value → Text
  | .plain word _ => word.text
  | .quoted quotation => quotation.text
  | .map first entries => '{' :: (first.render piece ++ entries.render ++ ['}'])
  | .emptyList first => '[' :: (first.render piece ++ [']'])
  | .list first elements => '[' :: (first.render piece ++ elements.render ++ [']'])
def Entries.render : Entries → Text
  | .done => []
  | .last key before after value trail =>
    key.text ++ before.render piece ++ '=' ::
      (after.render piece ++ value.render ++ trail.render piece)
  | .more key before after value sep rest =>
    key.text ++ before.render piece ++ '=' ::
      (after.render piece ++ value.render ++ (sep.render piece ++ rest.render))
def Elements.render : Elements → Text
  | .last value trail => value.render ++ trail.render piece
  | .more value before semicolon after rest =>
    value.render ++ before.render piece ++ (if semicolon then ';' else ',') ::
      (after.render piece ++ rest.render)
end

end Render

/-- A value as it is written. -/
def Value.text (value : Value) : Text := value.render Piece.text

/-- A value as it is written without comments. -/
def Value.stripped (value : Value) : Text := value.render Piece.stripped

def Entries.stripped (entries : Entries) : Text := entries.render Piece.stripped

def Elements.stripped (elements : Elements) : Text := elements.render Piece.stripped

def Layout.stripped (layout : Layout) : Text := layout.render Piece.stripped

mutual
/-- The tree a value stands for. -/
def Value.tree : Value → Tree
  | .plain word _ => .string () word.text
  | .quoted quotation => .string () quotation.content
  | .map _ entries => .map () (OrderedMap.ofList entries.assoc)
  | .emptyList _ => .list () []
  | .list _ elements => .list () elements.trees
def Entries.assoc : Entries → List (Text × Tree)
  | .done => []
  | .last key _ _ value _ => [(key.content, value.tree)]
  | .more key _ _ value _ rest => (key.content, value.tree) :: rest.assoc
def Elements.trees : Elements → List Tree
  | .last value _ => [value.tree]
  | .more value _ _ _ rest => value.tree :: rest.trees
end

def Entries.keys : Entries → List Text
  | .done => []
  | .last key .. => [key.content]
  | .more key _ _ _ _ rest => key.content :: rest.keys

/-- What `_getstrval` makes of a value. -/
def Value.content : Value → Text
  | .quoted quotation => quotation.content
  | value => value.stripped

mutual
/-- Every quoted value closes. -/
def Value.Closes : Value → Prop
  | .plain .. => True
  | .quoted quotation => quotation.Closes
  | .map _ entries => entries.Closes
  | .emptyList _ => True
  | .list _ elements => elements.Closes
def Entries.Closes : Entries → Prop
  | .done => True
  | .last _ _ _ value _ => value.Closes
  | .more _ _ _ value _ rest => value.Closes ∧ rest.Closes
def Elements.Closes : Elements → Prop
  | .last value _ => value.Closes
  | .more value _ _ _ rest => value.Closes ∧ rest.Closes
end

/-- The parser takes the text for a string and keeps it: what it isolates is
not empty and does not begin with a bracket. -/
def Reread (text : Text) : Prop :=
  text = [] ∨ ∃ c rest after, read .checked nul nul text = .ok (c :: rest, after) ∧
    c ≠ '{' ∧ c ≠ '['

/-- No blanks are taken off the end of the text. -/
def Trimmed (text : Text) : Prop := trimEnd text = text

mutual
/-- Every quoted value is a string the parser keeps, and no map has a key twice.
`atEnd` says that nothing follows the value's delimiter inside its brackets. -/
def Value.Good (atEnd : Prop) : Value → Prop
  | .plain .. => True
  | .quoted quotation =>
    quotation.Closes ∧ Reread quotation.content ∧ (atEnd → Trimmed quotation.content)
  | .map _ entries => entries.keys.Nodup ∧ entries.Good
  | .emptyList _ => True
  | .list _ elements => elements.Good
def Entries.Good : Entries → Prop
  | .done => True
  | .last _ _ _ value _ => value.Good True
  | .more _ _ _ value sep rest =>
    value.Good (sep.after.stripped ++ rest.stripped = []) ∧ rest.Good
def Elements.Good : Elements → Prop
  | .last value _ => value.Good True
  | .more value _ _ _ rest => value.Good False ∧ rest.Good
end

mutual
theorem Value.Good.closes {atEnd : Prop} : ∀ {value : Value}, value.Good atEnd → value.Closes
  | .plain .., _ => trivial
  | .quoted _, good => good.1
  | .map _ entries, good => Entries.Good.closes (show entries.Good from good.2)
  | .emptyList _, _ => trivial
  | .list _ elements, good => Elements.Good.closes (show elements.Good from good)
theorem Entries.Good.closes : ∀ {entries : Entries}, entries.Good → entries.Closes
  | .done, _ => trivial
  | .last _ _ _ value _, good => Value.Good.closes (show value.Good True from good)
  | .more _ _ _ _ _ _, good => ⟨good.1.closes, Entries.Good.closes good.2⟩
theorem Elements.Good.closes : ∀ {elements : Elements}, elements.Good → elements.Closes
  | .last value _, good => Value.Good.closes (show value.Good True from good)
  | .more _ _ _ _ _, good => ⟨good.1.closes, Elements.Good.closes good.2⟩
end

end Ztd.Filedat
