import Ztd.Filedat.Import

/-! Documents as the format description has them: quoted text holds no quotes,
brackets and backslashes and begins and ends readable. -/

namespace Ztd.Filedat
open Ztd.Lib

/-- Quoted text as the format description has it. -/
structure Quotation.Simple (quotation : Quotation) : Prop where
  chars : ∀ c ∈ quotation.content, (isRead c = true ∨ c = ' ' ∨ c = '\t') ∧
    c ∉ ['"', '\'', '{', '}', '[', ']', '\\']
  ends : quotation.content = [] ∨
    (∃ c rest, quotation.content = c :: rest ∧ isRead c = true) ∧
      (∃ before c, quotation.content = before ++ [c] ∧ isRead c = true)

mutual
/-- Every quoted value is simple, and no map has a key twice. -/
def Value.Simple : Value → Prop
  | .plain .. => True
  | .quoted quotation => quotation.Simple
  | .map _ entries => entries.keys.Nodup ∧ entries.Simple
  | .emptyList _ => True
  | .list _ elements => elements.Simple
def Entries.Simple : Entries → Prop
  | .done => True
  | .last _ _ _ value _ => value.Simple
  | .more _ _ _ value _ rest => value.Simple ∧ rest.Simple
def Elements.Simple : Elements → Prop
  | .last value _ => value.Simple
  | .more value _ _ _ rest => value.Simple ∧ rest.Simple
end

theorem Quotation.Simple.good {atEnd : Prop} {quotation : Quotation} (simple : quotation.Simple) :
    (Value.quoted quotation).Good atEnd := by
  have apart (c : Char) (member : c ∈ quotation.content) := (simple.chars c member).2
  refine ⟨?_, ?_, fun _ => ?_⟩
  · intro last
    exact apart '\\' (List.mem_of_getLast? last) (by decide)
  · rcases simple.ends with empty | ⟨⟨c, rest, is, readable⟩, _⟩
    · exact .inl empty
    · rw [is]
      refine reread_unquoted readable fun d member => ?_
      have other := apart d (is ▸ member)
      simp only [List.mem_cons, List.not_mem_nil, or_false, not_or] at other ⊢
      simp [other]
  · rcases simple.ends with empty | ⟨_, before, c, is, readable⟩
    · rw [empty]
      exact trimmed_nil
    · rw [is]
      exact trimmed_append before readable

mutual
theorem Value.Simple.good {atEnd : Prop} : ∀ {value : Value}, value.Simple → value.Good atEnd
  | .plain .., _ => trivial
  | .quoted _, simple => Quotation.Simple.good simple
  | .map _ entries, simple => ⟨simple.1, Entries.Simple.good (show entries.Simple from simple.2)⟩
  | .emptyList _, _ => trivial
  | .list _ elements, simple => Elements.Simple.good (show elements.Simple from simple)
theorem Entries.Simple.good : ∀ {entries : Entries}, entries.Simple → entries.Good
  | .done, _ => trivial
  | .last _ _ _ value _, simple => Value.Simple.good (show value.Simple from simple)
  | .more _ _ _ _ _ _, simple => ⟨simple.1.good, Entries.Simple.good simple.2⟩
theorem Elements.Simple.good : ∀ {elements : Elements}, elements.Simple → elements.Good
  | .last value _, simple => Value.Simple.good (show value.Simple from simple)
  | .more _ _ _ _ _, simple => ⟨simple.1.good, Elements.Simple.good simple.2⟩
end

/-- The parser reads a document of the format as the tree it denotes. With the
loop over blanks as it is, it does so unless that loop leaves its string. -/
theorem importString_format (document : Document) (simple : document.root.Simple)
    (apart : document.root.Apart) (room : document.text.length < 2 ^ 31) (file : Ztd.Filedat) :
    document.Imported (file.importString .checked document.text) ∧
    ((file.importString .unchecked document.text).2 = some .fault ∨
      document.Imported (file.importString .unchecked document.text)) := by
  have imported := importString_document document simple.good apart (by omega) file
  refine ⟨imported, ?_⟩
  rcases importString_within document.text file with faults | same
  · exact .inl faults
  · exact .inr (same ▸ imported)

/-- `{a="x y"} # c` -/
def quotedEntry : Document where
  before := []
  root :=
    .map [] (.last (.plain (.ofKey ['a'] (by simp) (by simp [isRead, isMarkup]))) [] []
      (.quoted ⟨false, "x y".toList⟩) [])
  isGroup := rfl
  after := [.blank ' ' (.inl rfl)]
  remark := some ⟨false, " c".toList, by decide⟩

theorem importString_format_quoted : ∃ chunk,
    Ztd.Filedat.importString .checked "\x7ba=\"x y\"\x7d # c".toList {} =
      ({ data := "\x7ba=\"x y\"\x7d ".toList, filePath := [], dataChunk := some chunk }, none) ∧
    chunk.tree = .map () [("a".toList, .string () "x y".toList)] := by
  have simple : quotedEntry.root.Simple :=
    ⟨by simp [Entries.keys], by simp [isRead],
      .inr ⟨⟨'x', _, rfl, rfl⟩, ⟨['x', ' '], 'y', rfl, rfl⟩⟩⟩
  have apart : quotedEntry.root.Apart :=
    ⟨fun _ => by simp [Layout.Apart], trivial, fun _ => by simp [Layout.Apart]⟩
  exact (importString_format quotedEntry simple apart (by decide) {}).1

end Ztd.Filedat
