import Ztd.Filedat.Import
import Ztd.Filedat.Printer

/-! What the printer writes is a document, and importing it gives the tree back. -/

namespace Ztd.Filedat
open Ztd.Lib

variable {ι : Type}

namespace Chunk

mutual
/-- Maps, lists and strings only, with plain words as keys, and strings that end
readable and that `set` stores as they are. -/
def Exportable : Chunk ι → Prop
  | .none _ => False
  | .string _ val =>
    (val = [] ∨ ∃ before c, val = before ++ [c] ∧ isRead c = true ∧ c ≠ '\\') ∧
      set .checked val 0 = (.string 0 val, .none)
  | .map _ values => ExportableValues values
  | .list _ elements => ExportableElements elements
def ExportableValues : List (Text × Chunk ι) → Prop
  | [] => True
  | (key, value) :: rest =>
    (key ≠ [] ∧ ∀ c ∈ key, isRead c = true ∧ isMarkup c = false) ∧ Exportable value ∧
      ExportableValues rest
def ExportableElements : List (Chunk ι) → Prop
  | [] => True
  | element :: rest => Exportable element ∧ ExportableElements rest
end

end Chunk

theorem Chunk.exportableValues_iff (values : List (Text × Chunk ι)) :
    ExportableValues values ↔ ∀ entry ∈ values,
      (entry.1 ≠ [] ∧ ∀ c ∈ entry.1, isRead c = true ∧ isMarkup c = false) ∧
        entry.2.Exportable := by
  induction values with
  | nil => simp [ExportableValues]
  | cons entry rest ih =>
    obtain ⟨key, value⟩ := entry
    simp only [ExportableValues, ih, List.forall_mem_cons, and_assoc]

theorem Chunk.exportableElements_iff (elements : List (Chunk ι)) :
    ExportableElements elements ↔ ∀ element ∈ elements, element.Exportable := by
  induction elements with
  | nil => simp [ExportableElements]
  | cons element rest ih => simp only [ExportableElements, ih, List.forall_mem_cons]

/-- Text that `set` stores as it is, is taken for a string and kept. -/
theorem reread_of_set {text : Text} (stored : set .checked text 0 = (.string 0 text, none)) :
    Reread text := by
  rw [set, setFuel, getstrval_eq] at stored
  cases reads : read .checked nul nul text with
  | error stop => cases stop <;> simp [reads, Except.map, Run.mapError] at stored
  | ok found =>
    simp only [reads, Except.map, Run.mapError, strVal] at stored
    by_cases blank : dropUnread text = []
    · simp only [blank, if_true, Prod.mk.injEq, Chunk.string.injEq, true_and, and_true] at stored
      exact .inl stored.symm
    · simp only [blank, if_false] at stored
      obtain ⟨value, after⟩ := found
      cases value with
      | nil =>
        simp only [Prod.mk.injEq, Chunk.string.injEq, true_and, and_true] at stored
        exact .inl stored.symm
      | cons c rest =>
        refine .inr ⟨c, rest, after, reads, ?_, ?_⟩
        · rintro rfl
          simp only [setMap] at stored
          repeat' split at stored
          all_goals simp at stored
        · rintro rfl
          simp only [setList] at stored
          repeat' split at stored
          all_goals simp at stored

section Blanks

/-- Layout without comments, by its text. -/
def Layout.ofBlanks (text : Text) (blank : ∀ c ∈ text, c = ' ' ∨ c = '\t' ∨ c = '\n') :
    Layout := text.pmap Piece.blank blank

theorem Layout.render_ofBlanks {piece : Piece → Text}
    (kept : ∀ c valid, piece (.blank c valid) = [c]) (text : Text)
    (blank : ∀ c ∈ text, c = ' ' ∨ c = '\t' ∨ c = '\n') :
    (Layout.ofBlanks text blank).render piece = text := by
  induction text with
  | nil => rfl
  | cons c text ih =>
    have rest := ih fun d member => blank d (List.mem_cons_of_mem c member)
    simp only [Layout.render, Layout.ofBlanks, List.pmap, List.flatMap_cons, kept,
      List.singleton_append] at rest ⊢
    rw [rest]

theorem Layout.apart_ofBlanks (text : Text)
    (blank : ∀ c ∈ text, c = ' ' ∨ c = '\t' ∨ c = '\n') :
    (Layout.ofBlanks text blank).Apart := by
  intro piece first
  obtain ⟨c, member, rfl⟩ := List.mem_pmap.mp (List.mem_of_mem_head? first)
  rfl

end Blanks

/-- A value that is written as the printer prints a chunk inside a map or a list. -/
structure Prints (alignment : UInt32) (aligner : Text) (chunk : Chunk ι) (value : Value) :
    Prop where
  render : ∀ piece : Piece → Text, (∀ c valid, piece (.blank c valid) = [c]) →
    value.render piece = chunk.item (chunk.strval alignment aligner)
  tree : value.tree = chunk.tree
  good : ∀ atEnd, value.Good atEnd
  apart : value.Apart

theorem prints_string {offset : ι} {val : Text} (alignment : UInt32) (aligner : Text)
    (exportable : (Chunk.string offset val).Exportable) :
    Prints alignment aligner (.string offset val) (.quoted ⟨false, val⟩) where
  render _ _ := rfl
  tree := rfl
  good atEnd := by
    obtain ⟨ends, stored⟩ := exportable
    refine ⟨?_, reread_of_set stored, fun _ => ?_⟩
    · rcases ends with rfl | ⟨before, c, rfl, _, noBackslash⟩
      · simp [Quotation.Closes]
      · simpa [Quotation.Closes] using noBackslash
    · rcases ends with rfl | ⟨before, c, rfl, readable, _⟩
      · exact trimmed_nil
      · exact trimmed_append before readable
  apart := trivial

/-- The printer takes the last comma out again. -/
theorem eraseIdx_comma (lines : Text) :
    (lines ++ [',', '\n']).eraseIdx ((lines ++ [',', '\n']).length - 2) = lines ++ ['\n'] := by
  have behind : lines.length ≤ (lines ++ [',', '\n']).length - 2 := by simp
  rw [List.eraseIdx_append_of_length_le behind]
  simp

section Printing
variable {aligner : Text} (spaces : ∀ c ∈ aligner, c = ' ' ∨ c = '\t')
include spaces

/-- A newline and the indentation of the next line. -/
theorem blank_indent (count : Nat) :
    ∀ c ∈ '\n' :: repeatString aligner count, c = ' ' ∨ c = '\t' ∨ c = '\n' := by
  intro c member
  rcases List.mem_cons.mp member with same | inside
  · exact .inr (.inr same)
  · exact (spaces c (mem_repeatString inside)).imp_right .inl

/-- The lines of a map are its entries, up to the indentation of its closing brace. -/
theorem prints_values {values : List (Text × Chunk ι)} (alignment : UInt32) (outer : Nat)
    (nonempty : values ≠ []) (exportable : Chunk.ExportableValues values)
    (prints : ∀ entry ∈ values, ∃ value, Prints (alignment + 1) aligner entry.2 value) :
    ∃ entries : Entries,
      (∀ piece : Piece → Text, (∀ c valid, piece (.blank c valid) = [c]) →
        repeatString aligner (alignment + 1).toNat ++ entries.render piece =
          Chunk.strvalValues alignment aligner values ++ repeatString aligner outer) ∧
      entries.assoc = values.map (fun entry => (entry.1, entry.2.tree)) ∧
      entries.keys = values.map Prod.fst ∧ entries.Good ∧ entries.Apart := by
  have space : ∀ c ∈ [' '], c = ' ' ∨ c = '\t' ∨ c = '\n' := by simp
  induction values with
  | nil => exact absurd rfl nonempty
  | cons entry rest ih =>
    obtain ⟨key, chunk⟩ := entry
    obtain ⟨⟨keyNonempty, plain⟩, _, restExportable⟩ := exportable
    obtain ⟨value, printed⟩ := prints (key, chunk) List.mem_cons_self
    cases rest with
    | nil =>
      refine ⟨.last (.plain (.ofKey key keyNonempty plain)) (.ofBlanks [' '] space)
        (.ofBlanks [' '] space) value (.ofBlanks _ (blank_indent spaces outer)),
        fun piece kept => ?_, ?_, rfl, printed.good True, ?_⟩
      · simp only [Entries.render, Layout.render_ofBlanks kept, printed.render piece kept,
          Chunk.strvalValues, Key.text, Word.ofKey]
        simp
      · simp [Entries.assoc, printed.tree, Key.content, Word.ofKey]
      · exact ⟨fun quotes => Bool.noConfusion quotes, printed.apart,
          fun _ => Layout.apart_ofBlanks _ _⟩
    | cons next rest =>
      obtain ⟨entries, render, assoc, keys, good, apart⟩ := ih (List.cons_ne_nil _ _)
        restExportable fun entry member => prints entry (List.mem_cons_of_mem _ member)
      let sep : Separator :=
        { gap := []
          blank := by simp
          mark := .line (.blank '\n' (.inr (.inr rfl))) rfl
          after := .ofBlanks (repeatString aligner (alignment + 1).toNat) fun c member =>
            blank_indent spaces _ c (List.mem_cons_of_mem _ member) }
      refine ⟨.more (.plain (.ofKey key keyNonempty plain)) (.ofBlanks [' '] space)
        (.ofBlanks [' '] space) value sep entries,
        fun piece kept => ?_, ?_, ?_, ⟨printed.good _, good⟩, ?_⟩
      · rw [Chunk.strvalValues, List.append_assoc, ← render piece kept]
        simp only [Entries.render, Layout.render_ofBlanks kept, printed.render piece kept,
          Key.text, Word.ofKey, Separator.render, Mark.render, sep, kept]
        simp
      · simp [Entries.assoc, printed.tree, Key.content, Word.ofKey, assoc]
      · simp [Entries.keys, keys, Key.content, Word.ofKey]
      · exact ⟨fun quotes => Bool.noConfusion quotes, printed.apart, fun _ _ => rfl, apart⟩

/-- The lines of a list are its elements, but for the comma behind the last one. -/
theorem prints_elements {elements : List (Chunk ι)} (alignment : UInt32) (outer : Nat)
    (nonempty : elements ≠ [])
    (prints : ∀ element ∈ elements, ∃ value, Prints (alignment + 1) aligner element value) :
    ∃ (written : Elements) (lines : Text),
      Chunk.strvalElements alignment aligner elements = lines ++ [',', '\n'] ∧
      (∀ piece : Piece → Text, (∀ c valid, piece (.blank c valid) = [c]) →
        repeatString aligner (alignment + 1).toNat ++ written.render piece =
          lines ++ '\n' :: repeatString aligner outer) ∧
      written.trees = elements.map Chunk.tree ∧ written.Good ∧ written.Apart := by
  induction elements with
  | nil => exact absurd rfl nonempty
  | cons element rest ih =>
    obtain ⟨value, printed⟩ := prints element List.mem_cons_self
    cases rest with
    | nil =>
      refine ⟨.last value (.ofBlanks _ (blank_indent spaces outer)), _,
        by rw [Chunk.strvalElements, Chunk.strvalElements, List.append_nil], fun piece kept => ?_,
        ?_, printed.good True, printed.apart, fun _ => Layout.apart_ofBlanks _ _⟩
      · simp only [Elements.render, Layout.render_ofBlanks kept, printed.render piece kept]
        simp
      · simp [Elements.trees, printed.tree]
    | cons next rest =>
      obtain ⟨written, lines, split, render, trees, good, apart⟩ := ih (List.cons_ne_nil _ _)
        fun element member => prints element (List.mem_cons_of_mem _ member)
      refine ⟨.more value [] false (.ofBlanks _ (blank_indent spaces (alignment + 1).toNat)) written,
        repeatString aligner (alignment + 1).toNat ++
          element.item (element.strval (alignment + 1) aligner) ++ [',', '\n'] ++ lines,
        ?_, fun piece kept => ?_, ?_, ⟨printed.good False, good⟩, printed.apart,
        fun _ => by simp [Layout.Apart], apart⟩
      · rw [Chunk.strvalElements, split]
        simp
      · rw [List.append_assoc, ← render piece kept]
        simp only [Elements.render, Layout.render_ofBlanks kept, printed.render piece kept]
        simp [Layout.render]
      · simp [Elements.trees, printed.tree, trees]

/-- Every chunk is printed as a value that stands for it. -/
theorem prints_chunk (chunk : Chunk ι) (alignment : UInt32) (ordered : chunk.Ordered)
    (exportable : chunk.Exportable) : ∃ value, Prints alignment aligner chunk value := by
  induction chunk using Chunk.induct generalizing alignment with
  | none => exact exportable.elim
  | string => exact ⟨_, prints_string alignment aligner exportable⟩
  | map offset values ih =>
    obtain ⟨sorted, orderedValues⟩ := (Chunk.ordered_map_iff offset values).mp ordered
    by_cases empty : values = []
    · subst empty
      exact ⟨.map [] .done, fun _ _ => rfl, rfl, fun _ => ⟨List.nodup_nil, trivial⟩, trivial⟩
    · obtain ⟨entries, render, assoc, keys, good, apart⟩ := prints_values spaces alignment
        alignment.toNat empty exportable fun entry member => ih entry member _ (orderedValues entry member)
          ((Chunk.exportableValues_iff values).mp exportable entry member).2
      refine ⟨.map (.ofBlanks _ (blank_indent spaces (alignment + 1).toNat)) entries,
        fun piece kept => ?_, ?_, fun _ => ⟨?_, good⟩, apart⟩
      · obtain ⟨first, later, rfl⟩ := List.exists_cons_of_ne_nil empty
        simp only [Value.render, Layout.render_ofBlanks kept, Chunk.item, Chunk.type, Chunk.strval,
          List.cons_append, List.append_assoc, reduceCtorEq, if_false]
        rw [← List.append_assoc (Chunk.strvalValues _ _ _), ← render piece kept]
        simp only [List.nil_append, List.append_assoc]
      · have sortedTrees := sorted.map Chunk.tree
        rw [Value.tree, assoc, OrderedMap.ofList_sorted sortedTrees, Chunk.tree_map]
      · rw [keys]
        exact sorted.nodup
  | list offset elements ih =>
    have orderedElements := (Chunk.ordered_list_iff offset elements).mp ordered
    by_cases empty : elements = []
    · subst empty
      exact ⟨.emptyList [], fun _ _ => rfl, rfl, fun _ => trivial, trivial⟩
    · obtain ⟨written, lines, split, render, trees, good, apart⟩ := prints_elements spaces
        alignment alignment.toNat empty fun element member => ih element member _
          (orderedElements element member)
          ((Chunk.exportableElements_iff elements).mp exportable element member)
      refine ⟨.list (.ofBlanks _ (blank_indent spaces (alignment + 1).toNat)) written,
        fun piece kept => ?_, ?_, fun _ => good, apart⟩
      · obtain ⟨first, later, rfl⟩ := List.exists_cons_of_ne_nil empty
        have comma := eraseIdx_comma ('[' :: '\n' :: lines)
        simp only [List.cons_append] at comma
        simp only [Value.render, Layout.render_ofBlanks kept, Chunk.item, Chunk.type, Chunk.strval,
          split, List.cons_append, List.nil_append, comma, reduceCtorEq, if_false, render piece kept]
        simp only [List.append_assoc, List.cons_append, List.nil_append]
      · rw [Value.tree, trees, Chunk.tree_list]

end Printing

/-- Importing what the printer writes gives the tree back; the text has no comments. -/
theorem importString_exported {tree : Chunk ι} (ordered : tree.Ordered)
    (exportable : tree.Exportable) (root : tree.type = .map ∨ tree.type = .list) {aligner : Text}
    (spaces : ∀ c ∈ aligner, c = ' ' ∨ c = '\t') (room : (tree.strval 0 aligner).length < 2 ^ 31)
    (file : Ztd.Filedat) :
    removeComments (tree.strval 0 aligner) = .ok (tree.strval 0 aligner) ∧
    ∃ chunk, file.importString .checked (tree.strval 0 aligner) =
        ({ data := tree.strval 0 aligner, filePath := [], dataChunk := some chunk }, none) ∧
      chunk.tree = tree.tree := by
  obtain ⟨value, prints⟩ := prints_chunk spaces tree 0 ordered exportable
  have notString : tree.type ≠ .string := by rcases root with is | is <;> simp [is]
  have isGroup : value.isGroup = true := by
    have same := congrArg Chunk.type prints.tree
    rw [Chunk.tree_type] at same
    cases value with
    | plain | quoted => exact absurd same.symm notString
    | map | emptyList | list => rfl
  have item : tree.item (tree.strval 0 aligner) = tree.strval 0 aligner := if_neg notString
  have render (piece : Piece → Text) (kept : ∀ c valid, piece (.blank c valid) = [c]) :
      value.render piece = tree.strval 0 aligner := (prints.render piece kept).trans item
  let document : Document := ⟨[], value, isGroup, [], none⟩
  have text : document.text = tree.strval 0 aligner := by
    simpa [Document.text, Value.text, document, Layout.render] using render _ fun _ _ => rfl
  have stripped : document.stripped = tree.strval 0 aligner := by
    simpa [Document.stripped, Value.stripped, document, Layout.render, Layout.stripped] using
      render _ fun _ _ => rfl
  have comments := strip_document document (prints.good False).closes prints.apart
  obtain ⟨chunk, imported, same⟩ := importString_document document (prints.good False) prints.apart
    (by rw [text]; omega) file
  rw [text, stripped] at comments imported
  refine ⟨?_, chunk, imported, same.trans prints.tree⟩
  rw [removeComments_eq (by omega), comments]
  rfl

/-- `{a = "x\"y\"z", b = [""]}` -/
def nestedTree : Tree :=
  .map () [(['a'], .string () "x\"y\"z".toList), (['b'], .list () [.string () []])]

theorem importString_exported_nested : ∃ chunk,
    Ztd.Filedat.importString .checked (nestedTree.strval 0 ['\t']) {} =
      ({ data := nestedTree.strval 0 ['\t'], filePath := [], dataChunk := some chunk }, none) ∧
    chunk.tree = nestedTree := by
  have sorted : nestedTree.Ordered := by
    refine ⟨?_, trivial, ⟨trivial, trivial⟩, trivial⟩
    simp only [OrderedMap.Sorted, List.pairwise_pair]
    decide
  have exportable : nestedTree.Exportable :=
    ⟨⟨by simp, by simp [isRead, isMarkup]⟩,
      ⟨.inr ⟨"x\"y\"".toList, 'z', rfl, rfl, by decide⟩, rfl⟩,
      ⟨by simp, by simp [isRead, isMarkup]⟩, ⟨⟨.inl rfl, rfl⟩, trivial⟩, trivial⟩
  have spaces : ∀ c ∈ ['\t'], c = ' ' ∨ c = '\t' := by simp
  exact (importString_exported sorted exportable (.inl rfl) spaces (by decide) {}).2

end Ztd.Filedat
