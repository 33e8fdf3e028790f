import Ztd.Filedat.Apart
import Ztd.Filedat.Bounded
import Ztd.Filedat.Documents

/-! Importing a document: its comments are removed and its root is parsed. -/

namespace Ztd.Filedat
open Ztd.Lib

/-- A comment at the end of a document, without its newline. -/
structure Remark where
  slashes : Bool
  text : Text
  single : '\n' ∉ text

def Remark.render (remark : Remark) : Text :=
  (if remark.slashes then ['/', '/'] else ['#']) ++ remark.text

def Value.isGroup : Value → Bool
  | .map .. | .emptyList _ | .list .. => true
  | _ => false

/-- A map or a list with the layout around it. -/
structure Document where
  before : Layout
  root : Value
  isGroup : root.isGroup = true
  after : Layout
  remark : Option Remark

namespace Document

def text (document : Document) : Text :=
  document.before.render Piece.text ++ (document.root.text ++
    (document.after.render Piece.text ++ (document.remark.map Remark.render).getD []))

def stripped (document : Document) : Text :=
  document.before.stripped ++ (document.root.stripped ++ document.after.stripped)

end Document

theorem Remark.strip_render (remark : Option Remark) :
    strip ((remark.map Remark.render).getD []) = .ok [] := by
  cases remark with
  | none => simp [strip]
  | some remark =>
    have nothing := strip_remark remark.slashes remark.single [] (by simp)
    rw [List.append_nil] at nothing
    simpa [Remark.render, strip] using nothing

theorem strip_document (document : Document) (closes : document.root.Closes)
    (apart : document.root.Apart) : strip document.text = .ok document.stripped := by
  have noQuotes : document.root.quotes = false := by
    have group := document.isGroup
    cases root : document.root <;> simp_all [Value.isGroup, Value.quotes]
  rw [Document.text, strip_layout, Value.strip_text document.root closes apart _ (by simp [noQuotes]),
    strip_layout, Remark.strip_render]
  simp [Document.stripped]

theorem Document.length (document : Document) :
    document.root.stripped.length ≤ document.stripped.length := by
  simp only [Document.stripped, List.length_append]
  omega

/-- `set` makes the tree of a document from its text without comments. -/
theorem set_document (document : Document) (good : document.root.Good False)
    (room : document.stripped.length < 2 ^ 32) (offset : Int) :
    ∃ chunk, (set .checked document.stripped offset).construct = .ok chunk ∧
      chunk.tree = document.root.tree := by
  obtain ⟨before, root, isGroup, after, remark⟩ := document
  have beforeUnread := unread_stripped before
  have afterUnread := unread_stripped after
  have size : root.stripped.length ≤
      (Document.mk before root isGroup after remark).stripped.length :=
    Document.length ⟨before, root, isGroup, after, remark⟩
  have inside : root.stripped.length < 2 ^ 32 := Nat.lt_of_le_of_lt size room
  cases root with
  | plain | quoted => simp [Value.isGroup] at isGroup
  | map first entries =>
    have whole := length_map first entries
    exact map_constructs beforeUnread afterUnread first good.2.closes inside
      (Entries.loops entries good.2 good.1 _ (by omega) (by omega)) offset
  | emptyList first => exact emptyList_constructs beforeUnread afterUnread first inside offset
  | list first elements =>
    have whole := length_list first elements
    exact list_constructs beforeUnread afterUnread first (Elements.Good.closes good) inside
      (Elements.loops elements good _ (by omega) (by omega)) offset

theorem generateChunk_ok {blanks : BlankRun} {file : Ztd.Filedat} {data : Text} {chunk : Chunkdat}
    (comments : removeComments file.data = .ok data)
    (constructed : (set blanks data 0).construct = .ok chunk) :
    file.generateChunk blanks = ({ file with data := data, dataChunk := some chunk }, none) := by
  simp only [Ztd.Filedat.generateChunk, comments, constructed]

/-- What an import leaves behind when it makes the tree of a document. -/
def Document.Imported (document : Document) (result : Ztd.Filedat × Option (Stop FormatError)) :
    Prop :=
  ∃ chunk, result = ({ data := document.stripped, filePath := [], dataChunk := some chunk }, none) ∧
    chunk.tree = document.root.tree

theorem importString_document (document : Document) (good : document.root.Good False)
    (apart : document.root.Apart) (room : document.text.length + 1 < 2 ^ 32) (file : Ztd.Filedat) :
    document.Imported (file.importString .checked document.text) := by
  have strips := strip_document document good.closes apart
  have shorter := strip_length strips
  obtain ⟨chunk, constructed, same⟩ := set_document document good (by omega) 0
  have comments : removeComments document.text = .ok document.stripped := by
    rw [removeComments_eq room, strips]
    rfl
  exact ⟨chunk, generateChunk_ok comments constructed, same⟩

end Ztd.Filedat
