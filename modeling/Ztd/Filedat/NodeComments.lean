import Ztd.Filedat.Apart
import Ztd.Filedat.Import
import Ztd.Filedat.Nodes

/-! Removing the comments of a text of nodes, where none starts directly behind a
closing quote. -/

namespace Ztd.Filedat
open Ztd.Lib

def Node.quotes : Node → Bool
  | .quoted _ => true
  | _ => false

mutual
/-- No comment starts directly behind a closing quote. -/
def Node.Apart : Node → Prop
  | .plain .. | .quoted _ => True
  | .map _ rows => rows.Apart
  | .list _ cells => cells.Apart
def Rows.Apart : Rows → Prop
  | .done => True
  | .last key before _ value trail =>
    (key.quotes = true → before.Apart) ∧ value.Apart ∧ (value.quotes = true → trail.Apart)
  | .lastEmpty key before _ => key.quotes = true → before.Apart
  | .more key before _ value sep rest =>
    (key.quotes = true → before.Apart) ∧ value.Apart ∧ (value.quotes = true → sep.Apart) ∧ rest.Apart
  | .moreEmpty key before _ _ rest => (key.quotes = true → before.Apart) ∧ rest.Apart
def Cells.Apart : Cells → Prop
  | .done => True
  | .last value trail => value.Apart ∧ (value.quotes = true → trail.Apart)
  | .more value before _ _ rest =>
    value.Apart ∧ (value.quotes = true → before.Apart) ∧ rest.Apart
  | .moreEmpty _ _ rest => rest.Apart
end

theorem bare_comma (semicolon : Bool) : Bare (comma semicolon) := by
  cases semicolon <;> decide

mutual
theorem Node.strip_text : ∀ node : Node, node.Closes → node.Apart →
    ∀ rest, (node.quotes = true → Behind rest) →
      strip (node.text ++ rest) = lead node.stripped (strip rest)
  | .plain word _, _, _, rest, _ => strip_word word rest
  | .quoted _, closes, _, rest, behind => strip_quotation closes (behind rfl)
  | .map first rows, closes, apart, rest, _ => by
    have inside := Rows.strip_text rows closes apart ('}' :: rest) (behind_bare (by decide) rest)
    change strip ('{' :: (first.render Piece.text ++ rows.render Piece.text ++ ['}'] ++ rest)) = _
    rw [strip_bare (by decide), List.append_assoc, List.append_assoc, List.singleton_append,
      strip_layout, inside, strip_bare (by decide)]
    simp [lead_lead, Node.stripped, Node.render, Rows.stripped, Layout.stripped]
  | .list first cells, closes, apart, rest, _ => by
    have inside := Cells.strip_text cells closes apart (']' :: rest) (behind_bare (by decide) rest)
    change strip ('[' :: (first.render Piece.text ++ cells.render Piece.text ++ [']'] ++ rest)) = _
    rw [strip_bare (by decide), List.append_assoc, List.append_assoc, List.singleton_append,
      strip_layout, inside, strip_bare (by decide)]
    simp [lead_lead, Node.stripped, Node.render, Cells.stripped, Layout.stripped]
theorem Rows.strip_text : ∀ rows : Rows, rows.Closes → rows.Apart → ∀ rest, Behind rest →
    strip (rows.render Piece.text ++ rest) = lead rows.stripped (strip rest)
  | .done, _, _, rest, _ => (lead_nil _).symm
  | .last key before after value trail, closes, apart, rest, behind => by
    obtain ⟨keyApart, valueApart, trailApart⟩ := apart
    have inside := Node.strip_text value closes valueApart (trail.render Piece.text ++ rest)
      (fun quotes => (trailApart quotes).behind behind)
    have text : (Rows.last key before after value trail).render Piece.text ++ rest =
        key.text ++ before.render Piece.text ++ '=' ::
          (after.render Piece.text ++ (value.text ++ (trail.render Piece.text ++ rest))) := by
      simp [Rows.render, Node.text]
    rw [text, strip_equal key keyApart, inside, strip_layout, lead_lead, lead_lead]
    simp [Rows.stripped, Rows.render, Node.stripped, Layout.stripped]
  | .lastEmpty key before after, _, apart, rest, _ => by
    have text : (Rows.lastEmpty key before after).render Piece.text ++ rest =
        key.text ++ before.render Piece.text ++ '=' :: (after.render Piece.text ++ rest) := by
      simp [Rows.render]
    rw [text, strip_equal key apart]
    rfl
  | .more key before after value sep others, closes, apart, rest, behind => by
    obtain ⟨keyApart, valueApart, sepApart, othersApart⟩ := apart
    have later := Rows.strip_text others closes.2 othersApart rest behind
    have inside := Node.strip_text value closes.1 valueApart
      (sep.render Piece.text ++ (others.render Piece.text ++ rest))
      (fun quotes => (sepApart quotes).behind _)
    have text : (Rows.more key before after value sep others).render Piece.text ++ rest =
        key.text ++ before.render Piece.text ++ '=' :: (after.render Piece.text ++
          (value.text ++ (sep.render Piece.text ++ (others.render Piece.text ++ rest)))) := by
      simp [Rows.render, Node.text]
    rw [text, strip_equal key keyApart, inside, strip_separator, later, lead_lead, lead_lead,
      lead_lead]
    simp [Rows.stripped, Rows.render, Node.stripped, Layout.stripped]
  | .moreEmpty key before after space others, closes, apart, rest, behind => by
    have later := Rows.strip_text others closes apart.2 rest behind
    have text : (Rows.moreEmpty key before after space others).render Piece.text ++ rest =
        key.text ++ before.render Piece.text ++ '=' :: (after.render Piece.text ++
          ';' :: (space.render Piece.text ++ (others.render Piece.text ++ rest))) := by
      simp [Rows.render]
    rw [text, strip_equal key apart.1, strip_bare (by decide), strip_layout, later, lead_lead,
      lead_lead, lead_lead]
    simp [Rows.stripped, Rows.render, Layout.stripped]
theorem Cells.strip_text : ∀ cells : Cells, cells.Closes → cells.Apart → ∀ rest, Behind rest →
    strip (cells.render Piece.text ++ rest) = lead cells.stripped (strip rest)
  | .done, _, _, rest, _ => (lead_nil _).symm
  | .last value trail, closes, apart, rest, behind => by
    have inside := Node.strip_text value closes apart.1 (trail.render Piece.text ++ rest)
      (fun quotes => (apart.2 quotes).behind behind)
    have text : (Cells.last value trail).render Piece.text ++ rest =
        value.text ++ (trail.render Piece.text ++ rest) := by simp [Cells.render, Node.text]
    rw [text, inside, strip_layout, lead_lead]
    rfl
  | .more value before semicolon after others, closes, apart, rest, behind => by
    obtain ⟨valueApart, beforeApart, othersApart⟩ := apart
    have later := Cells.strip_text others closes.2 othersApart rest behind
    have inside := Node.strip_text value closes.1 valueApart
      (before.render Piece.text ++ comma semicolon ::
        (after.render Piece.text ++ (others.render Piece.text ++ rest)))
      (fun quotes => (beforeApart quotes).behind (behind_bare (bare_comma semicolon) _))
    have text : (Cells.more value before semicolon after others).render Piece.text ++ rest =
        value.text ++ (before.render Piece.text ++ comma semicolon ::
          (after.render Piece.text ++ (others.render Piece.text ++ rest))) := by
      simp [Cells.render, Node.text]
    rw [text, inside, strip_layout, strip_bare (bare_comma semicolon), strip_layout, later,
      lead_lead, lead_lead, lead_lead, lead_lead]
    simp [Cells.stripped, Cells.render, Node.stripped, Layout.stripped]
  | .moreEmpty semicolon after others, closes, apart, rest, behind => by
    have later := Cells.strip_text others closes apart rest behind
    have text : (Cells.moreEmpty semicolon after others).render Piece.text ++ rest =
        comma semicolon :: (after.render Piece.text ++ (others.render Piece.text ++ rest)) := by
      simp [Cells.render]
    rw [text, strip_bare (bare_comma semicolon), strip_layout, later, lead_lead, lead_lead]
    simp [Cells.stripped, Cells.render, Layout.stripped]
end

end Ztd.Filedat
