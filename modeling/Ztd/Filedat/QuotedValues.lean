import Ztd.Filedat.Backslashes

/-! A string at any place of a document, written as `strval` writes strings. -/

namespace Ztd.Filedat
open Ztd.Lib

section Trees

/-- When a string is parsed as itself, behind which something is left or not. -/
theorem treeOf_trimIf_iff (trim : Bool) (text : Text) :
    treeOf .checked (trimIf trim text) = .ok (.string () text) ↔
      Reread text ∧ (trim = true → Trimmed text) := by
  have trimmed : trimIf trim text = text ↔ (trim = true → Trimmed text) := by
    cases trim <;> simp [trimIf, Trimmed]
  constructor
  · intro parsed
    rcases treeOf_string parsed with rfl | ⟨same, reread⟩
    · exact ⟨.inl rfl, fun _ => rfl⟩
    · exact ⟨same ▸ reread, trimmed.mp same.symm⟩
  · rintro ⟨reread, trims⟩
    rw [trimmed.mpr trims, treeOf_reread reread]

end Trees

mutual
theorem Node.height_le : ∀ node : Node, node.height ≤ node.stripped.length
  | .plain .. | .quoted _ => Nat.zero_le _
  | .map first rows => by
    have inside := Rows.height_le rows
    simp only [Rows.stripped] at inside
    simp [Node.height, Node.stripped, Node.render]
    omega
  | .list first cells => by
    have inside := Cells.height_le cells
    simp only [Cells.stripped] at inside
    simp [Node.height, Node.stripped, Node.render]
    omega
theorem Rows.height_le : ∀ rows : Rows, rows.height ≤ rows.stripped.length
  | .done | .lastEmpty .. => Nat.zero_le _
  | .last key before after value trail => by
    have inside := Node.height_le value
    simp only [Node.stripped] at inside
    simp [Rows.height, Rows.stripped, Rows.render]
    omega
  | .more key before after value sep rest => by
    have inside := Node.height_le value
    have later := Rows.height_le rest
    simp only [Node.stripped] at inside
    simp only [Rows.stripped] at later
    simp [Rows.height, Rows.stripped, Rows.render]
    omega
  | .moreEmpty key before after behind rest => by
    have later := Rows.height_le rest
    simp only [Rows.stripped] at later
    simp [Rows.height, Rows.stripped, Rows.render]
    omega
theorem Cells.height_le : ∀ cells : Cells, cells.height ≤ cells.stripped.length
  | .done => Nat.zero_le _
  | .last value trail => by
    have inside := Node.height_le value
    simp only [Node.stripped] at inside
    simp [Cells.height, Cells.stripped, Cells.render]
    omega
  | .more value before semicolon after rest => by
    have inside := Node.height_le value
    have later := Cells.height_le rest
    simp only [Node.stripped] at inside
    simp only [Cells.stripped] at later
    simp [Cells.height, Cells.stripped, Cells.render]
    omega
  | .moreEmpty semicolon after rest => by
    have later := Cells.height_le rest
    simp only [Cells.stripped] at later
    simp [Cells.height, Cells.stripped, Cells.render]
    omega
end

/-- A map or list document with one value left open. -/
structure Template where
  before : Layout
  hole : Hole
  nested : hole ≠ .here
  after : Layout
  remark : Option Remark

namespace Template
variable (template : Template) (s : Text)

/-- The root with a string in the open place. -/
def root : Node := template.hole.fill (.quoted ⟨false, s⟩)

def text : Text :=
  template.before.render Piece.text ++ ((template.root s).text ++
    (template.after.render Piece.text ++ (template.remark.map Remark.render).getD []))

def stripped : Text :=
  template.before.stripped ++ ((template.root s).stripped ++ template.after.stripped)

/-- The string in the open place is imported and kept. -/
structure Keeps (file : Ztd.Filedat) : Prop where
  returns : (file.importString .unchecked (template.text s)).2 = none
  keeps : ∃ chunk, (file.importString .unchecked (template.text s)).1.dataChunk = some chunk ∧
    template.hole.at chunk.tree = some (.string () s)

/-- The string is kept if the text without comments is parsed with it in its place. -/
theorem keeps_tree_iff {text : Text} (comments : removeComments (template.text s) = .ok text)
    (file : Ztd.Filedat) : template.Keeps s file ↔ ∃ tree, treeOf .unchecked text = .ok tree ∧
      template.hole.at tree = some (.string () s) := by
  rw [← importString_tree_iff comments file fun tree => template.hole.at tree = some (.string () s)]
  exact ⟨fun keeps => ⟨keeps.returns, keeps.keeps⟩, fun ⟨returns, keeps⟩ => ⟨returns, keeps⟩⟩

end Template

section Documents
variable {template : Template} {s : Text}

theorem Template.quotes (template : Template) (s : Text) : (template.root s).quotes = false := by
  obtain ⟨before, hole, nested, after, remark⟩ := template
  cases hole with
  | here => exact absurd rfl nested
  | map | list => rfl

theorem Template.strip_text (closes : (template.root s).Closes) (apart : (template.root s).Apart) :
    strip (template.text s) = .ok (template.stripped s) := by
  rw [Template.text, strip_layout, Node.strip_text _ closes apart _ (by simp [template.quotes s]),
    strip_layout, Remark.strip_render]
  simp [Template.stripped]

/-- A document is parsed as what its root means. -/
theorem Template.treeOf_stripped (closes : (template.root s).Closes)
    (room : (template.root s).height < 2 ^ 32) :
    treeOf .checked (template.stripped s) = (template.root s).means false := by
  have before := unread_stripped template.before
  have after := unread_stripped template.after
  have inside := (template.root s).treeOf_content closes room false
  rw [Template.stripped, ← inside]
  obtain ⟨_, hole, nested, _, _⟩ := template
  cases hole with
  | here => exact absurd rfl nested
  | map first rows =>
    have balanced := (first.balanced (.inl rfl)).append (Rows.balanced (.inl rfl) _ closes)
    exact (treeOf_balanced (.inl rfl) balanced (Nat.lt_of_succ_lt room) before after).trans
      (treeOf_enclosed .checked (.inl rfl) balanced (Nat.lt_of_succ_lt room)).symm
  | list first cells =>
    have balanced := (first.balanced (.inr rfl)).append (Cells.balanced (.inr rfl) _ closes)
    exact (treeOf_balanced (.inr rfl) balanced (Nat.lt_of_succ_lt room) before after).trans
      (treeOf_enclosed .checked (.inr rfl) balanced (Nat.lt_of_succ_lt room)).symm

/-- The empty string in the open place makes the text no longer. -/
theorem Template.length_le (template : Template) (s : Text) :
    (template.text []).length ≤ (template.text s).length := by
  have first := template.hole.render_fill Piece.text (.quoted ⟨false, []⟩)
  have second := template.hole.render_fill Piece.text (.quoted ⟨false, s⟩)
  simp only [Template.text, Template.root, Node.text, first, second]
  simp [Node.render, Quotation.text, escape]

theorem Template.removeComments_text (closes : (template.root s).Closes)
    (apart : (template.root s).Apart) (room : (template.text s).length + 1 < 2 ^ 32) :
    removeComments (template.text s) = .ok (template.stripped s) := by
  rw [removeComments_eq room, Template.strip_text closes apart]
  rfl

theorem Template.room (closes : (template.root s).Closes) (apart : (template.root s).Apart)
    (room : (template.text s).length + 1 < 2 ^ 32) : (template.root s).height < 2 ^ 32 := by
  have shorter := strip_length (Template.strip_text closes apart)
  have inside := (template.root s).height_le
  simp only [Template.stripped, List.length_append] at shorter
  omega

theorem removeComments_returns {blanks : BlankRun} {data : Text} {file : Ztd.Filedat}
    (returns : (file.importString blanks data).2 = none) :
    ∃ text, removeComments data = .ok text := by
  rw [Filedat.importString, Filedat.generateChunk] at returns
  cases comments : removeComments data with
  | ok text => exact ⟨text, rfl⟩
  | error stop => cases stop <;> simp [comments, Filedat.failed] at returns

/-- A string that ends in a backslash is not kept: its closing quote becomes a part of it. -/
theorem Template.not_keeps {file : Ztd.Filedat} (closes : (template.root []).Closes)
    (apart : (template.root []).Apart) (height : (template.root []).height < 2 ^ 32)
    (room : (template.text (s ++ ['\\'])).length + 1 < 2 ^ 32) :
    ¬template.Keeps (s ++ ['\\']) file := by
  intro keeps
  obtain ⟨text, comments⟩ := removeComments_returns keeps.returns
  obtain ⟨tree, parsed, found⟩ := (template.keeps_tree_iff _ comments file).mp keeps
  have strips := removeComments_ok (Nat.lt_of_succ_lt room) comments
  have written := template.hole.render_fill Piece.text (.quoted ⟨false, s ++ ['\\']⟩)
  rw [Template.text, Template.root, Node.text, written, strip_layout, List.append_assoc,
    Hole.strip_front _ _ closes apart, Node.render, Quotation.text_backslash, List.append_assoc]
    at strips
  obtain ⟨root, stripsRoot, rfl⟩ := lead_eq_ok strips
  obtain ⟨value, stripsValue, rfl⟩ := lead_eq_ok stripsRoot
  obtain ⟨later, rfl⟩ := strip_spilled stripsValue
  have spills : template.hole.Spills s
      (template.before.stripped ++ (template.hole.front Piece.stripped ++ (spilled s ++ later))) := by
    obtain ⟨before, hole, nested, after, remark⟩ := template
    cases hole with
    | here => exact absurd rfl nested
    | map | list => exact ⟨_, later, unread_stripped before, rfl⟩
  exact template.hole.spills_at _ closes height spills ((treeOf_unchecked_iff _ _).mp parsed).2 found

/-- Where the empty string is accepted, so is the string in its place if and only if
it does not end in a backslash, it is parsed as itself, and the parse comes to no place
where it leaves its strings. -/
theorem Template.keeps_iff (template : Template) (s : Text) (file : Ztd.Filedat)
    (closes : (template.root []).Closes) (apart : (template.root []).Apart)
    (room : (template.text s).length + 1 < 2 ^ 32)
    (accepted : (file.importString .checked (template.text [])).2 = none) :
    template.Keeps s file ↔ s.getLast? ≠ some '\\' ∧ Inside .unchecked (template.stripped s) ∧
      Reread s ∧ (template.hole.trims false = true → Trimmed s) := by
  have emptyRoom : (template.text []).length + 1 < 2 ^ 32 :=
    Nat.lt_of_le_of_lt (Nat.add_le_add_right (template.length_le s) 1) room
  have emptyHeight : (template.root []).height < 2 ^ 32 := Template.room closes apart emptyRoom
  by_cases ends : s.getLast? = some '\\'
  · obtain ⟨front, rfl⟩ : ∃ front, s = front ++ ['\\'] := List.getLast?_eq_some_iff.mp ends
    have fails : ¬template.Keeps (front ++ ['\\']) file :=
      Template.not_keeps closes apart emptyHeight room
    exact ⟨fun keeps => absurd keeps fails, fun condition => absurd ends condition.1⟩
  have closed : (template.root s).Closes :=
    (template.hole.fill_closes _ (by simp [Node.Closes, Quotation.Closes])).mpr ⟨closes, ends⟩
  have apartly : (template.root s).Apart := (template.hole.fill_apart _ _).mpr apart
  obtain ⟨tree, is⟩ := (importString_returns_iff
    (Template.removeComments_text closes apart emptyRoom) file).mp accepted
  rw [Template.treeOf_stripped closes emptyHeight, Template.root, template.hole.fill_means] at is
  have means : treeOf .checked (template.stripped s) = _ :=
    (Template.treeOf_stripped closed (Template.room closed apartly room)).trans
      (template.hole.fill_means _ false)
  rw [← treeOf_trimIf_iff, ← template.hole.plug_iff (.string () s) is]
  rw [template.keeps_tree_iff s (Template.removeComments_text closed apartly room) file]
  simp only [treeOf_unchecked_iff, means]
  constructor
  · rintro ⟨tree, ⟨inside, plugged⟩, found⟩
    exact ⟨ends, inside, tree, plugged, found⟩
  · rintro ⟨_, inside, tree, plugged, found⟩
    exact ⟨tree, ⟨inside, plugged⟩, found⟩

/-- `{a="";}`, with the value left open. -/
def entryTemplate : Template where
  before := []
  hole := .map [] (.more (.plain (.letter 'a' (.refl true))) [] [] .here
    ⟨[], by simp, .semicolon, []⟩ .done)
  nested := by simp
  after := []
  remark := none

theorem keeps_quotes : entryTemplate.Keeps "b=\"x y\"; c]".toList {} := by
  have closes : (entryTemplate.root []).Closes := ⟨by simp [Hole.fill, Node.Closes, Quotation.Closes], trivial⟩
  have apart : (entryTemplate.root []).Apart :=
    ⟨by simp [Key.quotes], trivial, fun _ _ => rfl, trivial⟩
  have parsed : treeOf .checked (trimIf true "b=\"x y\"; c]".toList) =
      .ok (.string () "b=\"x y\"; c]".toList) := rfl
  have inside : Inside .unchecked (entryTemplate.stripped "b=\"x y\"; c]".toList) := by
    have returns : (set .unchecked (entryTemplate.stripped "b=\"x y\"; c]".toList) 0).2 = none := rfl
    rw [inside_iff, ne_eq, ← set_fault_iff _ 0, returns]
    exact nofun
  obtain ⟨reread, trims⟩ := (treeOf_trimIf_iff true _).mp parsed
  exact (entryTemplate.keeps_iff _ {} closes apart (by decide) rfl).mpr
    ⟨by decide, inside, reread, fun _ => trims rfl⟩

/-- Quoted braces are parsed as a map. -/
theorem braces_not_kept :
    (Filedat.importString .unchecked (entryTemplate.text ['{', '}']) {}).2 = none ∧
      (Filedat.importString .unchecked (entryTemplate.text ['{', '}']) {}).1.dataChunk.map
        Chunk.tree = some (.map () [(['a'], .map () [])]) ∧
      ¬entryTemplate.Keeps ['{', '}'] {} := by
  have imported : (Filedat.importString .unchecked (entryTemplate.text ['{', '}']) {}).1.dataChunk.map
      Chunk.tree = some (.map () [(['a'], .map () [])]) := rfl
  refine ⟨rfl, imported, fun keeps => ?_⟩
  obtain ⟨chunk, is, found⟩ := keeps.keeps
  rw [is] at imported
  rw [Option.some.inj imported] at found
  cases found

end Documents

end Ztd.Filedat
