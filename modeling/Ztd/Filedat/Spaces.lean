import Ztd.Filedat.Fields

/-! Spaces and tabs put between the parts of a map or a list: what they change is
decided by whether anything stands at a few places. -/

namespace Ztd.Filedat
open Ztd.Lib

/-- Spaces and tabs are put into a text. -/
inductive Spaced : Text → Text → Prop where
  | nil : Spaced [] []
  | keep (c : Char) {text other : Text} (later : Spaced text other) :
      Spaced (c :: text) (c :: other)
  | put {c : Char} {text other : Text} (blank : c = ' ' ∨ c = '\t')
      (later : Spaced text other) : Spaced text (c :: other)

theorem Spaced.refl : ∀ text : Text, Spaced text text
  | [] => .nil
  | c :: text => .keep c (Spaced.refl text)

theorem Spaced.append {text other rest rest' : Text} (front : Spaced text other)
    (back : Spaced rest rest') : Spaced (text ++ rest) (other ++ rest') := by
  induction front with
  | nil => exact back
  | keep c _ ih => exact .keep c ih
  | put blank _ ih => exact .put blank ih

def Layout.SpacedTo (layout other : Layout) : Prop := Spaced layout.stripped other.stripped

structure Separator.SpacedTo (sep other : Separator) : Prop where
  gap : Spaced sep.gap other.gap
  mark : sep.mark.render Piece.stripped = other.mark.render Piece.stripped
  after : sep.after.SpacedTo other.after

mutual
/-- The same node, with spaces and tabs put next to its brackets, equal signs and
separators. -/
inductive Node.SpacedTo : Node → Node → Prop
  | plain {word : Word} {noComma : ',' ∉ word.text} :
      Node.SpacedTo (.plain word noComma) (.plain word noComma)
  | quoted {quotation : Quotation} : Node.SpacedTo (.quoted quotation) (.quoted quotation)
  | map {first first' : Layout} {rows rows' : Rows} (open_ : first.SpacedTo first')
      (inside : Rows.SpacedTo rows rows') : Node.SpacedTo (.map first rows) (.map first' rows')
  | list {first first' : Layout} {cells cells' : Cells} (open_ : first.SpacedTo first')
      (inside : Cells.SpacedTo cells cells') : Node.SpacedTo (.list first cells) (.list first' cells')
inductive Rows.SpacedTo : Rows → Rows → Prop
  | done : Rows.SpacedTo .done .done
  | last {key : Key} {before before' after after' trail trail' : Layout} {value value' : Node}
      (sign : before.SpacedTo before') (start : after.SpacedTo after')
      (held : Node.SpacedTo value value') (stop : trail.SpacedTo trail') :
      Rows.SpacedTo (.last key before after value trail) (.last key before' after' value' trail')
  | lastEmpty {key : Key} {before before' after after' : Layout} (sign : before.SpacedTo before')
      (start : after.SpacedTo after') :
      Rows.SpacedTo (.lastEmpty key before after) (.lastEmpty key before' after')
  | more {key : Key} {before before' after after' : Layout} {value value' : Node}
      {sep sep' : Separator} {rest rest' : Rows} (sign : before.SpacedTo before')
      (start : after.SpacedTo after') (held : Node.SpacedTo value value') (stop : sep.SpacedTo sep')
      (later : Rows.SpacedTo rest rest') :
      Rows.SpacedTo (.more key before after value sep rest)
        (.more key before' after' value' sep' rest')
  | moreEmpty {key : Key} {before before' after after' behind behind' : Layout} {rest rest' : Rows}
      (sign : before.SpacedTo before') (start : after.SpacedTo after')
      (stop : behind.SpacedTo behind') (later : Rows.SpacedTo rest rest') :
      Rows.SpacedTo (.moreEmpty key before after behind rest)
        (.moreEmpty key before' after' behind' rest')
inductive Cells.SpacedTo : Cells → Cells → Prop
  | done : Cells.SpacedTo .done .done
  | last {value value' : Node} {trail trail' : Layout} (held : Node.SpacedTo value value')
      (stop : trail.SpacedTo trail') : Cells.SpacedTo (.last value trail) (.last value' trail')
  | more {value value' : Node} {before before' after after' : Layout} {semicolon : Bool}
      {rest rest' : Cells} (held : Node.SpacedTo value value') (stop : before.SpacedTo before')
      (start : after.SpacedTo after') (later : Cells.SpacedTo rest rest') :
      Cells.SpacedTo (.more value before semicolon after rest)
        (.more value' before' semicolon after' rest')
  | moreEmpty {after after' : Layout} {semicolon : Bool} {rest rest' : Cells}
      (start : after.SpacedTo after') (later : Cells.SpacedTo rest rest') :
      Cells.SpacedTo (.moreEmpty semicolon after rest) (.moreEmpty semicolon after' rest')
end

mutual
/-- Quoted values are plain text. -/
def Node.PlainText : Node → Prop
  | .plain .. => True
  | .quoted quotation => quotation.Plain
  | .map _ rows => rows.PlainText
  | .list _ cells => cells.PlainText
def Rows.PlainText : Rows → Prop
  | .done | .lastEmpty .. => True
  | .last _ _ _ value _ => value.PlainText
  | .more _ _ _ value _ rest => value.PlainText ∧ rest.PlainText
  | .moreEmpty _ _ _ _ rest => rest.PlainText
def Cells.PlainText : Cells → Prop
  | .done => True
  | .last value _ => value.PlainText
  | .more value _ _ _ rest => value.PlainText ∧ rest.PlainText
  | .moreEmpty _ _ rest => rest.PlainText
end

/-- A quoted value that loses the blanks at its end if nothing is left behind it. -/
def Node.trims : Node → Bool
  | .quoted quotation =>
    dropUnread quotation.content != [] && trimEnd quotation.content != quotation.content
  | _ => false

/-- Whether nothing is left behind a value, if that matters to it. -/
def Node.spot (value : Node) (behind : Text) : List Bool :=
  if value.trims then [behind.isEmpty] else []

mutual
/-- Whether nothing stands at the places where that matters: behind the equal sign of an
empty last value, behind the separators of a list and behind quoted values that are trimmed. -/
def Node.spots : Node → List Bool
  | .plain .. | .quoted _ => []
  | .map _ rows => rows.spots
  | .list _ cells => cells.spots
def Rows.spots : Rows → List Bool
  | .done => []
  | .last _ _ _ value trail => value.spots ++ value.spot (afterLine trail.stripped)
  | .lastEmpty _ _ after => [after.stripped.isEmpty]
  | .more _ _ _ value sep rest =>
    value.spots ++ (value.spot (sep.after.stripped ++ rest.stripped) ++ rest.spots)
  | .moreEmpty _ _ _ _ rest => rest.spots
def Cells.spots : Cells → List Bool
  | .done => []
  | .last value _ => value.spots
  | .more value _ _ after rest =>
    value.spots ++ (after.stripped ++ rest.stripped).isEmpty :: rest.spots
  | .moreEmpty _ after rest => (after.stripped ++ rest.stripped).isEmpty :: rest.spots
end

mutual
/-- No map has a key twice, and behind the equal sign of an empty last value stands
something, unless its key is blank. -/
def Node.Valid : Node → Prop
  | .plain .. | .quoted _ => True
  | .map _ rows => rows.Valid []
  | .list _ cells => cells.Valid
def Rows.Valid : Rows → List Text → Prop
  | .done, _ => True
  | .last key _ _ value _, keys => value.Valid ∧ key.content ∉ keys
  | .lastEmpty key _ after, keys =>
    if after.stripped ≠ [] then key.content ∉ keys else trimEnd key.content = []
  | .more key _ _ value _ rest, keys =>
    (value.Valid ∧ key.content ∉ keys) ∧ rest.Valid (key.content :: keys)
  | .moreEmpty key _ _ _ rest, keys => key.content ∉ keys ∧ rest.Valid (key.content :: keys)
def Cells.Valid : Cells → Prop
  | .done => True
  | .last value _ => value.Valid
  | .more value _ _ _ rest => value.Valid ∧ rest.Valid
  | .moreEmpty _ _ rest => rest.Valid
end

section Texts

mutual
/-- What the relation says of the texts. -/
theorem Node.SpacedTo.text : ∀ {node other : Node}, node.SpacedTo other →
    Spaced node.stripped other.stripped
  | _, _, .plain => .refl _
  | _, _, .quoted => .refl _
  | _, _, .map open_ inside =>
    .keep '{' ((open_.append (Rows.SpacedTo.text inside)).append (.refl _))
  | _, _, .list open_ inside =>
    .keep '[' ((open_.append (Cells.SpacedTo.text inside)).append (.refl _))
theorem Rows.SpacedTo.text : ∀ {rows other : Rows}, rows.SpacedTo other →
    Spaced rows.stripped other.stripped
  | _, _, .done => .nil
  | _, _, .last sign start held stop =>
    ((Spaced.refl _).append sign).append (.keep '=' ((start.append held.text).append stop))
  | _, _, .lastEmpty sign start => ((Spaced.refl _).append sign).append (.keep '=' start)
  | _, _, .more sign start held stop later =>
    ((Spaced.refl _).append sign).append (.keep '=' ((start.append held.text).append
      (((stop.gap.append (stop.mark ▸ .refl _)).append stop.after).append (Rows.SpacedTo.text later))))
  | _, _, .moreEmpty sign start stop later =>
    ((Spaced.refl _).append sign).append (.keep '=' (start.append
      (.keep ';' (stop.append (Rows.SpacedTo.text later)))))
theorem Cells.SpacedTo.text : ∀ {cells other : Cells}, cells.SpacedTo other →
    Spaced cells.stripped other.stripped
  | _, _, .done => .nil
  | _, _, .last held stop => held.text.append stop
  | _, _, .more held stop start later =>
    (held.text.append stop).append (.keep _ (start.append (Cells.SpacedTo.text later)))
  | _, _, .moreEmpty start later => .keep _ (start.append (Cells.SpacedTo.text later))
end

theorem Node.SpacedTo.isGroup {node other : Node} (spaced : node.SpacedTo other) :
    node.isGroup = other.isGroup := by
  cases spaced <;> rfl

theorem Node.SpacedTo.trims {node other : Node} (spaced : node.SpacedTo other) :
    node.trims = other.trims := by
  cases spaced <;> rfl

mutual
theorem Node.SpacedTo.height : ∀ {node other : Node}, node.SpacedTo other →
    node.height = other.height
  | _, _, .plain | _, _, .quoted => rfl
  | _, _, .map _ inside => congrArg (· + 1) (Rows.SpacedTo.height inside)
  | _, _, .list _ inside => congrArg (· + 1) (Cells.SpacedTo.height inside)
theorem Rows.SpacedTo.height : ∀ {rows other : Rows}, rows.SpacedTo other →
    rows.height = other.height
  | _, _, .done | _, _, .lastEmpty .. => rfl
  | _, _, .last _ _ held _ => held.height
  | _, _, .more _ _ held _ later => congrArg₂ max held.height (Rows.SpacedTo.height later)
  | _, _, .moreEmpty _ _ _ later => by
    rw [Rows.height, Rows.height, Rows.SpacedTo.height later]
theorem Cells.SpacedTo.height : ∀ {cells other : Cells}, cells.SpacedTo other →
    cells.height = other.height
  | _, _, .done => rfl
  | _, _, .last held _ => held.height
  | _, _, .more held _ _ later => congrArg₂ max held.height (Cells.SpacedTo.height later)
  | _, _, .moreEmpty _ later => by
    rw [Cells.height, Cells.height, Cells.SpacedTo.height later]
end

mutual
theorem Node.SpacedTo.plainText : ∀ {node other : Node}, node.SpacedTo other →
    node.PlainText → other.PlainText
  | _, _, .plain, _ => trivial
  | _, _, .quoted, plain => plain
  | _, _, .map _ inside, plain => Rows.SpacedTo.plainText inside plain
  | _, _, .list _ inside, plain => Cells.SpacedTo.plainText inside plain
theorem Rows.SpacedTo.plainText : ∀ {rows other : Rows}, rows.SpacedTo other →
    rows.PlainText → other.PlainText
  | _, _, .done, _ | _, _, .lastEmpty .., _ => trivial
  | _, _, .last _ _ held _, plain => held.plainText plain
  | _, _, .more _ _ held _ later, plain =>
    ⟨held.plainText plain.1, Rows.SpacedTo.plainText later plain.2⟩
  | _, _, .moreEmpty _ _ _ later, plain => by
    rw [Rows.PlainText] at plain ⊢
    exact Rows.SpacedTo.plainText later plain
theorem Cells.SpacedTo.plainText : ∀ {cells other : Cells}, cells.SpacedTo other →
    cells.PlainText → other.PlainText
  | _, _, .done, _ => trivial
  | _, _, .last held _, plain => held.plainText plain
  | _, _, .more held _ _ later, plain =>
    ⟨held.plainText plain.1, Cells.SpacedTo.plainText later plain.2⟩
  | _, _, .moreEmpty _ later, plain => by
    rw [Cells.PlainText] at plain ⊢
    exact Cells.SpacedTo.plainText later plain
end

mutual
theorem Node.PlainText.closes : ∀ node : Node, node.PlainText → node.Closes
  | .plain .., _ => trivial
  | .quoted _, plain => Quotation.Plain.closes plain
  | .map _ rows, plain => Rows.PlainText.closes rows plain
  | .list _ cells, plain => Cells.PlainText.closes cells plain
theorem Rows.PlainText.closes : ∀ rows : Rows, rows.PlainText → rows.Closes
  | .done, _ | .lastEmpty .., _ => trivial
  | .last _ _ _ value _, plain => Node.PlainText.closes value plain
  | .more _ _ _ value _ rest, plain =>
    ⟨Node.PlainText.closes value plain.1, Rows.PlainText.closes rest plain.2⟩
  | .moreEmpty _ _ _ _ rest, plain => Rows.PlainText.closes rest plain
theorem Cells.PlainText.closes : ∀ cells : Cells, cells.PlainText → cells.Closes
  | .done, _ => trivial
  | .last value _, plain => Node.PlainText.closes value plain
  | .more value _ _ _ rest, plain =>
    ⟨Node.PlainText.closes value plain.1, Cells.PlainText.closes rest plain.2⟩
  | .moreEmpty _ _ rest, plain => Cells.PlainText.closes rest plain
end

end Texts

section Spots

theorem Node.spot_length {value other : Node} (trims : value.trims = other.trims)
    (behind behind' : Text) : (value.spot behind).length = (other.spot behind').length := by
  rw [Node.spot, Node.spot, ← trims]
  split <;> rfl

theorem Node.spot_eq_iff {value other : Node} (trims : value.trims = other.trims)
    (behind behind' : Text) : value.spot behind = other.spot behind' ↔
      (value.trims = true → behind.isEmpty = behind'.isEmpty) := by
  rw [Node.spot, Node.spot, ← trims]
  split <;> simp_all

mutual
theorem Node.SpacedTo.spots_length : ∀ {node other : Node}, node.SpacedTo other →
    node.spots.length = other.spots.length
  | _, _, .plain | _, _, .quoted => rfl
  | _, _, .map _ inside => Rows.SpacedTo.spots_length inside
  | _, _, .list _ inside => Cells.SpacedTo.spots_length inside
theorem Rows.SpacedTo.spots_length : ∀ {rows other : Rows}, rows.SpacedTo other →
    rows.spots.length = other.spots.length
  | _, _, .done | _, _, .lastEmpty .. => rfl
  | _, _, .last _ _ held _ => by
    rw [Rows.spots, Rows.spots, List.length_append, List.length_append, held.spots_length,
      Node.spot_length held.trims]
  | _, _, .more _ _ held _ later => by
    rw [Rows.spots, Rows.spots, List.length_append, List.length_append, List.length_append,
      List.length_append, held.spots_length, Node.spot_length held.trims,
      Rows.SpacedTo.spots_length later]
  | _, _, .moreEmpty _ _ _ later => by
    rw [Rows.spots, Rows.spots, Rows.SpacedTo.spots_length later]
theorem Cells.SpacedTo.spots_length : ∀ {cells other : Cells}, cells.SpacedTo other →
    cells.spots.length = other.spots.length
  | _, _, .done => rfl
  | _, _, .last held _ => held.spots_length
  | _, _, .more held _ _ later => by
    rw [Cells.spots, Cells.spots, List.length_append, List.length_append, List.length_cons,
      List.length_cons, held.spots_length, Cells.SpacedTo.spots_length later]
  | _, _, .moreEmpty _ later => congrArg (· + 1) (Cells.SpacedTo.spots_length later)
end

end Spots

section Quoted
variable {quotation : Quotation} (plain : quotation.Plain)

theorem treeOf_unread {text : Text} (blank : ∀ c ∈ text, isRead c = false) :
    treeOf .checked text = .ok emptyTree := by
  rw [treeOf_eq, treeStep_empty _ (read_blank (dropUnread_blank blank))]
  rfl

/-- Text without quotes and brackets is kept if anything of it can be read. -/
theorem reread_unread {pre text : Text} {c : Char} (blank : ∀ d ∈ pre, isRead d = false)
    (readable : isRead c = true) (chars : ∀ d ∈ c :: text, d ∉ ['"', '\'', '{', '[']) :
    Reread (pre ++ c :: text) := by
  rcases reread_unquoted readable chars with absurd_ | kept
  · cases absurd_
  · obtain ⟨d, rest, after, reads, notOpening⟩ := kept
    refine .inr ⟨d, rest, after, ?_, notOpening⟩
    rw [Filedat.read, dropUnread_append blank readable]
    rwa [Filedat.read, show dropUnread (c :: text) = c :: text from
      dropUnread_append (List.forall_mem_nil _) readable] at reads

include plain

/-- Quoted plain text is the string itself, but for blanks alone. -/
theorem Quotation.Plain.means (trim : Bool) :
    treeOf .checked (trimIf trim quotation.content) = .ok (.string ()
      (if dropUnread quotation.content = [] then [] else trimIf trim quotation.content)) := by
  have split := List.takeWhile_append_dropWhile (p := (!isRead ·)) (l := quotation.content)
  rcases cases_unread quotation.content with blank | ⟨c, later, starts, readable⟩
  · have unread : ∀ c ∈ quotation.content, isRead c = false := by
      simpa [dropUnread] using blank
    have nothing : trimEnd ([] ++ quotation.content) = trimEnd [] := trimEnd_append unread
    rw [if_pos blank]
    cases trim with
    | false => exact treeOf_unread unread
    | true =>
      rw [trimIf, if_pos rfl, ← List.nil_append quotation.content, nothing]
      exact treeOf_nil _
  · rw [if_neg (by simp [starts])]
    refine treeOf_reread ?_
    rw [show quotation.content.dropWhile (!isRead ·) = c :: later from starts] at split
    have unread : ∀ d ∈ quotation.content.takeWhile (!isRead ·), isRead d = false := by
      intro d member
      simpa using List.mem_takeWhile_imp member
    generalize quotation.content.takeWhile (!isRead ·) = pre at split unread
    have chars : ∀ d ∈ c :: later, d ∉ ['"', '\'', '{', '['] := by
      intro d member
      rcases plain d (split ▸ List.mem_append_right pre member) with ⟨_, markup⟩ | rfl | rfl
      · simp only [isMarkup, decide_eq_false_iff_not, List.mem_cons, List.not_mem_nil, or_false,
          not_or] at markup
        simp [markup]
      · decide
      · decide
    rw [← split]
    cases trim with
    | false => exact reread_unread unread readable chars
    | true =>
      rw [trimIf, if_pos rfl, trimEnd_cons_append pre readable]
      refine reread_unread unread readable fun d member => chars d ?_
      rcases List.mem_cons.mp member with rfl | inside
      · exact List.mem_cons_self
      · exact List.mem_cons_of_mem c ((Placed.trimEnd_prefix later).subset inside)

theorem Quotation.Plain.means_eq_iff (trim trim' : Bool) :
    treeOf .checked (trimIf trim quotation.content) = treeOf .checked (trimIf trim' quotation.content) ↔
      ((Node.quoted quotation).trims = true → trim = trim') := by
  rw [plain.means, plain.means]
  by_cases blank : dropUnread quotation.content = []
  · simp [blank, Node.trims]
  · by_cases trimmed : trimEnd quotation.content = quotation.content
    · cases trim <;> cases trim' <;> simp [blank, trimmed, Node.trims, trimIf]
    · have other : quotation.content ≠ trimEnd quotation.content := fun same => trimmed same.symm
      cases trim <;> cases trim' <;> simp [blank, trimmed, other, Node.trims, trimIf]

end Quoted

section Meaning

/-- A list with cells is what its cells are. -/
theorem Node.means_cells {first : Layout} {cells : Cells} (some : cells ≠ .done) (trim : Bool) :
    (Node.list first cells).means trim = cells.means.map (Chunk.list ()) := by
  cases cells with
  | done => exact absurd rfl some
  | last | more | moreEmpty => rfl

theorem Cells.SpacedTo.ne_done {cells other : Cells} (spaced : cells.SpacedTo other)
    (some : cells ≠ .done) : other ≠ .done := by
  rintro rfl
  cases spaced
  exact some rfl

mutual
/-- Blanks that leave the spots as they are leave the meaning as it is. -/
theorem Node.SpacedTo.means : ∀ {node other : Node}, node.SpacedTo other → node.PlainText →
    node.spots = other.spots → ∀ {trim trim' : Bool}, (node.trims = true → trim = trim') →
      node.means trim = other.means trim'
  | _, _, .plain, _, _, _, _, _ => rfl
  | _, _, .quoted, plain, _, trim, trim', same => (Quotation.Plain.means_eq_iff plain trim trim').mpr same
  | _, _, .map _ inside, plain, spots, _, _, _ => by
    rw [Node.means, Node.means, Rows.SpacedTo.means inside plain spots]
  | _, _, @Node.SpacedTo.list _ _ cells _ _ inside, plain, spots, _, _, _ => by
    by_cases none : cells = .done
    · subst none
      cases inside
      rfl
    · rw [Node.means_cells none, Node.means_cells (inside.ne_done none),
        Cells.SpacedTo.means inside plain spots]
theorem Rows.SpacedTo.means : ∀ {rows other : Rows}, rows.SpacedTo other → rows.PlainText →
    rows.spots = other.spots → ∀ values, rows.means values = other.means values
  | _, _, .done, _, _, _ => rfl
  | _, _, .last _ _ held _, plain, spots, values => by
    obtain ⟨first, behind⟩ := List.append_inj spots held.spots_length
    rw [Rows.means, Rows.means, held.means plain first ((Node.spot_eq_iff held.trims _ _).mp behind)]
  | _, _, .lastEmpty _ _, _, spots, values => by
    have same := List.isEmpty_iff.symm.trans ((List.cons.inj spots).1 ▸ List.isEmpty_iff)
    simp only [Rows.means, ne_eq, same]
  | _, _, .more _ _ held _ later, plain, spots, values => by
    obtain ⟨first, others⟩ := List.append_inj spots held.spots_length
    obtain ⟨behind, rest⟩ := List.append_inj others (Node.spot_length held.trims _ _)
    rw [Rows.means, Rows.means,
      held.means plain.1 first ((Node.spot_eq_iff held.trims _ _).mp behind),
      funext (Rows.SpacedTo.means later plain.2 rest)]
  | _, _, .moreEmpty _ _ _ later, plain, spots, values => by
    rw [Rows.means, Rows.means, funext (Rows.SpacedTo.means later plain spots)]
theorem Cells.SpacedTo.means : ∀ {cells other : Cells}, cells.SpacedTo other → cells.PlainText →
    cells.spots = other.spots → cells.means = other.means
  | _, _, .done, _, _ => rfl
  | _, _, .last held _, plain, spots => by
    rw [Cells.means, Cells.means, held.means plain spots fun _ => rfl]
  | _, _, .more held _ _ later, plain, spots => by
    obtain ⟨first, others⟩ := List.append_inj spots held.spots_length
    obtain ⟨behind, rest⟩ := List.cons.inj others
    have same := List.isEmpty_iff.symm.trans (behind ▸ List.isEmpty_iff)
    rw [Cells.means, Cells.means, held.means plain.1 first fun _ => behind,
      Cells.SpacedTo.means later plain.2 rest]
    simp only [same]
  | _, _, .moreEmpty _ later, plain, spots => by
    obtain ⟨behind, rest⟩ := List.cons.inj spots
    have same := List.isEmpty_iff.symm.trans (behind ▸ List.isEmpty_iff)
    rw [Cells.means, Cells.means, Cells.SpacedTo.means later plain rest]
    simp only [same]
end

/-- The keys of a map. -/
def Holds (values : List (Text × Tree)) (keys : List Text) : Prop :=
  ∀ key, OrderedMap.find? key values = none ↔ key ∉ keys

theorem Holds.insert {values : List (Text × Tree)} {keys : List Text} (holds : Holds values keys)
    (key : Text) (tree : Tree) : Holds (OrderedMap.insert key tree values) (key :: keys) := by
  intro other
  rw [OrderedMap.find?_insert, List.mem_cons, not_or, ← holds other]
  split
  · rename_i same
    simp [same]
  · rename_i different
    simp [different]

theorem Holds.enter_iff {values : List (Text × Tree)} {keys : List Text} (holds : Holds values keys)
    (key : Text) (value : Run Unit Tree) :
    (∃ after, enter key value values = .ok after) ↔ (∃ tree, value = .ok tree) ∧ key ∉ keys := by
  rw [← holds key]
  constructor
  · rintro ⟨after, entered⟩
    obtain ⟨tree, is, fresh, _⟩ := enter_ok.mp entered
    exact ⟨⟨tree, is⟩, fresh⟩
  · rintro ⟨⟨tree, is⟩, fresh⟩
    exact ⟨_, enter_ok.mpr ⟨tree, is, fresh, rfl⟩⟩

/-- An entry in front of others. -/
theorem Holds.enter_bind_iff {values : List (Text × Tree)} {keys : List Text}
    (holds : Holds values keys) (key : Text) (value : Run Unit Tree) {rest : Rows} {valid : Prop}
    (later : ∀ values, Holds values (key :: keys) →
      ((∃ after, rest.means values = .ok after) ↔ valid)) :
    (∃ after, enter key value values >>= rest.means = .ok after) ↔
      ((∃ tree, value = .ok tree) ∧ key ∉ keys) ∧ valid := by
  constructor
  · rintro ⟨after, means⟩
    obtain ⟨middle, entered, others⟩ := Run.bind_eq_ok.mp means
    obtain ⟨tree, is, fresh, rfl⟩ := enter_ok.mp entered
    exact ⟨⟨⟨tree, is⟩, (holds key).mp fresh⟩, (later _ (holds.insert key tree)).mp ⟨after, others⟩⟩
  · rintro ⟨⟨⟨tree, is⟩, fresh⟩, others⟩
    obtain ⟨after, means⟩ := (later _ (holds.insert key tree)).mpr others
    exact ⟨after, Run.bind_eq_ok.mpr
      ⟨_, enter_ok.mpr ⟨tree, is, (holds key).mpr fresh, rfl⟩, means⟩⟩

theorem exists_map_ok {α β : Type} {run : Run Unit α} (f : α → β) :
    (∃ after, run.map f = .ok after) ↔ ∃ value, run = .ok value := by
  cases run <;> simp [Except.map]

mutual
/-- A node has a tree if and only if it is valid. -/
theorem Node.valid_iff : ∀ node : Node, node.PlainText → ∀ trim,
    (∃ tree, node.means trim = .ok tree) ↔ node.Valid
  | .plain .., _, _ => ⟨fun _ => trivial, fun _ => ⟨_, rfl⟩⟩
  | .quoted _, plain, trim => ⟨fun _ => trivial, fun _ => ⟨_, Quotation.Plain.means plain trim⟩⟩
  | .map _ rows, plain, _ => by
    rw [Node.means, exists_map_ok, Rows.valid_iff rows plain [] [] (by simp [Holds]), Node.Valid]
  | .list first cells, plain, trim => by
    by_cases none : cells = .done
    · subst none
      exact ⟨fun _ => trivial, fun _ => ⟨_, rfl⟩⟩
    · rw [Node.means_cells none, exists_map_ok, Cells.valid_iff cells plain, Node.Valid]
theorem Rows.valid_iff : ∀ rows : Rows, rows.PlainText → ∀ values keys, Holds values keys →
    ((∃ after, rows.means values = .ok after) ↔ rows.Valid keys)
  | .done, _, values, _, _ => ⟨fun _ => trivial, fun _ => ⟨values, rfl⟩⟩
  | .last key _ _ value trail, plain, values, keys, holds => by
    rw [Rows.means, holds.enter_iff, Node.valid_iff value plain, Rows.Valid]
  | .lastEmpty key _ after, _, values, keys, holds => by
    rw [Rows.means, Rows.Valid]
    split
    · rw [holds.enter_iff]
      simp
    · split <;> simp [*, Run.raise]
  | .more key _ _ value sep rest, plain, values, keys, holds => by
    rw [Rows.means, holds.enter_bind_iff key.content _ fun values held =>
      Rows.valid_iff rest plain.2 values (key.content :: keys) held,
      Node.valid_iff value plain.1, Rows.Valid]
  | .moreEmpty key _ _ _ rest, plain, values, keys, holds => by
    rw [Rows.means, holds.enter_bind_iff key.content _ fun values held =>
      Rows.valid_iff rest plain values (key.content :: keys) held, Rows.Valid]
    simp
theorem Cells.valid_iff : ∀ cells : Cells, cells.PlainText →
    ((∃ trees, cells.means = .ok trees) ↔ cells.Valid)
  | .done, _ => ⟨fun _ => trivial, fun _ => ⟨_, rfl⟩⟩
  | .last value _, plain => by
    rw [Cells.means, exists_map_ok, Node.valid_iff value plain, Cells.Valid]
  | .more value _ _ after rest, plain => by
    rw [Cells.Valid, ← Node.valid_iff value plain.1 (after.stripped ++ rest.stripped).isEmpty,
      ← Cells.valid_iff rest plain.2, Cells.means]
    cases means : value.means (after.stripped ++ rest.stripped).isEmpty with
    | error stop => simp
    | ok tree =>
      rw [Run.bind_ok]
      split
      · rename_i nothing
        obtain rfl := Cells.eq_done (List.append_eq_nil_iff.mp nothing).2
        simp [Cells.means]
      · rw [exists_map_ok]
        simp
  | .moreEmpty _ after rest, plain => by
    rw [Cells.Valid, ← Cells.valid_iff rest plain, Cells.means]
    split
    · rename_i nothing
      obtain rfl := Cells.eq_done (List.append_eq_nil_iff.mp nothing).2
      simp [Cells.means]
    · rw [exists_map_ok]
end

/-- A key is entered with the same value on the way to the same map. -/
theorem enter_same {key : Text} {value value' : Run Unit Tree}
    {values middle middle' after : List (Text × Tree)} (entered : enter key value values = .ok middle)
    (entered' : enter key value' values = .ok middle')
    (kept : ∀ tree, OrderedMap.find? key middle = some tree → OrderedMap.find? key after = some tree)
    (kept' : ∀ tree, OrderedMap.find? key middle' = some tree →
      OrderedMap.find? key after = some tree) :
    middle = middle' ∧ ∃ tree, value = .ok tree ∧ value' = .ok tree := by
  obtain ⟨tree, is, _, rfl⟩ := enter_ok.mp entered
  obtain ⟨tree', is', _, rfl⟩ := enter_ok.mp entered'
  have found := kept tree (OrderedMap.find?_insert_self ..)
  rw [kept' tree' (OrderedMap.find?_insert_self ..)] at found
  obtain rfl := Option.some.inj found
  exact ⟨rfl, tree', is, is'⟩

theorem Cells.means_ne_nil (cells : Cells) : cells.means ≠ .ok [] := by
  intro means
  cases cells with
  | done => cases means
  | last value trail =>
    obtain ⟨tree, _, absurd_⟩ := Run.map_eq_ok.mp means
    cases absurd_
  | more value before semicolon after rest =>
    obtain ⟨tree, _, later⟩ := Run.bind_eq_ok.mp means
    split at later
    · cases later
    · obtain ⟨trees, _, absurd_⟩ := Run.map_eq_ok.mp later
      cases absurd_
  | moreEmpty semicolon after rest =>
    rw [Cells.means] at means
    split at means
    · cases means
    · obtain ⟨trees, _, absurd_⟩ := Run.map_eq_ok.mp means
      cases absurd_

/-- The same elements are of the same cells, and there are as many. -/
theorem elements_same {tree tree' : Tree} {trees : List Tree} {behind behind' : Text}
    {rest rest' : Cells}
    (means : (if behind = [] then .ok [tree] else rest.means.map (tree :: ·)) = .ok trees)
    (means' : (if behind' = [] then .ok [tree'] else rest'.means.map (tree' :: ·)) = .ok trees) :
    tree = tree' ∧ behind.isEmpty = behind'.isEmpty ∧
      (behind ≠ [] → ∃ others, rest.means = .ok others ∧ rest'.means = .ok others) := by
  rw [Bool.eq_iff_iff, List.isEmpty_iff, List.isEmpty_iff]
  split at means <;> split at means'
  · obtain rfl := Except.ok.inj means
    obtain ⟨same, _⟩ := List.cons.inj (Except.ok.inj means')
    simp_all
  · obtain rfl := Except.ok.inj means
    obtain ⟨others, later, same⟩ := Run.map_eq_ok.mp means'
    obtain ⟨_, rfl⟩ := List.cons.inj same
    exact absurd later rest'.means_ne_nil
  · obtain rfl := Except.ok.inj means'
    obtain ⟨others, later, same⟩ := Run.map_eq_ok.mp means
    obtain ⟨_, rfl⟩ := List.cons.inj same
    exact absurd later rest.means_ne_nil
  · obtain ⟨others, later, rfl⟩ := Run.map_eq_ok.mp means
    obtain ⟨others', later', same⟩ := Run.map_eq_ok.mp means'
    obtain ⟨rfl, rfl⟩ := List.cons.inj same
    simp_all

theorem Cells.SpacedTo.spots_behind {rest rest' : Cells} {after after' : Layout}
    (empty : (after.stripped ++ rest.stripped).isEmpty = (after'.stripped ++ rest'.stripped).isEmpty)
    (same : after.stripped ++ rest.stripped ≠ [] → rest.spots = rest'.spots) :
    (after.stripped ++ rest.stripped).isEmpty :: rest.spots =
      (after'.stripped ++ rest'.stripped).isEmpty :: rest'.spots := by
  refine congrArg₂ List.cons empty ?_
  by_cases nothing : after.stripped ++ rest.stripped = []
  · rw [nothing] at empty
    have nothing' := List.isEmpty_iff.mp empty.symm
    rw [Cells.eq_done (List.append_eq_nil_iff.mp nothing).2,
      Cells.eq_done (List.append_eq_nil_iff.mp nothing').2]
  · exact same nothing

mutual
/-- Blanks that leave the meaning of a valid node as it is leave the spots as they are. -/
theorem Node.SpacedTo.spots : ∀ {node other : Node}, node.SpacedTo other → node.PlainText →
    ∀ {trim trim' : Bool} {tree : Tree}, node.means trim = .ok tree → other.means trim' = .ok tree →
      node.spots = other.spots ∧ (node.trims = true → trim = trim')
  | _, _, .plain, _, _, _, _, _, _ => ⟨rfl, fun trims => absurd trims Bool.false_ne_true⟩
  | _, _, .quoted, plain, trim, trim', _, means, means' =>
    ⟨rfl, (Quotation.Plain.means_eq_iff plain trim trim').mp (means.trans means'.symm)⟩
  | _, _, .map _ inside, plain, _, _, _, means, means' => by
    obtain ⟨values, built, rfl⟩ := Run.map_eq_ok.mp means
    obtain ⟨values', built', same⟩ := Run.map_eq_ok.mp means'
    obtain rfl := (Chunk.map.inj same).2
    exact ⟨Rows.SpacedTo.spots inside plain built built', fun trims => absurd trims Bool.false_ne_true⟩
  | _, _, @Node.SpacedTo.list _ _ cells _ _ inside, plain, _, _, _, means, means' => by
    refine ⟨?_, fun trims => absurd trims Bool.false_ne_true⟩
    by_cases none : cells = .done
    · subst none
      cases inside
      rfl
    · rw [Node.means_cells none] at means
      rw [Node.means_cells (inside.ne_done none)] at means'
      obtain ⟨trees, built, rfl⟩ := Run.map_eq_ok.mp means
      obtain ⟨trees', built', same⟩ := Run.map_eq_ok.mp means'
      obtain rfl := (Chunk.list.inj same).2
      exact Cells.SpacedTo.spots inside plain built built'
theorem Rows.SpacedTo.spots : ∀ {rows other : Rows}, rows.SpacedTo other → rows.PlainText →
    ∀ {values after : List (Text × Tree)}, rows.means values = .ok after →
      other.means values = .ok after → rows.spots = other.spots
  | _, _, .done, _, _, _, _, _ => rfl
  | _, _, .last _ _ held _, plain, _, _, means, means' => by
    obtain ⟨_, tree, is, is'⟩ := enter_same means means' (fun _ => id) fun _ => id
    obtain ⟨first, behind⟩ := held.spots plain is is'
    rw [Rows.spots, Rows.spots, first, (Node.spot_eq_iff held.trims _ _).mpr behind]
  | _, _, @Rows.SpacedTo.lastEmpty key _ _ after after' _ _, _, values, _, means, means' => by
    rw [Rows.means] at means means'
    -- an entry that one text has and the other has not
    have other {after : List (Text × Tree)} (entered : enter key.content (.ok emptyTree) values = .ok after) :
        after ≠ values := by
      obtain ⟨tree, _, fresh, rfl⟩ := enter_ok.mp entered
      intro same
      rw [← same, OrderedMap.find?_insert_self] at fresh
      cases fresh
    have bare {behind : List (Text × Tree)}
        (built : (if trimEnd key.content = [] then .ok values else Run.raise ()) = .ok behind) :
        behind = values := by
      split at built
      · exact (Except.ok.inj built).symm
      · simp [Run.raise] at built
    rw [Rows.spots, Rows.spots, List.cons.injEq, Bool.eq_iff_iff, List.isEmpty_iff, List.isEmpty_iff]
    split at means <;> split at means'
    · simp_all
    · exact absurd (bare means') (other means)
    · exact absurd (bare means) (other means')
    · simp_all
  | _, _, .more _ _ held _ later, plain, _, _, means, means' => by
    obtain ⟨middle, entered, others⟩ := Run.bind_eq_ok.mp means
    obtain ⟨middle', entered', others'⟩ := Run.bind_eq_ok.mp means'
    obtain ⟨rfl, tree, is, is'⟩ := enter_same entered entered'
      (fun _ => Rows.persists _ others) fun _ => Rows.persists _ others'
    obtain ⟨first, behind⟩ := held.spots plain.1 is is'
    rw [Rows.spots, Rows.spots, first, (Node.spot_eq_iff held.trims _ _).mpr behind,
      Rows.SpacedTo.spots later plain.2 others others']
  | _, _, .moreEmpty _ _ _ later, plain, _, _, means, means' => by
    obtain ⟨middle, entered, others⟩ := Run.bind_eq_ok.mp means
    obtain ⟨middle', entered', others'⟩ := Run.bind_eq_ok.mp means'
    obtain rfl := Except.ok.inj (entered.symm.trans entered')
    rw [Rows.spots, Rows.spots, Rows.SpacedTo.spots later plain others others']
theorem Cells.SpacedTo.spots : ∀ {cells other : Cells}, cells.SpacedTo other → cells.PlainText →
    ∀ {trees : List Tree}, cells.means = .ok trees → other.means = .ok trees →
      cells.spots = other.spots
  | _, _, .done, _, _, _, _ => rfl
  | _, _, .last held _, plain, _, means, means' => by
    obtain ⟨tree, is, rfl⟩ := Run.map_eq_ok.mp means
    obtain ⟨tree', is', same⟩ := Run.map_eq_ok.mp means'
    obtain ⟨rfl, _⟩ := List.cons.inj same
    exact (held.spots plain is is').1
  | _, _, .more held _ _ later, plain, _, means, means' => by
    obtain ⟨tree, is, others⟩ := Run.bind_eq_ok.mp means
    obtain ⟨tree', is', others'⟩ := Run.bind_eq_ok.mp means'
    obtain ⟨rfl, empty, behind⟩ := elements_same others others'
    rw [Cells.spots, Cells.spots, (held.spots plain.1 is is').1]
    refine congrArg _ (Cells.SpacedTo.spots_behind empty fun some => ?_)
    obtain ⟨trees, built, built'⟩ := behind some
    exact Cells.SpacedTo.spots later plain.2 built built'
  | _, _, .moreEmpty _ later, plain, _, means, means' => by
    obtain ⟨_, empty, behind⟩ := elements_same means means'
    rw [Cells.spots, Cells.spots]
    refine Cells.SpacedTo.spots_behind empty fun some => ?_
    obtain ⟨trees, built, built'⟩ := behind some
    exact Cells.SpacedTo.spots later plain built built'
end

end Meaning

/-- Whether `set` accepts the texts and the tree it makes of them are the same. -/
def SameOutcome (text other : Text) (offset : Int) : Prop :=
  ∀ tree : Tree, ((set .checked text offset).2 = none ∧ (set .checked text offset).1.tree = tree) ↔
    ((set .checked other offset).2 = none ∧ (set .checked other offset).1.tree = tree)

theorem Node.content_isGroup {node : Node} (isGroup : node.isGroup = true) :
    node.content = node.stripped := by
  cases node with
  | quoted => cases isGroup
  | plain | map | list => rfl

/-- Spaces and tabs next to the brackets, equal signs and separators of a map or list change
nothing if and only if they leave the spots as they are, or neither text is valid. -/
theorem set_spaces_iff {node other : Node} (isGroup : node.isGroup = true) (plain : node.PlainText)
    (spaced : node.SpacedTo other) (room : other.stripped.length < 2 ^ 32) (offset : Int) :
    SameOutcome node.stripped other.stripped offset ↔
      (node.Valid ∨ other.Valid → node.spots = other.spots) := by
  have plain' := spaced.plainText plain
  have height : other.height < 2 ^ 32 := Nat.lt_of_le_of_lt (Node.height_le other) room
  have parsed : treeOf .checked node.stripped = node.means false := by
    rw [← Node.content_isGroup isGroup]
    exact Node.treeOf_content node (Node.PlainText.closes node plain) (spaced.height ▸ height) false
  have parsed' : treeOf .checked other.stripped = other.means false := by
    rw [← Node.content_isGroup (spaced.isGroup ▸ isGroup)]
    exact Node.treeOf_content other (Node.PlainText.closes other plain') height false
  simp only [SameOutcome, set_returns_iff, parsed, parsed']
  constructor
  · intro same valid
    rcases valid with valid | valid
    · obtain ⟨tree, means⟩ := (Node.valid_iff node plain false).mpr valid
      exact (spaced.spots plain means ((same tree).mp means)).1
    · obtain ⟨tree, means⟩ := (Node.valid_iff other plain' false).mpr valid
      exact (spaced.spots plain ((same tree).mpr means) means).1
  · intro spots tree
    by_cases valid : node.Valid ∨ other.Valid
    · rw [spaced.means plain (spots valid) fun _ => rfl]
    · obtain ⟨invalid, invalid'⟩ := not_or.mp valid
      exact ⟨fun means => absurd ((Node.valid_iff node plain false).mp ⟨tree, means⟩) invalid,
        fun means => absurd ((Node.valid_iff other plain' false).mp ⟨tree, means⟩) invalid'⟩

/-- `[a,]` -/
def commaList (first after : Layout) : Node :=
  .list first (.more (.plain (.letter 'a' (.refl true)) (by simp [Word.letter, Word.ofKey]))
    [] false after .done)

theorem commaList_spaced {first first' after after' : Layout} (open_ : first.SpacedTo first')
    (behind : after.SpacedTo after') :
    (commaList first after).SpacedTo (commaList first' after') :=
  .list open_ (.more .plain .nil behind .done)

/-- `[a,]` and `[ a,]` -/
theorem set_spaces_iff_list : SameOutcome ['[', 'a', ',', ']'] ['[', ' ', 'a', ',', ']'] 0 ↔
    ((commaList [] []).Valid ∨ (commaList [.blank ' ' (.inl rfl)] []).Valid →
      (commaList [] []).spots = (commaList [.blank ' ' (.inl rfl)] []).spots) :=
  @set_spaces_iff (commaList [] []) (commaList [.blank ' ' (.inl rfl)] []) rfl ⟨trivial, trivial⟩
    (commaList_spaced (.put (.inl rfl) .nil) .nil) (by decide) 0

/-- `[a,]` has one element and `[a, ]` two. -/
theorem set_spaces_differ : ¬ ∀ (node other : Node) (offset : Int), node.isGroup = true →
    node.PlainText → node.SpacedTo other → other.stripped.length < 2 ^ 32 →
      SameOutcome node.stripped other.stripped offset := by
  intro same
  have outcome : SameOutcome ['[', 'a', ',', ']'] ['[', 'a', ',', ' ', ']'] 0 :=
    same (commaList [] []) (commaList [] [.blank ' ' (.inl rfl)]) 0 rfl ⟨trivial, trivial⟩
      (commaList_spaced .nil (.put (.inl rfl) .nil)) (by decide)
  obtain ⟨_, two⟩ := (outcome (.list () [.string () ['a']])).mp ⟨rfl, rfl⟩
  cases two

end Ztd.Filedat
