import Ztd.Filedat.Keys
import Ztd.Filedat.History
import Ztd.Filedat.Stream

/-! `import_file` and `export_file`, over the files they open. -/

namespace Ztd
open Ztd.Lib Ztd.Filedat

/-- What can be read under a path, and where a file can be written. -/
structure Files where
  content : Text → Option Text
  writable : Text → Bool

def Files.write (path content : Text) (files : Files) : Files :=
  { files with content := Function.update files.content path (some content) }

@[simp] theorem Files.content_write (path content : Text) (files : Files) :
    (files.write path content).content path = some content := Function.update_self ..

/-- What an import throws: a `std::runtime_error` or a `format_error`. -/
inductive ImportError where
  | cannotRead (what : Text)
  | format (error : FormatError)
deriving DecidableEq, Repr

namespace Filedat

/-- `export_file(path, aligner)`, and whether the file could be written. -/
def exportFile (path aligner : Text) (files : Files) (file : Filedat) : Bool × Files :=
  let target := if path == [] then file.filePath else path
  if files.writable target then (true, files.write target (file.strval aligner))
  else (false, files)

/-- `import_file(path)`, and the exception it ends in. -/
def importFile (blanks : BlankRun) (path : Text) (files : Files) (file : Filedat) :
    Filedat × Option (Stop ImportError) :=
  let file := if path != [] then { file with filePath := path } else file
  match files.content file.filePath with
  | none => (file, some (.thrown (.cannotRead
      (message "Cannot read file '" ++ file.filePath ++ ['\'']))))
  | some content =>
    let file := file.clear
    match InputStream.readData { content := content } with
    | .error stop => (file, some (stop.map .format))
    | .ok data =>
      let (file, stop) := generateChunk blanks { file with data := data }
      (file, stop.map (Stop.map .format))

end Filedat

end Ztd

namespace Ztd.Filedat
open Ztd.Lib

/-- An import is what parsing makes of the lines read from the file. -/
theorem importFile_found {blanks : BlankRun} {path content : Text} {files : Files}
    (named : path ≠ []) (found : files.content path = some content) (file : Ztd.Filedat) :
    file.importFile blanks path files =
      ((generateChunk blanks { file.clear with filePath := path, data := reread content }).1,
        (generateChunk blanks { file.clear with filePath := path, data := reread content }).2.map
          (Stop.map .format)) := by
  have given : (path != []) = true := bne_iff_ne.mpr named
  simp only [importFile, given, if_true, found, readData_eq]
  rfl

section Exported
variable {ι : Type} {tree : Chunk ι} {aligner : Text}

/-- Every entry of a map ends its line. -/
theorem strvalValues_split {values : List (Text × Chunk ι)} (nonempty : values ≠ [])
    (alignment : UInt32) (aligner : Text) :
    ∃ lines, Chunk.strvalValues alignment aligner values = lines ++ ['\n'] := by
  induction values with
  | nil => exact absurd rfl nonempty
  | cons entry rest ih =>
    rw [Chunk.strvalValues]
    cases rest with
    | nil => exact ⟨_, List.append_nil _⟩
    | cons next rest =>
      obtain ⟨lines, split⟩ := ih (List.cons_ne_nil next rest)
      exact ⟨_, by rw [split, ← List.append_assoc]⟩

/-- What the printer writes of a map or a list, as a group. -/
theorem prints_group (ordered : tree.Ordered) (exportable : tree.Exportable)
    (root : tree.type = .map ∨ tree.type = .list) (spaces : ∀ c ∈ aligner, c = ' ' ∨ c = '\t') :
    ∃ value : Value, value.isGroup = true ∧ value.text = tree.strval 0 aligner ∧
      value.stripped = tree.strval 0 aligner ∧ value.tree = tree.tree ∧ value.Good False ∧
      value.Apart := by
  obtain ⟨value, prints⟩ := prints_chunk spaces tree 0 ordered exportable
  have notString : tree.type ≠ .string := by rcases root with is | is <;> simp [is]
  have item : tree.item (tree.strval 0 aligner) = tree.strval 0 aligner := if_neg notString
  refine ⟨value, ?_, (prints.render _ fun _ _ => rfl).trans item,
    (prints.render _ fun _ _ => rfl).trans item, prints.tree, prints.good False, prints.apart⟩
  have same := congrArg Chunk.type prints.tree
  rw [Chunk.tree_type] at same
  cases value with
  | plain | quoted => exact absurd same.symm notString
  | map | emptyList | list => rfl

variable (aligner) in
/-- A map or a list ends with a line of its brackets. -/
theorem lastLine_strval (root : tree.type = .map ∨ tree.type = .list) :
    lastLine (tree.strval 0 aligner) ∈ [['{', '}'], ['}'], ['[', ']'], [']']] := by
  have ends (front : Text) {c : Char} (single : '\n' ≠ c) :
      lastLine (front ++ ['\n', c]) = [c] := by
    rw [show front ++ ['\n', c] = front ++ '\n' :: [c] from rfl, lastLine_append,
      lastLine_single (by simpa using single)]
  cases tree with
  | none | string => rcases root with is | is <;> cases is
  | map offset values =>
    by_cases empty : values = []
    · subst empty
      simp [Chunk.strval, lastLine]
    · obtain ⟨lines, split⟩ := strvalValues_split empty 0 aligner
      have whole := ends ('{' :: '\n' :: lines) (c := '}') (by decide)
      rw [strval_map, if_neg empty, split]
      simpa [repeatString] using Or.inr (Or.inl whole)
  | list offset elements =>
    by_cases empty : elements = []
    · subst empty
      simp [Chunk.strval, lastLine]
    · obtain ⟨element, rest, rfl⟩ := List.exists_cons_of_ne_nil empty
      obtain ⟨later, split⟩ : ∃ later, Chunk.strvalElements 0 aligner (element :: rest) =
          repeatString aligner (0 + 1 : UInt32).toNat ++
            element.item (element.strval (0 + 1) aligner) ++ later ++ [',', '\n'] :=
        strvalElements_split element rest
      have whole := ends ('[' :: '\n' :: (repeatString aligner (0 + 1 : UInt32).toNat ++
        element.item (element.strval (0 + 1) aligner) ++ later)) (c := ']') (by decide)
      rw [strval_list offset split]
      simpa [repeatString] using Or.inr (Or.inr (Or.inr whole))

end Exported

/-- A map or a list is a group between its brackets. -/
theorem Value.group {value : Value} (isGroup : value.isGroup = true) (closes : value.Closes) :
    ∃ group inner, GroupKind.Known group ∧ Neutral group inner ∧
      value.stripped = group.opening :: (inner ++ [group.closing]) := by
  cases value with
  | plain | quoted => cases isGroup
  | map first entries =>
    exact ⟨brace, _, .inl rfl, (Layout.neutral (.inl rfl) first).append
      (Entries.neutral (.inl rfl) entries closes), rfl⟩
  | emptyList first => exact ⟨bracket, _, .inr rfl, Layout.neutral (.inr rfl) first, rfl⟩
  | list first elements =>
    exact ⟨bracket, _, .inr rfl, (Layout.neutral (.inr rfl) first).append
      (Elements.neutral (.inr rfl) elements closes), rfl⟩

/-- Readable text behind a map or a list is refused. -/
theorem set_behind (blanks : BlankRun) {value : Value} (isGroup : value.isGroup = true)
    (closes : value.Closes) {post : Text} (unread : ∀ c ∈ post.head?, isRead c = false)
    (more : dropUnread post ≠ []) (room : (value.stripped ++ post).length < 2 ^ 31) (offset : Int) :
    set blanks (value.stripped ++ post) offset =
      (.none offset, some (.thrown (formatError (message "Unexpected char") []
        (value.stripped ++ post)
        ((value.stripped ++ post).length - (dropUnread post).length : Nat)))) := by
  obtain ⟨group, inner, known, neutral, is⟩ := value.group isGroup closes
  rw [List.length_append] at room
  have size := congrArg List.length is
  simp only [List.length_cons, List.length_append, List.length_nil] at size
  have small : inner.length < 2 ^ 32 := by omega
  have reads := read_enclosed blanks known neutral small (List.forall_mem_nil _) unread
  rw [List.nil_append, ← is] at reads
  have readable : isRead group.opening = true := by rcases known with rfl | rfl <;> decide
  have begins : dropUnread (value.stripped ++ post) ≠ [] :=
    dropUnread_ne_nil (c := group.opening) (by simp [is]) readable
  have shorter := dropUnread_length post
  have refused : insideBrackets (value.stripped ++ post)
      (strVal (value.stripped ++ post) (value.stripped, post)) =
        Run.raise (formatError (message "Unexpected char") [] (value.stripped ++ post)
          ((value.stripped ++ post).length - (dropUnread post).length : Nat)) := by
    have start : toInt ((value.stripped ++ post).length - post.length : Nat) =
        value.stripped.length := by
      rw [List.length_append, Nat.add_sub_cancel]
      exact toInt_of_lt (Int.natCast_nonneg _) (by omega)
    have place : ((value.stripped.length : Int) + (post.length - (dropUnread post).length : Nat)) =
        ((value.stripped ++ post).length - (dropUnread post).length : Nat) := by
      rw [List.length_append]
      omega
    simp only [insideBrackets, strVal, if_neg begins, skip_eq, Run.bind_ok, start, place]
    rw [if_pos (bne_iff_ne.mpr more)]
  rw [set, setFuel, getstrval_eq, reads]
  simp only [Except.map, Run.mapError]
  have isolated : (strVal (value.stripped ++ post) (value.stripped, post)).value =
      group.opening :: (inner ++ [group.closing]) := by
    rw [strVal, if_neg begins]
    exact is
  rcases known with rfl | rfl
  · rw [isolated]
    simp only [brace, setMap, refused]
    rfl
  · rw [isolated]
    simp only [bracket, setList, refused]
    rfl

/-- Importing a map or a list without comments and with plain text behind it. -/
theorem generateChunk_behind (blanks : BlankRun) {value : Value} (isGroup : value.isGroup = true)
    (closes : value.Closes) (apart : value.Apart) (plain : value.text = value.stripped)
    {post : Text} (bare : ∀ c ∈ post, Bare c) (unread : ∀ c ∈ post.head?, isRead c = false)
    (more : dropUnread post ≠ []) {file : Ztd.Filedat} (data : file.data = value.stripped ++ post)
    (room : file.data.length < 2 ^ 31) :
    file.generateChunk blanks = ({ file with dataChunk := none },
      some (.thrown (formatError (message "Unexpected char") file.filePath file.data
        (file.data.length - (dropUnread post).length : Nat)))) := by
  have noQuotes : value.quotes = false := by
    cases value <;> first | rfl | cases isGroup
  have strips := Value.strip_text value closes apart post (by simp [noQuotes])
  have rest := strip_bares bare []
  rw [List.append_nil, strip, lead_ok, List.append_nil] at rest
  rw [plain, rest, lead_ok] at strips
  have comments : removeComments file.data = .ok file.data := by
    rw [data, removeComments_eq (by rw [← data]; omega), strips]
    rfl
  have refused := set_behind blanks isGroup closes unread more (data ▸ room) 0
  rw [← data] at refused
  have index : toInt (file.data.length - (dropUnread post).length : Nat) =
      (file.data.length - (dropUnread post).length : Nat) :=
    toInt_of_lt (Int.natCast_nonneg _) (by omega)
  have what : cstr (message "Unexpected char") = message "Unexpected char" := by decide
  simp only [generateChunk, comments, refused, Setting.construct, failed, FormatError.what,
    formatError, what, index]

/-- What stands behind the exported text when its last line comes again. -/
theorem closing_line {line : Text} (closing : line ∈ [['{', '}'], ['}'], ['[', ']'], [']']]) :
    line ≠ [] ∧ line.length ≤ 2 ∧ (∀ c ∈ '\n' :: (line ++ ['\n']), Bare c) ∧
      dropUnread ('\n' :: (line ++ ['\n'])) = line ++ ['\n'] := by
  simp only [List.mem_cons, List.not_mem_nil, or_false] at closing
  rcases closing with rfl | rfl | rfl | rfl <;> simp [Bare, dropUnread, isRead]

section Reread
variable {tree : Chunkdat} (ordered : tree.Ordered) (exportable : tree.Exportable)
  (root : tree.type = .map ∨ tree.type = .list) {aligner : Text}
  (spaces : ∀ c ∈ aligner, c = ' ' ∨ c = '\t') (room : (tree.strval 0 aligner).length + 4 < 2 ^ 31)
include ordered exportable root spaces room

/-- What is read back of an exported map or list has its last line twice, and is
refused there. -/
theorem generateChunk_exported (blanks : BlankRun) (file : Ztd.Filedat)
    (data : file.data = reread (tree.strval 0 aligner)) :
    file.generateChunk blanks = ({ file with dataChunk := none },
      some (.thrown (formatError (message "Unexpected char") file.filePath file.data
        ((tree.strval 0 aligner).length + 1 : Nat)))) := by
  obtain ⟨value, isGroup, text, stripped, _, good, apart⟩ :=
    prints_group ordered exportable root spaces
  obtain ⟨nonempty, short, bare, begins⟩ := closing_line (lastLine_strval aligner root)
  have twice : reread (tree.strval 0 aligner) =
      value.stripped ++ '\n' :: (lastLine (tree.strval 0 aligner) ++ ['\n']) := by
    rw [reread, if_neg nonempty, stripped]
  rw [twice] at data
  have size := congrArg List.length data
  rw [stripped] at size
  simp only [List.length_append, List.length_cons, List.length_nil] at size
  have ended := generateChunk_behind blanks isGroup good.closes apart (text.trans stripped.symm)
    bare (by simp [isRead]) (by simp [begins]) data (by omega)
  have place : file.data.length - (lastLine (tree.strval 0 aligner) ++ ['\n']).length =
      (tree.strval 0 aligner).length + 1 := by
    rw [List.length_append, List.length_singleton]
    omega
  rw [ended, begins, place]

/-- A map or a list that `export_file` has written cannot be read back: the last line
comes again behind it, and the import is refused there. What is left has no chunk, and
exporting it empties the file. -/
theorem importFile_exported (blanks : BlankRun) (files : Files) {path : Text} (named : path ≠ [])
    (writable : files.writable path = true) {file : Ztd.Filedat}
    (holds : file.dataChunk = some tree) (other : Ztd.Filedat) : ∃ written left,
    file.exportFile path aligner files = (true, written) ∧
    other.importFile blanks path written = (left, some (.thrown (.format (formatError
      (message "Unexpected char") path left.data ((tree.strval 0 aligner).length + 1 : Nat))))) ∧
    left.exportFile [] aligner written = (true, written.write path []) := by
  have given : (path == []) = false := beq_eq_false_iff_ne.mpr named
  refine ⟨files.write path (tree.strval 0 aligner),
    { data := reread (tree.strval 0 aligner), filePath := path, dataChunk := none }, ?_, ?_, ?_⟩
  · simp [exportFile, given, writable, strval, holds]
  · rw [importFile_found named (Files.content_write ..),
      generateChunk_exported ordered exportable root spaces room blanks _ rfl]
    rfl
  · simp [exportFile, Files.write, writable, strval]

/-- With newlines behind it, what is read back is the exported text again. -/
theorem generateChunk_newlines (count : Nat) (small : count < 2 ^ 31) (file : Ztd.Filedat)
    (data : file.data = tree.strval 0 aligner ++ List.replicate count '\n') : ∃ chunk,
    file.generateChunk .checked = ({ file with dataChunk := some chunk }, none) ∧
      chunk.tree = tree.tree := by
  obtain ⟨value, isGroup, text, stripped, same, good, apart⟩ :=
    prints_group ordered exportable root spaces
  let document : Document := ⟨[], value, isGroup, .ofBlanks (List.replicate count '\n')
    fun c member => .inr (.inr (List.eq_of_mem_replicate member)), none⟩
  have written : document.text = file.data := by
    change [] ++ (value.text ++ ((Layout.ofBlanks _ _).render Piece.text ++ [])) = file.data
    rw [Layout.render_ofBlanks fun _ _ => rfl, text, data, List.append_nil, List.nil_append]
  have left : document.stripped = file.data := by
    change [] ++ (value.stripped ++ (Layout.ofBlanks _ _).render Piece.stripped) = file.data
    rw [Layout.render_ofBlanks fun _ _ => rfl, stripped, data, List.nil_append]
  have size := congrArg List.length data
  simp only [List.length_append, List.length_replicate] at size
  have strips := strip_document document good.closes apart
  obtain ⟨chunk, constructed, tree_⟩ := set_document document good (by rw [left]; omega) 0
  rw [left] at constructed strips
  rw [written] at strips
  have comments : removeComments file.data = .ok file.data := by
    rw [removeComments_eq (by omega), strips]
    rfl
  exact ⟨chunk, generateChunk_ok comments constructed, tree_.trans same⟩

/-- An exported map or list is read back if and only if newlines were written behind it. -/
theorem importFile_newlines_iff (count : Nat) (small : count + 1 < 2 ^ 31) {files : Files}
    {path : Text} (named : path ≠ [])
    (found : files.content path = some (tree.strval 0 aligner ++ List.replicate count '\n'))
    (file : Ztd.Filedat) :
    (∃ data chunk, file.importFile .checked path files =
      ({ data := data, filePath := path, dataChunk := some chunk }, none) ∧
        chunk.tree = tree.tree) ↔ 0 < count := by
  rw [importFile_found named found]
  cases count with
  | zero =>
    rw [List.replicate_zero, List.append_nil,
      generateChunk_exported ordered exportable root spaces room .checked _ rfl]
    simp
  | succ count =>
    have ends : EndsLine (tree.strval 0 aligner ++ List.replicate (count + 1) '\n') := by
      rw [List.replicate_succ', ← List.append_assoc]
      exact .inr List.getLast?_concat
    rw [reread, if_pos ((lastLine_eq_nil_iff _).mpr ends), List.append_assoc,
      ← List.replicate_succ']
    obtain ⟨chunk, generates, same⟩ := generateChunk_newlines ordered exportable root spaces room
      (count + 1 + 1) small { file.clear with
        filePath := path
        data := tree.strval 0 aligner ++ List.replicate (count + 1 + 1) '\n' } rfl
    rw [generates]
    exact iff_of_true ⟨_, chunk, rfl, same⟩ (Nat.succ_pos count)

end Reread

/-- `{a = ["x", {}]}` -/
def nestedChunk : Chunkdat :=
  .map 0 [(['a'], .list 0 [.string 0 ['x'], .map 0 []])]

theorem nestedChunk_ordered : nestedChunk.Ordered := by
  refine ⟨?_, ⟨trivial, ⟨?_, trivial⟩, trivial⟩, trivial⟩ <;> simp [OrderedMap.Sorted]

theorem nestedChunk_exportable : nestedChunk.Exportable :=
  ⟨⟨by simp, by simp [isRead, isMarkup]⟩,
    ⟨⟨.inr ⟨[], 'x', rfl, rfl, by decide⟩, rfl⟩, trivial, trivial⟩, trivial⟩

theorem tabs : ∀ c ∈ ['\t'], c = ' ' ∨ c = '\t' := by simp

/-- Files that are not there yet and can be written. -/
def noFiles : Files := ⟨fun _ => none, fun _ => true⟩

theorem importFile_exported_nested : ∃ written left,
    exportFile ['f'] ['\t'] noFiles { dataChunk := some nestedChunk } = (true, written) ∧
    importFile .unchecked ['f'] written {} = (left, some (.thrown (.format (formatError
      (message "Unexpected char") ['f'] left.data
      ((nestedChunk.strval 0 ['\t']).length + 1 : Nat))))) ∧
    left.exportFile [] ['\t'] written = (true, written.write ['f'] []) :=
  importFile_exported nestedChunk_ordered nestedChunk_exportable (.inl rfl) tabs (by decide)
    .unchecked noFiles (by simp) rfl rfl {}

theorem importFile_newlines_iff_nested :
    (∃ data chunk, importFile .checked ['f']
        (noFiles.write ['f'] (nestedChunk.strval 0 ['\t'] ++ List.replicate 1 '\n')) {} =
      ({ data := data, filePath := ['f'], dataChunk := some chunk }, none) ∧
        chunk.tree = nestedChunk.tree) ↔ 0 < 1 :=
  importFile_newlines_iff nestedChunk_ordered nestedChunk_exportable (.inl rfl) tabs (by decide)
    1 (by decide) (by simp) (Files.content_write ..) {}

end Ztd.Filedat
