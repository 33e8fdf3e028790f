import Ztd.Filedat.Parser
import Ztd.Filedat.Operations
import Ztd.Lib.Trace

/-! The life of a `filedat`: which calls leave it without a chunk. -/

namespace Ztd.Filedat
open Ztd.Lib

variable {ι : Type}

namespace Chunk

/-- `subChunkRef(name)`, of a chunk without a parent. -/
def subChunkRef (this : Chunk ι) (name : Text) : Run FormatError (Chunk ι) :=
  match this with
  | .map _ values =>
    match OrderedMap.find? name values with
    | some found => .ok found
    | .none => Run.raise (formatError (message "Map doesn't have '" ++ name ++
        message "' flag") [] this.str (-1))
  | _ => Run.raise (formatError (message "chunkdat isn't a map") [] this.str (-1))

end Chunk

end Ztd.Filedat

namespace Ztd.Filedat
open Ztd.Lib

/-- `filedat(in)`, and `filedat()` for the empty path. -/
def construct (path : Text) : Filedat := { filePath := path }

/-- `*m_dataChunk`, which is not there behind a null pointer. -/
def deref (file : Filedat) : Run FormatError Chunkdat :=
  match file.dataChunk with
  | some chunk => .ok chunk
  | none => Run.fault

/-- `operator[](index)` with a key. -/
def subChunkRef (file : Filedat) (index : Text) : Run FormatError Chunkdat := do
  let chunk ← file.deref
  chunk.subChunkRef index

def setData (input : Chunkdat) (file : Filedat) : Run FormatError Filedat := do
  let chunk ← file.deref
  pure { file with dataChunk := some (chunk.setChunk input) }

def strval (file : Filedat) (aligner : Text) : Text :=
  match file.dataChunk with
  | none => []
  | some chunk => chunk.strval 0 aligner

/-- The calls that change a `filedat`, and whether an import returned. -/
inductive Call where
  | importString (data : Text) (returned : Bool)
  | clear
  | setData (input : Chunkdat)

/-- What a call leaves behind; none does if it leaves its objects. -/
inductive Transition (blanks : BlankRun) : Filedat → Call → Filedat → Prop where
  | returned {file after : Filedat} {data : Text}
    (imports : file.importString blanks data = (after, none)) :
    Transition blanks file (.importString data true) after
  | threw {file after : Filedat} {data : Text} {error : FormatError}
    (imports : file.importString blanks data = (after, some (.thrown error))) :
    Transition blanks file (.importString data false) after
  | cleared (file : Filedat) : Transition blanks file .clear file.clear
  | set {file after : Filedat} {input : Chunkdat} (sets : file.setData input = .ok after) :
    Transition blanks file (.setData input) after

/-- Whether the last import returned, behind a call. -/
def Call.imported (before : Bool) : Call → Bool
  | .importString _ returned => returned
  | _ => before

/-- An import leaves a chunk if and only if it returns. -/
theorem generateChunk_isSome (blanks : BlankRun) (file : Filedat) :
    ((file.generateChunk blanks).2 = none →
      (file.generateChunk blanks).1.dataChunk.isSome = true) ∧
    ∀ error, (file.generateChunk blanks).2 = some (.thrown error) →
      (file.generateChunk blanks).1.dataChunk.isSome = false := by
  have failed (file : Filedat) (stop : Stop FormatError) : ((file.failed stop).2 = none →
      (file.failed stop).1.dataChunk.isSome = true) ∧
      ∀ error, (file.failed stop).2 = some (.thrown error) →
        (file.failed stop).1.dataChunk.isSome = false := by
    cases stop <;> simp [Filedat.failed]
  simp only [generateChunk]
  split
  · exact failed _ _
  · split
    · exact failed _ _
    · simp

/-- A step leaves a chunk if it is no import that throws and there was one, or if
it is an import that returns. -/
theorem Transition.isSome {blanks : BlankRun} {file after : Filedat} {call : Call}
    (step : Transition blanks file call after) :
    after.dataChunk.isSome = call.imported file.dataChunk.isSome := by
  cases step with
  | returned imports =>
    have kept := (generateChunk_isSome blanks _).1 (congrArg Prod.snd imports)
    rwa [show generateChunk blanks _ = _ from imports] at kept
  | threw imports =>
    have lost := (generateChunk_isSome blanks _).2 _ (congrArg Prod.snd imports)
    rwa [show generateChunk blanks _ = _ from imports] at lost
  | cleared => cases held : file.dataChunk <;> simp [Call.imported, clear, held]
  | set sets =>
    cases held : file.dataChunk with
    | none => simp [setData, deref, held, Run.fault] at sets
    | some chunk =>
      obtain rfl := by simpa [setData, deref, held, pure, Except.pure] using sets
      rfl

end Ztd.Filedat
