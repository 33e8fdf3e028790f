import Ztd.Filedat.References
import Ztd.Filedat.Building

/-! Programs over `chunkdat`s. A program declares chunks, calls their functions by
reference, catches what they throw and destroys them; in memory it does what it
does on values, and the memory is its chunks and nothing else at every time. -/

namespace Ztd.Filedat
open Ztd.Lib Ztd.Lib.Assertion

/-- The functions of `chunkdat` that take another one. -/
inductive Operation where
  | set
  | addToMap (name : Text)
  | addToList
  | concatenate
  | merge (overwrite : Bool)
deriving DecidableEq, Repr

namespace Operation

def edit {ι : Type} (this chk : Chunk ι) : Operation → Edited ι
  | .set => (this.setChunk chk, .none)
  | .addToMap name => this.addToMap name chk
  | .addToList => this.addToList chk
  | .concatenate => this.concatenate chk
  | .merge overwrite => this.merge overwrite chk

def call (allocator : Allocator Cell) (this chk : Nat) : Operation → Code Unit
  | .set => Memory.setChunk allocator this chk
  | .addToMap name => Memory.addToMap allocator this name chk
  | .addToList => Memory.addToList allocator this chk
  | .concatenate => Memory.concatenate allocator this chk
  | .merge overwrite => Memory.merge allocator this chk overwrite

/-- References into the chunk stay valid. -/
def Grows : Operation → Prop
  | .set => False
  | .merge overwrite => overwrite = false
  | _ => True

/-- The operand may be a part of the chunk or contain it only where it is copied
into a chunk that is not empty. -/
def allowed {ι : Type} (apart : Bool) (this : Chunk ι) : Operation → Bool
  | .addToMap _ | .addToList => apart || this.type != .none
  | _ => apart

end Operation

/-- Neither chunk is a part of the other one. -/
def Place.apart (this chk : Place) : Bool :=
  this.variable_ != chk.variable_ || !(this.path.isPrefixOf chk.path || chk.path.isPrefixOf this.path)

/-- What a program does with its chunks, which it knows by name. -/
inductive Command where
  | declare (name : Nat)
  | construct (name : Nat) (text : Text) (offset : Int)
  | copy (name : Nat) (chk : Place)
  | express (name : Nat) (operation : Operation) (a b : Place)
  | destroy (name : Nat)
  | setText (this : Place) (text : Text) (offset : Int)
  | perform (operation : Operation) (this chk : Place)
  | clear (this : Place)
  | eraseKey (this : Place) (key : Text)
  | eraseIndex (this : Place) (index : UInt32)
  | print (this : Place) (alignment : UInt32) (aligner : Text)

/-- What a command returns, or the exception it throws. -/
abbrev Outcome := Except FormatError Text

def returned : Option FormatError → Outcome
  | none => .ok []
  | some error => .error error

section Values

/-- The values of the chunks of a program. -/
abbrev Objects := List (Nat × Chunkdat)

namespace Objects

/-- Code that goes on with the chunk at a place; nothing is said of names that are
not in scope. -/
def follow (objects : Objects) (place : Place)
    (next : Chunkdat → Option (Objects × Outcome)) : Option (Objects × Outcome) :=
  match OrderedMap.find? place.variable_ objects with
  | none => none
  | some root =>
    match root.refer place.path with
    | .error error => some (objects, .error error)
    | .ok chunk => next chunk

def write (objects : Objects) (place : Place) (chunk : Chunkdat) : Objects :=
  objects.map fun entry =>
    if entry.1 = place.variable_ then (entry.1, Chunk.replaceAt place.path chunk entry.2) else entry

/-- A name that is not in scope gets a chunk. -/
def enter (objects : Objects) (name : Nat) (chunk : Chunkdat) : Objects :=
  OrderedMap.insert name chunk objects

end Objects

/-- What a text is set to, unless something is lost. -/
def Setting.kept (setting : Setting) : Option (Chunkdat × Option FormatError) :=
  match setting with
  | (chunk, none) => some (chunk, none)
  | (chunk, some (.thrown error)) => if chunk.type = .none then some (chunk, some error) else none
  | _ => none

variable (blanks : BlankRun)

def Command.effect (objects : Objects) : Command → Option (Objects × Outcome)
  | .declare name =>
    match OrderedMap.find? name objects with
    | some _ => none
    | none => some (objects.enter name (.none 0), .ok [])
  | .construct name text offset =>
    match OrderedMap.find? name objects, (set blanks text offset).kept with
    | none, some (chunk, none) => some (objects.enter name chunk, .ok [])
    | none, some (_, some error) => some (objects, .error error)
    | _, _ => none
  | .copy name chk =>
    match OrderedMap.find? name objects with
    | some _ => none
    | none => objects.follow chk fun chunk => some (objects.enter name chunk.copy, .ok [])
  | .express name operation a b =>
    match OrderedMap.find? name objects with
    | some _ => none
    | none => objects.follow a fun chunk => objects.follow b fun other =>
      match operation.edit chunk.copy other with
      | (ret, none) => some (objects.enter name ret, .ok [])
      | (_, some error) => some (objects, .error error)
  | .destroy name =>
    match OrderedMap.find? name objects with
    | some _ => some (objects.filter fun entry => entry.1 != name, .ok [])
    | none => none
  | .setText this text offset => objects.follow this fun _ =>
    match (set blanks text offset).kept with
    | some (chunk, stop) => some (objects.write this chunk, returned stop)
    | none => none
  | .perform operation this chk => objects.follow this fun chunk => objects.follow chk fun other =>
    if operation.allowed (this.apart chk) chunk then
      some (objects.write this (operation.edit chunk other).1,
        returned (operation.edit chunk other).2)
    else none
  | .clear this => objects.follow this fun chunk => some (objects.write this chunk.clear, .ok [])
  | .eraseKey this key => objects.follow this fun chunk =>
    some (objects.write this (chunk.eraseKey key).1, returned (chunk.eraseKey key).2)
  | .eraseIndex this index => objects.follow this fun chunk =>
    some (objects.write this (chunk.eraseIndex index).1, returned (chunk.eraseIndex index).2)
  | .print this alignment aligner => objects.follow this fun chunk =>
    some (objects, .ok (chunk.strval alignment aligner))

def play : List Command → Objects → Option (Objects × List Outcome)
  | [], objects => some (objects, [])
  | command :: rest, objects =>
    match command.effect blanks objects with
    | none => none
    | some (after, outcome) =>
      (play rest after).map fun ended => (ended.1, outcome :: ended.2)

end Values

section Memory

/-- Where the chunks of a program are. -/
abbrev Pointers := List (Nat × Nat)

def Pointers.locate (pointers : Pointers) (place : Place) : Code Nat :=
  match OrderedMap.find? place.variable_ pointers with
  | some root => Memory.refer place.path root
  | none => Act.fault

variable (allocator : Allocator Cell) (blanks : BlankRun)

def Command.run (pointers : Pointers) : Command → Code (Pointers × Text)
  | .declare name => do
    let this ← Heap.alloc allocator (.chunkdat 0 none)
    pure (OrderedMap.insert name this pointers, [])
  | .construct name text offset => do
    let this ← Memory.construct allocator blanks text offset
    pure (OrderedMap.insert name this pointers, [])
  | .copy name chk => do
    let input ← pointers.locate chk
    let this ← Memory.pcopy allocator input
    pure (OrderedMap.insert name this pointers, [])
  | .express name operation a b => do
    let a ← pointers.locate a
    let b ← pointers.locate b
    let ret ← Memory.edited allocator (fun ret => operation.call allocator ret b) a
    pure (OrderedMap.insert name ret pointers, [])
  | .destroy name =>
    match OrderedMap.find? name pointers with
    | some this => do
      Memory.delete this
      pure (pointers.filter fun entry => entry.1 != name, [])
    | none => Act.fault
  | .setText this text offset => do
    let this ← pointers.locate this
    Memory.setText allocator blanks this text offset
    pure (pointers, [])
  | .perform operation this chk => do
    let this ← pointers.locate this
    let chk ← pointers.locate chk
    operation.call allocator this chk
    pure (pointers, [])
  | .clear this => do
    let this ← pointers.locate this
    Memory.clear this
    pure (pointers, [])
  | .eraseKey this key => do
    let this ← pointers.locate this
    Memory.eraseKey this key
    pure (pointers, [])
  | .eraseIndex this index => do
    let this ← pointers.locate this
    Memory.eraseIndex this index
    pure (pointers, [])
  | .print this alignment aligner => do
    let this ← pointers.locate this
    let printed ← Memory.strval this alignment aligner
    pure (pointers, printed)

/-- The program catches every exception and goes on. -/
def execute : List Command → Pointers → Code (Pointers × List Outcome)
  | [], pointers => pure (pointers, [])
  | command :: rest, pointers => do
    let (pointers, outcome) ← Act.catchError (do
        let (pointers, text) ← command.run allocator blanks pointers
        pure (pointers, .ok text))
      fun error => pure (pointers, .error error)
    let (pointers, outcomes) ← execute rest pointers
    pure (pointers, outcome :: outcomes)

end Memory

end Ztd.Filedat
