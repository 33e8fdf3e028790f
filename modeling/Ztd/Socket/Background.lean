import Ztd.Socket.Basic
import Mathlib.Algebra.Group.Int.Defs
import Mathlib.Data.List.TakeWhile

/-! `parallel_reading`: the thread that reads a socket into a list of blocks. -/

namespace Ztd
open Ztd.Lib

abbrev Bytes := List UInt8

/-- What one call of `read` came to: an error, or the bytes it put at the
beginning of the buffer. -/
inductive ReadResult where
  | error
  | bytes (block : Bytes)
deriving DecidableEq, Repr

namespace ReadResult

/-- What the call returns. -/
def returned : ReadResult → Int
  | .error => -1
  | .bytes block => block.length

/-- The buffer afterwards. -/
def fill (data : Bytes) : ReadResult → Bytes
  | .error => data
  | .bytes block => block ++ data.drop block.length

/-- Bytes were received. -/
def isBlock : ReadResult → Bool
  | .bytes (_ :: _) => true
  | _ => false

def block : ReadResult → Bytes
  | .error => []
  | .bytes block => block

end ReadResult

/-- A signed value in an unsigned variable of 32 bits. -/
def uint32 (value : Int) : Nat := (value % 2 ^ 32).toNat

/-- `std::vector(buffer, buffer + size)` -/
def copyRange (buffer : Bytes) (size : Nat) : Run Unit Bytes :=
  if size ≤ buffer.length then .ok (buffer.take size) else Run.fault

/-- The thread's view of its socket: the socket, the blocks read so far and the
buffer between the two. -/
structure Reader where
  socket : Socket
  dataSet : List Bytes := []
  buffer : Bytes
deriving DecidableEq, Repr

/-- `read_data` into the buffer, when `read` comes to `result`: whether data was
read, and the new value of `*size`. -/
def Reader.readData (size : Nat) (result : ReadResult) (reader : Reader) : Bool × Nat × Reader :=
  if reader.socket.fd < 0 || !reader.socket.operational then (false, size, reader)
  else
    let reader := { reader with buffer := result.fill reader.buffer }
    let n := uint32 result.returned
    if n ≤ 0 then (false, size, { reader with socket := reader.socket.closeSocket })
    else (true, n, reader)

/-- The loop of `parallel_reading` for as long as its reads return. -/
def Reader.parallelReading (bufferSize : Nat) : List ReadResult → Reader → Run Unit Reader
  | [], reader => .ok reader
  | result :: results, reader =>
    if !(reader.socket.parallel && reader.socket.operational) then .ok reader
    -- without a descriptor nothing is read and nothing changes
    else if reader.socket.fd < 0 then Run.diverged
    else
      match reader.readData bufferSize result with
      | (false, _, reader) => reader.parallelReading bufferSize results
      | (true, tmpSize, reader) => do
        let block ← copyRange reader.buffer tmpSize
        Reader.parallelReading bufferSize results
          { reader with dataSet := reader.dataSet ++ [block] }

namespace Reader

/-- The thread runs on a connected socket with its buffer. -/
structure Running (bufferSize : Nat) (reader : Reader) : Prop where
  connected : reader.socket.Connected
  parallel : reader.socket.parallel = true
  buffer : reader.buffer.length = bufferSize

/-- The received blocks in front of the first end of file or error. -/
def received (results : List ReadResult) : List Bytes :=
  (results.takeWhile ReadResult.isBlock).map ReadResult.block

/-- What the reads should lead to. -/
structure Records (bufferSize : Nat) (results : List ReadResult) (start final : Reader) :
    Prop where
  returns : start.parallelReading bufferSize results = .ok final
  blocks : final.dataSet = start.dataSet ++ received results
  sizes : ∀ block ∈ received results, 1 ≤ block.length ∧ block.length ≤ bufferSize
  refused : ∀ last, results.find? (fun result => !result.isBlock) = some last →
    ∃ reader, start.parallelReading bufferSize (results.takeWhile ReadResult.isBlock) = .ok reader ∧
      (reader.readData bufferSize last).1 = false ∧
      final.socket.operational = false ∧ final.socket.parallel = false

section Rounds
variable {bufferSize : Nat} {reader : Reader}

theorem uint32_count {count : Nat} (small : count < 2 ^ 32) : uint32 count = count := by
  simp only [uint32]
  omega

/-- The state behind a round that received bytes. -/
def push (reader : Reader) (block : Bytes) : Reader :=
  { reader with
    dataSet := reader.dataSet ++ [block]
    buffer := block ++ reader.buffer.drop block.length }

theorem Running.push (running : Running bufferSize reader) {block : Bytes}
    (fits : block.length ≤ bufferSize) : Running bufferSize (reader.push block) where
  connected := running.connected
  parallel := running.parallel
  buffer := by
    have size := running.buffer
    simp only [Reader.push, List.length_append, List.length_drop]
    omega

theorem parallelReading_block (running : Running bufferSize reader) (small : bufferSize < 2 ^ 31)
    {block : Bytes} (some_ : block ≠ []) (fits : block.length ≤ bufferSize)
    (results : List ReadResult) :
    reader.parallelReading bufferSize (.bytes block :: results) =
      (reader.push block).parallelReading bufferSize results := by
  have count : uint32 (ReadResult.bytes block).returned = block.length :=
    uint32_count (by omega)
  simp [parallelReading, readData, running.parallel, running.connected.1, running.connected.2,
    count, some_, copyRange, ReadResult.fill, Reader.push]

/-- At the end of the file the socket is closed, and the loop ends. -/
theorem readData_end (running : Running bufferSize reader) :
    reader.readData bufferSize (.bytes []) =
      (false, bufferSize, { reader with socket := reader.socket.closeSocket }) := by
  simp [readData, running.connected.1, running.connected.2, ReadResult.returned, uint32,
    ReadResult.fill]

theorem parallelReading_end (running : Running bufferSize reader) (results : List ReadResult) :
    reader.parallelReading bufferSize (.bytes [] :: results) =
      .ok { reader with socket := reader.socket.closeSocket } := by
  rw [parallelReading, readData_end running]
  cases results <;>
    simp [parallelReading, running.parallel, running.connected.1, running.connected.2,
      Socket.closeSocket, Socket.parallelOff]

/-- An error is taken for 4294967295 bytes, which the buffer does not have. -/
theorem parallelReading_error (running : Running bufferSize reader) (small : bufferSize < 2 ^ 31)
    (results : List ReadResult) :
    reader.parallelReading bufferSize (.error :: results) = Run.fault := by
  have short : ¬ 4294967295 ≤ reader.buffer.length := by
    rw [running.buffer]
    omega
  simp [parallelReading, readData, running.parallel, running.connected.1, running.connected.2,
    ReadResult.returned, uint32, ReadResult.fill, copyRange, short, Run.fault]

/-- A received block is recorded, and the rest as from behind it. -/
theorem records_block_iff (running : Running bufferSize reader) (small : bufferSize < 2 ^ 31)
    {block : Bytes} (some_ : block ≠ []) (fits : block.length ≤ bufferSize)
    (results : List ReadResult) (final : Reader) :
    Records bufferSize (.bytes block :: results) reader final ↔
      Records bufferSize results (reader.push block) final := by
  have isBlock : (ReadResult.bytes block).isBlock = true := by
    cases block with
    | nil => exact absurd rfl some_
    | cons => rfl
  have found : (ReadResult.bytes block :: results).find? (fun result => !result.isBlock) =
      results.find? (fun result => !result.isBlock) := by simp [isBlock]
  have taken : (ReadResult.bytes block :: results).takeWhile ReadResult.isBlock =
      .bytes block :: results.takeWhile ReadResult.isBlock := by simp [isBlock]
  have all : received (.bytes block :: results) = block :: received results := by
    simp [received, isBlock, ReadResult.block]
  have round := parallelReading_block running small some_ fits
  have positive : 1 ≤ block.length := List.length_pos_iff.mpr some_
  constructor
  · rintro ⟨returns, blocks, sizes, refused⟩
    rw [round] at returns
    rw [all] at blocks sizes
    simp only [found, taken, round] at refused
    exact ⟨returns, by simp [blocks, push],
      fun block member => sizes block (List.mem_cons_of_mem _ member), refused⟩
  · rintro ⟨returns, blocks, sizes, refused⟩
    refine ⟨(round results).trans returns, by simp [blocks, push, all], ?_, ?_⟩
    · rw [all]
      simpa using ⟨⟨positive, fits⟩, sizes⟩
    · simpa only [found, taken, round] using refused

theorem records_end (running : Running bufferSize reader) (results : List ReadResult) :
    Records bufferSize (.bytes [] :: results) reader
      { reader with socket := reader.socket.closeSocket } where
  returns := parallelReading_end running results
  blocks := by simp [received, ReadResult.isBlock]
  sizes := by simp [received, ReadResult.isBlock]
  refused := by
    rintro last found
    obtain rfl : .bytes [] = last := by simpa [ReadResult.isBlock] using found
    exact ⟨reader, rfl, by rw [readData_end running], rfl, rfl⟩

end Rounds

/-- Reading in the background records what was received, and closes the socket
behind it, exactly when no error comes before the end of the file. -/
theorem parallelReading_records_iff (bufferSize : Nat) (small : bufferSize < 2 ^ 31)
    (results : List ReadResult)
    (counts : ∀ result ∈ results, result.block.length ≤ bufferSize) (start : Reader)
    (running : Running bufferSize start) :
    (∃ final, Records bufferSize results start final) ↔
      results.find? (fun result => !result.isBlock) ≠ some .error := by
  induction results generalizing start with
  | nil =>
    have still : Records bufferSize [] start start := ⟨rfl, by simp [received], by simp [received],
      by simp⟩
    exact iff_of_true ⟨start, still⟩ (by simp)
  | cons result results ih =>
    have countsLater : ∀ result ∈ results, result.block.length ≤ bufferSize :=
      fun result member => counts result (List.mem_cons_of_mem _ member)
    match result with
    | .error =>
      apply iff_of_false
      · rintro ⟨final, records⟩
        have returns := records.returns
        simp [parallelReading_error running small, Run.fault] at returns
      · simp [ReadResult.isBlock]
    | .bytes [] => exact iff_of_true ⟨_, records_end running results⟩ (by simp [ReadResult.isBlock])
    | .bytes (first :: block) =>
      have fits : (first :: block).length ≤ bufferSize := counts _ List.mem_cons_self
      simp only [records_block_iff running small (List.cons_ne_nil first block) fits,
        ih countsLater _ (running.push fits)]
      simp [ReadResult.isBlock]

theorem parallelReading_records_iff_end :
    let socket : Socket := { fd := 3, operational := true, parallel := true }
    let results : List ReadResult := [.bytes [7, 8], .bytes []]
    (∃ final, Records 2 results { socket := socket, buffer := [0, 0] } final) ↔
      results.find? (fun result => !result.isBlock) ≠ some .error :=
  parallelReading_records_iff 2 (by decide) [.bytes [7, 8], .bytes []] (by decide)
    { socket := { fd := 3, operational := true, parallel := true }, buffer := [0, 0] }
    ⟨⟨by decide, rfl⟩, rfl, rfl⟩

/-- When the first read fails, the copied range ends outside of the buffer. -/
theorem parallelReading_error_faults :
    ¬ ∀ (bufferSize : Nat) (results : List ReadResult) (start : Reader),
      0 < bufferSize → bufferSize < 2 ^ 31 →
      (∀ result ∈ results, result.block.length ≤ bufferSize) → Running bufferSize start →
      ∃ final, Records bufferSize results start final := by
  intro records
  obtain ⟨final, recorded⟩ := records 1 [.error]
    { socket := { fd := 3, operational := true, parallel := true }, buffer := [0] }
    (by decide) (by decide) (by decide) ⟨⟨by decide, rfl⟩, rfl, rfl⟩
  have returns := recorded.returns
  simp [parallelReading, readData, ReadResult.returned, ReadResult.fill, uint32, copyRange,
    Run.fault] at returns

end Reader

end Ztd
