import SciDB.Exchange.Template
import SciDB.Lib.Attempt
import SciDB.Lib.Bytes

/-!
# Saving and loading with a template

`saveUsingTemplate` (`src/array/ArrayWriter.cpp`) writes the cells of an array one after
another, column by column.  Padding and the place of a null come from one buffer of zeros,
which is made large enough for the skipped columns.  `BinaryChunkLoader::loadChunk`
(`src/query/ops/input/ChunkLoader.cpp`) reads the cells back into chunks, where the end of the
file is accepted before the first read of a cell only.

Main definitions:

- {lit}`saveUsingTemplate`: the writer, over a file that may run out of room.
- {lit}`loadChunk`, {lit}`load`: the reader, with its count of errors and its buffer.
-/

namespace SciDB.Exchange

open Bytes

/-! ## The writer -/

inductive SaveError where
  | template (e : ParseError)
  | assigningNullToNonNullable
  | truncation (size limit : Nat)
  | fileWriteError
  /-- a converter raised an error -/
  | conversion
  /-- more bytes are written from the buffer than it has -/
  | padOverrun
  /-- there is no attribute for the column -/
  | noAttribute
deriving DecidableEq

/-- A file with the bytes written so far and the number of bytes that it can still take, if
it is limited. -/
structure OutFile where
  written : List UInt8
  room : Option Nat
deriving DecidableEq

/-- `fwrite_unlocked` with the check of its result. -/
def fwrite (bytes : List UInt8) (f : OutFile) : Except SaveError OutFile :=
  match f.room with
  | none => .ok ⟨f.written ++ bytes, none⟩
  | some n =>
    if bytes.length ≤ n then .ok ⟨f.written ++ bytes, some (n - bytes.length)⟩
    else .error .fileWriteError

def zeros (n : Nat) : List UInt8 := List.replicate n 0

/-- Write zeros from the buffer, which the assertions require to have that many. -/
def writePad (padSize n : Nat) (f : OutFile) : Except SaveError OutFile :=
  if n ≤ padSize then fwrite (zeros n) f else .error .padOverrun

variable (c : Column)

/-- The bytes of a null; a varying size has a counter of 4 bytes. -/
def Column.nullSize : Nat := if c.fixedSize ≠ 0 then c.fixedSize else 4

/-- `skip_bytes`. -/
def skipBytes : Nat := c.nullSize + c.nullable.toNat

/-- The size of the buffer: enough for built-in types and for the skipped columns. -/
def padBufferSize (columns : List Column) : Nat :=
  columns.foldl (fun size c => if c.skip then max size (skipBytes c) else size) 9

namespace Value

/-- The byte of `getMissingReason`, which is -1 for a datum. -/
def missingReason : Value → UInt8
  | null r => UInt8.ofNat r.val
  | datum _ => 255

/-- The data of a value. -/
def data : Value → List UInt8
  | null _ => []
  | datum bytes => bytes

end Value

/-- `numeric_limits<uint32_t>::max()`. -/
def maxSize : Nat := 2 ^ 32 - 1

/-- The value of a column that is not skipped, without its missing reason. -/
def saveValue (padSize : Nat) (c : Column) (v : Value) (f : OutFile) :
    Except SaveError OutFile :=
  match v with
  | .null _ =>
    if c.nullable then writePad padSize c.nullSize f else .error .assigningNullToNonNullable
  | .datum _ => do
    let v ← match c.converter with
      | none => .ok v
      | some convert =>
        match convert v with
        | some w => .ok w
        | none => .error .conversion
    let size := v.data.length
    if maxSize < size then .error (.truncation size maxSize)
    else if c.fixedSize = 0 then do
      let f ← fwrite (le 4 size) f
      fwrite v.data f
    else if c.fixedSize < size then .error (.truncation size c.fixedSize)
    else do
      let f ← fwrite v.data f
      if size < c.fixedSize then writePad padSize (c.fixedSize - size) f else .ok f

/-- The value of a column that is not skipped. -/
def saveField (padSize : Nat) (c : Column) (v : Value) (f : OutFile) :
    Except SaveError OutFile := do
  let f ← if c.nullable then fwrite [v.missingReason] f else .ok f
  saveValue padSize c v f

/-- The loop over the columns of a cell; the attributes are taken in their order. -/
def saveColumns (padSize : Nat) :
    List Column → List Value → OutFile → Except SaveError OutFile
  | [], _, f => .ok f
  | c :: cs, vs, f =>
    if c.skip then do
      let f ← writePad padSize (skipBytes c) f
      saveColumns padSize cs vs f
    else
      match vs with
      | [] => .error .noAttribute
      | v :: vs => do
        let f ← saveField padSize c v f
        saveColumns padSize cs vs f

/-- The loop over the cells of a chunk, with the count of cells. -/
def saveCells (padSize : Nat) (columns : List Column) :
    List (List Value) → Nat → OutFile → Except SaveError (Nat × OutFile)
  | [], nCells, f => .ok (nCells, f)
  | vs :: rows, nCells, f => do
    let f ← saveColumns padSize columns vs f
    saveCells padSize columns rows (nCells + 1) f

/-- The loop over the chunks. -/
def saveChunks (padSize : Nat) (columns : List Column) :
    List (List (List Value)) → Nat → OutFile → Except SaveError (Nat × OutFile)
  | [], nCells, f => .ok (nCells, f)
  | rows :: chunks, nCells, f => do
    let (nCells, f) ← saveCells padSize columns rows nCells f
    saveChunks padSize columns chunks nCells f

/-- `saveUsingTemplate`; a chunk is given by the values of its cells. -/
def saveUsingTemplate (lib : TypeLibrary) (attrs : List TypeId) (format : List Char)
    (chunks : List (List (List Value))) (f : OutFile) : Except SaveError (Nat × OutFile) :=
  match parse lib attrs false format with
  | .error e => .error (.template e)
  | .ok templ => saveChunks (padBufferSize templ.columns) templ.columns chunks 0 f

/-! ## The reader -/

inductive LoadError where
  | template (e : ParseError)
  | fileReadError
  /-- a converter raised an error -/
  | conversion
  /-- `SCIDB_LE_OP_INPUT_ERROR16`: too many errors -/
  | tooManyErrors
  /-- `SCIDB_LE_OP_INPUT_NEXT_CHUNK_OOB` -/
  | nextChunkOutOfBounds
deriving DecidableEq

/-- How a read can end early. -/
inductive Stop where
  /-- the file ended before the first read of a cell -/
  | initialEOF
  | error (e : LoadError)
  /-- more bytes are read into the buffer than it has -/
  | bufOverrun
deriving DecidableEq

structure LoadState where
  /-- the rest of the file -/
  rest : List UInt8
  rowReads : Nat
  fileOffset : Nat
  /-- the size of the buffer -/
  buf : Nat
  nErrors : Nat
deriving DecidableEq

abbrev Load := Attempt LoadState Stop

/-- `fread_unlocked` and `expectedEOF`, for at least one byte. -/
def fread (n : Nat) : Load (List UInt8) := fun st =>
  let st := { st with rowReads := st.rowReads + 1 }
  if n ≤ st.rest.length then (.ok (st.rest.take n), { st with rest := st.rest.drop n })
  else if st.rowReads < 2 ∧ st.rest = [] then (.error .initialEOF, st)
  else (.error (.error .fileReadError), { st with rest := [] })

/-- `readField` and `readByteSequence` followed by the change of `_fileOffset`. -/
def readCounted (n : Nat) : Load (List UInt8) := do
  let bytes ←
    if n = 0 then do
      Attempt.change fun st => { st with rowReads := st.rowReads + 1 }
      pure []
    else fread n
  Attempt.change fun st => { st with fileOffset := st.fileOffset + n }
  pure bytes

/-- Bytes that are read into the buffer and dropped.  The new size of the buffer is computed
with 32 bits. -/
def dropBytes (size : Nat) : Load Unit := do
  Attempt.change fun st => if st.buf < size then { st with buf := size * 2 % 2 ^ 32 } else st
  if size = 0 then pure ()
  else do
    let st ← Attempt.read
    if st.buf < size then Attempt.fail .bufOverrun
    else do
      let _ ← readCounted size
      pure ()

/-- The size of a column, from the template or from the file. -/
def readSize : Load Nat :=
  if c.fixedSize % 2 ^ 32 = 0 then do
    let bytes ← readCounted 4
    pure (ofLe bytes)
  else pure (c.fixedSize % 2 ^ 32)

/-- The reason a byte stands for as an `int8_t`, if that is not negative. -/
def reasonOf (b : UInt8) : Option (Fin 128) :=
  if h : b.toNat < 128 then some ⟨b.toNat, h⟩ else none

/-- The missing reason in front of a column that is nullable. -/
def readReason : Load (Option (Fin 128)) :=
  if c.nullable then do
    let bytes ← readCounted 1
    pure (bytes.head?.bind reasonOf)
  else pure none

/-- A skipped column. -/
def skipColumn : Load Unit := do
  let _ ← readReason c
  let size ← readSize c
  dropBytes size

/-- A column that is not skipped. -/
def loadField : Load Value := do
  let reason ← readReason c
  let size ← readSize c
  match reason with
  | some r => do
    dropBytes size
    pure (.null r)
  | none => do
    let bytes ← readCounted size
    match c.converter with
    | none => pure (.datum bytes)
    | some convert =>
      match convert (.datum bytes) with
      | some v => pure v
      | none => Attempt.fail (.error .conversion)

/-- The loop over skipped columns; what is left starts with another column. -/
def skipColumns : List Column → Load (List Column)
  | [] => pure []
  | c :: cs =>
    if c.skip then do
      skipColumn c
      skipColumns cs
    else pure (c :: cs)

/-- An attribute of the array that is loaded, with what replaces a bad field. -/
structure Attribute where
  typeId : TypeId
  nullable : Bool
  defaultValue : Value

/-- `InputArray::handleError`. -/
def handleError (maxErrors : Nat) (a : Attribute) (e : LoadError) : Load Value := do
  Attempt.change fun st => { st with nErrors := st.nErrors + 1 }
  let st ← Attempt.read
  if maxErrors < st.nErrors then
    Attempt.fail (.error (if maxErrors ≠ 0 then .tooManyErrors else e))
  else pure (if a.nullable then .null 0 else a.defaultValue)

/-- The `try` block around a read. -/
def tryRead (x : Load Value) (handler : LoadError → Load Value) : Load Value := fun st =>
  match x st with
  | (.error (.error e), st) => handler e st
  | r => r

/-- The loop is left without another cell if the file has ended. -/
def untilEOF (x : Load (List Value)) (next : List Value → Load (List (List Value))) :
    Load (List (List Value)) := fun st =>
  match x st with
  | (.ok vs, st) => next vs st
  | (.error .initialEOF, st) => (.ok [], st)
  | (.error e, st) => (.error e, st)

/-- The value of the empty tag. -/
def emptyTagVal : Value := .datum [1]

/-- The loop over the attributes of a cell; the last is the empty tag. -/
def loadAttributes (maxErrors : Nat) : List Attribute → List Column → Load (List Value)
  | [], _ => pure []
  | a :: as, columns => do
    let columns ← skipColumns columns
    let v ← tryRead
      (match columns with
        | [] => pure emptyTagVal
        | c :: _ => loadField c)
      (handleError maxErrors a)
    let vs ← loadAttributes maxErrors as columns.tail
    pure (v :: vs)

section Load

variable (maxErrors : Nat) (attrs : List Attribute) (columns : List Column)

/-- One cell. -/
def loadCell : Load (List Value) := do
  Attempt.change fun st => { st with rowReads := 0 }
  loadAttributes maxErrors attrs columns

/-- The loop over the cells of a chunk with room for some more. -/
def loadCells : Nat → Load (List (List Value))
  | 0 => pure []
  | n + 1 => untilEOF (loadCell maxErrors attrs columns) fun vs => do
    let rows ← loadCells n
    pure (vs :: rows)

/-- `BinaryChunkLoader::loadChunk`: `none` at the end of the file, else the cells of the next
chunk, which has a given number of cells if there is one. -/
def loadChunk (capacity : Option Nat) : Load (Option (List (List Value))) := do
  let st ← Attempt.read
  if st.rest = [] then pure none
  else
    match capacity with
    | none => Attempt.fail (.error .nextChunkOutOfBounds)
    | some n => do
      Attempt.change fun st => { st with buf := 8 }
      let rows ← loadCells maxErrors attrs columns n
      pure (some rows)

/-- `InputArray::moveNext` until `loadChunk` finds the end of the file. -/
def load : List Nat → Load (List (List (List Value)))
  | [] => do
    let rows ← loadChunk maxErrors attrs columns none
    pure rows.toList
  | capacity :: capacities => do
    let rows ← loadChunk maxErrors attrs columns (some capacity)
    match rows with
    | none => pure []
    | some rows => do
      let chunks ← load capacities
      pure (rows :: chunks)

end Load

/-- A load with a template, from the start of a file. -/
def loadUsingTemplate (lib : TypeLibrary) (maxErrors : Nat) (attrs : List Attribute)
    (emptyTag : Attribute) (format : List Char) (capacities : List Nat) (file : List UInt8) :
    Except Stop (List (List (List Value))) × LoadState :=
  let st : LoadState := ⟨file, 0, 0, 0, 0⟩
  match parse lib (attrs.map Attribute.typeId) true format with
  | .error e => (.error (.error (.template e)), st)
  | .ok templ => load maxErrors (attrs ++ [emptyTag]) templ.columns capacities st

end SciDB.Exchange
