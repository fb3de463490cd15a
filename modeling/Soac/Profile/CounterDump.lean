import Soac.Ir.FunctionId
import Soac.Lib.Bytes

/-!
# Counter dumps

A run writes its counters as records, one frame after another: a header of 32 bytes, the archived record, and zeros up to
the next multiple of 16. An archive has no optional fields. Some of them are kept as a value and a flag, the others as a
value with one number or the empty text standing for an absent one. Reading a file finds the frames again and offers the
archived records as views.
-/

namespace Soac

open Bytes

structure CounterDumpBranchValue where
  branch : String
  value : UInt64
deriving DecidableEq, Repr

structure CounterDumpRow where
  counterId : UInt32
  scope : String
  kind : String
  siteKind : String
  functionId : Option PackedFunctionId
  currentFunctionId : Option PackedFunctionId
  instrId : Option UInt32
  functionQualname : Option String
  blockLabel : Option String
  value : UInt64
  branchValues : List CounterDumpBranchValue
  observedValue : Option UInt64
  maxOvercount : Option UInt64
deriving DecidableEq, Repr

structure CounterDumpKeyLayout where
  owner : String
  key : String
  index : UInt32
deriving DecidableEq, Repr

structure CounterDumpTypeKeyLayout where
  ownerTypeId : UInt64
  key : String
  index : UInt32
deriving DecidableEq, Repr

structure CounterDumpTypeKey where
  moduleName : String
  qualname : String
deriving DecidableEq, Repr

structure CounterDumpTypeTableEntry where
  typeId : UInt64
  key : CounterDumpTypeKey
deriving DecidableEq, Repr

/-- What is dumped of one module. -/
structure CounterDumpRecord where
  sourceHash : UInt64
  moduleName : String
  packageName : Option String
  rows : List CounterDumpRow
  moduleKeys : List CounterDumpKeyLayout
  typeKeys : List CounterDumpTypeKeyLayout
  typeTable : List CounterDumpTypeTableEntry
deriving DecidableEq, Repr

/-- A row as it is archived. -/
structure CounterDumpRowArchive where
  counterId : UInt32
  scope : String
  kind : String
  siteKind : String
  functionId : UInt64
  currentFunctionId : UInt64
  instrId : UInt32
  hasInstrId : Bool
  functionQualname : String
  hasFunctionQualname : Bool
  blockLabel : String
  hasBlockLabel : Bool
  value : UInt64
  branchValues : List CounterDumpBranchValue
  observedValue : UInt64
  maxOvercount : UInt64
deriving DecidableEq, Repr

structure CounterDumpTypeTableEntryArchive where
  typeId : UInt64
  moduleName : String
  qualname : String
deriving DecidableEq, Repr

/-- A record as it is archived. -/
structure CounterDumpRecordArchive where
  sourceHash : UInt64
  moduleName : String
  packageName : String
  rows : List CounterDumpRowArchive
  moduleKeys : List CounterDumpKeyLayout
  typeKeys : List CounterDumpTypeKeyLayout
  typeTable : List CounterDumpTypeTableEntryArchive
deriving DecidableEq, Repr

/-- The archived number that stands for no number. -/
def counterDumpNoneU64 : UInt64 := UInt64.ofNat (2 ^ 64 - 1)

/-- The archived number that stands for no function. -/
def counterDumpNoneFunctionId : UInt64 := 0

def CounterDumpRowArchive.fromRow (row : CounterDumpRow) : CounterDumpRowArchive where
  counterId := row.counterId
  scope := row.scope
  kind := row.kind
  siteKind := row.siteKind
  functionId := (row.functionId.map (·.packed)).getD counterDumpNoneFunctionId
  currentFunctionId := (row.currentFunctionId.map (·.packed)).getD counterDumpNoneFunctionId
  instrId := row.instrId.getD 0
  hasInstrId := row.instrId.isSome
  functionQualname := row.functionQualname.getD ""
  hasFunctionQualname := row.functionQualname.isSome
  blockLabel := row.blockLabel.getD ""
  hasBlockLabel := row.blockLabel.isSome
  value := row.value
  branchValues := row.branchValues
  observedValue := row.observedValue.getD counterDumpNoneU64
  maxOvercount := row.maxOvercount.getD counterDumpNoneU64

def CounterDumpTypeTableEntryArchive.fromEntry (entry : CounterDumpTypeTableEntry) :
    CounterDumpTypeTableEntryArchive where
  typeId := entry.typeId
  moduleName := entry.key.moduleName
  qualname := entry.key.qualname

def CounterDumpRecordArchive.fromRecord (record : CounterDumpRecord) : CounterDumpRecordArchive where
  sourceHash := record.sourceHash
  moduleName := record.moduleName
  packageName := record.packageName.getD ""
  rows := record.rows.map CounterDumpRowArchive.fromRow
  moduleKeys := record.moduleKeys
  typeKeys := record.typeKeys
  typeTable := record.typeTable.map CounterDumpTypeTableEntryArchive.fromEntry

/-- The serializer: archives become bytes, and an aligned address that holds such bytes gives the archive back. -/
structure Rkyv where
  toBytes : CounterDumpRecordArchive → Except String (List UInt8)
  access : Nat → List UInt8 → Except String CounterDumpRecordArchive
  toBytes_length : ∀ {archive bytes}, toBytes archive = .ok bytes → bytes.length < 2 ^ 63
  access_toBytes : ∀ {archive bytes address}, toBytes archive = .ok bytes → address % 16 = 0 →
    access address bytes = .ok archive

/-- The text `SOACRKV1`. -/
def counterDumpMagic : List UInt8 := [83, 79, 65, 67, 82, 75, 86, 49]

def counterDumpVersion : Nat := 4

def counterDumpFrameHeaderLen : Nat := 32

def counterDumpFrameAlign : Nat := 16

/-- A sum in `usize`. -/
def usizeAdd (a b : Nat) : Nat := (a + b) % 2 ^ 64

/-- The source's `align_up`, whose last sum is one in `usize`. -/
def alignUpUsize (offset align : Nat) : Nat :=
  alignUp offset align % 2 ^ 64

/-- The length of the frame around a payload of a length. -/
def frameLen (payloadLen : Nat) : Nat :=
  alignUpUsize (usizeAdd counterDumpFrameHeaderLen payloadLen) counterDumpFrameAlign

/-- The frame around a payload. -/
def encodeFrame (payload : List UInt8) : List UInt8 :=
  let bytes := List.replicate (frameLen payload.length) (0 : UInt8)
  let bytes := writeAt bytes 0 counterDumpMagic
  let bytes := writeAt bytes 8 (leBytes 2 counterDumpVersion)
  let bytes := writeAt bytes 10 (leBytes 2 counterDumpFrameHeaderLen)
  let bytes := writeAt bytes 16 (leBytes 8 payload.length)
  writeAt bytes counterDumpFrameHeaderLen payload

def CounterDumpRecord.encode (rkyv : Rkyv) (record : CounterDumpRecord) : Except String (List UInt8) :=
  match rkyv.toBytes (CounterDumpRecordArchive.fromRecord record) with
  | .error err => .error ("failed to rkyv-encode counter dump record: " ++ err)
  | .ok payload => .ok (encodeFrame payload)

/-- The file the records are written to: one encoding after another, up to the first record that has none. -/
def writeCounterDumpRecords (rkyv : Rkyv) : List CounterDumpRecord → Except String (List UInt8)
  | [] => .ok []
  | record :: records => do
    let bytes ← record.encode rkyv
    let rest ← writeCounterDumpRecords rkyv records
    .ok (bytes ++ rest)

/-- An archived record that has been found in a file. -/
structure CounterDumpRecordView where
  record : CounterDumpRecordArchive
deriving DecidableEq, Repr

structure CounterDumpTypeTableEntryView where
  typeId : UInt64
  moduleName : String
  qualname : String
deriving DecidableEq, Repr

/-- A value if a flag is set. -/
def thenSome {α : Type} (flag : Bool) (value : α) : Option α :=
  if flag then some value else none

/-- The function of an archived number. -/
def functionIdOfArchive (functionId : UInt64) : Option PackedFunctionId :=
  thenSome (functionId != counterDumpNoneFunctionId) ⟨functionId⟩

/-- The number of an archived number. -/
def u64OfArchive (value : UInt64) : Option UInt64 :=
  thenSome (value != counterDumpNoneU64) value

namespace CounterDumpRecordView

def sourceHash (view : CounterDumpRecordView) : UInt64 := view.record.sourceHash

def moduleName (view : CounterDumpRecordView) : Except String String := .ok view.record.moduleName

def packageName (view : CounterDumpRecordView) : Except String (Option String) :=
  if view.record.packageName = "" then .ok none else .ok (some view.record.packageName)

variable (view : CounterDumpRecordView)

def rowCount : Nat := view.record.rows.length

/-- What a view shows of an archived row. -/
def rowOfArchive (row : CounterDumpRowArchive) : CounterDumpRow where
  counterId := row.counterId
  scope := row.scope
  kind := row.kind
  siteKind := row.siteKind
  functionId := functionIdOfArchive row.functionId
  currentFunctionId := functionIdOfArchive row.currentFunctionId
  instrId := thenSome row.hasInstrId row.instrId
  functionQualname := thenSome row.hasFunctionQualname row.functionQualname
  blockLabel := thenSome row.hasBlockLabel row.blockLabel
  value := row.value
  branchValues := row.branchValues
  observedValue := u64OfArchive row.observedValue
  maxOvercount := u64OfArchive row.maxOvercount

/-- What a view shows of an archived entry of the type table. -/
def entryOfArchive (entry : CounterDumpTypeTableEntryArchive) : CounterDumpTypeTableEntryView where
  typeId := entry.typeId
  moduleName := entry.moduleName
  qualname := entry.qualname

/-- The item of a list at an index, or the error that names the index. -/
def getItem {α : Type} (items : List α) (item plural : String) (index : Nat) : Except String α :=
  match items[index]? with
  | some a => .ok a
  | none => .error ("counter dump " ++ item ++ " " ++ toString index ++ " is out of bounds for " ++
      toString items.length ++ " " ++ plural)

def row (view : CounterDumpRecordView) (index : Nat) : Except String CounterDumpRow :=
  (getItem view.record.rows "row" "rows" index).map rowOfArchive

def moduleKeyCount : Nat := view.record.moduleKeys.length

def moduleKey (index : Nat) : Except String CounterDumpKeyLayout :=
  getItem view.record.moduleKeys "module key" "keys" index

def typeKeyCount : Nat := view.record.typeKeys.length

def typeKey (index : Nat) : Except String CounterDumpTypeKeyLayout :=
  getItem view.record.typeKeys "type key" "keys" index

def typeTableCount : Nat := view.record.typeTable.length

def typeTableEntry (index : Nat) : Except String CounterDumpTypeTableEntryView :=
  (getItem view.record.typeTable "type table entry" "entries" index).map entryOfArchive

/-- The record a reader puts together from a view, item by item. -/
def toRecord : Except String CounterDumpRecord := do
  let moduleName ← view.moduleName
  let packageName ← view.packageName
  let rows ← (List.range view.rowCount).mapM view.row
  let moduleKeys ← (List.range view.moduleKeyCount).mapM view.moduleKey
  let typeKeys ← (List.range view.typeKeyCount).mapM view.typeKey
  let entries ← (List.range view.typeTableCount).mapM view.typeTableEntry
  .ok {
    sourceHash := view.sourceHash, moduleName, packageName, rows, moduleKeys, typeKeys
    typeTable := entries.map fun entry => ⟨entry.typeId, ⟨entry.moduleName, entry.qualname⟩⟩ }

end CounterDumpRecordView

/-- A frame that has been found: the view of its record and its length. -/
structure CounterDumpFrame where
  view : CounterDumpRecordView
  length : Nat
  length_pos : 0 < length

/-- The number of `width` bytes at an offset. -/
def readLe (width : Nat) (bytes : List UInt8) (offset : Nat) : Except String Nat :=
  match slice bytes offset (offset + width) with
  | some raw => .ok (fromLe raw)
  | none => .error ("counter dump u" ++ toString (8 * width) ++ " at offset " ++ toString offset ++ " is out of bounds")

def readLeU16 : List UInt8 → Nat → Except String Nat := readLe 2

def readLeU64 : List UInt8 → Nat → Except String Nat := readLe 8

/-- The frame that starts at an offset of the file, `remaining` being the bytes from there on. -/
def parseFrame (rkyv : Rkyv) (offset : Nat) (remaining : List UInt8) : Except String CounterDumpFrame :=
  let frameAt := "counter dump frame at byte offset " ++ toString offset
  if remaining.length < counterDumpFrameHeaderLen then
    .error (frameAt ++ " is shorter than the header")
  else if remaining.take 8 ≠ counterDumpMagic then
    .error (frameAt ++ " has invalid magic " ++ toString (remaining.take 8))
  else do
    let version ← readLeU16 remaining 8
    if version ≠ counterDumpVersion then
      .error (frameAt ++ " uses unsupported version " ++ toString version)
    else do
      let headerLen ← readLeU16 remaining 10
      if headerLen ≠ counterDumpFrameHeaderLen then
        .error (frameAt ++ " has unexpected header size " ++ toString headerLen)
      else do
        -- `usize::try_from` of a `u64` cannot fail on a 64-bit host
        let payloadLen ← readLeU64 remaining 16
        let recordLen := frameLen payloadLen
        if h : recordLen = 0 ∨ recordLen % counterDumpFrameAlign ≠ 0 then
          .error (frameAt ++ " has invalid length " ++ toString recordLen)
        else
          match slice remaining counterDumpFrameHeaderLen (usizeAdd counterDumpFrameHeaderLen payloadLen),
              slice remaining 0 recordLen with
          | some payload, some _ =>
            match rkyv.access (offset + counterDumpFrameHeaderLen) payload with
            | .ok record => .ok ⟨⟨record⟩, recordLen, Nat.pos_of_ne_zero (not_or.mp h).1⟩
            | .error err =>
              .error ("failed to rkyv-decode counter dump frame at byte offset " ++ toString offset ++ ": " ++ err)
          | _, _ => .error (frameAt ++ " extends past end of file")

/-- The loop over the frames from an offset on, after the records already found. -/
def parseFramesFrom (rkyv : Rkyv) (bytes : List UInt8) (offset : Nat) (records : List CounterDumpRecordView) :
    Except String (List CounterDumpRecordView) :=
  if offset < bytes.length then
    match parseFrame rkyv offset (bytes.drop offset) with
    | .error err => .error err
    | .ok frame => parseFramesFrom rkyv bytes (offset + frame.length) (records ++ [frame.view])
  else .ok records
termination_by bytes.length - offset
decreasing_by
  have := frame.length_pos
  omega

def parseCounterDumpRecords (rkyv : Rkyv) (bytes : List UInt8) : Except String (List CounterDumpRecordView) :=
  parseFramesFrom rkyv bytes 0 []

/-- The records a reader finds in a file. -/
def readCounterDumpRecords (rkyv : Rkyv) (bytes : List UInt8) : Except String (List CounterDumpRecord) := do
  let views ← parseCounterDumpRecords rkyv bytes
  views.mapM CounterDumpRecordView.toRecord

end Soac
