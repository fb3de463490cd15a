import Soac.Lib.Fallible
import Soac.Profile.CounterDump

/-!
# Counter dumps, read back

Every file of encoded records is parsed, frame by frame, into views of the archives that were written. What a view shows
is the record that was archived as long as the record has no value that the archive takes for an absent one. Any other
file is refused or made up of frames, but a length near the largest number makes sums of the parser overflow.
-/

namespace Soac

open List Fallible Bytes

@[simp]
theorem counterDumpMagic_length : counterDumpMagic.length = 8 := by
  decide

variable {payloadLen : Nat}

theorem alignUp_bounds (n : Nat) : n ≤ alignUp n 16 ∧ alignUp n 16 < n + 16 ∧ alignUp n 16 % 16 = 0 :=
  ⟨le_alignUp n 16, alignUp_lt (by decide) n, alignUp_mod (by decide) n⟩

theorem usizeAdd_headerLen (h : 32 + payloadLen < 2 ^ 64) :
    usizeAdd counterDumpFrameHeaderLen payloadLen = 32 + payloadLen :=
  Nat.mod_eq_of_lt h

theorem frameLen_eq (h : payloadLen + 48 ≤ 2 ^ 64) : frameLen payloadLen = alignUp (32 + payloadLen) 16 := by
  have hbounds := alignUp_bounds (32 + payloadLen)
  rw [frameLen, usizeAdd_headerLen (by omega), alignUpUsize, counterDumpFrameAlign, Nat.mod_eq_of_lt (by omega)]

theorem frameLen_mod (h : payloadLen < 2 ^ 63) : frameLen payloadLen % 16 = 0 := by
  rw [frameLen_eq (by omega)]
  exact (alignUp_bounds _).2.2

theorem le_frameLen (h : payloadLen < 2 ^ 63) : 32 + payloadLen ≤ frameLen payloadLen := by
  rw [frameLen_eq (by omega)]
  exact le_alignUp _ _

variable {payload bytes : List UInt8} {records : List CounterDumpRecord}

/-- The parts of a frame. -/
theorem encodeFrame_eq (h : payload.length < 2 ^ 63) :
    encodeFrame payload = counterDumpMagic ++ (leBytes 2 counterDumpVersion ++
      (leBytes 2 counterDumpFrameHeaderLen ++ (replicate 4 0 ++ (leBytes 8 payload.length ++
        (replicate 8 0 ++ (payload ++ replicate (frameLen payload.length - (32 + payload.length)) 0)))))) := by
  have hlen := le_frameLen h
  -- the zeros the fields are written over, cut where the fields are
  have hzeros : replicate (frameLen payload.length) (0 : UInt8) = replicate 8 0 ++ (replicate 2 0 ++
      (replicate 2 0 ++ (replicate 4 0 ++ (replicate 8 0 ++ (replicate 8 0 ++
        (replicate payload.length 0 ++ replicate (frameLen payload.length - (32 + payload.length)) 0)))))) := by
    simp only [replicate_append_replicate]
    congr 1
    omega
  rw [encodeFrame, hzeros]
  simp (disch := simp) only [writeAt_append_right, counterDumpMagic_length, leBytes_length, length_replicate,
    counterDumpFrameHeaderLen, Nat.sub_self, Nat.reduceSub, writeAt_front]

theorem encodeFrame_length (h : payload.length < 2 ^ 63) : (encodeFrame payload).length = frameLen payload.length := by
  have hlen := le_frameLen h
  rw [encodeFrame_eq h]
  simp only [length_append, counterDumpMagic_length, leBytes_length, length_replicate]
  omega

/-- The header is accepted up to its payload length. -/
structure HeaderRead (remaining : List UInt8) (payloadLen : Nat) : Prop where
  long : ¬remaining.length < counterDumpFrameHeaderLen
  magic : remaining.take 8 = counterDumpMagic
  version : readLeU16 remaining 8 = .ok counterDumpVersion
  headerLen : readLeU16 remaining 10 = .ok counterDumpFrameHeaderLen
  payloadLen : readLeU64 remaining 16 = .ok payloadLen

theorem readLe_of_slice {width offset n : Nat} (hn : n < 256 ^ width)
    (h : slice bytes offset (offset + width) = some (leBytes width n)) :
    readLe width bytes offset = .ok n := by
  rw [readLe, h]
  show Except.ok (fromLe _) = _
  rw [fromLe_leBytes hn]

section
variable (h : payload.length < 2 ^ 63) (rest : List UInt8)
include h

theorem slice_fields :
    slice (encodeFrame payload ++ rest) 8 (8 + 2) = some (leBytes 2 counterDumpVersion) ∧
      slice (encodeFrame payload ++ rest) 10 (10 + 2) = some (leBytes 2 counterDumpFrameHeaderLen) ∧
      slice (encodeFrame payload ++ rest) 16 (16 + 8) = some (leBytes 8 payload.length) ∧
      slice (encodeFrame payload ++ rest) 32 (32 + payload.length) = some payload := by
  rw [encodeFrame_eq h]
  simp (disch := first | simp | omega) only [append_assoc, slice_append_right, counterDumpMagic_length, Nat.sub_self,
    Nat.sub_sub, Nat.reduceAdd, Nat.reduceSub, Nat.add_sub_cancel_left, leBytes_length, length_replicate, slice_front,
    and_self]

theorem headerRead_encodeFrame : HeaderRead (encodeFrame payload ++ rest) payload.length := by
  obtain ⟨hversion, hheader, hlength, -⟩ := slice_fields h rest
  refine ⟨?_, ?_, readLe_of_slice (by decide) hversion, readLe_of_slice (by decide) hheader,
    readLe_of_slice (by omega) hlength⟩
  · have hlen := le_frameLen h
    rw [length_append, encodeFrame_length h, counterDumpFrameHeaderLen]
    omega
  · rw [encodeFrame_eq h, append_assoc, take_left' counterDumpMagic_length]

end

variable (rkyv : Rkyv)

/-- A frame at an aligned offset is parsed into the archive that was written, whatever follows it. -/
theorem parseFrame_encodeFrame {offset : Nat} (rest : List UInt8)
    {archive : CounterDumpRecordArchive} (hbytes : rkyv.toBytes archive = .ok payload) (ho : offset % 16 = 0) :
    ∃ hpos, parseFrame rkyv offset (encodeFrame payload ++ rest) = .ok ⟨⟨archive⟩, frameLen payload.length, hpos⟩ := by
  have hlt := rkyv.toBytes_length hbytes
  have hlen := le_frameLen hlt
  have hread := headerRead_encodeFrame hlt rest
  have hvalid : ¬ (frameLen payload.length = 0 ∨ frameLen payload.length % counterDumpFrameAlign ≠ 0) := by
    rw [counterDumpFrameAlign, frameLen_mod hlt]
    omega
  have hwhole : slice (encodeFrame payload ++ rest) 0 (frameLen payload.length) = some (encodeFrame payload) :=
    slice_front (encodeFrame_length hlt)
  have haccess : rkyv.access (offset + 32) payload = .ok archive := rkyv.access_toBytes hbytes (by omega)
  refine ⟨by omega, ?_⟩
  rw [parseFrame, if_neg hread.long, if_neg (not_not_intro hread.magic), hread.version, ok_bind,
    if_neg (not_not_intro rfl), hread.headerLen, ok_bind, if_neg (not_not_intro rfl), hread.payloadLen, ok_bind,
    dif_neg hvalid, usizeAdd_headerLen (by omega), hwhole, counterDumpFrameHeaderLen, (slice_fields hlt rest).2.2.2]
  simp only [haccess]

/-- What a file of records is parsed into. -/
def viewsOf (records : List CounterDumpRecord) : List CounterDumpRecordView :=
  records.map fun record => ⟨CounterDumpRecordArchive.fromRecord record⟩

/-- From an offset where the rest of the file is the encoding of records, the loop finds their views. -/
theorem parseFramesFrom_write (pre : List UInt8) {rest : List UInt8}
    (found : List CounterDumpRecordView) (hrest : writeCounterDumpRecords rkyv records = .ok rest)
    (hpre : pre.length % 16 = 0) :
    parseFramesFrom rkyv (pre ++ rest) pre.length found = .ok (found ++ viewsOf records) := by
  induction records generalizing pre rest found with
  | nil =>
    cases hrest
    rw [parseFramesFrom]
    simp [viewsOf]
  | cons record records ih =>
    obtain ⟨bytes, hbytes, hrest⟩ := bind_eq_ok.mp hrest
    obtain ⟨rest', hrest', hrest⟩ := bind_eq_ok.mp hrest
    cases hrest
    rw [CounterDumpRecord.encode] at hbytes
    split at hbytes
    · cases hbytes
    · next payload hpayload =>
      cases hbytes
      have hlt := rkyv.toBytes_length hpayload
      have hmod := frameLen_mod hlt
      obtain ⟨hpos, hframe⟩ := parseFrame_encodeFrame rkyv rest' hpayload hpre
      have hnext := ih (pre ++ encodeFrame payload) (found ++ [⟨CounterDumpRecordArchive.fromRecord record⟩]) hrest'
        (by rw [length_append, encodeFrame_length hlt]; omega)
      have hbound : pre.length < (pre ++ (encodeFrame payload ++ rest')).length := by
        simp only [length_append, encodeFrame_length hlt]
        omega
      rw [parseFramesFrom, if_pos hbound, drop_left, hframe]
      rw [length_append, encodeFrame_length hlt, append_assoc, append_assoc] at hnext
      exact hnext

theorem parseCounterDumpRecords_write (h : writeCounterDumpRecords rkyv records = .ok bytes) :
    parseCounterDumpRecords rkyv bytes = .ok (viewsOf records) :=
  parseFramesFrom_write rkyv [] [] h rfl

/-- A row that has no value which its archive takes for an absent one. -/
structure CounterDumpRow.Representable (row : CounterDumpRow) : Prop where
  functionId : row.functionId ≠ some ⟨counterDumpNoneFunctionId⟩
  currentFunctionId : row.currentFunctionId ≠ some ⟨counterDumpNoneFunctionId⟩
  observedValue : row.observedValue ≠ some counterDumpNoneU64
  maxOvercount : row.maxOvercount ≠ some counterDumpNoneU64

/-- A record that has no value which its archive takes for an absent one. -/
structure CounterDumpRecord.Representable (record : CounterDumpRecord) : Prop where
  packageName : record.packageName ≠ some ""
  rows : ∀ row ∈ record.rows, row.Representable

theorem functionIdOfArchive_eq_iff (functionId : Option PackedFunctionId) :
    functionIdOfArchive ((functionId.map (·.packed)).getD counterDumpNoneFunctionId) = functionId ↔
      functionId ≠ some ⟨counterDumpNoneFunctionId⟩ := by
  obtain _ | ⟨⟨packed⟩⟩ := functionId
  · simp [functionIdOfArchive, thenSome]
  · by_cases h : packed = counterDumpNoneFunctionId <;> simp [functionIdOfArchive, thenSome, h]

theorem u64OfArchive_eq_iff (value : Option UInt64) :
    u64OfArchive (value.getD counterDumpNoneU64) = value ↔ value ≠ some counterDumpNoneU64 := by
  obtain _ | value := value
  · simp [u64OfArchive, thenSome]
  · by_cases h : value = counterDumpNoneU64 <;> simp [u64OfArchive, thenSome, h]

variable {α : Type}

/-- A flag beside a value keeps an optional value whatever it is. -/
theorem thenSome_isSome (value : Option α) (default : α) : thenSome value.isSome (value.getD default) = value := by
  cases value <;> rfl

theorem rowOfArchive_fromRow_eq_iff (row : CounterDumpRow) :
    CounterDumpRecordView.rowOfArchive (CounterDumpRowArchive.fromRow row) = row ↔ row.Representable := by
  have hfunction := functionIdOfArchive_eq_iff row.functionId
  have hcurrent := functionIdOfArchive_eq_iff row.currentFunctionId
  have hobserved := u64OfArchive_eq_iff row.observedValue
  have hovercount := u64OfArchive_eq_iff row.maxOvercount
  constructor
  · intro h
    exact ⟨hfunction.mp (congrArg CounterDumpRow.functionId h), hcurrent.mp (congrArg CounterDumpRow.currentFunctionId h),
      hobserved.mp (congrArg CounterDumpRow.observedValue h), hovercount.mp (congrArg CounterDumpRow.maxOvercount h)⟩
  · intro h
    simp only [CounterDumpRecordView.rowOfArchive, CounterDumpRowArchive.fromRow, hfunction.mpr h.functionId,
      hcurrent.mpr h.currentFunctionId, hobserved.mpr h.observedValue, hovercount.mpr h.maxOvercount, thenSome_isSome]

theorem getItem_eq_ok {items : List α} {item plural : String} {index : Nat} {a : α}
    (h : items[index]? = some a) : CounterDumpRecordView.getItem items item plural index = .ok a := by
  rw [CounterDumpRecordView.getItem, h]

theorem mapM_getItem_map {β : Type} (items : List α) (item plural : String) (f : α → β) :
    (List.range items.length).mapM (fun index => (CounterDumpRecordView.getItem items item plural index).map f) =
      .ok (items.map f) := by
  rw [← length_map f]
  refine mapM_range fun index b hb => ?_
  rw [List.getElem?_map, Option.map_eq_some_iff] at hb
  obtain ⟨a, ha, rfl⟩ := hb
  rw [getItem_eq_ok ha]
  rfl

variable (packageName : Option String)

/-- The package name a view shows for an archived one. -/
def shownPackageName : Option String :=
  if packageName.getD "" = "" then none else some (packageName.getD "")

theorem shownPackageName_eq_iff : shownPackageName packageName = packageName ↔ packageName ≠ some "" := by
  obtain _ | name := packageName
  · simp [shownPackageName]
  · by_cases hn : name = "" <;> simp [shownPackageName, hn]

/-- What a view of an archived record shows. -/
def CounterDumpRecord.shown (record : CounterDumpRecord) : CounterDumpRecord :=
  { record with
    packageName := shownPackageName record.packageName
    rows := record.rows.map fun row => CounterDumpRecordView.rowOfArchive (CounterDumpRowArchive.fromRow row) }

variable (record : CounterDumpRecord)

theorem toRecord_fromRecord :
    CounterDumpRecordView.toRecord ⟨CounterDumpRecordArchive.fromRecord record⟩ = .ok record.shown := by
  generalize hview : (⟨CounterDumpRecordArchive.fromRecord record⟩ : CounterDumpRecordView) = view
  have hrows : (List.range view.rowCount).mapM view.row = .ok record.shown.rows := by
    subst hview
    refine (mapM_getItem_map _ "row" "rows" CounterDumpRecordView.rowOfArchive).trans ?_
    exact congrArg Except.ok map_map
  have hmoduleKeys : (List.range view.moduleKeyCount).mapM view.moduleKey = .ok record.moduleKeys := by
    subst hview
    exact mapM_range fun _ _ => getItem_eq_ok
  have htypeKeys : (List.range view.typeKeyCount).mapM view.typeKey = .ok record.typeKeys := by
    subst hview
    exact mapM_range fun _ _ => getItem_eq_ok
  have hentries : (List.range view.typeTableCount).mapM view.typeTableEntry = .ok (record.typeTable.map
      fun entry => CounterDumpRecordView.entryOfArchive (CounterDumpTypeTableEntryArchive.fromEntry entry)) := by
    subst hview
    refine (mapM_getItem_map _ "type table entry" "entries" CounterDumpRecordView.entryOfArchive).trans ?_
    exact congrArg Except.ok map_map
  have hpackage : view.packageName = .ok (shownPackageName record.packageName) := by
    subst hview
    rw [shownPackageName]
    show (if record.packageName.getD "" = "" then _ else _) = _
    split <;> rfl
  rw [CounterDumpRecordView.toRecord, CounterDumpRecordView.moduleName, ok_bind, hpackage, ok_bind,
    hrows, ok_bind, hmoduleKeys, ok_bind, htypeKeys, ok_bind, hentries, ok_bind,
    map_map]
  subst hview
  exact congrArg Except.ok (congrArg (fun typeTable => { record.shown with typeTable }) (map_id _))

/-- The view of an archived record shows the record exactly when nothing in it reads as absent. -/
theorem shown_eq_iff : record.shown = record ↔ record.Representable := by
  have hpackage := shownPackageName_eq_iff record.packageName
  have hrows : record.shown.rows = record.rows ↔ ∀ row ∈ record.rows, row.Representable := by
    rw [CounterDumpRecord.shown]
    nth_rewrite 2 [← map_id record.rows]
    rw [map_inj_left]
    exact forall₂_congr fun row _ => rowOfArchive_fromRow_eq_iff row
  constructor
  · intro h
    exact ⟨hpackage.mp (congrArg CounterDumpRecord.packageName h), hrows.mp (congrArg CounterDumpRecord.rows h)⟩
  · intro h
    calc record.shown
        = { record with packageName := shownPackageName record.packageName, rows := record.shown.rows } := rfl
      _ = record := by rw [hpackage.mpr h.packageName, hrows.mpr h.rows]

/-- Reading a written file gives the records as their views show them. -/
theorem readCounterDumpRecords_write (h : writeCounterDumpRecords rkyv records = .ok bytes) :
    readCounterDumpRecords rkyv bytes = .ok (records.map CounterDumpRecord.shown) := by
  rw [readCounterDumpRecords, parseCounterDumpRecords_write rkyv h, ok_bind, viewsOf, mapM_map]
  simp only [Function.comp_def, toRecord_fromRecord]
  exact mapM_pure

/-- A written file reads back as the records exactly when no record has a value that its archive takes for an absent
one: an empty package name, the function number zero, or the largest number as an observed value or an overcount. -/
theorem counterDump_roundTrip_iff (rkyv : Rkyv) (records : List CounterDumpRecord) (bytes : List UInt8)
    (h : writeCounterDumpRecords rkyv records = .ok bytes) :
    readCounterDumpRecords rkyv bytes = .ok records ↔ ∀ record ∈ records, record.Representable := by
  rw [readCounterDumpRecords_write rkyv h, Except.ok.injEq]
  nth_rewrite 2 [← map_id records]
  rw [map_inj_left]
  exact forall₂_congr fun record _ => shown_eq_iff record

/-- A serializer for one archive. -/
def rkyvFor (archive : CounterDumpRecordArchive) (payload : List UInt8) (h : payload.length < 2 ^ 63) : Rkyv where
  toBytes a := if a = archive then .ok payload else .error "unknown archive"
  access _ bytes := if bytes = payload then .ok archive else .error "unknown bytes"
  toBytes_length := by
    intro a bytes hb
    split at hb
    · cases hb
      exact h
    · cases hb
  access_toBytes := by
    intro a bytes address hb _
    split at hb
    · next ha =>
      cases hb
      rw [if_pos rfl, ha]
    · cases hb

/-- A record of a module `m` with one row, whose optional values are given. -/
def sampleRecord (functionId : Option PackedFunctionId) (observed overcount : Option UInt64) : CounterDumpRecord where
  sourceHash := 7
  moduleName := "m"
  packageName := packageName
  rows := [{
    counterId := 1, scope := "function", kind := "call_hot_targets", siteKind := "call", functionId := functionId
    currentFunctionId := functionId, instrId := some 3, functionQualname := some "", blockLabel := none, value := 9
    branchValues := [⟨"then", 4⟩], observedValue := observed, maxOvercount := overcount }]
  moduleKeys := [⟨"m", "x", 0⟩]
  typeKeys := []
  typeTable := [⟨2, ⟨"m", "C"⟩⟩]

/-- The serializer of a sample, with a payload of three bytes. -/
def sampleRkyv (record : CounterDumpRecord) : Rkyv :=
  rkyvFor (CounterDumpRecordArchive.fromRecord record) [1, 2, 3] (by decide)

theorem writeCounterDumpRecords_sample : writeCounterDumpRecords (sampleRkyv record) [record, record] =
      .ok (encodeFrame [1, 2, 3] ++ (encodeFrame [1, 2, 3] ++ [])) := by
  have henc : record.encode (sampleRkyv record) = .ok (encodeFrame [1, 2, 3]) := by
    simp [CounterDumpRecord.encode, sampleRkyv, rkyvFor]
  simp only [writeCounterDumpRecords, henc, ok_bind]

theorem counterDump_roundTrip_iff_sample :
    let record := sampleRecord (some "p") (some (.new 1 2)) (some 5) none
    readCounterDumpRecords (sampleRkyv record) (encodeFrame [1, 2, 3] ++ (encodeFrame [1, 2, 3] ++ [])) =
      .ok [record, record] := by
  refine (counterDump_roundTrip_iff (sampleRkyv _) [_, _] _ (writeCounterDumpRecords_sample _)).mpr ?_
  intro record hr
  obtain rfl : record = sampleRecord (some "p") (some (.new 1 2)) (some 5) none := by simpa using hr
  exact ⟨by decide, by
    intro row hrow
    rw [mem_singleton.mp hrow]
    exact ⟨by decide, by decide, by decide, by decide⟩⟩

/-- An empty package name, the function number zero and the largest numbers are read back as absent. -/
theorem counterDump_roundTrip_false :
    let record := sampleRecord (some "") (some (.new 0 0)) (some counterDumpNoneU64) (some counterDumpNoneU64)
    ∃ bytes, writeCounterDumpRecords (sampleRkyv record) [record, record] = .ok bytes ∧
      readCounterDumpRecords (sampleRkyv record) bytes =
        .ok [sampleRecord none none none none, sampleRecord none none none none] ∧
      readCounterDumpRecords (sampleRkyv record) bytes ≠ .ok [record, record] := by
  intro record
  have hread := readCounterDumpRecords_write (sampleRkyv record) (writeCounterDumpRecords_sample record)
  have hshown : record.shown = sampleRecord none none none none := by decide
  refine ⟨_, writeCounterDumpRecords_sample record, hread, ?_⟩
  rw [hread]
  decide

/-! ## Hostile files -/

section

variable {rkyv : Rkyv} {remaining : List UInt8} {offset : Nat} {frame : CounterDumpFrame}

/-- A file is made up of frames, each of its header, the payload and the padding to the next multiple of 16, that hold the
records of the views. -/
inductive Tiled (rkyv : Rkyv) : Nat → List UInt8 → List CounterDumpRecordView → Prop
  | done {offset : Nat} : Tiled rkyv offset [] []
  | frame {offset payloadLen : Nat} {frame rest : List UInt8} {record : CounterDumpRecordArchive}
      {views : List CounterDumpRecordView} (hheader : HeaderRead (frame ++ rest) payloadLen)
      (hlen : frame.length = alignUp (32 + payloadLen) 16)
      (hrecord : rkyv.access (offset + 32) ((frame.drop 32).take payloadLen) = .ok record)
      (h : Tiled rkyv (offset + frame.length) rest views) : Tiled rkyv offset (frame ++ rest) (⟨record⟩ :: views)

/-- The loop comes to an offset, behind frames it accepts. -/
inductive Reaches (rkyv : Rkyv) (bytes : List UInt8) : Nat → Prop
  | start : Reaches rkyv bytes 0
  | next {offset : Nat} {frame : CounterDumpFrame} (h : Reaches rkyv bytes offset) (hlt : offset < bytes.length)
      (hframe : parseFrame rkyv offset (bytes.drop offset) = .ok frame) : Reaches rkyv bytes (offset + frame.length)

/-- The parser stays inside the file, no sum of it overflows, and it fails or finds frames that make up the file. -/
structure ParsesSafely (rkyv : Rkyv) (bytes : List UInt8) : Prop where
  inside : ∀ offset, Reaches rkyv bytes offset → offset ≤ bytes.length
  sums : ∀ offset payloadLen, Reaches rkyv bytes offset → HeaderRead (bytes.drop offset) payloadLen →
    32 + payloadLen < 2 ^ 64 ∧ alignUp (32 + payloadLen) 16 < 2 ^ 64
  result : (∃ err, parseCounterDumpRecords rkyv bytes = .error err) ∨
    ∃ views, parseCounterDumpRecords rkyv bytes = .ok views ∧ Tiled rkyv 0 bytes views

theorem fromLe_lt (bytes : List UInt8) : fromLe bytes < 256 ^ bytes.length := by
  induction bytes with
  | nil => exact Nat.one_pos
  | cons b bytes ih =>
    have hb := b.toNat_lt
    rw [fromLe, length_cons]
    omega

theorem slice_eq_some {part : List UInt8} {start stop : Nat} (h : slice bytes start stop = some part) :
    start ≤ stop ∧ stop ≤ bytes.length ∧ (bytes.drop start).take (stop - start) = part := by
  rw [slice] at h
  split at h
  · next hbounds => exact ⟨hbounds.1, hbounds.2, Option.some.inj h⟩
  · cases h

theorem HeaderRead.lt (h : HeaderRead remaining payloadLen) : payloadLen < 2 ^ 64 := by
  have hread := h.payloadLen
  rw [readLeU64, readLe] at hread
  split at hread
  · next raw hraw =>
    obtain ⟨-, -, rfl⟩ := slice_eq_some hraw
    cases hread
    refine Nat.lt_of_lt_of_le (fromLe_lt _) (Nat.pow_le_pow_right (j := 8) (by decide) ?_)
    exact length_take_le _ _
  · cases hread

/-- A frame that is accepted has an intact header and lies in the file with its payload: where a sum would overflow, the
length comes out as zero or the payload ends before it starts. -/
theorem parseFrame_eq_ok (h : parseFrame rkyv offset remaining = .ok frame) :
    ∃ payloadLen, HeaderRead remaining payloadLen ∧ frame.length = alignUp (32 + payloadLen) 16 ∧
      frame.length ≤ remaining.length ∧
      rkyv.access (offset + 32) ((remaining.drop 32).take payloadLen) = .ok frame.view.record := by
  unfold parseFrame at h
  dsimp only at h
  split at h
  · cases h
  next hlong =>
  split at h
  · cases h
  next hmagic =>
  obtain ⟨version, hversion, h⟩ := bind_eq_ok.mp h
  split at h
  · cases h
  next hv =>
  obtain ⟨headerLen, hheader, h⟩ := bind_eq_ok.mp h
  split at h
  · cases h
  next hl =>
  obtain ⟨payloadLen, hpayload, h⟩ := bind_eq_ok.mp h
  obtain rfl := not_not.mp hv
  obtain rfl := not_not.mp hl
  have hread : HeaderRead remaining payloadLen := ⟨hlong, not_not.mp hmagic, hversion, hheader, hpayload⟩
  split at h
  · cases h
  next hlen =>
  split at h
  · next payload whole hslice hwhole =>
    split at h
    · next record haccess =>
      cases h
      obtain ⟨hstart, -, hpart⟩ := slice_eq_some hslice
      have hlt := hread.lt
      have hbounds := alignUp_bounds (32 + payloadLen)
      have hsum : usizeAdd counterDumpFrameHeaderLen payloadLen = 32 + payloadLen := by
        rw [usizeAdd, counterDumpFrameHeaderLen] at hstart ⊢
        omega
      have hlength : frameLen payloadLen = alignUp (32 + payloadLen) 16 := by
        have hpos := (not_or.mp hlen).1
        rw [frameLen, hsum, alignUpUsize, counterDumpFrameAlign] at hpos ⊢
        rw [usizeAdd] at hsum
        omega
      rw [hsum, counterDumpFrameHeaderLen, Nat.add_sub_cancel_left] at hpart
      exact ⟨payloadLen, hread, hlength, (slice_eq_some hwhole).2.1, hpart.symm ▸ haccess⟩
    · cases h
  · cases h

theorem Reaches.inside (h : Reaches rkyv bytes offset) : offset ≤ bytes.length := by
  cases h with
  | start => exact Nat.zero_le _
  | next _ hlt hframe =>
    obtain ⟨-, -, -, hend, -⟩ := parseFrame_eq_ok hframe
    rw [length_drop] at hend
    omega

/-- From an offset on the loop adds the views of the frames that make up the rest of the file. -/
theorem parseFramesFrom_tiled {found views : List CounterDumpRecordView}
    (h : parseFramesFrom rkyv bytes offset found = .ok views) :
    ∃ new, views = found ++ new ∧ Tiled rkyv offset (bytes.drop offset) new := by
  fun_induction parseFramesFrom rkyv bytes offset found with
  | case1 => cases h
  | case2 offset found hlt frame hframe ih =>
    obtain ⟨payloadLen, hheader, hlen, hend, hrecord⟩ := parseFrame_eq_ok hframe
    have hsplit := take_append_drop frame.length (bytes.drop offset)
    have hlength : ((bytes.drop offset).take frame.length).length = frame.length := length_take_of_le hend
    obtain ⟨new, rfl, htiled⟩ := ih h
    refine ⟨frame.view :: new, by simp, ?_⟩
    rw [← hsplit] at hheader ⊢
    have hfits : 32 + payloadLen ≤ frame.length := hlen ▸ le_alignUp _ _
    refine .frame hheader (hlength.trans hlen) ?_ ?_
    · rw [drop_take, take_take, Nat.min_eq_left (by omega)]
      exact hrecord
    · rw [hlength, drop_drop]
      exact htiled
  | case3 offset found hend =>
    cases h
    refine ⟨[], (append_nil _).symm, ?_⟩
    rw [drop_eq_nil_of_le (not_lt.mp hend)]
    exact .done

/-- The parser is safe on a file exactly if no header it comes to gives a length within 48 bytes of the largest number. -/
theorem parsesSafely_iff (rkyv : Rkyv) (bytes : List UInt8) : ParsesSafely rkyv bytes ↔
    ∀ offset payloadLen, Reaches rkyv bytes offset → HeaderRead (bytes.drop offset) payloadLen →
      payloadLen + 48 ≤ 2 ^ 64 := by
  have hfits : ∀ n, 32 + n < 2 ^ 64 ∧ alignUp (32 + n) 16 < 2 ^ 64 ↔ n + 48 ≤ 2 ^ 64 := by
    intro n
    have hbounds := alignUp_bounds (32 + n)
    omega
  constructor
  · exact fun h offset n hreach hheader => (hfits n).mp (h.sums offset n hreach hheader)
  · intro h
    refine ⟨fun _ => Reaches.inside, fun offset n hreach hheader => (hfits n).mpr (h offset n hreach hheader), ?_⟩
    cases hparse : parseCounterDumpRecords rkyv bytes with
    | error err => exact .inl ⟨err, rfl⟩
    | ok views =>
      obtain ⟨_, rfl, htiled⟩ := parseFramesFrom_tiled hparse
      exact .inr ⟨_, rfl, htiled⟩

/-- A header alone whose payload length is the largest number. -/
theorem parsesSafely_false : ∃ bytes, ∀ rkyv, ¬ParsesSafely rkyv bytes := by
  refine ⟨counterDumpMagic ++ [4, 0, 32, 0, 0, 0, 0, 0] ++ replicate 8 255 ++ replicate 8 0, fun rkyv h => ?_⟩
  have hheader : HeaderRead (counterDumpMagic ++ [4, 0, 32, 0, 0, 0, 0, 0] ++ replicate 8 255 ++ replicate 8 0)
      (2 ^ 64 - 1) := ⟨by decide, by decide, by decide, by decide, by decide⟩
  have hsum := (h.sums 0 _ .start hheader).1
  omega

end

end Soac
