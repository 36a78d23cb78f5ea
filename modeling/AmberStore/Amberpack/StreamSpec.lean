import AmberStore.Amberpack.Stream

/-!
# Wire packs read back

What a writer produced is read as the objects that were written, then a clean
end.  A strict prefix is read as the objects whose records are whole in it, then
one error.
-/

open ByteString Checked
open List hiding count

namespace AmberStore.Amberpack

variable {crc32c : Bytes → UInt32}

namespace Reader

/-! ## One read -/

theorem readFull_append
    (front tail : Bytes) (state : ReaderState) (what : String)
    (whole : front.length = count) :
    readFull ⟨front ++ tail, state⟩ count what = .ok (front, ⟨tail, state⟩) := by
  subst whole
  simp [readFull]

theorem readFull_eq_ok
    {reader next : Reader}
    (read : reader.readFull count what = .ok (bytes, next)) :
    reader.rest = bytes ++ next.rest ∧ bytes.length = count ∧
      next.state = reader.state := by
  unfold readFull at read
  split at read
  next enough =>
    obtain ⟨rfl, rfl⟩ := Prod.mk.inj (Except.ok.inj read)
    exact ⟨(take_append_drop ..).symm, length_take_of_le enough, rfl⟩
  next => cases read

@[simp] theorem ensureMagic_records (rest : Bytes) :
    ensureMagic ⟨rest, .records⟩ = .ok ⟨rest, .records⟩ :=
  rfl

theorem ensureMagic_magic (rest : Bytes) :
    ensureMagic ⟨packMagic ++ rest, .magic⟩ = .ok ⟨rest, .records⟩ := by
  unfold ensureMagic readMagic
  rw [if_pos rfl, readFull_append _ _ _ _ rfl]
  rfl

/-- What was read as a record parses, and the stream goes on after it. -/
theorem readRecord_eq_ok
    {reader next : Reader}
    (read : reader.readRecord crc32c = .ok (raw, next)) :
    tagChunk :: reader.rest = raw.bytes ++ next.rest ∧
      parseRecord crc32c raw.bytes = .ok raw.record := by
  unfold readRecord at read
  obtain ⟨⟨header, middle⟩, headerRead, read⟩ := bind_eq_ok_iff.mp read
  dsimp only at read
  split at read
  next => cases read
  next =>
    obtain ⟨⟨payload, last⟩, payloadRead, read⟩ := bind_eq_ok_iff.mp read
    dsimp only at read
    split at read
    next => cases read
    next record parsed =>
      obtain ⟨rfl, rfl⟩ := Prod.mk.inj (Except.ok.inj read)
      refine ⟨?_, parsed⟩
      rw [(readFull_eq_ok headerRead).1, (readFull_eq_ok payloadRead).1]
      simp

/-- Past the magic, a read ends at the end marker or takes a record that
parses. -/
theorem nextRecord_eq_ok
    {rest : Bytes} {next : Reader}
    (read : nextRecord crc32c ⟨rest, .records⟩ = .ok (raw, next)) :
    rest = tagEnd :: next.rest ∨
      ∃ bytes record, rest = bytes ++ next.rest ∧
        parseRecord crc32c bytes = .ok record := by
  unfold nextRecord at read
  rw [ensureMagic_records, ok_bind] at read
  obtain ⟨⟨tag, middle⟩, tagRead, read⟩ := bind_eq_ok_iff.mp read
  obtain ⟨split, -, -⟩ := readFull_eq_ok tagRead
  dsimp only at read split
  split_ifs at read with isEnd isChunk
  · obtain ⟨-, rfl⟩ := Prod.mk.inj (Except.ok.inj read)
    exact Or.inl (by rw [split, isEnd]; rfl)
  · obtain ⟨⟨found, last⟩, recordRead, read⟩ := bind_eq_ok_iff.mp read
    obtain ⟨-, rfl⟩ := Prod.mk.inj (Except.ok.inj read)
    obtain ⟨bytesEq, parsed⟩ := readRecord_eq_ok recordRead
    exact Or.inr ⟨found.bytes, found.record, by
      rw [split, isChunk, ← bytesEq]; rfl, parsed⟩

@[simp] theorem nextRecord_end (tail : Bytes) :
    nextRecord crc32c ⟨tagEnd :: tail, .records⟩ =
      .ok (none, ⟨tail, .records⟩) := by
  rfl

/-- A stored record at the front is read as it is. -/
theorem nextRecord_encode (stored : StoredRecord) (tail : Bytes) :
    nextRecord crc32c ⟨stored.encode crc32c ++ tail, .records⟩ =
      .ok (some ⟨stored.header, stored.encode crc32c⟩, ⟨tail, .records⟩) := by
  obtain ⟨header, encodeEq, headerLength⟩ : ∃ header,
      stored.encode crc32c = tagChunk :: header ++ stored.payload ∧
        header.length = recHeaderSize - 1 := by
    refine ⟨stored.key.bytes ++ [stored.flags] ++ beBytes 4 stored.ulen ++
      beBytes 4 stored.payload.length ++ beBytes 4 (crc32c (layout stored.key
        stored.flags stored.ulen 0 stored.payload)).toNat, rfl, ?_⟩
    simp [stored.key.bytes_length]
  have slenEq : readBe (tagChunk :: header) 38 4 = stored.payload.length := by
    have whole := layout_slen stored.key stored.flags stored.ulen
      (crc32c (layout stored.key stored.flags stored.ulen 0 stored.payload))
      stored.payload [] stored.payload_length_lt
    rw [← StoredRecord.encode, append_nil, encodeEq,
      readBe_append_left _ _ (by simp [headerLength])] at whole
    exact whole
  have parsed := stored.parseRecord_encode_append crc32c []
  rw [append_nil, encodeEq] at parsed
  have recordRead : readRecord crc32c
      ⟨header ++ (stored.payload ++ tail), .records⟩ =
      .ok (⟨stored.header, stored.encode crc32c⟩, ⟨tail, .records⟩) := by
    unfold readRecord
    rw [readFull_append _ _ _ _ headerLength, ok_bind]
    dsimp only
    rw [slenEq, if_neg (Nat.not_lt.mpr stored.payload_length_le),
      readFull_append _ _ _ _ rfl, ok_bind]
    dsimp only
    rw [parsed, encodeEq]
  have bytesEq : stored.encode crc32c ++ tail =
      [tagChunk] ++ (header ++ (stored.payload ++ tail)) := by
    rw [encodeEq]
    simp
  unfold nextRecord
  rw [bytesEq]
  rw [ensureMagic_records, ok_bind]
  have oneByte : [tagChunk].length = 1 := rfl
  rw [readFull_append _ _ _ _ oneByte, ok_bind]
  dsimp only
  rw [if_neg (by decide), if_pos rfl, recordRead]
  rfl

/-- A record that is cut short is not read. -/
theorem nextRecord_torn
    {stored : StoredRecord}
    (split : torn ++ missing = stored.encode crc32c)
    (strict : missing ≠ []) :
    ∃ error, nextRecord crc32c ⟨torn, .records⟩ = .error error := by
  cases read : nextRecord crc32c ⟨torn, .records⟩ with
  | error error => exact ⟨error, rfl⟩
  | ok found =>
    exfalso
    obtain ends | ⟨bytes, record, bytesEq, parsed⟩ := nextRecord_eq_ok read
    · have tag := stored.byteAt_encode_append crc32c []
      rw [← split, ends] at tag
      have differ : tagEnd ≠ tagChunk := by decide
      exact differ tag
    · have shorter : bytes ++ (found.2.rest ++ missing) =
          stored.encode crc32c := by
        rw [← append_assoc, ← bytesEq, split]
      exact stored.parseRecord_torn crc32c shorter
        (append_ne_nil_of_right_ne_nil _ strict) record parsed

/-! ## Whole streams -/

@[simp] theorem calls_done
    (read : Reader → Except StreamError (Option α × Reader))
    (rest : Bytes) (count : Nat) :
    calls read count ⟨rest, .done⟩ = List.replicate count none := by
  induction count with
  | zero => rfl
  | succ count ih =>
    rw [calls, replicate_succ]
    simpa [step] using ih

/-- A read that takes records off the stream as `nextRecord` does. -/
structure Follows (crc32c : Bytes → UInt32)
    (read : Reader → Except StreamError (Option α × Reader)) : Prop where
  start : ∀ rest, read ⟨packMagic ++ rest, .magic⟩ = read ⟨rest, .records⟩
  finish : ∀ rest, read ⟨tagEnd :: rest, .records⟩ =
    .ok (none, ⟨rest, .records⟩)
  fail : ∀ {reader error}, nextRecord crc32c reader = .error error →
    read reader = .error error

/-- Reading takes a stored record for a value, whatever follows. -/
def Takes (crc32c : Bytes → UInt32)
    (read : Reader → Except StreamError (Option α × Reader))
    (stored : StoredRecord) (value : α) : Prop :=
  ∀ tail, read ⟨stored.encode crc32c ++ tail, .records⟩ =
    .ok (some value, ⟨tail, .records⟩)

theorem nextRecord_follows : Follows crc32c (nextRecord crc32c) where
  start rest := by
    unfold nextRecord
    rw [ensureMagic_magic, ensureMagic_records]
  finish := nextRecord_end
  fail failed := failed

theorem nextObject_follows (codecs : Codecs) :
    Follows crc32c (nextObject crc32c codecs) where
  start rest := by
    unfold nextObject
    rw [nextRecord_follows.start]
  finish rest := by
    unfold nextObject
    rw [nextRecord_end]
    rfl
  fail failed := by
    unfold nextObject
    rw [failed]
    rfl

theorem nextRecord_takes (stored : StoredRecord) :
    Takes crc32c (nextRecord crc32c) stored
      ⟨stored.header, stored.encode crc32c⟩ :=
  nextRecord_encode stored

/-- The payload follows the header of a stored record. -/
theorem drop_encode (stored : StoredRecord) :
    (stored.encode crc32c).drop recHeaderSize = stored.payload := by
  have payloadEq := stored.encode_eq crc32c
  nth_rewrite 1 [← take_append_drop recHeaderSize
    (stored.encode crc32c)] at payloadEq
  exact append_cancel_left payloadEq

theorem nextObject_takes
    (decodes : decodePayload codecs stored.flags stored.ulen stored.payload =
      .ok data) :
    Takes crc32c (nextObject crc32c codecs) stored (stored.key, data) := by
  intro tail
  unfold nextObject
  rw [nextRecord_encode, ok_bind]
  dsimp only
  rw [drop_encode]
  simp [StoredRecord.header, decodes]

section Runs

variable {read : Reader → Except StreamError (Option α × Reader)}
variable (follows : Follows crc32c read)

include follows

theorem calls_magic (rest : Bytes) (count : Nat) :
    calls read count (new (packMagic ++ rest)) =
      calls read count ⟨rest, .records⟩ := by
  cases count with
  | zero => rfl
  | succ count =>
    simp only [calls, step, new, reduceCtorEq, if_false, follows.start]
    split <;> simp

omit follows in
theorem calls_takes
    (takes : Takes crc32c read stored value)
    (tail : Bytes) (count : Nat) :
    calls read (count + 1) ⟨stored.encode crc32c ++ tail, .records⟩ =
      some (.ok value) :: calls read count ⟨tail, .records⟩ := by
  simp [calls, step, takes tail]

theorem calls_fail
    (notDone : reader.state ≠ .done)
    (fails : nextRecord crc32c reader = .error error)
    (count : Nat) :
    calls read (count + 1) reader =
      some (.error error) :: List.replicate count none := by
  simp [calls, step, notDone, follows.fail fails]

/-- A whole stream is read as its records, then a clean end. -/
theorem calls_whole
    (takes : List.Forall₂ (Takes crc32c read) records values)
    (extra : Nat) :
    calls read (values.length + extra)
        ⟨(records.map (·.encode crc32c)).flatten ++ [tagEnd], .records⟩ =
      values.map (some ∘ .ok) ++ List.replicate extra none := by
  induction takes with
  | nil =>
    cases extra with
    | zero => rfl
    | succ extra =>
      simp [calls, step, follows.finish, replicate_succ]
  | @cons stored value records values first _ ih =>
    rw [map_cons, flatten_cons, append_assoc, length_cons, Nat.add_right_comm,
      calls_takes first, ih]
    rfl

/-- A stream cut short is read as the records that are whole in it, then one
error. -/
theorem calls_torn
    (takes : List.Forall₂ (Takes crc32c read) records values)
    (split : torn ++ missing =
      (records.map (·.encode crc32c)).flatten ++ [tagEnd])
    (strict : missing ≠ []) :
    ∃ whole error, whole ≤ values.length ∧
      (∀ j < values.length, j < whole ↔
        ((records.map (·.encode crc32c)).take (j + 1)).flatten.length ≤
          torn.length) ∧
      ∀ extra, calls read (whole + 1 + extra) ⟨torn, .records⟩ =
        (values.take whole).map (some ∘ .ok) ++
          some (.error error) :: List.replicate extra none := by
  induction takes generalizing torn with
  | nil =>
    obtain rfl : torn = [] := by
      cases torn with
      | nil => rfl
      | cons byte torn =>
        obtain ⟨-, rest⟩ := List.cons.inj split
        exact absurd (append_eq_nil_iff.mp rest).2 strict
    obtain ⟨error, fails⟩ : ∃ error,
        nextRecord crc32c ⟨[], .records⟩ = .error error := ⟨_, rfl⟩
    refine ⟨0, error, le_rfl, by simp, fun extra => ?_⟩
    rw [Nat.zero_add, Nat.add_comm]
    exact calls_fail follows (by simp) fails extra
  | @cons stored value records values first _ ih =>
    rw [map_cons, flatten_cons, append_assoc] at split
    obtain ⟨cut, cutShort, isCut⟩ | ⟨torn', rfl, rest⟩ := cut_or_whole split
    · obtain ⟨error, fails⟩ := nextRecord_torn isCut cutShort
      have shorter := congrArg List.length isCut
      rw [length_append] at shorter
      have cutLength := length_pos_iff.mpr cutShort
      refine ⟨0, error, Nat.zero_le _, fun j _ => ?_, fun extra => ?_⟩
      · simp only [map_cons, take_succ_cons, flatten_cons, length_append]
        omega
      · rw [Nat.zero_add, Nat.add_comm]
        exact calls_fail follows (by simp) fails extra
    · obtain ⟨whole, error, wholeLe, ends, results⟩ := ih rest
      refine ⟨whole + 1, error, by simpa using wholeLe, ?_, fun extra => ?_⟩
      · intro j inRange
        cases j with
        | zero => simp
        | succ j =>
          simp only [length_cons, Nat.add_lt_add_iff_right] at *
          rw [ends j inRange]
          simp
      · rw [Nat.add_right_comm (whole + 1), calls_takes first, results]
        rfl

end Runs

end Reader

/-- Where a record of a pack ends. -/
def recordEnd (encoded : List Bytes) (position : Nat) : Nat :=
  packMagic.length + (encoded.take (position + 1)).flatten.length

/-- The beginning of a pack is read as the values whose records are whole in
it, then one error, then nothing. -/
def Reader.StopsShort
    (read : Reader → Except StreamError (Option α × Reader))
    (values : List α) (encoded : List Bytes) (beginning : Bytes) : Prop :=
  ∃ whole error, whole ≤ values.length ∧
    (∀ j < values.length, j < whole ↔ recordEnd encoded j ≤ beginning.length) ∧
    ∀ extra, Reader.calls read (whole + 1 + extra) (Reader.new beginning) =
      (values.take whole).map (some ∘ .ok) ++
        some (.error error) :: List.replicate extra none

/-- A pack cut short in its magic or after it stops short. -/
theorem Reader.stopsShort_of_cut
    {read : Reader → Except StreamError (Option α × Reader)}
    (follows : Follows crc32c read)
    {records : List StoredRecord}
    (takes : List.Forall₂ (Takes crc32c read) records values)
    (split : beginning ++ missing = packMagic ++
      ((records.map (·.encode crc32c)).flatten ++ [tagEnd]))
    (strict : missing ≠ []) :
    StopsShort read values (records.map (·.encode crc32c)) beginning := by
  obtain ⟨cut, cutShort, isCut⟩ | ⟨torn, rfl, rest⟩ := cut_or_whole split
  · have shorter := congrArg List.length isCut
    rw [length_append] at shorter
    have cutLength := length_pos_iff.mpr cutShort
    obtain ⟨error, fails⟩ : ∃ error,
        nextRecord crc32c (new beginning) = .error error := by
      have tooShort : ¬ packMagic.length ≤ beginning.length := by omega
      refine ⟨.malformed ("reading magic" ++
        ": failed to fill whole buffer"), ?_⟩
      unfold nextRecord ensureMagic readMagic readFull new
      rw [if_pos rfl, if_neg tooShort]
      rfl
    refine ⟨0, error, Nat.zero_le _, fun j _ => ?_, fun extra => ?_⟩
    · unfold recordEnd
      omega
    · rw [Nat.zero_add, Nat.add_comm]
      exact calls_fail follows (by simp [new]) fails extra
  · obtain ⟨whole, error, wholeLe, ends, results⟩ :=
      calls_torn follows takes rest strict
    refine ⟨whole, error, wholeLe, fun j inRange => ?_, fun extra => ?_⟩
    · rw [ends j inRange, recordEnd, length_append, Nat.add_le_add_iff_left]
    · rw [calls_magic follows, results]

/-! ## What the writer wrote -/

section Encoding

variable {compressors : Compressors} {codecs : Codecs}
variable {compression : Compression}

/-- A compressed payload is strictly smaller, under a codec the format knows,
and decodes to the object. -/
theorem compress_eq_some
    (inverted : compressors.InvertedBy codecs)
    (fits : data.length ≤ maxPayload)
    (compressed : compress compressors compression data = some payload) :
    payload.length < data.length ∧ compression.codec ≠ codecRaw ∧
      compression.codec ≤ codecLz4 ∧
      decodePayload codecs compression.codec data.length payload =
        .ok data := by
  unfold compress at compressed
  split at compressed
  next => cases compressed
  next =>
    obtain ⟨made, smaller⟩ := Option.filter_eq_some_iff.mp compressed
    refine ⟨by simpa using smaller, ?_⟩
    cases compression with
    | none => cases made
    | zstd level =>
      have notRaw : codecZstd ≠ codecRaw := by decide
      have known : codecZstd ≤ codecLz4 := by decide
      refine ⟨notRaw, known, ?_⟩
      unfold decodePayload Compression.codec
      rw [if_neg notRaw, if_pos rfl, inverted.zstd made]
      simp [checkDecoded]
    | lz4 level =>
      have notRaw : codecLz4 ≠ codecRaw := by decide
      have notZstd : codecLz4 ≠ codecZstd := by decide
      have inRange : ¬ data.length ≥ 2 ^ 31 := by
        have bound : maxPayload < 2 ^ 31 := by decide
        omega
      have known : codecLz4 ≤ codecLz4 := by decide
      refine ⟨notRaw, known, ?_⟩
      unfold decodePayload Compression.codec
      rw [if_neg notRaw, if_neg notZstd, if_pos rfl, if_neg inRange,
        inverted.lz4 made]
      simp [checkDecoded]

/-- An object is encoded as a record of its key that decodes to it. -/
theorem encodeRecordWith_eq_ok
    (inverted : compressors.InvertedBy codecs)
    (valid : compression.validate = .ok ())
    {key : Key} (canonical : key.Canonical)
    {data : Bytes} (fits : data.length ≤ maxPayload) :
    ∃ stored : StoredRecord, stored.key = key ∧
      encodeRecordWith crc32c compressors key data compression =
        .ok (stored.encode crc32c) ∧
      decodePayload codecs stored.flags stored.ulen stored.payload =
        .ok data := by
  unfold encodeRecordWith
  rw [valid, ok_bind, if_neg (Nat.not_lt.mpr fits)]
  cases compressed : compress compressors compression data with
  | none =>
    exact ⟨.raw key canonical data fits, rfl, rfl, rfl⟩
  | some payload =>
    obtain ⟨smaller, notRaw, known, decodes⟩ :=
      compress_eq_some inverted fits compressed
    exact ⟨⟨key, compression.codec, data.length, payload, canonical, known,
      fits, fun raw => absurd raw notRaw, fun _ => smaller⟩, rfl, rfl,
      decodes⟩

/-- Adding an object lays its record down after the magic and what was
written. -/
theorem Writer.add_eq_ok
    {writer : Writer}
    (encodes : encodeRecordWith crc32c compressors key data
      writer.compression = .ok bytes) :
    ∃ next, writer.add crc32c compressors key data = .ok next ∧
      next.compression = writer.compression ∧
      next.ensureHeader.out = writer.ensureHeader.out ++ bytes := by
  have keeps : writer.ensureHeader.compression = writer.compression := by
    unfold ensureHeader
    split <;> rfl
  refine ⟨{ writer.ensureHeader with
    out := writer.ensureHeader.out ++ bytes }, ?_, keeps, ?_⟩
  · unfold add
    dsimp only
    rw [keeps, encodes, ok_bind]
  · unfold ensureHeader
    cases written : writer.wroteHeader <;> simp [written]

/-- The writer lays the magic down once, and the records after it. -/
theorem foldlM_add
    {objects : List (Key × Bytes)} {encoded : List Bytes}
    (encodes : List.Forall₂ (fun object bytes =>
      encodeRecordWith crc32c compressors object.1 object.2 compression =
        .ok bytes) objects encoded)
    {writer : Writer} (same : writer.compression = compression) :
    ∃ last, objects.foldlM (fun writer object =>
        writer.add crc32c compressors object.1 object.2) writer = .ok last ∧
      last.ensureHeader.out = writer.ensureHeader.out ++ encoded.flatten := by
  induction encodes generalizing writer with
  | nil => exact ⟨writer, rfl, by simp⟩
  | @cons object bytes objects encoded first _ ih =>
    subst same
    obtain ⟨next, added, keeps, out⟩ := Writer.add_eq_ok first
    obtain ⟨last, folded, lastOut⟩ := ih keeps
    refine ⟨last, ?_, ?_⟩
    · rw [foldlM_cons, added]
      exact folded
    · rw [lastOut, out, flatten_cons, append_assoc]

theorem writePack_eq_ok
    {encoded : List Bytes}
    (encodes : List.Forall₂ (fun object bytes =>
      encodeRecordWith crc32c compressors object.1 object.2 compression =
        .ok bytes) objects encoded) :
    writePack crc32c compressors compression objects =
      .ok (packMagic ++ (encoded.flatten ++ [tagEnd])) := by
  obtain ⟨last, folded, out⟩ := foldlM_add encodes
    (rfl : (Writer.new compression).compression = compression)
  unfold writePack
  rw [folded, ok_bind, Writer.finish, out]
  simp [Writer.ensureHeader, Writer.new]

/-- Objects are encoded as records of their keys that decode to them. -/
theorem exists_records
    (crc32c : Bytes → UInt32)
    (inverted : compressors.InvertedBy codecs)
    (valid : compression.validate = .ok ())
    {objects : List (Key × Bytes)}
    (canonical : ∀ object ∈ objects, object.1.Canonical)
    (fits : ∀ object ∈ objects, object.2.length ≤ maxPayload) :
    ∃ records : List StoredRecord, List.Forall₂ (fun object stored =>
      stored.key = object.1 ∧
      encodeRecordWith crc32c compressors object.1 object.2 compression =
        .ok (stored.encode crc32c) ∧
      decodePayload codecs stored.flags stored.ulen stored.payload =
        .ok object.2) objects records := by
  induction objects with
  | nil => exact ⟨[], .nil⟩
  | cons object objects ih =>
    rw [forall_mem_cons] at canonical fits
    obtain ⟨stored, encodes⟩ := @encodeRecordWith_eq_ok crc32c _ _ _
      inverted valid _ canonical.1 _ fits.1
    obtain ⟨records, rest⟩ := ih canonical.2 fits.2
    exact ⟨stored :: records, .cons encodes rest⟩

/-- A pack is read as the objects that were written, by either iterator, and
then ends; a strict beginning of it is read as the objects whose records are
whole in it, then one error, then nothing. -/
theorem writePack_reads_back
    (crc32c : Bytes → UInt32)
    (inverted : compressors.InvertedBy codecs)
    (valid : compression.validate = .ok ())
    (objects : List (Key × Bytes))
    (canonical : ∀ object ∈ objects, object.1.Canonical)
    (fits : ∀ object ∈ objects, object.2.length ≤ maxPayload) :
    ∃ encoded stream,
      List.Forall₂ (fun object bytes => encodeRecordWith crc32c compressors
        object.1 object.2 compression = .ok bytes) objects encoded ∧
      writePack crc32c compressors compression objects = .ok stream ∧
      (∀ extra, Reader.calls (Reader.nextObject crc32c codecs)
          (objects.length + extra) (Reader.new stream) =
        objects.map (some ∘ .ok) ++ List.replicate extra none) ∧
      (∃ raws, List.Forall₂ (fun object (raw : RawRecord) =>
          raw.record.key = object.1 ∧
          parseRecord crc32c raw.bytes = .ok raw.record ∧
          decodePayload codecs raw.record.flags raw.record.ulen
            (raw.bytes.drop recHeaderSize) = .ok object.2) objects raws ∧
        ∀ extra, Reader.calls (Reader.nextRecord crc32c)
            (objects.length + extra) (Reader.new stream) =
          raws.map (some ∘ .ok) ++ List.replicate extra none) ∧
      ∀ beginning, beginning <+: stream → beginning ≠ stream →
        Reader.StopsShort (Reader.nextObject crc32c codecs) objects encoded
          beginning := by
  obtain ⟨records, encodes⟩ :=
    exists_records crc32c inverted valid canonical fits
  have objectsTaken : List.Forall₂ (Reader.Takes crc32c
      (Reader.nextObject crc32c codecs)) records objects := by
    refine (encodes.imp ?_).flip
    rintro ⟨key, data⟩ stored ⟨rfl, -, decodes⟩
    exact Reader.nextObject_takes decodes
  have recordsTaken : List.Forall₂ (Reader.Takes crc32c
      (Reader.nextRecord crc32c)) records (records.map fun stored =>
        ⟨stored.header, stored.encode crc32c⟩) := by
    rw [List.forall₂_map_right_iff, List.forall₂_same]
    intro stored _
    exact Reader.nextRecord_takes stored
  have sameLength := encodes.length_eq
  have encoded : List.Forall₂ (fun object bytes => encodeRecordWith crc32c
      compressors object.1 object.2 compression = .ok bytes) objects
      (records.map (·.encode crc32c)) := by
    rw [List.forall₂_map_right_iff]
    exact encodes.imp fun _ _ encodes => encodes.2.1
  refine ⟨_, _, encoded, writePack_eq_ok encoded, fun extra => ?_,
    ⟨records.map fun stored => ⟨stored.header, stored.encode crc32c⟩, ?_,
      fun extra => ?_⟩, ?_⟩
  · rw [Reader.calls_magic (Reader.nextObject_follows codecs)]
    exact Reader.calls_whole (Reader.nextObject_follows codecs) objectsTaken
      extra
  · rw [List.forall₂_map_right_iff]
    refine encodes.imp ?_
    rintro ⟨key, data⟩ stored ⟨rfl, -, decodes⟩
    have parsed := stored.parseRecord_encode_append crc32c []
    rw [append_nil] at parsed
    refine ⟨rfl, parsed, ?_⟩
    rw [Reader.drop_encode]
    exact decodes
  · have whole := Reader.calls_whole Reader.nextRecord_follows recordsTaken
      extra
    rw [Reader.calls_magic Reader.nextRecord_follows]
    rwa [length_map, ← sameLength] at whole
  · rintro beginning ⟨missing, split⟩ strict
    refine Reader.stopsShort_of_cut (Reader.nextObject_follows codecs)
      objectsTaken split ?_
    rintro rfl
    exact strict (by rw [← split, append_nil])

/-- Compressors that make one byte of a run of it. -/
def runCompressors : Compressors where
  zstd _ data :=
    if data = List.replicate data.length (byteAt data 0)
    then some [byteAt data 0] else none
  lz4 _ _ := none

/-- The decompressors of runs. -/
def runCodecs : Codecs where
  zstd stored ulen := .ok (List.replicate ulen (byteAt stored 0))
  lz4 _ _ := .error "no block"

theorem runCompressors_invertedBy : runCompressors.InvertedBy runCodecs where
  zstd := by
    intro level data out made
    simp only [runCompressors, Option.ite_none_right_eq_some] at made
    obtain ⟨isRun, same⟩ := made
    cases same
    exact congrArg Except.ok isRun.symm
  lz4 made := by cases made

/-- A pack of a compressed, a raw and an empty object. -/
theorem writePack_reads_back_three :
    let key : Key := ⟨List.replicate 32 0, rfl⟩
    let objects : List (Key × Bytes) :=
      [(key, [5, 5, 5]), (key, [1, 2]), (key, [])]
    ∃ encoded stream,
      List.Forall₂ (fun object bytes => encodeRecordWith (fun _ => 0)
        runCompressors object.1 object.2 (.zstd 7) = .ok bytes)
        objects encoded ∧
      writePack (fun _ => 0) runCompressors (.zstd 7) objects = .ok stream ∧
      ∀ beginning, beginning <+: stream → beginning ≠ stream →
        Reader.StopsShort (Reader.nextObject (fun _ => 0) runCodecs) objects
          encoded beginning := by
  intro key objects
  obtain ⟨encoded, stream, encodes, written, -, -, stops⟩ :=
    @writePack_reads_back runCompressors runCodecs (.zstd 7) (fun _ => 0)
      runCompressors_invertedBy rfl objects (by decide) (by decide)
  exact ⟨encoded, stream, encodes, written, stops⟩

end Encoding

end AmberStore.Amberpack
