import AmberStore.Packstore.Footer
import AmberStore.Packstore.Log

/-!
# The sidecar index of an active segment

The sidecar mirrors an active segment's index on disk as an append-only log of
fixed-size records: an entry for each record of the data file, and marks of
the data length known durable.  Reading it stops at the first record the
encoder would not have produced.
-/

open ByteString List

namespace AmberStore.Packstore

/-- The size of one sidecar record. -/
abbrev sidecarRecSize : Nat := 56

/-- The eight-byte sidecar file header. -/
abbrev sidecarMagic : Bytes :=
  [0x41, 0x4d, 0x42, 0x45, 0x52, 0x49, 0x58, 0x01]

/-- What a sidecar record says. -/
inductive SidecarKind
  | entry
  | synced
  deriving DecidableEq, Repr

/-- The kind's byte. -/
def SidecarKind.toU8 : SidecarKind → UInt8
  | entry => 0x01
  | synced => 0x02

/-- One sidecar record.  In a mark all but the kind and `off` are zero. -/
structure SidecarRec where
  kind : SidecarKind
  k : Key
  /-- An entry's record offset; the durable length in a mark. -/
  off : Nat
  flags : UInt8
  ulen : Nat
  slen : Nat
  deriving DecidableEq

/-- The key of all zero bytes. -/
def zeroKey : Key :=
  ⟨List.replicate 32 0, length_replicate⟩

/-- A value as a signed 64-bit integer. -/
def wrapI64 (value : Int) : Int :=
  value.bmod (2 ^ 64)

namespace SidecarRec

/-- The entry for the record of a key. -/
def entry (k : Key) (loc : ActiveLoc) : SidecarRec :=
  ⟨.entry, k, loc.off, loc.flags, loc.ulen, loc.slen⟩

/-- The mark that the first bytes of the data file are durable. -/
def synced (dataLen : Nat) : SidecarRec :=
  ⟨.synced, zeroKey, dataLen, 0, 0, 0⟩

/-- An entry's place in the data file. -/
def loc (record : SidecarRec) : ActiveLoc :=
  ⟨record.off, record.flags, record.ulen, record.slen⟩

/-- The offset as a signed integer. -/
def offI64 (record : SidecarRec) : Int :=
  wrapI64 record.off

/-- The data offset just past an entry's record, in wrapping signed
arithmetic. -/
def end_ (record : SidecarRec) : Int :=
  wrapI64 (wrapI64 (record.offI64 + Amberpack.recHeaderSize) + record.slen)

/-- The fields in front of the CRC. -/
def fields (record : SidecarRec) : List Bytes :=
  [[record.kind.toU8], record.k.bytes, beBytes 8 record.off, [record.flags],
    beBytes 4 record.ulen, beBytes 4 record.slen, [0], [0]]

section Codec

variable (crc32c : Bytes → UInt32)

/-- The record's bytes. -/
def encode (record : SidecarRec) : Bytes :=
  record.fields.flatten ++ beBytes 4 (crc32c record.fields.flatten).toNat

/-- The kind a byte stands for. -/
def kindOf (byte : UInt8) : Option SidecarKind :=
  if byte = SidecarKind.entry.toU8 then some .entry
  else if byte = SidecarKind.synced.toU8 then some .synced
  else none

/-- Parses one record; none for anything the encoder would not have
produced. -/
def decode (bytes : Bytes) : Option SidecarRec :=
  if bytes.length < sidecarRecSize then none
  else if (crc32c (bytes.take 52)).toNat ≠ readBe bytes 52 4 then none
  else if keyed : (slice bytes 1 33).length = 32 then
    if byteAt bytes 50 ≠ 0 ∨ byteAt bytes 51 ≠ 0 then none
    else
      match kindOf (byteAt bytes 0) with
      | none => none
      | some kind =>
        let record : SidecarRec :=
          { kind := kind
            k := ⟨slice bytes 1 33, keyed⟩
            off := readBe bytes 33 8
            flags := byteAt bytes 41
            ulen := readBe bytes 42 4
            slen := readBe bytes 46 4 }
        if kind = .synced ∧ (record.k ≠ zeroKey ∨ record.flags ≠ 0 ∨
            record.ulen ≠ 0 ∨ record.slen ≠ 0) then
          none
        else
          some record
  else none

/-! ## Round trip -/

/-- A record whose fields fit where they are written, and whose fields are
zero where its kind says so. -/
structure WellFormed (record : SidecarRec) : Prop where
  off_lt : record.off < 2 ^ 63
  ulen_lt : record.ulen < 2 ^ 32
  slen_lt : record.slen < 2 ^ 32
  mark : record.kind = .synced →
    record.k = zeroKey ∧ record.flags = 0 ∧ record.ulen = 0 ∧ record.slen = 0

@[simp] theorem fields_flatten_length (record : SidecarRec) :
    record.fields.flatten.length = 52 := by
  simp [fields, record.k.bytes_length]

@[simp] theorem encode_length (record : SidecarRec) :
    (record.encode crc32c).length = sidecarRecSize := by
  rw [encode, length_append, fields_flatten_length, beBytes_length]

theorem kindOf_toU8 (kind : SidecarKind) :
    kindOf kind.toU8 = some kind := by
  cases kind <;> rfl

/-- A well-formed record is read back from its bytes. -/
theorem WellFormed.decode_encode
    (formed : record.WellFormed) :
    decode crc32c (record.encode crc32c) = some record := by
  have keyLength := record.k.bytes_length
  have offFits : record.off < 256 ^ 8 :=
    Nat.lt_of_lt_of_le formed.off_lt (by decide)
  have key : slice (record.encode crc32c) 1 33 = record.k.bytes :=
    @slice_flatten _ _ 1 1 33 _ rfl (by simp [fields]) (by rw [keyLength])
  have zero : byteAt (record.encode crc32c) 50 = 0 :=
    @byteAt_flatten _ _ 6 50 _ rfl (by simp [fields, keyLength])
  have zero' : byteAt (record.encode crc32c) 51 = 0 :=
    @byteAt_flatten _ _ 7 51 _ rfl (by simp [fields, keyLength])
  have kind : byteAt (record.encode crc32c) 0 = record.kind.toU8 := rfl
  have flags : byteAt (record.encode crc32c) 41 = record.flags :=
    @byteAt_flatten _ _ 3 41 _ rfl (by simp [fields, keyLength])
  have off : readBe (record.encode crc32c) 33 8 = record.off :=
    @readBe_flatten _ _ 2 33 8 _ rfl (by simp [fields, keyLength]) offFits
  have ulen : readBe (record.encode crc32c) 42 4 = record.ulen :=
    @readBe_flatten _ _ 4 42 4 _ rfl (by simp [fields, keyLength])
      formed.ulen_lt
  have slen : readBe (record.encode crc32c) 46 4 = record.slen :=
    @readBe_flatten _ _ 5 46 4 _ rfl (by simp [fields, keyLength])
      formed.slen_lt
  have crc : readBe (record.encode crc32c) 52 4 =
      (crc32c record.fields.flatten).toNat := by
    have ending := readBe_field record.fields.flatten []
      record.fields_flatten_length
      (show _ < 256 ^ 4 from (crc32c record.fields.flatten).toNat_lt)
    rwa [append_nil] at ending
  have covered : (record.encode crc32c).take 52 = record.fields.flatten := by
    rw [encode, ← record.fields_flatten_length, take_left]
  unfold decode
  rw [if_neg (by rw [encode_length]; omega), covered, crc,
    if_neg (by simp), dif_pos (by rw [key, keyLength]), zero, zero',
    if_neg (by simp), kind, kindOf_toU8]
  simp only [key, off, flags, ulen, slen]
  rw [if_neg]
  rintro ⟨isMark, notZero⟩
  obtain ⟨keyZero, flagsZero, ulenZero, slenZero⟩ := formed.mark isMark
  rcases notZero with keyed | flagged | sized | stored
  · exact keyed keyZero
  · exact flagged flagsZero
  · exact sized ulenZero
  · exact stored slenZero

end Codec

end SidecarRec

section Read

variable (crc32c : Bytes → UInt32)

/-- The records of a byte string from a record boundary on, and how many bytes
they cover. -/
def readRecords : (fuel : Nat) → Bytes → List SidecarRec × Nat
  | 0, _ => ([], 0)
  | fuel + 1, bytes =>
    if sidecarRecSize ≤ bytes.length then
      match SidecarRec.decode crc32c (bytes.take sidecarRecSize) with
      | none => ([], 0)
      | some record =>
        let (records, covered) :=
          readRecords fuel (bytes.drop sidecarRecSize)
        (record :: records, sidecarRecSize + covered)
    else
      ([], 0)

/-- Parses a whole sidecar file (`atStart`), or the bytes from a record
boundary on: the records up to the first invalid or partial one, and the
number of bytes they cover, magic included. -/
def readSidecar (bytes : Bytes) (atStart : Bool) : List SidecarRec × Nat :=
  if atStart then
    if bytes.length < sidecarMagic.length ∨
        bytes.take sidecarMagic.length ≠ sidecarMagic then
      ([], 0)
    else
      let (records, covered) :=
        readRecords crc32c bytes.length (bytes.drop sidecarMagic.length)
      (records, sidecarMagic.length + covered)
  else
    readRecords crc32c bytes.length bytes

/-! ## Reading a cut sidecar -/

/-- Reading stops at the cut: the records before it are read back. -/
theorem readRecords_take
    (formed : ∀ record ∈ records, record.WellFormed)
    (enough : cut ≤ fuel * sidecarRecSize) :
    ∃ kept, kept <+: records ∧
      readRecords crc32c fuel
        ((records.flatMap (SidecarRec.encode crc32c)).take cut) =
          (kept, kept.length * sidecarRecSize) := by
  induction records generalizing fuel cut with
  | nil =>
    refine ⟨[], nil_prefix, ?_⟩
    cases fuel with
    | zero => rfl
    | succ fuel => simp [readRecords]
  | cons record records ih =>
    cases fuel with
    | zero => exact ⟨[], nil_prefix, rfl⟩
    | succ fuel =>
      have recordLength := record.encode_length crc32c
      rw [flatMap_cons]
      by_cases whole : sidecarRecSize ≤ cut
      · obtain ⟨kept, isPrefix, restRead⟩ := ih
          (fun later member => formed later
            (mem_cons_of_mem _ member))
          (show cut - sidecarRecSize ≤ fuel * sidecarRecSize by
            rw [Nat.add_mul, Nat.one_mul] at enough
            omega)
        refine ⟨record :: kept, cons_prefix_cons.mpr ⟨rfl, isPrefix⟩, ?_⟩
        have split : (record.encode crc32c ++
            records.flatMap (SidecarRec.encode crc32c)).take cut =
              record.encode crc32c ++
                (records.flatMap (SidecarRec.encode crc32c)).take
                  (cut - sidecarRecSize) := by
          rw [take_append, take_of_length_le
            (by rw [recordLength]; exact whole), recordLength]
        have decoded := (formed record mem_cons_self).decode_encode crc32c
        rw [split, readRecords, if_pos (by
          rw [length_append, recordLength]; omega)]
        rw [← recordLength, take_left, drop_left, decoded, recordLength]
        simp only [restRead, length_cons, Nat.add_mul, Nat.one_mul,
          Nat.add_comm]
      · refine ⟨[], nil_prefix, ?_⟩
        rw [readRecords, if_neg (by
          rw [length_take]
          omega)]
        rfl

/-- A cut sidecar file reads as nothing, or as the records before the cut. -/
theorem readSidecar_take
    (formed : ∀ record ∈ records, record.WellFormed) (cut : Nat) :
    ∃ kept, kept <+: records ∧
      readSidecar crc32c ((sidecarMagic ++
        records.flatMap (SidecarRec.encode crc32c)).take cut) true =
          if cut < sidecarMagic.length then ([], 0)
          else (kept, sidecarMagic.length + kept.length * sidecarRecSize) := by
  have magicLength : sidecarMagic.length = 8 := rfl
  by_cases short : cut < sidecarMagic.length
  · refine ⟨[], nil_prefix, ?_⟩
    rw [readSidecar, if_pos rfl, if_pos short, if_pos (Or.inl ?_)]
    rw [length_take]
    omega
  · let size := min (cut - 8)
      (records.flatMap (SidecarRec.encode crc32c)).length
    have split : (sidecarMagic ++
        records.flatMap (SidecarRec.encode crc32c)).take cut =
          sidecarMagic ++
            (records.flatMap (SidecarRec.encode crc32c)).take size := by
      rw [take_append, take_of_length_le (Nat.not_lt.mp short),
        magicLength, take_eq_take_min]
    have total : (sidecarMagic ++ (records.flatMap
        (SidecarRec.encode crc32c)).take size).length = 8 + size := by
      rw [length_append, length_take, magicLength]
      omega
    obtain ⟨kept, isPrefix, keptRead⟩ := readRecords_take crc32c formed
      (show size ≤ (8 + size) * sidecarRecSize by unfold sidecarRecSize; omega)
    refine ⟨kept, isPrefix, ?_⟩
    rw [split, readSidecar, if_pos rfl, if_neg short, total,
      take_left, drop_left, if_neg, keptRead]
    rintro (tooShort | wrong)
    · omega
    · exact wrong rfl

end Read

end AmberStore.Packstore
