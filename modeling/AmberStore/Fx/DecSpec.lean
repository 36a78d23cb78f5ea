import AmberStore.Cbor.Item
import AmberStore.Fx.Dec
import AmberStore.Fx.WellformedSpec
import AmberStore.Key
import Mathlib.Data.List.Perm.Subperm

/-!
# Targets are filled by their encodings

On deterministic bytes every target of the typed decoder takes exactly the bytes
of one value, records no error, and leaves what follows them.
-/

open ByteString
open List hiding elem head

namespace AmberStore.Fx

open Cbor

/-- A target reads these bytes as this value, whatever follows them. -/
def Fills (target : Bytes → Parsed α) (bytes : Bytes) (value : α) : Prop :=
  ∀ rest, target (bytes ++ rest) = ⟨value, none, rest⟩

/-! ## Heads -/

theorem map_nextInitialByte (bytes rest : Bytes) :
    (List.range bytes.length).map
        (fun i => nextInitialByte ((bytes ++ rest).drop i)) = bytes := by
  apply ext_getElem
  · simp
  · intro i inRange inBytes
    simp only [getElem_map, getElem_range]
    rw [drop_append_of_le_length (le_of_lt inBytes),
      drop_eq_getElem_cons inBytes]
    rfl

/-- A written head is read, and its length is not open. -/
theorem getHead_appendHead
    (major : Major) (n : Nat) (rest : Bytes) (fits : n < 2 ^ 64) :
    ∃ ai, ai ≠ 31 ∧
      getHead (appendHead major n ++ rest) = ⟨major, ai, n, rest⟩ := by
  obtain ⟨ai, spells, -, written⟩ := appendHead_eq major n fits
  obtain ⟨typed, low⟩ := spells.fromInitialByte major
  refine ⟨ai, ?_, ?_⟩
  · rintro rfl
    exact absurd spells.lt (by decide)
  · have sized : (beBytes (argWidth ai) n).length = argWidth ai :=
      beBytes_length _ _
    simp only [written, cons_append, getHead, nextInitialByte_cons, typed, low,
      drop_succ_cons, drop_zero]
    rcases spells with ⟨inHead, value⟩ | ⟨notInHead, wide, bound⟩
    · rw [if_pos (argWidth_of_le inHead), value, argWidth_of_le inHead]
      rfl
    · have argument := map_nextInitialByte (beBytes (argWidth ai) n) rest
      rw [sized] at argument
      rw [if_neg (argWidth_ne_zero notInHead wide), argument,
        beNat_beBytes_of_lt bound, drop_append_of_le_length (by simp),
        drop_eq_nil_of_le (by simp), nil_append]

theorem nextType_appendHead
    (major : Major) (n : Nat) (rest : Bytes) (fits : n < 2 ^ 64) :
    nextType (appendHead major n ++ rest) = major := by
  obtain ⟨ai, spells, -, written⟩ := appendHead_eq major n fits
  rw [written]
  exact (spells.fromInitialByte major).1

theorem prologue_of_untagged
    (untagged : nextType data ≠ .tag) :
    prologue data = .ok data := by
  have stripped : stripSelfDescribed data = data := by
    rw [stripSelfDescribed, dif_neg untagged]
  have checked : checkTags data = .ok () := by
    rw [checkTags, dif_neg untagged]
  simp only [prologue, stripped, checked]

/-- Where no tag comes next, nothing is unwrapped. -/
theorem unwrap_of_untagged
    (untagged : nextType data ≠ .tag) :
    unwrap data = .ok data := by
  rw [unwrap, prologue_of_untagged untagged]
  simp only [dif_neg untagged]

/-- A target is handed a value that is not tagged. -/
theorem underTags_of_untagged
    (untagged : nextType data ≠ .tag)
    (zero : α) (target : Bytes → Parsed α) :
    underTags zero target data = target data := by
  rw [underTags, unwrap_of_untagged untagged]

/-! ## Strings and integers -/

/-- A byte string is read by its length. -/
theorem parseByteString_appendBstr
    (content rest : Bytes) (fits : content.length < 2 ^ 63) :
    parseByteString (appendBstr content ++ rest) = (content, rest) := by
  obtain ⟨ai, notOpen, isRead⟩ := getHead_appendHead .bstr content.length
    (content ++ rest) (by omega)
  rw [parseByteString, appendBstr, append_assoc, isRead]
  simp [notOpen]

/-- A text is read by its length. -/
theorem parseTextString_appendTstr
    (text : String) (rest : Bytes) (fits : (utf8 text).length < 2 ^ 63) :
    parseTextString (appendTstr text ++ rest) = (.ok (utf8 text), rest) := by
  obtain ⟨ai, notOpen, isRead⟩ := getHead_appendHead .tstr (utf8 text).length
    (utf8 text ++ rest) (by omega)
  rw [parseTextString, appendTstr, append_assoc, isRead]
  simp [notOpen]

/-- Bytes fill a byte string. -/
theorem fills_appendBstr
    (goType : String) (content : Bytes) (fits : content.length < 2 ^ 63) :
    Fills (parseToBytes goType) (appendBstr content) content := by
  intro rest
  have typed : nextType (appendBstr content ++ rest) = .bstr := by
    rw [appendBstr, append_assoc]
    exact nextType_appendHead _ _ _ (by omega)
  rw [parseToBytes, underTags_of_untagged (by rw [typed]; decide)]
  simp only [typed, parseByteString_appendBstr content rest fits]

/-- Text fills a text. -/
theorem fills_appendTstr
    (text : String) (fits : (utf8 text).length < 2 ^ 63) :
    Fills parseToString (appendTstr text) text := by
  intro rest
  have typed : nextType (appendTstr text ++ rest) = .tstr := by
    rw [appendTstr, append_assoc]
    exact nextType_appendHead _ _ _ (by omega)
  rw [parseToString, underTags_of_untagged (by rw [typed]; decide)]
  simp only [typed, parseTextString_appendTstr text rest fits, fromUtf8_utf8,
    Option.getD_some]

/-- An integer fills an integer. -/
theorem fills_appendInt (value : Int64) :
    Fills parseToI64 (appendInt value) value := by
  intro rest
  unfold appendInt
  by_cases nonneg : 0 ≤ value
  · obtain ⟨small, spelled⟩ := ofNat_bits_of_nonneg nonneg
    obtain ⟨ai, -, isRead⟩ := getHead_appendHead .uint value.toUInt64.toNat
      rest (by omega)
    have typed := nextType_appendHead .uint value.toUInt64.toNat rest (by omega)
    have inRange : ¬i64Max < value.toUInt64.toNat := by
      change ¬2 ^ 63 - 1 < _
      omega
    rw [if_pos nonneg, parseToI64,
      underTags_of_untagged (by rw [typed]; decide)]
    simp only [typed, isRead, if_neg inRange, spelled]
  · obtain ⟨small, spelled⟩ := ofNat_complement_of_neg nonneg
    obtain ⟨ai, -, isRead⟩ := getHead_appendHead .negint
      (~~~value.toUInt64).toNat rest (by omega)
    have typed := nextType_appendHead .negint (~~~value.toUInt64).toNat rest
      (by omega)
    have inRange : ¬i64Max < (~~~value.toUInt64).toNat := by
      change ¬2 ^ 63 - 1 < _
      omega
    rw [if_neg nonneg, parseToI64,
      underTags_of_untagged (by rw [typed]; decide)]
    simp only [typed, isRead, if_neg inRange, spelled]

/-- An unsigned integer in range fills an unsigned integer. -/
theorem fills_appendUint
    (goType : String) {max : Nat} (inRange : n ≤ max) (fits : n < 2 ^ 64) :
    Fills (parseToUint goType max) (appendHead .uint n) n := by
  intro rest
  obtain ⟨ai, -, isRead⟩ := getHead_appendHead .uint n rest fits
  have typed := nextType_appendHead .uint n rest fits
  rw [parseToUint, underTags_of_untagged (by rw [typed]; decide)]
  simp only [typed, isRead, fillUint, if_neg (Nat.not_lt.mpr inRange)]

/-! ## Containers -/

/-- A container of known length runs its body once for each item. -/
theorem forItems_of_definite
    (notOpen : head.ai ≠ 31) (items : Nat)
    (body : σ → Bytes → σ × Bytes) (state : σ) :
    forItems head items body state =
      (fun position => body position.1 position.2)^[items]
        (state, head.rest) := by
  rw [forItems, if_neg notOpen]

/-- The elements of an array are read one after the other. -/
theorem iterate_elements
    (rest : Bytes) (parts : List β) (out : List α)
    (each : ∀ part ∈ parts, Fills elem (piece part) (value part)) :
    (fun position : (List α × Option CborError) × Bytes =>
        let parsed := elem position.2
        ((position.1.1 ++ [parsed.value], position.1.2.or parsed.err),
          parsed.rest))^[parts.length]
        ((out, none), parts.flatMap piece ++ rest) =
      ((out ++ parts.map value, none), rest) := by
  induction parts generalizing out with
  | nil => simp
  | cons part parts ih =>
    rw [length_cons, Function.iterate_succ_apply, flatMap_cons, append_assoc]
    simp only [each part mem_cons_self _, Option.or_none]
    rw [ih (out ++ [value part]) fun other isOther =>
      each other (mem_cons_of_mem _ isOther)]
    simp

/-- An array of parts fills a list with their values. -/
theorem fills_parts
    (parts : List β)
    (few : parts.length < 2 ^ 64)
    (each : ∀ part ∈ parts, Fills elem (piece part) (value part)) :
    Fills (parseToSliceOf goType elem)
      (appendHead .array parts.length ++ parts.flatMap piece)
      (parts.map value) := by
  intro rest
  rw [append_assoc]
  obtain ⟨ai, notOpen, isRead⟩ := getHead_appendHead .array parts.length
    (parts.flatMap piece ++ rest) few
  have typed := nextType_appendHead .array parts.length
    (parts.flatMap piece ++ rest) few
  rw [parseToSliceOf, underTags_of_untagged (by rw [typed]; decide)]
  simp only [typed, isRead]
  rw [forItems_of_definite notOpen]
  have loop := iterate_elements rest parts [] each
  simp only [nil_append] at loop
  simp only [loop]

/-- An array of values fills a list. -/
theorem fills_array
    (values : List α)
    (few : values.length < 2 ^ 64)
    (each : ∀ value ∈ values, Fills elem (piece value) value) :
    Fills (parseToSliceOf goType elem)
      (appendHead .array values.length ++ values.flatMap piece)
      values := by
  have fills : Fills (parseToSliceOf goType elem)
      (appendHead .array values.length ++ values.flatMap piece)
      (values.map id) := fills_parts values few each
  rwa [map_id] at fills

theorem bytes_length_lt (key : Key) : key.bytes.length < 2 ^ 63 := by
  rw [key.bytes_length]
  decide

/-- A list of keys is an item. -/
theorem item_keys
    (keys : List Key) (few : keys.length ≤ maxElements) (levels : Nat) :
    Item (levels + 1) (appendHead .array keys.length ++
      keys.flatMap fun key => appendBstr key.bytes) :=
  .list keys _ few fun key _ => .bstr _ (bytes_length_lt key)

/-- A list of keys fills a list of byte strings. -/
theorem fills_keys
    (keys : List Key) (few : keys.length ≤ maxElements) :
    Fills parseToByteSlices (appendHead .array keys.length ++
      keys.flatMap fun key => appendBstr key.bytes)
      (keys.map Key.bytes) :=
  fills_parts keys (lt_of_le_of_lt few (by decide)) fun key _ =>
    fills_appendBstr _ _ (bytes_length_lt key)

/-- What fills a target fills the field it is put into. -/
theorem Fills.into
    {value : α}
    (fills : Fills target bytes value) (store : α → σ) (fld : String) :
    Fills (fun data => (target data).into store fld) bytes
      (store value) := by
  intro rest
  simp only [fills rest, Parsed.into, Option.map_none]

/-- The first pair of a field goes to the field. -/
theorem structPair_field
    (small : nfields ≤ 64) (known : k < nfields) (unseen : k ∉ found)
    (fills : Fills (field value k) bytes filled) (rest : Bytes) :
    structPair nfields field ⟨value, found, none⟩
        (appendHead .uint k ++ (bytes ++ rest)) =
      (⟨filled, k :: found, none⟩, rest) := by
  obtain ⟨ai, -, isRead⟩ := getHead_appendHead .uint k (bytes ++ rest)
    (by omega)
  have typed := nextType_appendHead .uint k (bytes ++ rest) (by omega)
  have inRange : ¬i64Max < k := by
    change ¬2 ^ 63 - 1 < _
    omega
  simp only [structPair, typed, isRead, if_neg inRange,
    if_pos (And.intro known unseen), fills rest, Option.or_none]

/-- The pairs of fields that were not found are read one after the other. -/
theorem iterate_structPair
    {bytes : Nat → Bytes} {fill : σ → Nat → σ} (rest : Bytes)
    (small : nfields ≤ 64)
    (ks : List Nat)
    (fills : ∀ k ∈ ks, ∀ value, Fills (field value k) (bytes k) (fill value k))
    (value : σ) (found : List Nat)
    (known : ∀ k ∈ ks, k < nfields)
    (distinct : ks.Nodup)
    (unseen : ∀ k ∈ ks, k ∉ found) :
    (fun position => structPair nfields field position.1 position.2)^[ks.length]
        (⟨value, found, none⟩,
          ks.flatMap (fun k => appendHead .uint k ++ bytes k) ++ rest) =
      (⟨ks.foldl fill value, ks.reverse ++ found, none⟩, rest) := by
  induction ks generalizing value found with
  | nil => rfl
  | cons k ks ih =>
    obtain ⟨isNew, distinct⟩ := nodup_cons.mp distinct
    rw [length_cons, Function.iterate_succ_apply, flatMap_cons,
      append_assoc, append_assoc]
    simp only [structPair_field small (known k mem_cons_self)
      (unseen k mem_cons_self) (fills k mem_cons_self value)]
    rw [ih
      (fun other isOther => fills other (mem_cons_of_mem _ isOther)) _ _
      (fun other isOther => known other (mem_cons_of_mem _ isOther))
      distinct]
    · simp
    · intro other isOther
      rw [mem_cons, not_or]
      refine ⟨?_, unseen other (mem_cons_of_mem _ isOther)⟩
      rintro rfl
      exact isNew isOther

/-- A map of distinct fields fills a record. -/
theorem fills_map
    {zero : σ} {bytes : Nat → Bytes}
    (small : nfields ≤ 64)
    (ks : List Nat)
    (fills : ∀ k ∈ ks, ∀ value, Fills (field value k) (bytes k) (fill value k))
    (known : ∀ k ∈ ks, k < nfields)
    (distinct : ks.Nodup) :
    Fills (parseToStruct goType zero (parseMapToStruct nfields field zero))
      (appendHead .map ks.length ++
        ks.flatMap (fun k => appendHead .uint k ++ bytes k))
      (ks.foldl fill zero) := by
  intro rest
  have few : ks.length < 2 ^ 64 := by
    have among : ks ⊆ List.range nfields := fun k isKey =>
      mem_range.mpr (known k isKey)
    have bound := (subperm_of_subset distinct among).length_le
    rw [length_range] at bound
    omega
  rw [append_assoc]
  obtain ⟨ai, notOpen, isRead⟩ := getHead_appendHead .map ks.length
    (ks.flatMap (fun k => appendHead .uint k ++ bytes k) ++ rest) few
  have typed := nextType_appendHead .map ks.length
    (ks.flatMap (fun k => appendHead .uint k ++ bytes k) ++ rest) few
  have loop := iterate_structPair rest small ks fills zero [] known distinct
    (fun _ _ => not_mem_nil)
  rw [parseToStruct, underTags_of_untagged (by rw [typed]; decide)]
  simp only [typed, parseMapToStruct, isRead]
  rw [forItems_of_definite notOpen]
  simp only [loop]

/-! ## Skipping -/

/-- The items of a container are skipped one after the other. -/
theorem iterate_skip
    {step : Bytes → Bytes} (rest : Bytes) (items : List Bytes)
    (each : ∀ item ∈ items, ∀ rest, step (item ++ rest) = rest) :
    (fun position : Unit × Bytes => ((), step position.2))^[items.length]
        ((), items.flatten ++ rest) = ((), rest) := by
  induction items with
  | nil => rfl
  | cons item items ih =>
    rw [length_cons, Function.iterate_succ_apply, flatten_cons, append_assoc]
    simp only [each item mem_cons_self]
    exact ih fun other isOther =>
      each other (mem_cons_of_mem _ isOther)

/-- A deterministic item is skipped as a whole. -/
theorem skipWithin_item
    (isItem : Item levels item)
    (enough : levels < fuel) (rest : Bytes) :
    skipWithin fuel (item ++ rest) = rest := by
  induction isItem generalizing fuel rest with
  | @uint levels n fits =>
    obtain ⟨fuel, rfl⟩ := Nat.exists_eq_succ_of_ne_zero (by omega : fuel ≠ 0)
    obtain ⟨ai, -, isRead⟩ := getHead_appendHead .uint n rest fits
    simp only [skipWithin, isRead]
  | @negint levels n fits =>
    obtain ⟨fuel, rfl⟩ := Nat.exists_eq_succ_of_ne_zero (by omega : fuel ≠ 0)
    obtain ⟨ai, -, isRead⟩ := getHead_appendHead .negint n rest fits
    simp only [skipWithin, isRead]
  | @bstr levels content fits =>
    obtain ⟨fuel, rfl⟩ := Nat.exists_eq_succ_of_ne_zero (by omega : fuel ≠ 0)
    obtain ⟨ai, notOpen, isRead⟩ := getHead_appendHead .bstr content.length
      (content ++ rest) (by omega)
    rw [appendBstr, append_assoc]
    simp only [skipWithin, isRead, if_neg notOpen, drop_left]
  | @tstr levels text fits =>
    obtain ⟨fuel, rfl⟩ := Nat.exists_eq_succ_of_ne_zero (by omega : fuel ≠ 0)
    obtain ⟨ai, notOpen, isRead⟩ := getHead_appendHead .tstr
      (utf8 text).length (utf8 text ++ rest) (by omega)
    rw [appendTstr, append_assoc]
    simp only [skipWithin, isRead, if_neg notOpen, drop_left]
  | @array levels items few _ ih =>
    obtain ⟨fuel, rfl⟩ := Nat.exists_eq_succ_of_ne_zero (by omega : fuel ≠ 0)
    have small : items.length < 2 ^ 64 := lt_of_le_of_lt few (by decide)
    obtain ⟨ai, notOpen, isRead⟩ := getHead_appendHead .array items.length
      (items.flatten ++ rest) small
    rw [append_assoc]
    simp only [skipWithin, isRead]
    rw [forItems_of_definite notOpen, iterate_skip rest items]
    intro item isItem rest
    exact ih item isItem (by omega) rest
  | @map levels pairs members paired few _ ih =>
    obtain ⟨fuel, rfl⟩ := Nat.exists_eq_succ_of_ne_zero (by omega : fuel ≠ 0)
    have bound : maxElements * 2 ≤ 2 ^ 64 - 1 := by decide
    have small : pairs < 2 ^ 64 := by omega
    obtain ⟨ai, notOpen, isRead⟩ := getHead_appendHead .map pairs
      (members.flatten ++ rest) small
    have count : min (pairs * 2) (2 ^ 64 - 1) = members.length := by omega
    rw [append_assoc]
    simp only [skipWithin, isRead, count]
    rw [forItems_of_definite notOpen, iterate_skip rest members]
    intro member isMember rest
    exact ih member isMember (by omega) rest

theorem skip_item
    (isItem : Item levels item)
    (shallow : levels ≤ item.length) (rest : Bytes) :
    skip (item ++ rest) = rest := by
  apply skipWithin_item isItem
  rw [length_append]
  omega

/-- A document that is an item and fills a target is unmarshalled. -/
theorem unmarshal_item
    (isItem : Item levels item) (shallow : levels ≤ 32)
    (fills : Fills target item value) :
    unmarshal target item = .ok value := by
  have parsed := fills []
  rw [append_nil] at parsed
  simp only [unmarshal, wellformed_item decodeWf_roomy isItem shallow, parsed]

end AmberStore.Fx
