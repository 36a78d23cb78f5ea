import AmberStore.Fstree.CodecSpec
import AmberStore.Fstree.Lookup

/-!
# The scan and the decoder agree

What a scan takes is what the encoder writes, up to which fields an entry has.
Each step of the scan is inverted: the bytes it passes over are the encoding of a
value.  The decoder reads such bytes back, so that both find the same.
-/

open ByteString Option
open List (append_assoc append_nil flatMap_cons forall_mem_cons length_append
  length_cons pairwise_cons pairwise_map)

namespace AmberStore.Fstree.Scan

open Cbor

/-! ## Heads -/

theorem argMin_le_iff
    (notInHead : 23 < ai) (wide : ai ≤ 27) (upper : n < 256 ^ argWidth ai) :
    argMin ai ≤ n ↔ Shortest ai n := by
  rcases eq_of_wide notInHead wide with rfl | rfl | rfl | rfl <;>
    simp [argMin, Shortest, argWidth] at upper ⊢ <;> omega

/-- A head that is taken is read, and is in the shortest form. -/
theorem readHead_of_head
    (isHead : head b = some (major, n, rest)) :
    readHead b = .ok ⟨major, n, rest⟩ ∧ ShortestHead b := by
  cases b with
  | nil => cases isHead
  | cons first tail =>
    simp only [head] at isHead
    simp only [ShortestHead, readHead]
    split_ifs at isHead ⊢ with inHead wide short least
    · cases isHead
      refine ⟨rfl, ?_⟩
      rintro _ ⟨⟩
      exact .inl ⟨Nat.lt_succ_of_le (UInt8.le_iff_toNat_le.mp inHead), rfl⟩
    · cases isHead
      refine ⟨rfl, ?_⟩
      rintro _ ⟨⟩
      exact (argMin_le_iff (UInt8.not_le.mp inHead) wide
        (readBe_lt _ _ _)).mp least

/-- A head that is taken is the shortest one of its argument. -/
theorem head_eq_some_iff
    {b : Bytes} {major : Major} :
    head b = some (major, n, rest) ↔
      b = appendHead major n ++ rest ∧ n < 2 ^ 64 := by
  constructor
  · intro isHead
    obtain ⟨isRead, shortest⟩ := readHead_of_head isHead
    obtain ⟨_, spells, -⟩ := eq_of_readHead isRead
    exact ⟨shortest.eq_appendHead isRead, spells.arg_lt⟩
  · rintro ⟨rfl, fits⟩
    obtain ⟨ai, spells, shortest, written⟩ := appendHead_eq major n fits
    obtain ⟨typed, low⟩ := spells.fromInitialByte major
    simp only [written, List.cons_append, head, typed, low]
    rcases spells with ⟨inHead, rfl⟩ | ⟨notInHead, wide, upper⟩
    · rw [if_pos inHead, argWidth_of_le inHead]
      rfl
    · rw [if_neg (UInt8.not_le.mpr notInHead), if_pos wide,
        readBe_beBytes upper,
        if_pos ((argMin_le_iff notInHead wide upper).mpr shortest)]
      simp

/-! ## Values -/

theorem uint_eq_some_iff
    {n : Nat} :
    uint b = some (n, rest) ↔ b = appendHead .uint n ++ rest ∧ n < 2 ^ 64 := by
  rw [← head_eq_some_iff]
  unfold uint
  split
  case h_1 v tail isHead =>
    rw [isHead]
    simp
  case h_2 other => exact iff_of_false nofun (other _ _)

theorem bytes_eq_some_iff
    {s : Bytes} :
    bytes b = some (s, rest) ↔
      b = appendBstr s ++ rest ∧ s.length < 2 ^ 64 := by
  unfold bytes appendBstr
  rw [append_assoc, ← head_eq_some_iff]
  split
  case h_1 n tail isHead =>
    rw [isHead, some.injEq, Prod.mk.injEq, Prod.mk.injEq]
    split
    case isTrue short =>
      constructor
      · intro none
        cases none
      · rintro ⟨-, rfl, rfl⟩
        exact absurd short (by simp)
    case isFalse long =>
      constructor
      · intro same
        cases same
        rw [List.length_take, List.take_append_drop]
        exact ⟨rfl, by omega, rfl⟩
      · rintro ⟨-, rfl, rfl⟩
        simp
  case h_2 other => exact iff_of_false nofun (other _ _)

theorem array_eq_some_iff :
    array b = some (n, rest) ↔
      b = appendHead .array n ++ rest ∧ n ≤ maxItems := by
  have fits : n ≤ maxItems → n < 2 ^ 64 := fun few =>
    lt_of_le_of_lt few (by decide)
  have taken : b = appendHead .array n ++ rest ∧ n ≤ maxItems ↔
      head b = some (.array, n, rest) ∧ n ≤ maxItems := by
    rw [head_eq_some_iff]
    tauto
  rw [taken]
  unfold array
  split
  case h_1 v tail isHead =>
    rw [isHead]
    rw [ite_none_right_eq_some]
    constructor
    · rintro ⟨few, ⟨⟩⟩
      exact ⟨rfl, few⟩
    · rintro ⟨⟨⟩, few⟩
      exact ⟨few, rfl⟩
  case h_2 other => exact iff_of_false nofun fun ⟨isHead, _⟩ => other _ _ isHead

/-- An integer that is passed over is one of 64 bits. -/
theorem int_eq_some_iff :
    int b = some rest ↔ ∃ i : Int64, b = appendInt i ++ rest := by
  constructor
  · intro isInt
    unfold int at isInt
    split at isInt
    case h_1 v tail isHead =>
      obtain ⟨small, ⟨⟩⟩ := ite_none_right_eq_some.mp isInt
      refine ⟨Int64.ofNat v, ?_⟩
      rw [appendInt_ofNat (Nat.lt_of_le_pred (by decide) small)]
      exact (head_eq_some_iff.mp isHead).1
    case h_2 v tail isHead =>
      obtain ⟨small, ⟨⟩⟩ := ite_none_right_eq_some.mp isInt
      refine ⟨~~~Int64.ofNat v, ?_⟩
      rw [appendInt_complement (Nat.lt_of_le_pred (by decide) small)]
      exact (head_eq_some_iff.mp isHead).1
    case h_3 => cases isInt
  · rintro ⟨i, rfl⟩
    unfold int appendInt
    split_ifs with nonneg
    · obtain ⟨small, -⟩ := ofNat_bits_of_nonneg nonneg
      have fits : i.toUInt64.toNat < 2 ^ 64 := i.toUInt64.toNat_lt
      rw [head_eq_some_iff.mpr ⟨rfl, fits⟩]
      exact if_pos (Nat.le_pred_of_lt small)
    · obtain ⟨small, -⟩ := ofNat_complement_of_neg nonneg
      have fits := (~~~i.toUInt64).toNat_lt
      rw [head_eq_some_iff.mpr ⟨rfl, fits⟩]
      exact if_pos (Nat.le_pred_of_lt small)

/-- Numbers that are passed over are numbers of 64 bits. -/
theorem uintsFrom_eq_some_iff :
    uintsFrom count b = some rest ↔
      ∃ rs : List UInt64, rs.length = count ∧
        b = rs.flatMap (fun r => appendHead .uint r.toNat) ++ rest := by
  induction count generalizing b with
  | zero =>
    rw [uintsFrom]
    constructor
    · rintro same
      cases same
      exact ⟨[], rfl, rfl⟩
    · rintro ⟨rs, isEmpty, rfl⟩
      rw [List.length_eq_zero_iff.mp isEmpty]
      rfl
  | succ count ih =>
    rw [uintsFrom]
    simp only [bind_eq_bind, bind_eq_some_iff, Prod.exists,
      uint_eq_some_iff, ih]
    constructor
    · rintro ⟨n, tail, ⟨rfl, fits⟩, rs, rfl, rfl⟩
      refine ⟨.ofNat n :: rs, rfl, ?_⟩
      rw [flatMap_cons, UInt64.toNat_ofNat_of_lt' fits, append_assoc]
    · rintro ⟨rs, sized, rfl⟩
      cases rs with
      | nil => cases sized
      | cons r rs =>
        rw [length_cons, Nat.add_right_cancel_iff] at sized
        exact ⟨r.toNat, _, ⟨by rw [flatMap_cons, append_assoc],
          r.toNat_lt⟩, rs, sized, rfl⟩

theorem uints_eq_some_iff :
    uints b = some rest ↔
      ∃ rs : List UInt64, rs.length ≤ maxItems ∧
        b = (appendHead .array rs.length ++
          rs.flatMap fun r => appendHead .uint r.toNat) ++ rest := by
  rw [uints]
  simp only [bind_eq_bind, bind_eq_some_iff, Prod.exists,
    array_eq_some_iff, uintsFrom_eq_some_iff]
  constructor
  · rintro ⟨n, tail, ⟨rfl, few⟩, rs, rfl, rfl⟩
    exact ⟨rs, few, by rw [append_assoc]⟩
  · rintro ⟨rs, few, rfl⟩
    exact ⟨rs.length, _, ⟨by rw [append_assoc], few⟩, rs, rfl, rfl⟩

/-! ## Fields -/

/-- The fields that a scan passes over: none but inline attributes and the
name. -/
abbrev Scannable (k : Nat) : Prop :=
  1 ≤ k ∧ k ≤ 9 ∧ k ≠ 8

theorem length_lt_of_eq_append
    {right : Bytes} (sized : b.length < 2 ^ 63)
    (split : b = left ++ right) :
    left.length < 2 ^ 63 ∧ right.length < 2 ^ 63 := by
  have total := congrArg List.length split
  rw [length_append] at total
  omega

theorem exists_of_uint
    (passed : (uint b).map (·.2) = some rest) :
    ∃ n : UInt64, b = appendHead .uint n.toNat ++ rest := by
  obtain ⟨⟨n, tail⟩, isUint, same⟩ := map_eq_some_iff.mp passed
  obtain ⟨isB, fits⟩ := uint_eq_some_iff.mp isUint
  refine ⟨.ofNat n, ?_⟩
  rw [UInt64.toNat_ofNat_of_lt' fits, ← same]
  exact isB

theorem exists_of_bytes
    (sized : b.length < 2 ^ 63)
    (passed : (bytes b).map (·.2) = some rest) :
    ∃ s : Bytes, s.length < 2 ^ 63 ∧ b = appendBstr s ++ rest := by
  obtain ⟨⟨s, tail⟩, isBytes, same⟩ := map_eq_some_iff.mp passed
  obtain ⟨isB, -⟩ := bytes_eq_some_iff.mp isBytes
  refine ⟨s, ?_, by rw [← same]; exact isB⟩
  have whole := (length_lt_of_eq_append sized isB).1
  rw [appendBstr, length_append] at whole
  omega

theorem allocated_default : ({} : Entry).Allocated := by
  constructor <;> decide

/-- Fields other than numbers and attributes need nothing of their value. -/
theorem fieldReads_of_ne
    (e : Entry) (notNumbers : k ≠ 7) (notXattrs : k ≠ 8) :
    e.FieldReads k :=
  ⟨fun same => absurd same notNumbers, fun same => absurd same notXattrs⟩

/-- The value of a field is that of some entry. -/
theorem exists_of_value
    (sized : b.length < 2 ^ 63)
    (isValue : value k b = some rest) :
    Scannable k ∧ ∃ v : Entry, v.Allocated ∧ v.FieldReads k ∧
      b = v.fieldValue k ++ rest := by
  have empty : ([] : Bytes).length < 2 ^ 63 := by decide
  have found : ∀ {k : Nat} (v : Entry), v.Allocated →
      b = v.fieldValue k ++ rest → Scannable k → k ≠ 7 →
        Scannable k ∧ ∃ v : Entry, v.Allocated ∧ v.FieldReads k ∧
          b = v.fieldValue k ++ rest :=
    fun v allocated isB scannable notNumbers => ⟨scannable, v, allocated,
      fieldReads_of_ne v notNumbers scannable.2.2, isB⟩
  unfold value at isValue
  split at isValue
  case h_1 =>
    obtain ⟨n, isB⟩ := exists_of_uint isValue
    exact found { mode := n } ⟨empty, empty, empty, empty⟩ isB (by decide)
      (by decide)
  case h_2 =>
    obtain ⟨n, isB⟩ := exists_of_uint isValue
    exact found { uid := n } ⟨empty, empty, empty, empty⟩ isB (by decide)
      (by decide)
  case h_3 =>
    obtain ⟨n, isB⟩ := exists_of_uint isValue
    exact found { gid := n } ⟨empty, empty, empty, empty⟩ isB (by decide)
      (by decide)
  case h_4 =>
    obtain ⟨i, isB⟩ := int_eq_some_iff.mp isValue
    exact found { mtime := i } ⟨empty, empty, empty, empty⟩ isB (by decide)
      (by decide)
  case h_5 =>
    obtain ⟨s, small, isB⟩ := exists_of_bytes sized isValue
    exact found { contentKey := s } ⟨empty, small, empty, empty⟩ isB (by decide)
      (by decide)
  case h_6 =>
    obtain ⟨s, small, isB⟩ := exists_of_bytes sized isValue
    exact found { linkTarget := s } ⟨empty, empty, small, empty⟩ isB (by decide)
      (by decide)
  case h_7 =>
    obtain ⟨s, small, isB⟩ := exists_of_bytes sized isValue
    exact found { xattrsKey := s } ⟨empty, empty, empty, small⟩ isB (by decide)
      (by decide)
  case h_8 =>
    obtain ⟨rs, few, isB⟩ := uints_eq_some_iff.mp isValue
    exact ⟨by decide, { rdev := rs }, ⟨empty, empty, empty, empty⟩,
      ⟨fun _ => few, fun same => absurd same (by decide)⟩, isB⟩
  case h_9 => cases isValue

/-- The value of a field that a scan takes is passed over. -/
theorem value_fieldValue
    {e : Entry} (allocated : e.Allocated) (scannable : Scannable k)
    (reads : e.FieldReads k) (rest : Bytes) :
    value k (e.fieldValue k ++ rest) = some rest := by
  have number : ∀ n : UInt64,
      (uint (appendHead .uint n.toNat ++ rest)).map (·.2) = some rest := by
    intro n
    rw [uint_eq_some_iff.mpr ⟨rfl, n.toNat_lt⟩]
    rfl
  have string : ∀ s : Bytes, s.length < 2 ^ 63 →
      (bytes (appendBstr s ++ rest)).map (·.2) = some rest := by
    intro s small
    rw [bytes_eq_some_iff.mpr ⟨rfl, by omega⟩]
    rfl
  obtain ⟨lower, upper, notXattrs⟩ := scannable
  interval_cases k
  · exact number e.mode
  · exact number e.uid
  · exact number e.gid
  · exact int_eq_some_iff.mpr ⟨e.mtime, rfl⟩
  · exact string _ allocated.contentKey
  · exact string _ allocated.linkTarget
  · exact uints_eq_some_iff.mpr ⟨e.rdev, reads.1 rfl, rfl⟩
  · exact absurd rfl notXattrs
  · exact string _ allocated.xattrsKey

/-! ## Putting an entry together from its fields -/

theorem fieldValue_copyField (v w : Entry) (k : Nat) :
    (v.copyField w k).fieldValue k = v.fieldValue k := by
  unfold Entry.copyField
  split <;> simp only [Entry.fieldValue]

theorem fieldValue_copyField_of_ne
    (v w : Entry) (smallJ : j ≤ 9) (smallK : k ≤ 9)
    (different : j ≠ k) :
    (v.copyField w k).fieldValue j = w.fieldValue j := by
  interval_cases k <;> interval_cases j <;>
    first
    | exact absurd rfl different
    | simp only [Entry.copyField, Entry.fieldValue]

theorem allocated_copyField
    {v : Entry} (first : v.Allocated) (others : w.Allocated) (k : Nat) :
    (v.copyField w k).Allocated := by
  obtain ⟨name, contentKey, linkTarget, xattrsKey⟩ := first
  obtain ⟨otherName, otherContentKey, otherLinkTarget, otherXattrsKey⟩ := others
  rcases k with _ | _ | _ | _ | _ | _ | _ | _ | _ | k <;>
    constructor <;> assumption

/-- An entry with a field from another reads what both read. -/
theorem fieldReads_copyField
    {v : Entry} (scannable : Scannable j) (smallK : k ≤ 9)
    (first : j = k → v.FieldReads k) (others : j ≠ k → w.FieldReads j) :
    (v.copyField w k).FieldReads j := by
  refine ⟨?_, fun same => absurd same scannable.2.2⟩
  rintro rfl
  by_cases same : 7 = k
  · subst same
    exact (first rfl).1 rfl
  · have kept : (v.copyField w k).rdev = w.rdev := by
      interval_cases k <;> first | rfl | exact absurd rfl same
    rw [kept]
    exact (others same).1 rfl

/-- The fields that are passed over are those of some entry. -/
theorem exists_of_fields
    (sized : b.length < 2 ^ 63)
    (isFields : fields count last b = some rest) :
    ∃ (e : Entry) (ks : List Nat), e.Allocated ∧ ks.length = count ∧
      (last :: ks).Pairwise (· < ·) ∧
      (∀ k ∈ ks, Scannable k ∧ e.FieldReads k) ∧
      b = ks.flatMap (fun k => appendHead .uint k ++ e.fieldValue k) ++
        rest := by
  induction count generalizing last b with
  | zero =>
    cases isFields
    exact ⟨{}, [], allocated_default, rfl, List.pairwise_singleton _ _,
      by simp, rfl⟩
  | succ count ih =>
    simp only [fields, bind_eq_bind, bind_eq_some_iff, Prod.exists] at isFields
    obtain ⟨k, afterKey, isKey, isFields⟩ := isFields
    split at isFields
    case isTrue => cases isFields
    case isFalse ascends =>
      obtain ⟨afterValue, isValue, isFields⟩ := bind_eq_some_iff.mp isFields
      obtain ⟨isB, -⟩ := uint_eq_some_iff.mp isKey
      have keySized := (length_lt_of_eq_append sized isB).2
      obtain ⟨scannable, v, vAllocated, vReads, isAfterKey⟩ :=
        exists_of_value keySized isValue
      obtain ⟨w, ks, wAllocated, isCount, ordered, each, isAfterValue⟩ :=
        ih (length_lt_of_eq_append keySized isAfterKey).2 isFields
      have later : ∀ j ∈ ks, k < j := (pairwise_cons.mp ordered).1
      have lastFirst : last < k := Nat.not_le.mp ascends
      have sameValues : ks.flatMap (fun j => appendHead .uint j ++
            (v.copyField w k).fieldValue j) =
          ks.flatMap fun j => appendHead .uint j ++ w.fieldValue j := by
        refine List.flatMap_congr fun j isIn => ?_
        rw [fieldValue_copyField_of_ne v w (each j isIn).1.2.1
          scannable.2.1 (Nat.ne_of_gt (later j isIn))]
      refine ⟨v.copyField w k, k :: ks,
        allocated_copyField vAllocated wAllocated k,
        by rw [length_cons, isCount], ?ordered, ?each, ?bytes⟩
      case ordered =>
        refine pairwise_cons.mpr ⟨?_, ordered⟩
        exact forall_mem_cons.mpr ⟨lastFirst,
          fun j isIn => Nat.lt_trans lastFirst (later j isIn)⟩
      case each =>
        refine forall_mem_cons.mpr ⟨⟨scannable, ?_⟩, ?_⟩
        · exact fieldReads_copyField scannable scannable.2.1
            (fun _ => vReads) (fun other => absurd rfl other)
        · intro j isIn
          refine ⟨(each j isIn).1, ?_⟩
          exact fieldReads_copyField (each j isIn).1 scannable.2.1
            (fun same => absurd same (Nat.ne_of_gt (later j isIn)))
            (fun _ => (each j isIn).2)
      case bytes =>
        rw [isB, isAfterKey, isAfterValue, flatMap_cons, sameValues,
          fieldValue_copyField]
        simp only [append_assoc]

/-- Fields in order are passed over. -/
theorem fields_flatMap
    {e : Entry} (allocated : e.Allocated) {ks : List Nat}
    (ordered : (last :: ks).Pairwise (· < ·))
    (each : ∀ k ∈ ks, Scannable k ∧ e.FieldReads k) (count : Nat)
    (rest : Bytes) :
    fields (ks.length + count) last
      (ks.flatMap (fun k => appendHead .uint k ++ e.fieldValue k) ++
        rest) = fields count (ks.getLastD last) rest := by
  induction ks generalizing last with
  | nil =>
    rw [List.length_nil, Nat.zero_add]
    rfl
  | cons k ks ih =>
    obtain ⟨first, others⟩ := forall_mem_cons.mp each
    obtain ⟨ascends, ordered⟩ := pairwise_cons.mp ordered
    have fits : k < 2 ^ 64 := lt_of_le_of_lt first.1.2.1 (by decide)
    have later := ih ordered others
    rw [flatMap_cons, append_assoc, append_assoc,
      length_cons, Nat.add_right_comm, fields,
      uint_eq_some_iff.mpr ⟨rfl, fits⟩]
    simp only [bind_eq_bind, bind_some]
    rw [if_neg (Nat.not_le.mpr (ascends k List.mem_cons_self)),
      value_fieldValue allocated first.1 first.2, bind_some,
      List.getLastD_cons]
    exact later

/-! ## Entries -/

/-- What a scan takes for an entry: a name and other fields in order. -/
structure Part where
  entry : Entry
  /-- The fields after the name. -/
  later : List Nat
  allocated : entry.Allocated
  ordered : (0 :: later).Pairwise (· < ·)
  scannable : ∀ k ∈ later, Scannable k ∧ entry.FieldReads k

namespace Part

/-- The map of the entry. -/
def bytes (part : Part) : Bytes :=
  part.entry.fieldsBytes (0 :: part.later)

/-- The entry that the decoder fills from the map. -/
def value (part : Part) : Entry :=
  (0 :: part.later).foldl part.entry.copyField {}

theorem name_foldl_copyField
    (e : Entry) {ks : List Nat} (others : ∀ k ∈ ks, k ≠ 0) (w : Entry) :
    (ks.foldl e.copyField w).name = w.name := by
  induction ks generalizing w with
  | nil => rfl
  | cons k ks ih =>
    obtain ⟨notName, others⟩ := forall_mem_cons.mp others
    rw [List.foldl_cons, ih others]
    unfold Entry.copyField
    split
    · exact absurd rfl notName
    all_goals rfl

theorem value_name (part : Part) : part.value.name = part.entry.name := by
  have notName : ∀ k ∈ part.later, k ≠ 0 := fun k isIn =>
    Nat.ne_of_gt (part.scannable k isIn).1.1
  exact name_foldl_copyField part.entry notName _

theorem sublist (part : Part) : (0 :: part.later).Sublist (List.range 10) := by
  refine List.sublist_of_subperm_of_pairwise (r := (· ≤ ·)) ?_ ?_ ?_
  · refine List.subperm_of_subset (part.ordered.imp Nat.ne_of_lt) ?_
    refine List.cons_subset.mpr ⟨by decide, fun k isIn => ?_⟩
    exact List.mem_range.mpr (Nat.lt_succ_of_le (part.scannable k isIn).1.2.1)
  · exact part.ordered.imp Nat.le_of_lt
  · exact List.pairwise_lt_range.imp Nat.le_of_lt

theorem fieldReads (part : Part) :
    ∀ k ∈ 0 :: part.later, part.entry.FieldReads k :=
  forall_mem_cons.mpr ⟨fieldReads_of_ne _ (by decide) (by decide),
    fun k isIn => (part.scannable k isIn).2⟩

theorem item (part : Part) : Item 2 part.bytes :=
  part.allocated.item_fieldsBytes part.sublist part.fieldReads

theorem fills (part : Part) : Fx.Fills Fx.parseToEntry part.bytes part.value :=
  part.allocated.fills_fieldsBytes part.sublist part.fieldReads

end Part

/-- A name before other fields is an entry. -/
theorem exists_part
    (small : name.length < 2 ^ 63) {w : Entry} {ks : List Nat}
    (allocated : w.Allocated) (ordered : (0 :: ks).Pairwise (· < ·))
    (each : ∀ k ∈ ks, Scannable k ∧ w.FieldReads k) :
    ∃ part : Part, part.value.name = name ∧
      part.bytes = appendHead .map (ks.length + 1) ++
        (appendHead .uint 0 ++ appendBstr name) ++
        ks.flatMap fun k => appendHead .uint k ++ w.fieldValue k := by
  have notName : ∀ k ∈ ks, k ≠ 0 := fun k isIn =>
    Nat.ne_of_gt (each k isIn).1.1
  have empty : ([] : Bytes).length < 2 ^ 63 := by decide
  have named : ({ name } : Entry).Allocated := ⟨small, empty, empty, empty⟩
  have sameValues : ks.flatMap (fun k => appendHead .uint k ++
        (({ name } : Entry).copyField w 0).fieldValue k) =
      ks.flatMap fun k => appendHead .uint k ++ w.fieldValue k := by
    refine List.flatMap_congr fun k isIn => ?_
    rw [fieldValue_copyField_of_ne _ w (each k isIn).1.2.1 (Nat.zero_le _)
      (notName k isIn)]
  let part : Part :=
    { entry := ({ name } : Entry).copyField w 0
      later := ks
      allocated := allocated_copyField named allocated 0
      ordered
      scannable := fun k isIn => ⟨(each k isIn).1,
        fieldReads_copyField (each k isIn).1 (Nat.zero_le _)
          (fun same => absurd same (notName k isIn))
          (fun _ => (each k isIn).2)⟩ }
  refine ⟨part, part.value_name, ?_⟩
  change appendHead .map (ks.length + 1) ++ List.flatMap
    (fun k => appendHead .uint k ++
      (({ name } : Entry).copyField w 0).fieldValue k) (0 :: ks) = _
  rw [flatMap_cons, sameValues, fieldValue_copyField]
  simp only [append_assoc, Entry.fieldValue]

/-- A map that is taken is one of fields in order, with its name after the one
before. -/
theorem exists_of_entry
    (sized : b.length < 2 ^ 63)
    (isEntry : entry prev b = some (ename, rest)) :
    ∃ part : Part, b = part.bytes ++ rest ∧ part.value.name = ename ∧
      ¬prev.any (ename ≤ ·) = true := by
  unfold entry at isEntry
  split at isEntry
  case h_2 => cases isEntry
  case h_1 pairs afterHead isHead =>
    split at isEntry
    case isFalse => cases isEntry
    case isTrue between =>
      simp only [bind_eq_bind, bind_eq_some_iff, Prod.exists] at isEntry
      obtain ⟨k, afterKey, isKey, isEntry⟩ := isEntry
      split at isEntry
      case isTrue => cases isEntry
      case isFalse isName =>
        rw [ne_eq, not_not] at isName
        subst isName
        simp only [bind_eq_some_iff, Prod.exists] at isEntry
        obtain ⟨name, afterName, isString, isEntry⟩ := isEntry
        split at isEntry
        case isTrue => cases isEntry
        case isFalse ascends =>
          obtain ⟨afterFields, isFields, isEntry⟩ := bind_eq_some_iff.mp isEntry
          cases isEntry
          -- The bytes are taken apart again, from the front.
          obtain ⟨isB, -⟩ := head_eq_some_iff.mp isHead
          obtain ⟨isAfterHead, -⟩ := uint_eq_some_iff.mp isKey
          obtain ⟨isAfterKey, -⟩ := bytes_eq_some_iff.mp isString
          have headSized := (length_lt_of_eq_append sized isB).2
          have keySized := (length_lt_of_eq_append headSized isAfterHead).2
          obtain ⟨stringSized, nameSized⟩ :=
            length_lt_of_eq_append keySized isAfterKey
          have small : ename.length < 2 ^ 63 := by
            rw [appendBstr, length_append] at stringSized
            omega
          obtain ⟨w, ks, allocated, isCount, ordered, each, isAfterName⟩ :=
            exists_of_fields nameSized isFields
          obtain ⟨part, isNamed, isBytes⟩ :=
            exists_part small allocated ordered each
          refine ⟨part, ?_, isNamed, ascends⟩
          have count : ks.length + 1 = pairs := by omega
          rw [isBytes, isB, isAfterHead, isAfterKey, isAfterName, count]
          simp only [append_assoc]

/-- Entries with enough fields are taken. -/
theorem entry_bytes
    (part : Part) (enough : 4 ≤ part.later.length)
    (ascends : ¬prev.any (part.value.name ≤ ·) = true) (rest : Bytes) :
    entry prev (part.bytes ++ rest) = some (part.value.name, rest) := by
  have atMost : part.later.length ≤ 9 :=
    Nat.le_of_lt_succ (Nat.lt_of_succ_le part.sublist.length_le)
  have isHead : head (part.bytes ++ rest) = some (.map, part.later.length + 1,
      appendHead .uint 0 ++ (appendBstr part.entry.name ++
        (part.later.flatMap (fun k => appendHead .uint k ++
          part.entry.fieldValue k) ++ rest))) := by
    refine head_eq_some_iff.mpr ⟨?_, by omega⟩
    rw [Part.bytes, Entry.fieldsBytes, length_cons, flatMap_cons]
    simp only [append_assoc]
    rfl
  have small := part.allocated.name
  have isKey := @uint_eq_some_iff _ (appendBstr part.entry.name ++
    (part.later.flatMap (fun k => appendHead .uint k ++
      part.entry.fieldValue k) ++ rest)) 0 |>.mpr ⟨rfl, by decide⟩
  have isString := @bytes_eq_some_iff _
    (part.later.flatMap (fun k => appendHead .uint k ++
      part.entry.fieldValue k) ++ rest) part.entry.name |>.mpr ⟨rfl, by omega⟩
  have isFields := fields_flatMap part.allocated part.ordered part.scannable 0
    rest
  have between : 5 ≤ part.later.length + 1 ∧ part.later.length + 1 ≤ 10 := by
    omega
  rw [entry, isHead]
  dsimp only
  rw [if_pos between, isKey]
  simp only [bind_eq_bind, bind_some, isString,
    Nat.add_sub_cancel, part.value_name]
  rw [part.value_name] at ascends
  rw [if_neg (by decide), if_neg ascends, ← Nat.add_zero part.later.length,
    isFields]
  rfl

theorem pairwise_option_cons
    {prev : Option Bytes} {others : List Bytes} :
    (prev.toList ++ first :: others).Pairwise (· < ·) ↔
      ¬prev.any (first ≤ ·) = true ∧
        ((some first).toList ++ others).Pairwise (· < ·) := by
  cases prev with
  | none => simp
  | some p =>
    rw [toList_some, List.singleton_append, pairwise_cons,
      toList_some, List.singleton_append, forall_mem_cons]
    constructor
    · rintro ⟨⟨ascends, -⟩, ordered⟩
      exact ⟨by simpa using ascends, ordered⟩
    · rintro ⟨ascends, ordered⟩
      have ascends : p < first := List.not_le.mp (by simpa using ascends)
      exact ⟨⟨ascends, fun other isIn => List.lt_trans ascends
        ((pairwise_cons.mp ordered).1 other isIn)⟩, ordered⟩

/-- Where a scan says that a name is. -/
def Spans (size : Nat) (name : Bytes) (parts : List Part) (rest : Bytes)
    (span : Nat × Nat) : Prop :=
  ∃ before part after, parts = before ++ part :: after ∧
    part.value.name = name ∧
    span.1 = size - (part.bytes ++ after.flatMap Part.bytes ++ rest).length ∧
    span.2 = size - (after.flatMap Part.bytes ++ rest).length

/-- Maps that are taken are entries in order. -/
theorem exists_of_entries
    {name : Bytes}
    (sized : b.length < 2 ^ 63)
    (isEntries : entries size name count prev found b = some (result, rest)) :
    ∃ parts : List Part, parts.length = count ∧
      b = parts.flatMap Part.bytes ++ rest ∧
      (prev.toList ++ parts.map fun part => part.value.name).Pairwise (· < ·) ∧
      ((result = found ∧ ∀ part ∈ parts, part.value.name ≠ name) ∨
        ∃ span, result = some span ∧ Spans size name parts rest span) := by
  induction count generalizing prev found b with
  | zero =>
    cases isEntries
    refine ⟨[], rfl, rfl, ?_, .inl ⟨rfl, by simp⟩⟩
    cases prev <;> simp
  | succ count ih =>
    simp only [entries, bind_eq_bind, bind_eq_some_iff,
      Prod.exists] at isEntries
    obtain ⟨ename, afterEntry, isEntry, isEntries⟩ := isEntries
    obtain ⟨part, isB, isNamed, ascends⟩ := exists_of_entry sized isEntry
    obtain ⟨parts, isCount, isAfter, ordered, located⟩ :=
      ih (length_lt_of_eq_append sized isB).2 isEntries
    refine ⟨part :: parts, by rw [length_cons, isCount], ?bytes,
      ?ordered, ?located⟩
    case bytes => rw [isB, isAfter, flatMap_cons, append_assoc]
    case ordered =>
      rw [List.map_cons, isNamed]
      exact pairwise_option_cons.mpr ⟨ascends, ordered⟩
    case located =>
      rcases located with ⟨same, absent⟩ | ⟨span, isSpan, spans⟩
      · by_cases here : ename = name
        · rw [if_pos here] at same
          refine .inr ⟨_, same, [], part, parts, rfl,
            isNamed.trans here, ?_, ?_⟩
          · rw [append_assoc, ← isAfter, ← isB]
          · rw [← isAfter]
        · rw [if_neg here] at same
          refine .inl ⟨same, forall_mem_cons.mpr ⟨?_, absent⟩⟩
          rw [isNamed]
          exact here
      · obtain ⟨before, other, after, rfl, isOther, start, stop⟩ := spans
        exact .inr ⟨span, isSpan, part :: before, other, after, rfl,
          isOther, start, stop⟩

/-- Entries in order are taken. -/
theorem exists_entries_eq
    (size : Nat) (name : Bytes) {parts : List Part}
    (enough : ∀ part ∈ parts, 4 ≤ part.later.length)
    (ordered : (prev.toList ++ parts.map fun part => part.value.name).Pairwise
      (· < ·)) (found : Option (Nat × Nat)) (rest : Bytes) :
    ∃ result, entries size name parts.length prev found
      (parts.flatMap Part.bytes ++ rest) = some (result, rest) := by
  induction parts generalizing prev found with
  | nil => exact ⟨found, rfl⟩
  | cons part parts ih =>
    obtain ⟨here, others⟩ := forall_mem_cons.mp enough
    obtain ⟨ascends, ordered⟩ := pairwise_option_cons.mp ordered
    have isEntry := entry_bytes part here ascends
      (parts.flatMap Part.bytes ++ rest)
    rw [flatMap_cons, append_assoc, length_cons, entries,
      isEntry]
    exact ih others ordered _

/-! ## Leaves -/

/-- A leaf that a scan answers for holds entries in order, and the answer is
about them. -/
theorem exists_of_scanLeaf
    (sized : b.length < 2 ^ 63)
    (isAnswer : scanLeaf b name = some answer) :
    ∃ parts : List Part, parts.length ≤ maxItems ∧
      b = appendHead .array parts.length ++ parts.flatMap Part.bytes ∧
      (parts.map Part.value).Pairwise (fun left right => left.name < right.name) ∧
      ((answer = .missing ∧ ∀ part ∈ parts, part.value.name ≠ name) ∨
        ∃ start stop, answer = .found start stop ∧
          ∃ part ∈ parts, part.value.name = name ∧
            slice b start stop = part.bytes) := by
  simp only [scanLeaf, bind_eq_bind, bind_eq_some_iff, Prod.exists] at isAnswer
  obtain ⟨n, afterHead, isArray, found, rest, isEntries, isAnswer⟩ := isAnswer
  split at isAnswer
  case isTrue => cases isAnswer
  case isFalse isDone =>
    rw [ne_eq, not_not] at isDone
    subst isDone
    obtain ⟨isB, few⟩ := array_eq_some_iff.mp isArray
    obtain ⟨parts, rfl, isAfterHead, ordered, located⟩ :=
      exists_of_entries (length_lt_of_eq_append sized isB).2 isEntries
    rw [append_nil] at isAfterHead
    rw [isAfterHead] at isB
    refine ⟨parts, few, isB, ?_, ?_⟩
    · rw [pairwise_map]
      exact pairwise_map.mp ordered
    · rcases located with ⟨rfl, absent⟩ | ⟨span, rfl, spans⟩
      · cases isAnswer
        exact .inl ⟨rfl, absent⟩
      · cases isAnswer
        obtain ⟨before, part, after, rfl, isNamed, start, stop⟩ := spans
        refine .inr ⟨_, _, rfl, part, by simp, isNamed, ?_⟩
        rw [append_nil] at start stop
        have split : b = (appendHead .array
              (before ++ part :: after).length ++
              before.flatMap Part.bytes) ++
            (part.bytes ++ after.flatMap Part.bytes) := by
          rw [isB]
          simp
        have total := congrArg List.length split
        simp only [length_append] at total start stop
        rw [split]
        have isStop : span.2 = span.1 + part.bytes.length := by omega
        rw [isStop]
        refine slice_field _ _ _ ?_ rfl
        simp only [length_append]
        omega

/-- The encoder writes entries without inline attributes as a scan takes
them. -/
theorem exists_part_of_entry
    (allocated : e.Allocated) (noXattrs : e.xattrsIn = [])
    (few : e.rdev.length ≤ maxItems) :
    ∃ part : Part, part.bytes = e.fieldsBytes e.present ∧
      part.value = e ∧ 4 ≤ part.later.length := by
  have isPresent : e.present = 0 :: e.present.tail := rfl
  have ordered : (0 :: e.present.tail).Pairwise (· < ·) :=
    List.pairwise_lt_range.sublist e.present_sublist
  have notXattrs : 8 ∉ e.present := by
    simp [Entry.present, optionalKey, noXattrs]
  have scannable : ∀ k ∈ e.present.tail, Scannable k ∧ e.FieldReads k := by
    intro k isIn
    have isField : k ∈ e.present := List.mem_of_mem_tail isIn
    have small := List.mem_range.mp (e.present_sublist.subset isField)
    have notEight : k ≠ 8 := fun same => notXattrs (same ▸ isField)
    exact ⟨⟨(pairwise_cons.mp ordered).1 k isIn, Nat.le_of_lt_succ small,
      notEight⟩, fun _ => few, fun same => absurd same notEight⟩
  exact ⟨⟨e, e.present.tail, allocated, ordered, scannable⟩, rfl,
    e.foldl_copyField, by simp [Entry.present]⟩

/-- The scan answers for what the encoder writes of entries in order. -/
theorem leaf_marshalEntries_ne_unsure
    {entries : List Entry} {bytes : Bytes}
    (few : entries.length ≤ maxItems)
    (each : ∀ e ∈ entries,
      e.Allocated ∧ e.xattrsIn = [] ∧ e.rdev.length ≤ maxItems)
    (ordered : entries.Pairwise fun left right => left.name < right.name)
    (marshalled : marshalEntries entries = .ok bytes) (name : Bytes) :
    leaf bytes name ≠ .unsure := by
  have parts : ∃ parts : List Part, parts.map Part.value = entries ∧
      parts.flatMap Part.bytes =
        entries.flatMap (fun e => e.fieldsBytes e.present) ∧
      ∀ part ∈ parts, 4 ≤ part.later.length := by
    clear few ordered marshalled
    induction entries with
    | nil => exact ⟨[], rfl, rfl, by simp⟩
    | cons e entries ih =>
      obtain ⟨⟨allocated, noXattrs, fewNumbers⟩, others⟩ :=
        forall_mem_cons.mp each
      obtain ⟨part, isBytes, isValue, enough⟩ :=
        exists_part_of_entry allocated noXattrs fewNumbers
      obtain ⟨parts, isValues, areBytes, allEnough⟩ := ih others
      refine ⟨part :: parts, ?_, ?_, ?_⟩
      · rw [List.map_cons, isValue, isValues]
      · rw [flatMap_cons, flatMap_cons, isBytes, areBytes]
      · exact forall_mem_cons.mpr ⟨enough, allEnough⟩
  obtain ⟨parts, rfl, isBytes, enough⟩ := parts
  rw [List.length_map] at few
  have isArray : array bytes =
      some (parts.length, parts.flatMap Part.bytes ++ []) := by
    refine array_eq_some_iff.mpr ⟨?_, few⟩
    rw [marshalEntries_eq_ok marshalled, List.length_map, isBytes,
      append_nil]
  have inOrder : ((none : Option Bytes).toList ++
      parts.map fun part => part.value.name).Pairwise (· < ·) := by
    rw [pairwise_map] at ordered
    exact pairwise_map.mpr ordered
  obtain ⟨result, isResult⟩ := exists_entries_eq bytes.length name enough
    inOrder none []
  rw [leaf, scanLeaf, isArray]
  simp only [bind_eq_bind, bind_some, isResult]
  rw [if_neg (by simp)]
  cases result <;> exact Leaf.noConfusion

/-! ## Index nodes -/

theorem pair_eq_some_iff :
    pair b = some (sep, child, rest) ↔
      b = appendPair ⟨sep, child⟩ ++ rest ∧ sep.length < 2 ^ 64 ∧
        child.length < 2 ^ 64 := by
  unfold pair
  split
  case h_1 afterHead isHead =>
    obtain ⟨rfl, -⟩ := head_eq_some_iff.mp isHead
    simp only [bind_eq_bind, bind_eq_some_iff, Prod.exists,
      bytes_eq_some_iff, some.injEq, Prod.mk.injEq]
    constructor
    · rintro ⟨_, _, ⟨rfl, sepSized⟩, _, _, ⟨rfl, childSized⟩, rfl, rfl, rfl⟩
      exact ⟨by simp [appendPair], sepSized, childSized⟩
    · rintro ⟨same, sepSized, childSized⟩
      have split : afterHead = appendBstr sep ++
          (appendBstr child ++ rest) := by
        simpa [appendPair] using same
      exact ⟨_, _, ⟨split, sepSized⟩, _, _, ⟨rfl, childSized⟩, rfl, rfl, rfl⟩
  case h_2 other =>
    refine iff_of_false (some_ne_none _).symm ?_
    rintro ⟨rfl, -, -⟩
    refine absurd (head_eq_some_iff.mpr ⟨?_, by decide⟩)
      (other (appendBstr sep ++ (appendBstr child ++ rest)))
    simp [appendPair]

/-- The child that a scan finds, if it found none before. -/
def firstChild (name : Bytes) (found : Option Bytes) (ps : List DirPair) :
    Option Bytes :=
  found.or ((ps.find? fun p => decide (name ≤ p.sepName)).map DirPair.childKey)

theorem firstChild_cons
    (name : Bytes) (found : Option Bytes) (p : DirPair) (ps : List DirPair) :
    firstChild name found (p :: ps) = firstChild name
      (if found = none ∧ name ≤ p.sepName then some p.childKey else found)
      ps := by
  unfold firstChild
  cases found with
  | some child => simp
  | none =>
    by_cases here : name ≤ p.sepName
    · simp [here]
    · simp [here]

/-- Pairs in order are taken, and nothing else is. -/
theorem pairs_eq_some_iff
    {name : Bytes} {prev : Option Bytes} :
    pairs name count prev found b = some (result, rest) ↔
      ∃ ps : List DirPair, ps.length = count ∧
        b = ps.flatMap appendPair ++ rest ∧
        (prev.toList ++ ps.map DirPair.sepName).Pairwise (· < ·) ∧
        (∀ p ∈ ps, p.sepName.length < 2 ^ 64 ∧ p.childKey.length < 2 ^ 64) ∧
        result = firstChild name found ps := by
  induction count generalizing prev found b with
  | zero =>
    constructor
    · intro same
      cases same
      refine ⟨[], rfl, rfl, ?_, by simp, by simp [firstChild]⟩
      cases prev <;> simp
    · rintro ⟨ps, isEmpty, rfl, -, -, rfl⟩
      rw [List.length_eq_zero_iff.mp isEmpty]
      simp [pairs, firstChild]
  | succ count ih =>
    simp only [pairs, bind_eq_bind, bind_eq_some_iff,
      Prod.exists, pair_eq_some_iff]
    constructor
    · rintro ⟨sep, child, tail, ⟨rfl, sepSized, childSized⟩, isPairs⟩
      split at isPairs
      case isTrue => cases isPairs
      case isFalse ascends =>
        obtain ⟨ps, rfl, rfl, ordered, sized, rfl⟩ := ih.mp isPairs
        refine ⟨⟨sep, child⟩ :: ps, rfl, ?_, ?_, ?_, ?_⟩
        · rw [flatMap_cons, append_assoc]
        · exact pairwise_option_cons.mpr ⟨ascends, ordered⟩
        · exact forall_mem_cons.mpr ⟨⟨sepSized, childSized⟩, sized⟩
        · rw [firstChild_cons]
    · rintro ⟨ps, isCount, rfl, ordered, sized, rfl⟩
      cases ps with
      | nil => cases isCount
      | cons p ps =>
        obtain ⟨ascends, ordered⟩ := pairwise_option_cons.mp ordered
        obtain ⟨here, others⟩ := forall_mem_cons.mp sized
        refine ⟨p.sepName, p.childKey, ps.flatMap appendPair ++ rest,
          ⟨?_, here⟩, ?_⟩
        · rw [flatMap_cons, append_assoc]
        · rw [if_neg ascends]
          exact ih.mpr ⟨ps, Nat.succ.inj isCount, rfl,
            ordered, others, firstChild_cons name found p ps⟩

/-- An index node that a scan answers for is one the encoder writes. -/
theorem scanNode_eq_some_iff :
    scanNode b name = some answer ↔
      ∃ ps : List DirPair, ps.length ≤ maxItems ∧ b = marshalPairs ps ∧
        (ps.Pairwise fun left right => left.sepName < right.sepName) ∧
        (∀ p ∈ ps, p.sepName.length < 2 ^ 64 ∧ p.childKey.length < 2 ^ 64) ∧
        answer = ((firstChild name none ps).map Node.child).getD .missing := by
  simp only [scanNode, bind_eq_bind, bind_eq_some_iff,
    Prod.exists, array_eq_some_iff, pairs_eq_some_iff]
  constructor
  · rintro ⟨_, _, ⟨rfl, few⟩, result, rest, ⟨ps, rfl, rfl, ordered, sized, rfl⟩,
      isAnswer⟩
    split at isAnswer
    case isTrue => cases isAnswer
    case isFalse isDone =>
      rw [ne_eq, not_not] at isDone
      subst isDone
      refine ⟨ps, few, by rw [marshalPairs, append_nil],
        pairwise_map.mp ordered, sized, ?_⟩
      cases isAnswer
      cases firstChild name none ps <;> rfl
  · rintro ⟨ps, few, rfl, ordered, sized, rfl⟩
    refine ⟨ps.length, ps.flatMap appendPair, ⟨rfl, few⟩,
      firstChild name none ps, [], ⟨ps, rfl, by rw [append_nil],
        pairwise_map.mpr ordered, sized, rfl⟩, ?_⟩
    rw [if_neg (by simp)]
    cases firstChild name none ps <;> rfl

/-- The scan answers for what the encoder writes of pairs in order. -/
theorem node_marshalPairs_ne_unsure
    {pairs : List DirPair} (few : pairs.length ≤ maxItems)
    (ordered : pairs.Pairwise fun left right => left.sepName < right.sepName)
    (sized : ∀ p ∈ pairs,
      p.sepName.length < 2 ^ 63 ∧ p.childKey.length < 2 ^ 63)
    (name : Bytes) : node (marshalPairs pairs) name ≠ .unsure := by
  have fits : ∀ p ∈ pairs,
      p.sepName.length < 2 ^ 64 ∧ p.childKey.length < 2 ^ 64 := by
    intro p isPair
    obtain ⟨sepSized, childSized⟩ := sized p isPair
    exact ⟨by omega, by omega⟩
  have answered : scanNode (marshalPairs pairs) name =
      some (((firstChild name none pairs).map Node.child).getD .missing) :=
    scanNode_eq_some_iff.mpr ⟨pairs, few, rfl, ordered, fits, rfl⟩
  rw [node, answered]
  cases firstChild name none pairs <;> exact Node.noConfusion

/-- Numbers that are too many are not passed over. -/
theorem value_rdev_eq_none
    {e : Entry} (many : maxItems < e.rdev.length)
    (sized : e.rdev.length < 2 ^ 64) (rest : Bytes) :
    value 7 (e.fieldValue 7 ++ rest) = none := by
  have isHead : head (e.fieldValue 7 ++ rest) = some (.array, e.rdev.length,
      e.rdev.flatMap (fun r => appendHead .uint r.toNat) ++ rest) :=
    head_eq_some_iff.mpr ⟨by simp [Entry.fieldValue], sized⟩
  have noArray : array (e.fieldValue 7 ++ rest) = none := by
    rw [array, isHead]
    exact if_neg (Nat.not_le.mpr many)
  change uints (e.fieldValue 7 ++ rest) = none
  rw [uints, noArray]
  rfl

/-- An entry without a name that has too many numbers is not taken. -/
theorem entry_eq_none
    {e : Entry} (many : maxItems < e.rdev.length)
    (sized : e.rdev.length < 2 ^ 64) (allocated : e.Allocated)
    (isPresent : e.present = [0, 1, 2, 3, 4, 7]) (rest : Bytes) :
    entry none (e.fieldsBytes e.present ++ rest) = none := by
  have firstFour : ∀ k ∈ [1, 2, 3, 4], Scannable k ∧ e.FieldReads k := by
    have small : ∀ k ∈ [1, 2, 3, 4], Scannable k ∧ k ≠ 7 := by
      unfold Scannable
      decide
    exact fun k isIn => ⟨(small k isIn).1,
      fieldReads_of_ne e (small k isIn).2 (small k isIn).1.2.2⟩
  have ordered : [0, 1, 2, 3, 4].Pairwise (· < ·) := by decide
  have stuck : fields 1 4
      (appendHead .uint 7 ++ (e.fieldValue 7 ++ rest)) = none := by
    rw [fields, uint_eq_some_iff.mpr ⟨rfl, by decide⟩]
    simp only [bind_eq_bind, bind_some]
    rw [if_neg (by decide), value_rdev_eq_none many sized, bind_none]
  have isFields := fields_flatMap allocated ordered firstFour 1
    (appendHead .uint 7 ++ (e.fieldValue 7 ++ rest))
  have small := allocated.name
  have isHead : head (e.fieldsBytes e.present ++ rest) = some (.map, 6,
      appendHead .uint 0 ++ (appendBstr e.name ++
        ([1, 2, 3, 4].flatMap (fun k => appendHead .uint k ++
          e.fieldValue k) ++
          (appendHead .uint 7 ++ (e.fieldValue 7 ++ rest))))) := by
    refine head_eq_some_iff.mpr ⟨?_, by decide⟩
    rw [isPresent, Entry.fieldsBytes]
    simp only [flatMap_cons, List.flatMap_nil, append_nil,
      append_assoc, length_cons, List.length_nil]
    rfl
  rw [entry, isHead]
  simp only [uint_eq_some_iff.mpr ⟨rfl, show 0 < 2 ^ 64 by decide⟩,
    bytes_eq_some_iff.mpr ⟨rfl, show e.name.length < 2 ^ 64 by omega⟩,
    bind_eq_bind, bind_some]
  rw [if_pos (by decide), if_neg (by decide), if_neg (by simp)]
  change (fields 5 0 _).bind _ = none
  rw [← show [1, 2, 3, 4].length + 1 = 5 from rfl, isFields]
  change (fields 1 4 _).bind _ = none
  rw [stuck, bind_none]

end AmberStore.Fstree.Scan
