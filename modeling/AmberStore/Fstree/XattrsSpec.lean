import AmberStore.Fstree.Xattrs

/-!
# Attributes have one encoding

What the encoder writes is read back, its keys are in order, and bytes that are
read from shortest heads and keys in order are what the encoder writes.
-/

open ByteString Checked

namespace AmberStore.Fstree

open Cbor

/-! ## Byte strings -/

theorem readBstr_appendBstr
    (sized : content.length < 2 ^ 64) (rest : Bytes) :
    readBstr (appendBstr content ++ rest) = .ok (content, rest) := by
  rw [readBstr, appendBstr, List.append_assoc,
    readHead_appendHead _ _ _ sized, mapError_ok, ok_bind]
  dsimp only
  rw [if_neg (by decide), if_neg (by simp), List.take_left, List.drop_left]

/-- What is read from a shortest head was written. -/
theorem eq_of_readBstr
    (isRead : readBstr b = .ok (content, rest))
    (shortest : ShortestHead b) : b = appendBstr content ++ rest := by
  obtain ⟨head, isHead, isRead⟩ := bind_eq_ok_iff.mp isRead
  rw [mapError_eq_ok_iff] at isHead
  rw [errorIf_eq_ok_iff, errorIf_eq_ok_iff, not_not] at isRead
  obtain ⟨isBstr, enough, same⟩ := isRead
  obtain ⟨rfl, rfl⟩ := Prod.mk.inj (Except.ok.inj same)
  have length : (head.rest.take head.arg).length = head.arg := by
    rw [List.length_take]
    omega
  have written := shortest.eq_appendHead isHead
  rw [isBstr] at written
  rw [appendBstr, length, List.append_assoc, List.take_append_drop]
  exact written

theorem length_lt_of_readBstr
    (isRead : readBstr b = .ok (content, rest)) :
    content.length < 2 ^ 64 := by
  obtain ⟨head, isHead, isRead⟩ := bind_eq_ok_iff.mp isRead
  rw [mapError_eq_ok_iff] at isHead
  rw [errorIf_eq_ok_iff, errorIf_eq_ok_iff] at isRead
  obtain ⟨rfl, rfl⟩ := Prod.mk.inj (Except.ok.inj isRead.2.2)
  obtain ⟨_, spells, -⟩ := eq_of_readHead isHead
  have bound := spells.arg_lt
  rw [List.length_take]
  omega

theorem two_le_appendBstr (name value : Bytes) :
    2 ≤ (appendBstr name ++ appendBstr value).length := by
  have each : ∀ content, 1 ≤ (appendBstr content).length := by
    intro content
    rw [appendBstr, List.length_append]
    have positive := List.length_pos_of_ne_nil
      (appendHead_ne_nil .bstr content.length)
    omega
  have first := each name
  have second := each value
  rw [List.length_append]
  omega

/-- Byte strings are encoded differently. -/
theorem appendBstr_inj
    (leftSized : left.length < 2 ^ 64)
    (rightSized : right.length < 2 ^ 64)
    (same : appendBstr left = appendBstr right) : left = right := by
  have isLeft := readBstr_appendBstr leftSized []
  have isRight := readBstr_appendBstr rightSized []
  rw [same, isRight] at isLeft
  exact (Prod.mk.inj (Except.ok.inj isLeft)).1.symm

/-! ## Pairs -/

/-- The bytes of pairs. -/
def pairsBytes (pairs : List (Bytes × Bytes)) : Bytes :=
  pairs.flatMap fun pair => appendBstr pair.1 ++ appendBstr pair.2

theorem pairsBytes_cons (pair : Bytes × Bytes) (pairs : List (Bytes × Bytes)) :
    pairsBytes (pair :: pairs) =
      appendBstr pair.1 ++ (appendBstr pair.2 ++ pairsBytes pairs) := by
  rw [pairsBytes, List.flatMap_cons, List.append_assoc]
  rfl

/-- Every pair takes two bytes. -/
theorem two_mul_length_le (pairs : List (Bytes × Bytes)) :
    2 * pairs.length ≤ (pairsBytes pairs).length := by
  induction pairs with
  | nil => exact le_rfl
  | cons pair pairs ih =>
    have two := two_le_appendBstr pair.1 pair.2
    rw [pairsBytes_cons, ← List.append_assoc, List.length_append,
      List.length_cons]
    omega

/-- The lengths are those that the machine counts. -/
def Counted (pairs : List (Bytes × Bytes)) : Prop :=
  ∀ pair ∈ pairs, pair.1.length < 2 ^ 64 ∧ pair.2.length < 2 ^ 64

/-- Pairs that were written are read into the map. -/
theorem readPairs_pairsBytes
    (counted : Counted pairs) (index : Nat)
    (m : Xattrs) (rest : Bytes) :
    readPairs pairs.length index m (pairsBytes pairs ++ rest) =
      .ok (pairs.foldl (fun m pair => m.insert pair.1 pair.2) m, rest) := by
  induction pairs generalizing index m with
  | nil => rfl
  | cons pair pairs ih =>
    obtain ⟨here, others⟩ := List.forall_mem_cons.mp counted
    rw [pairsBytes_cons, List.append_assoc, List.append_assoc, List.length_cons,
      readPairs, readBstr_appendBstr here.1, mapError_ok, ok_bind]
    dsimp only
    rw [readBstr_appendBstr here.2, mapError_ok, ok_bind]
    exact ih others _ _

theorem encodedKeys_pairsBytes
    (counted : Counted pairs) (rest : Bytes) :
    (pairInputs pairs.length (pairsBytes pairs ++ rest)).map (fun input =>
        input.1.take (input.1.length - input.2.length)) =
      pairs.map fun pair => appendBstr pair.1 := by
  induction pairs with
  | nil => rfl
  | cons pair pairs ih =>
    obtain ⟨here, others⟩ := List.forall_mem_cons.mp counted
    rw [pairsBytes_cons, List.append_assoc, List.append_assoc,
      List.length_cons, pairInputs, readBstr_appendBstr here.1]
    dsimp only
    rw [readBstr_appendBstr here.2]
    dsimp only
    rw [List.map_cons, List.map_cons, ih others,
      List.length_append, Nat.add_sub_cancel, List.take_left]

/-- What is read from shortest heads was written. -/
theorem exists_pairs_of_readPairs
    (isRead : readPairs count index m b = .ok (after, rest))
    (shortest : ∀ input ∈ pairInputs count b,
      ShortestHead input.1 ∧ ShortestHead input.2) :
    ∃ pairs, pairs.length = count ∧ Counted pairs ∧
      b = pairsBytes pairs ++ rest ∧
      after = pairs.foldl (fun m pair => m.insert pair.1 pair.2) m ∧
      (pairInputs count b).map (fun input =>
        input.1.take (input.1.length - input.2.length)) =
          pairs.map fun pair => appendBstr pair.1 := by
  induction count generalizing index m b with
  | zero =>
    cases isRead
    exact ⟨[], rfl, by simp [Counted], rfl, rfl, rfl⟩
  | succ count ih =>
    obtain ⟨⟨name, afterName⟩, nameRead, isRead⟩ := bind_eq_ok_iff.mp isRead
    obtain ⟨⟨value, afterValue⟩, valueRead, isRead⟩ := bind_eq_ok_iff.mp isRead
    rw [mapError_eq_ok_iff] at nameRead valueRead
    have inputs : pairInputs (count + 1) b =
        (b, afterName) :: pairInputs count afterValue := by
      rw [pairInputs, nameRead]
      dsimp only
      rw [valueRead]
    rw [inputs, List.forall_mem_cons] at shortest
    obtain ⟨⟨nameShortest, valueShortest⟩, others⟩ := shortest
    obtain ⟨pairs, isCount, counted, isBytes, isAfter, isKeys⟩ :=
      ih isRead others
    have isName := eq_of_readBstr nameRead nameShortest
    have isValue := eq_of_readBstr valueRead valueShortest
    refine ⟨(name, value) :: pairs, by rw [List.length_cons, isCount],
      List.forall_mem_cons.mpr ⟨⟨length_lt_of_readBstr nameRead,
        length_lt_of_readBstr valueRead⟩, counted⟩, ?_, isAfter, ?_⟩
    · rw [pairsBytes_cons, List.append_assoc, List.append_assoc, ← isBytes,
        ← isValue, ← isName]
    · rw [inputs, List.map_cons, isKeys, List.map_cons, isName,
        List.length_append, Nat.add_sub_cancel, List.take_left]

/-! ## Maps -/

theorem pairs_foldl_insert (pairs : List (Bytes × Bytes)) (m : Xattrs) :
    (pairs.foldl (fun m pair => m.insert pair.1 pair.2) m).pairs =
      pairs.foldl (fun old pair => ByteMap.insert pair.1 pair.2 old)
        m.pairs := by
  induction pairs generalizing m with
  | nil => rfl
  | cons pair pairs ih => exact ih _

theorem Xattrs.ext
    {right : Xattrs} (same : left.pairs = right.pairs) : left = right := by
  cases left
  cases right
  cases same
  rfl

/-- Pairs with distinct names make up the map that has them. -/
theorem foldl_insert_eq
    {pairs : List (Bytes × Bytes)} {m : Xattrs}
    (distinct : pairs.Pairwise fun left right => left.1 ≠ right.1)
    (same : ∀ pair, pair ∈ pairs ↔ pair ∈ m.pairs) :
    pairs.foldl (fun m pair => m.insert pair.1 pair.2) .empty = m := by
  obtain ⟨sorted, isMember⟩ := @ByteMap.mem_foldl_insert Bytes pairs []
    .nil distinct (by simp)
  apply Xattrs.ext
  rw [pairs_foldl_insert]
  refine sorted.eq_of_mem_iff m.sorted fun pair => ?_
  rw [isMember, ← same]
  simp

/-- The pairs in the order in which they are encoded. -/
def Xattrs.encodedOrder (m : Xattrs) : List (Bytes × Bytes) :=
  m.pairs.insertionSort fun left right =>
    ¬ appendBstr right.1 < appendBstr left.1

theorem encodeXattrs_eq (m : Xattrs) :
    encodeXattrs m = appendHead .map m.encodedOrder.length ++
      pairsBytes m.encodedOrder := by
  rw [Xattrs.encodedOrder, List.length_insertionSort]
  rfl

theorem Xattrs.perm_encodedOrder (m : Xattrs) : m.encodedOrder.Perm m.pairs :=
  List.perm_insertionSort _ _

theorem Xattrs.distinct_encodedOrder (m : Xattrs) :
    m.encodedOrder.Pairwise fun left right => left.1 ≠ right.1 := by
  have distinct : m.pairs.Pairwise fun left right => left.1 ≠ right.1 := by
    refine m.sorted.imp ?_
    intro left right isLess isSame
    rw [isSame] at isLess
    exact List.lt_irrefl _ isLess
  exact m.perm_encodedOrder.symm.pairwise distinct fun different => different.symm

/-- Encoded keys increase. -/
theorem Xattrs.increasing_encodedOrder
    {m : Xattrs} (counted : Counted m.pairs) :
    m.encodedOrder.Pairwise fun left right =>
      appendBstr left.1 < appendBstr right.1 := by
  let notAfter : Bytes × Bytes → Bytes × Bytes → Prop := fun left right =>
    ¬ appendBstr right.1 < appendBstr left.1
  have : IsTrans (Bytes × Bytes) notAfter :=
    ⟨fun _ _ _ first second => List.le_trans first second⟩
  have : Std.Total notAfter :=
    ⟨fun left right => by
      by_cases isLess : appendBstr right.1 < appendBstr left.1
      · exact .inr (List.lt_asymm isLess)
      · exact .inl isLess⟩
  have sorted : m.encodedOrder.Pairwise notAfter :=
    List.pairwise_insertionSort notAfter m.pairs
  have both := sorted.and m.distinct_encodedOrder
  refine both.imp_of_mem ?_
  rintro left right isLeft isRight ⟨notLess, different⟩
  have leftCounted := counted left (m.perm_encodedOrder.mem_iff.mp isLeft)
  have rightCounted := counted right (m.perm_encodedOrder.mem_iff.mp isRight)
  refine ByteMap.lt_of_not_lt_of_ne notLess fun same => different ?_
  exact (appendBstr_inj rightCounted.1 leftCounted.1 same).symm

/-- Pairs whose encoded keys increase are encoded in their order. -/
theorem encodedOrder_foldl_insert
    (counted : Counted pairs)
    (increasing : pairs.Pairwise fun left right =>
      appendBstr left.1 < appendBstr right.1) :
    (pairs.foldl (fun m pair => m.insert pair.1 pair.2)
      Xattrs.empty).encodedOrder = pairs := by
  have distinct : pairs.Pairwise fun left right => left.1 ≠ right.1 := by
    refine increasing.imp ?_
    intro left right isLess isSame
    rw [isSame] at isLess
    exact List.lt_irrefl _ isLess
  obtain ⟨sorted, isMember⟩ := @ByteMap.mem_foldl_insert Bytes pairs []
    .nil distinct (by simp)
  have nodup : pairs.Nodup := by
    refine distinct.imp ?_
    rintro left right different rfl
    exact different rfl
  have perm : (pairs.foldl (fun m pair => m.insert pair.1 pair.2)
      Xattrs.empty).pairs.Perm pairs := by
    rw [pairs_foldl_insert]
    refine (List.perm_ext_iff_of_nodup sorted.nodup nodup).mpr fun pair => ?_
    rw [isMember]
    simp
  have allCounted : Counted (pairs.foldl (fun m pair =>
      m.insert pair.1 pair.2) Xattrs.empty).pairs :=
    fun pair isIn => counted pair (perm.mem_iff.mp isIn)
  exact ((Xattrs.perm_encodedOrder _).trans perm).eq_of_pairwise
    (fun _ _ _ _ isLess isGreater => absurd isGreater (List.lt_asymm isLess))
    (Xattrs.increasing_encodedOrder allCounted) increasing

/-- Attributes have one encoding: it is read back, its keys increase, and what is
read from shortest heads and increasing keys is it. -/
theorem decodeXattrs_encodeXattrs :
    (∀ m : Xattrs, m.pairs.length < 2 ^ 64 → Counted m.pairs →
      decodeXattrs (encodeXattrs m) = .ok m ∧
        (encodedKeys (encodeXattrs m)).Pairwise (· < ·)) ∧
    ∀ b m, decodeXattrs b = .ok m → ShortestHeads b →
      (encodedKeys b).Pairwise (· < ·) → b = encodeXattrs m := by
  constructor
  · intro m few counted
    have ordered : Counted m.encodedOrder := fun pair isIn =>
      counted pair (m.perm_encodedOrder.mem_iff.mp isIn)
    have fits : m.encodedOrder.length < 2 ^ 64 := by
      rwa [m.perm_encodedOrder.length_eq]
    have isHead := readHead_appendHead .map m.encodedOrder.length
      (pairsBytes m.encodedOrder) fits
    have enough := two_mul_length_le m.encodedOrder
    constructor
    · have isRead := readPairs_pairsBytes ordered 0 .empty []
      rw [List.append_nil] at isRead
      rw [decodeXattrs, encodeXattrs_eq, isHead, mapError_ok, ok_bind]
      dsimp only
      rw [if_neg (by decide), if_neg (by omega), isRead, ok_bind,
        foldl_insert_eq m.distinct_encodedOrder
          fun pair => m.perm_encodedOrder.mem_iff]
      rfl
    · have isKeys := encodedKeys_pairsBytes ordered []
      rw [List.append_nil] at isKeys
      rw [encodedKeys, mapInputs, encodeXattrs_eq, isHead]
      dsimp only
      rw [isKeys, List.pairwise_map]
      exact Xattrs.increasing_encodedOrder counted
  · intro b m decoded shortest increasing
    obtain ⟨head, isHead, decoded⟩ := bind_eq_ok_iff.mp decoded
    rw [mapError_eq_ok_iff] at isHead
    rw [errorIf_eq_ok_iff, errorIf_eq_ok_iff, not_not] at decoded
    obtain ⟨isMap, -, decoded⟩ := decoded
    obtain ⟨⟨after, rest⟩, isRead, ends⟩ := bind_eq_ok_iff.mp decoded
    dsimp only at ends
    split at ends
    case isFalse => cases ends
    case isTrue isEnd =>
      cases ends
      cases List.isEmpty_iff.mp isEnd
      have inputs : mapInputs b = pairInputs head.arg head.rest := by
        rw [mapInputs, isHead]
      obtain ⟨headShortest, othersShortest⟩ := shortest
      rw [inputs] at othersShortest
      rw [encodedKeys, inputs] at increasing
      obtain ⟨pairs, isCount, counted, isBytes, isAfter, isKeys⟩ :=
        exists_pairs_of_readPairs isRead othersShortest
      rw [isKeys, List.pairwise_map] at increasing
      have isOrder := encodedOrder_foldl_insert counted increasing
      rw [← isAfter] at isOrder
      have written := headShortest.eq_appendHead isHead
      rw [isMap, isBytes, List.append_nil, ← isCount] at written
      rw [encodeXattrs_eq, isOrder]
      exact written

/-- Attributes whose encoded order is not that of their names. -/
def twoXattrs : Xattrs :=
  ⟨[([1, 2], [3]), ([4], [])], by decide⟩

theorem decodeXattrs_encodeXattrs_twoXattrs :
    decodeXattrs (encodeXattrs twoXattrs) = .ok twoXattrs ∧
      [0xa2, 0x41, 4, 0x40, 0x42, 1, 2, 0x41, 3] = encodeXattrs twoXattrs := by
  have counted : Counted twoXattrs.pairs := by
    unfold Counted
    decide
  exact ⟨(decodeXattrs_encodeXattrs.1 twoXattrs (by decide) counted).1,
    decodeXattrs_encodeXattrs.2 _ twoXattrs rfl (by decide) (by decide)⟩

end AmberStore.Fstree
