import AmberStore.Cbor.Item
import AmberStore.Fx.Wellformed

/-!
# Deterministic items are well formed

The machine is run over a deterministic item by induction on the item: whatever
containers are open, it comes out behind the item with the item counted.
-/

open ByteString

namespace AmberStore.Fx

open Cbor

/-- A written head is read, and its length is not open. -/
theorem wfHead_appendHead
    (notPrimitive : major ≠ .primitives)
    (n : Nat) (rest : Bytes) (fits : n < 2 ^ 64) :
    ∃ ai, ai ≠ 31 ∧
      wfHead (appendHead major n ++ rest) = .ok ⟨major, ai, n, rest⟩ := by
  obtain ⟨ai, spells, -, written⟩ := appendHead_eq major n fits
  obtain ⟨typed, low⟩ := spells.fromInitialByte major
  refine ⟨ai, ?_, ?_⟩
  · rintro rfl
    exact absurd spells.lt (by decide)
  · simp only [written, List.cons_append, wfHead, typed, low]
    rcases spells with ⟨inHead, value⟩ | ⟨notInHead, wide, bound⟩
    · rw [if_pos inHead, value, argWidth_of_le inHead]
      rfl
    · rw [if_neg (UInt8.not_le.mpr notInHead), if_pos wide,
        readBe_beBytes bound]
      simp [notPrimitive]

/-- The innermost container, if there is one, has a known length. -/
def Definite : List Frame → Prop
  | [] => True
  | .definite _ _ :: _ => True
  | .indefinite _ _ _ :: _ => False
  | .chunks _ :: _ => False

/-- What the machine answers once an item is complete. -/
def afterItem (opts : WfOpts) (rest : Bytes) (stack : List Frame) :
    Except CborError Bytes :=
  match finishItem opts rest stack with
  | .error error => .error error
  | .ok (.done rest) => .ok rest
  | .ok (.more next) => wfItem opts next

/-- One round of the machine, and then the others. -/
theorem wfItem_eq (opts : WfOpts) (state : WfState) :
    wfItem opts state =
      match wfStep opts state with
      | .error error => .error error
      | .ok (.done rest) => .ok rest
      | .ok (.more next) => wfItem opts next := by
  rw [wfItem]
  cases wfStep opts state with
  | error error => rfl
  | ok outcome => cases outcome <;> rfl

/-- In a container of known length no break is looked for. -/
theorem wfStep_of_definite
    (definite : Definite stack) (rest : Bytes) :
    wfStep opts ⟨rest, stack, none⟩ =
      wfValue opts rest stack (baseDepth stack) := by
  match stack with
  | [] => rfl
  | .definite _ _ :: _ => rfl

/-- A value that completes an item is one round. -/
theorem wfItem_of_finish
    (definite : Definite stack)
    (value : wfValue opts bytes stack (baseDepth stack) =
      finishItem opts rest stack) :
    wfItem opts ⟨bytes, stack, none⟩ = afterItem opts rest stack := by
  rw [wfItem_eq, wfStep_of_definite definite, value, afterItem]

/-- An integer is one round. -/
theorem wfItem_integer
    (isInteger : major = .uint ∨ major = .negint)
    (n : Nat) (fits : n < 2 ^ 64)
    (definite : Definite stack) (rest : Bytes) :
    wfItem opts ⟨appendHead major n ++ rest, stack, none⟩ =
      afterItem opts rest stack := by
  have notPrimitive : major ≠ .primitives := by
    rcases isInteger with rfl | rfl <;> decide
  obtain ⟨ai, -, isRead⟩ := wfHead_appendHead notPrimitive n rest fits
  apply wfItem_of_finish definite
  rw [wfValue, isRead]
  rcases isInteger with rfl | rfl <;> rfl

/-- A string is one round. -/
theorem wfItem_string
    (isString : major = .bstr ∨ major = .tstr)
    (content : Bytes) (fits : content.length < 2 ^ 63)
    (definite : Definite stack) (rest : Bytes) :
    wfItem opts
        ⟨appendHead major content.length ++ content ++ rest, stack, none⟩ =
      afterItem opts rest stack := by
  have notPrimitive : major ≠ .primitives := by
    rcases isString with rfl | rfl <;> decide
  obtain ⟨ai, notOpen, isRead⟩ := wfHead_appendHead notPrimitive
    content.length (content ++ rest) (by omega)
  rw [← List.append_assoc] at isRead
  have inRange : ¬i64Max < content.length := by
    change ¬2 ^ 63 - 1 < _
    omega
  apply wfItem_of_finish definite
  rw [wfValue, isRead]
  rcases isString with rfl | rfl <;> simp [notOpen, inRange]

/-- The members of a container of known length are counted down. -/
theorem wfItem_members
    (members : List Bytes)
    (each : ∀ member ∈ members, ∀ remaining rest,
      wfItem opts ⟨member ++ rest, .definite remaining depth :: stack, none⟩ =
        afterItem opts rest (.definite remaining depth :: stack))
    (present : members ≠ []) :
    wfItem opts ⟨members.flatten ++ rest,
        .definite members.length depth :: stack, none⟩ =
      afterItem opts rest stack := by
  induction members with
  | nil => exact absurd rfl present
  | cons member members ih =>
    rw [List.flatten_cons, List.append_assoc, each member List.mem_cons_self]
    have remaining : ∀ member ∈ members, _ := fun other isOther =>
      each other (List.mem_cons_of_mem _ isOther)
    unfold afterItem finishItem
    rw [completeItem, List.length_cons, Nat.add_sub_cancel]
    cases members with
    | nil => rfl
    | cons next members =>
      rw [if_neg (by simp)]
      exact ih remaining (by simp)

/-- The options take as many members as deterministic items have. -/
def WfOpts.Roomy (opts : WfOpts) : Prop :=
  maxElements ≤ opts.maxArray ∧ maxElements ≤ opts.maxMap

theorem decodeWf_roomy : decodeWf.Roomy := by
  constructor <;> decide

theorem marshalerWf_roomy : marshalerWf.Roomy := by
  constructor <;> decide

/-- A container is left behind once its members are read. -/
theorem wfItem_container
    (roomy : opts.Roomy) {members : List Bytes}
    (shape : major = .array ∧ members.length = count ∨
      major = .map ∧ members.length = 2 * count)
    (few : count ≤ maxElements)
    (definite : Definite stack)
    (shallow : baseDepth stack + 1 ≤ opts.maxNested)
    (each : ∀ member ∈ members, ∀ remaining rest,
      wfItem opts ⟨member ++ rest,
          .definite remaining (baseDepth stack + 1) :: stack, none⟩ =
        afterItem opts rest
          (.definite remaining (baseDepth stack + 1) :: stack))
    (rest : Bytes) :
    wfItem opts
        ⟨appendHead major count ++ members.flatten ++ rest, stack, none⟩ =
      afterItem opts rest stack := by
  have notPrimitive : major ≠ .primitives := by
    rcases shape with ⟨rfl, -⟩ | ⟨rfl, -⟩ <;> decide
  obtain ⟨ai, notOpen, isRead⟩ := wfHead_appendHead notPrimitive count
    (members.flatten ++ rest) (lt_of_le_of_lt few (by decide))
  rw [← List.append_assoc] at isRead
  have value : wfValue opts
        (appendHead major count ++ members.flatten ++ rest) stack
        (baseDepth stack) =
      if members.length = 0 then
        finishItem opts (members.flatten ++ rest) stack
      else
        .ok (.more ⟨members.flatten ++ rest,
          .definite members.length (baseDepth stack + 1) :: stack, none⟩) := by
    have notDeep : ¬opts.maxNested < baseDepth stack + 1 := by omega
    have inRange : ¬i64Max < count := not_lt_of_ge (le_trans few (by decide))
    rw [wfValue, isRead]
    rcases shape with ⟨rfl, sized⟩ | ⟨rfl, sized⟩
    · have notMany : ¬opts.maxArray < count :=
        not_lt_of_ge (le_trans few roomy.1)
      simp only [openContainer, if_neg notDeep, if_neg notOpen, if_neg inRange]
      simp [itemCount, sized, notMany]
    · have notMany : ¬opts.maxMap < count := not_lt_of_ge (le_trans few roomy.2)
      simp only [openContainer, if_neg notDeep, if_neg notOpen, if_neg inRange]
      simp [itemCount, sized, notMany, Nat.mul_comm]
  by_cases empty : members = []
  · subst empty
    exact wfItem_of_finish definite value
  · have some : members.length ≠ 0 := by simpa using empty
    rw [wfItem_eq, wfStep_of_definite definite, value, if_neg some]
    exact wfItem_members members each empty

/-- The machine goes over every deterministic item. -/
theorem wfItem_item
    (roomy : opts.Roomy)
    (isItem : Item levels item) :
    ∀ (stack : List Frame), Definite stack →
      baseDepth stack + levels ≤ opts.maxNested → ∀ rest,
      wfItem opts ⟨item ++ rest, stack, none⟩ = afterItem opts rest stack := by
  induction isItem with
  | uint n fits =>
    intro stack definite shallow rest
    exact wfItem_integer (.inl rfl) n fits definite rest
  | negint n fits =>
    intro stack definite shallow rest
    exact wfItem_integer (.inr rfl) n fits definite rest
  | bstr content fits =>
    intro stack definite shallow rest
    exact wfItem_string (.inl rfl) content fits definite rest
  | tstr text fits =>
    intro stack definite shallow rest
    exact wfItem_string (.inr rfl) (utf8 text) fits definite rest
  | array items few each ih =>
    intro stack definite shallow rest
    refine wfItem_container roomy (.inl ⟨rfl, rfl⟩) few definite (by omega) ?_
      rest
    intro item isMember remaining
    exact ih item isMember (.definite remaining (baseDepth stack + 1) :: stack)
      trivial (by rw [baseDepth]; omega)
  | map pairs members paired few each ih =>
    intro stack definite shallow rest
    refine wfItem_container roomy (.inr ⟨rfl, paired⟩) few definite (by omega)
      ?_ rest
    intro member isMember remaining
    exact ih member isMember
      (.definite remaining (baseDepth stack + 1) :: stack) trivial
      (by rw [baseDepth]; omega)

/-- A deterministic item is a well-formed document. -/
theorem wellformed_item
    (roomy : opts.Roomy) (isItem : Item levels item)
    (shallow : levels ≤ opts.maxNested) :
    wellformed item opts = .ok () := by
  have whole := wfItem_item roomy isItem [] trivial (by simpa [baseDepth]) []
  rw [List.append_nil] at whole
  have complete : afterItem opts [] [] = .ok [] := rfl
  rw [wellformed, if_neg isItem.ne_nil, whole, complete]
  rfl

end AmberStore.Fx
