import AmberStore.Cbor.Head

/-!
# Well-formedness of CBOR documents

The decoders of tree objects and commits first check that their input is
exactly one well-formed item.  The check is a machine that reads one head at a
time and keeps the open containers on a stack, so that deep nesting costs no
recursion.
-/

open ByteString

namespace AmberStore.Fx

open Cbor

/-- The type of an item is its major type. -/
abbrev CborType := Major

/-! ## Errors -/

/-- Why bytes are not decoded. -/
inductive CborError
  | eof
  | unexpectedEof
  | unexpectedBreak
  | invalidAdditionalInformation (ai : UInt8) (t : CborType)
  | invalidSimpleValue (value : Nat)
  | stringLengthOverflow (t : CborType) (len : Nat)
  | containerLengthOverflow (t : CborType) (len : Nat)
  | maxNestedLevel (limit : Nat)
  | maxArrayElements (limit : Nat)
  | maxMapPairs (limit : Nat)
  | wrongIndefiniteChunkType (t chunk : CborType)
  | indefiniteChunkNotDefinite (t : CborType)
  | indefiniteLengthNotAllowed (t : CborType)
  | extraneousData (num index : Nat)
  | invalidUtf8
  | inadmissibleTagContent (tag expected : String) (got : CborType)
  | unmarshalType (t : CborType) (goType : String) (field : Option String)
      (msg : Option String)
  deriving DecidableEq, Repr

/-! ## Options -/

/-- What a document is checked against. -/
structure WfOpts where
  maxNested : Nat
  maxArray : Nat
  maxMap : Nat
  /-- Whether strings and containers may leave their length open. -/
  indefAllowed : Bool
  /-- Whether the content of built-in tags is checked. -/
  checkBuiltinTags : Bool

/-- The options documents are decoded with. -/
def decodeWf : WfOpts where
  maxNested := 32
  maxArray := 131072
  maxMap := 131072
  indefAllowed := true
  checkBuiltinTags := false

/-- The options a spliced item is encoded with. -/
def marshalerWf : WfOpts where
  maxNested := 65535
  maxArray := 2147483647
  maxMap := 2147483647
  indefAllowed := false
  checkBuiltinTags := true

/-! ## Heads and tags -/

/-- The largest `i64`. -/
abbrev i64Max : Nat := 2 ^ 63 - 1

/-- A head with its additional information. -/
structure FxHead where
  t : CborType
  /-- The additional information, 31 for an open length. -/
  ai : UInt8
  val : Nat
  rest : Bytes

/-- Reads one head. -/
def wfHead : Bytes → Except CborError FxHead
  | [] => .error .unexpectedEof
  | b :: data =>
    let t := Major.fromInitialByte b
    let ai := b &&& 0x1f
    if ai ≤ 23 then
      .ok ⟨t, ai, ai.toNat, data⟩
    else if ai ≤ 27 then
      if data.length < argWidth ai then
        .error .unexpectedEof
      else
        let val := readBe data 0 (argWidth ai)
        if ai = 24 ∧ t = .primitives ∧ val < 32 then
          .error (.invalidSimpleValue val)
        else
          .ok ⟨t, ai, val, data.drop (argWidth ai)⟩
    else if ai = 31 then
      match t with
      | .uint | .negint | .tag =>
        .error (.invalidAdditionalInformation ai t)
      | .primitives => .error .unexpectedBreak
      | .bstr | .tstr | .array | .map => .ok ⟨t, ai, ai.toNat, data⟩
    else
      .error (.invalidAdditionalInformation ai t)

/-- Built-in tags must be followed by content of their type. -/
def validBuiltinTag (tagNum : Nat) (contentHead : UInt8) :
    Except CborError Unit :=
  let t := Major.fromInitialByte contentHead
  match tagNum with
  | 0 =>
    if t ≠ .tstr then
      .error (.inadmissibleTagContent "0" "text string" t)
    else
      .ok ()
  | 1 =>
    if t ≠ .uint ∧ t ≠ .negint ∧
        ¬(0xf9 ≤ contentHead ∧ contentHead ≤ 0xfb) then
      .error (.inadmissibleTagContent "1" "integer or floating-point number" t)
    else
      .ok ()
  | 2 | 3 =>
    if t ≠ .bstr then
      .error (.inadmissibleTagContent "2 or 3" "byte string" t)
    else
      .ok ()
  | _ => .ok ()

/-- Reading a head consumes it. -/
theorem wfHead_length
    (isRead : wfHead data = .ok head) :
    head.rest.length < data.length := by
  cases data with
  | nil => cases isRead
  | cons b data =>
    simp only [wfHead] at isRead
    split_ifs at isRead
    · cases isRead
      exact Nat.lt_succ_self _
    · cases isRead
      simp only [List.length_drop, List.length_cons]
      omega
    · split at isRead
      all_goals
        cases isRead
        try exact Nat.lt_succ_self _

/-- Reads the rest of a chain of tags: where its content starts, and how deep
it is.  Each tag after the first is one level. -/
def wfTags (opts : WfOpts) (tagNum depth : Nat) :
    (data : Bytes) → Except CborError (Bytes × Nat)
  | [] => .error .unexpectedEof
  | b :: data =>
    match if opts.checkBuiltinTags then validBuiltinTag tagNum b
      else .ok () with
    | .error error => .error error
    | .ok () =>
      if Major.fromInitialByte b ≠ .tag then
        .ok (b :: data, depth)
      else
        match isRead : wfHead (b :: data) with
        | .error error => .error error
        | .ok head =>
          if opts.maxNested < depth + 1 then
            .error (.maxNestedLevel opts.maxNested)
          else
            wfTags opts head.val (depth + 1) head.rest
termination_by data => data.length
decreasing_by exact wfHead_length isRead

theorem wfTags_length
    (isRead : wfTags opts tagNum depth data = .ok (content, level)) :
    content.length ≤ data.length := by
  fun_induction wfTags opts tagNum depth data with
  | case1 | case2 => cases isRead
  | case3 =>
    cases isRead
    exact le_rfl
  | case4 | case5 => cases isRead
  | case6 tagNum depth b data checked isTag head headRead room
      ih =>
      have shorter := ih isRead
      have consumed := wfHead_length headRead
      omega

/-! ## The machine -/

/-- An open container. -/
inductive Frame
  /-- An array or a map of known length, with the items it still expects. -/
  | definite (remaining depth : Nat)
  /-- An array or a map of open length, with the items it has. -/
  | indefinite (map : Bool) (count depth : Nat)
  /-- A string of open length. -/
  | chunks (t : CborType)
  deriving DecidableEq, Repr

/-- The machine between two heads. -/
structure WfState where
  rest : Bytes
  /-- The open containers, innermost first. -/
  stack : List Frame
  /-- The depth of the content of a tag, when that comes next. -/
  tagContentDepth : Option Nat

/-- What follows a complete item. -/
inductive WfOutcome
  | done (rest : Bytes)
  | more (next : WfState)

/-- Closes the containers that a complete item completes, and counts it in the
innermost one that stays open.  Nothing is left when the document is
complete. -/
def completeItem (opts : WfOpts) :
    List Frame → Except CborError (Option (List Frame))
  | [] => .ok none
  | .definite remaining depth :: stack =>
    if remaining - 1 = 0 then
      completeItem opts stack
    else
      .ok (some (.definite (remaining - 1) depth :: stack))
  | .indefinite map count depth :: stack =>
    if map ∧ (count + 1) % 2 = 0 ∧ opts.maxMap < (count + 1) / 2 then
      .error (.maxMapPairs opts.maxMap)
    else if ¬map ∧ opts.maxArray < count + 1 then
      .error (.maxArrayElements opts.maxArray)
    else
      .ok (some (.indefinite map (count + 1) depth :: stack))
  | .chunks t :: stack => .ok (some (.chunks t :: stack))

/-- The state after a complete item. -/
def finishItem (opts : WfOpts) (rest : Bytes) (stack : List Frame) :
    Except CborError WfOutcome :=
  match completeItem opts stack with
  | .error error => .error error
  | .ok none => .ok (.done rest)
  | .ok (some stack) => .ok (.more ⟨rest, stack, none⟩)

/-- The depth of the next item of the innermost container. -/
def baseDepth : List Frame → Nat
  | .definite _ depth :: _ => depth
  | .indefinite _ _ depth :: _ => depth
  | .chunks _ :: _ => 0
  | [] => 0

/-- The items of a container of known length: a map counts keys and values. -/
def itemCount (head : FxHead) : Nat :=
  if head.t = .map then head.val * 2 else head.val

/-- Opens an array or a map. -/
def openContainer (opts : WfOpts) (head : FxHead) (depth : Nat)
    (stack : List Frame) : Except CborError WfOutcome :=
  if opts.maxNested < depth then
    .error (.maxNestedLevel opts.maxNested)
  else if head.ai = 31 then
    if !opts.indefAllowed then
      .error (.indefiniteLengthNotAllowed head.t)
    else
      .ok (.more ⟨head.rest,
        .indefinite (head.t = .map) 0 depth :: stack, none⟩)
  else if i64Max < head.val then
    .error (.containerLengthOverflow head.t head.val)
  else if head.t = .array ∧ opts.maxArray < head.val then
    .error (.maxArrayElements opts.maxArray)
  else if head.t = .map ∧ opts.maxMap < head.val then
    .error (.maxMapPairs opts.maxMap)
  else
    if itemCount head = 0 then
      finishItem opts head.rest stack
    else
      .ok (.more ⟨head.rest, .definite (itemCount head) depth :: stack, none⟩)

/-- Reads the head of an item at the given depth. -/
def wfValue (opts : WfOpts) (rest : Bytes) (stack : List Frame)
    (depth : Nat) : Except CborError WfOutcome :=
  match wfHead rest with
  | .error error => .error error
  | .ok head =>
    match head.t with
    | .uint | .negint | .primitives => finishItem opts head.rest stack
    | .bstr | .tstr =>
      if head.ai = 31 then
        if !opts.indefAllowed then
          .error (.indefiniteLengthNotAllowed head.t)
        else
          .ok (.more ⟨head.rest, .chunks head.t :: stack, none⟩)
      else if i64Max < head.val then
        .error (.stringLengthOverflow head.t head.val)
      else if head.rest.length < head.val then
        .error .unexpectedEof
      else
        finishItem opts (head.rest.drop head.val) stack
    | .array | .map => openContainer opts head (depth + 1) stack
    | .tag =>
      match wfTags opts head.val depth head.rest with
      | .error error => .error error
      | .ok (content, depth) => .ok (.more ⟨content, stack, some depth⟩)

/-- One round of the machine.  An open container may be closed by a break,
except where the content of a tag comes next. -/
def wfStep (opts : WfOpts) (state : WfState) : Except CborError WfOutcome :=
  match state.tagContentDepth with
  | some depth => wfValue opts state.rest state.stack depth
  | none =>
    let value := wfValue opts state.rest state.stack (baseDepth state.stack)
    match state.stack, state.rest with
    | .chunks _ :: _, [] => .error .unexpectedEof
    | .chunks t :: stack, b :: rest =>
      let chunk := Major.fromInitialByte b
      if b = 0xff then
        finishItem opts rest stack
      else if chunk ≠ t then
        .error (.wrongIndefiniteChunkType t chunk)
      else if b &&& 0x1f = 31 then
        .error (.indefiniteChunkNotDefinite t)
      else
        value
    | .indefinite _ _ _ :: _, [] => .error .unexpectedEof
    | .indefinite map count _ :: stack, b :: rest =>
      if b = 0xff then
        -- a key without a value
        if map ∧ count % 2 = 1 then
          .error .unexpectedBreak
        else
          finishItem opts rest stack
      else
        value
    | .definite _ _ :: _, _ => value
    | [], _ => value

theorem finishItem_more
    (finished : finishItem opts rest stack = .ok (.more next)) :
    next.rest = rest := by
  unfold finishItem at finished
  split at finished
  · cases finished
  · cases finished
  · cases finished
    rfl

theorem openContainer_more
    (opened : openContainer opts head depth stack = .ok (.more next)) :
    next.rest = head.rest := by
  unfold openContainer at opened
  split_ifs at opened
  · cases opened
    rfl
  · exact finishItem_more opened
  · cases opened
    rfl

/-- Reading a value consumes its head. -/
theorem wfValue_more
    (isRead : wfValue opts rest stack depth = .ok (.more next)) :
    next.rest.length < rest.length := by
  unfold wfValue at isRead
  split at isRead
  · cases isRead
  · next head headRead =>
    have consumed := wfHead_length headRead
    split at isRead
    case h_4 | h_5 =>
      split_ifs at isRead
      · cases isRead
        exact consumed
      · rw [finishItem_more isRead, List.length_drop]
        omega
    case h_6 | h_7 => rwa [openContainer_more isRead]
    case h_8 =>
      split at isRead
      · cases isRead
      · next content level tagsRead =>
        cases isRead
        exact lt_of_le_of_lt (wfTags_length tagsRead) consumed
    all_goals rwa [finishItem_more isRead]

/-- Every round consumes input. -/
theorem wfStep_more
    (stepped : wfStep opts state = .ok (.more next)) :
    next.rest.length < state.rest.length := by
  unfold wfStep at stepped
  split at stepped
  · exact wfValue_more stepped
  · dsimp only at stepped
    split at stepped
    · cases stepped
    · next isRest =>
      rw [isRest]
      split_ifs at stepped
      · rw [finishItem_more stepped]
        simp
      · rw [← isRest]
        exact wfValue_more stepped
    · cases stepped
    · next isRest =>
      rw [isRest]
      split_ifs at stepped
      · rw [finishItem_more stepped]
        simp
      · rw [← isRest]
        exact wfValue_more stepped
    · exact wfValue_more stepped
    · exact wfValue_more stepped

/-- Runs the machine to the end of the document. -/
def wfItem (opts : WfOpts) (state : WfState) : Except CborError Bytes :=
  match _ : wfStep opts state with
  | .error error => .error error
  | .ok (.done rest) => .ok rest
  | .ok (.more next) => wfItem opts next
termination_by state.rest.length
decreasing_by exact wfStep_more ‹_›

/-- Checks that the input is exactly one well-formed item. -/
def wellformed (data : Bytes) (opts : WfOpts) : Except CborError Unit :=
  if data = [] then
    .error .eof
  else
    match wfItem opts ⟨data, [], none⟩ with
    | .error error => .error error
    | .ok rest =>
      if rest ≠ [] then
        .error (.extraneousData rest.length (data.length - rest.length))
      else
        .ok ()

end AmberStore.Fx
