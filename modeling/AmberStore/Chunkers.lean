import AmberStore.Lib.ByteString

/-!
# Content-defined chunking

Files are cut where the Hamming distance of the last eight bytes to a fixed
pattern matches a mask; runs of items end where the hash of an item does.
-/

open ByteString List

namespace AmberStore.Chunkers

/-! ## The byte chunker -/

abbrev defaultMinSize : Nat := 32 * 1024
abbrev defaultNormalSize : Nat := 512 * 1024
abbrev defaultMaxSize : Nat := 1024 * 1024

/-- The sizes of chunks; zero stands for the default. -/
structure ByteOpts where
  minSize : Nat := 0
  maxSize : Nat := 0
  normalSize : Nat := 0

/-- Why sizes are invalid. -/
inductive OptionsError
  | normalSize
  | minSize
  | maxSize
  deriving DecidableEq, Repr

/-- The sizes in effect. -/
structure Resolved where
  minSize : Nat
  maxSize : Nat
  normalSize : Nat

namespace Resolved

/-- Fields that are zero select the defaults. -/
def new (opts : Option ByteOpts) : Resolved :=
  let pick (v d : Nat) := if v = 0 then d else v
  match opts with
  | none => ⟨defaultMinSize, defaultMaxSize, defaultNormalSize⟩
  | some o => ⟨pick o.minSize defaultMinSize, pick o.maxSize defaultMaxSize,
      pick o.normalSize defaultNormalSize⟩

/-- The most any size may be. -/
abbrev oneGib : Nat := 1024 * 1024 * 1024

/-- Checks the sizes. -/
def validate (r : Resolved) : Except OptionsError Unit :=
  if r.normalSize < 64 ∨ oneGib < r.normalSize then
    .error .normalSize
  else if r.minSize < 64 ∨ oneGib < r.minSize ∨ r.normalSize ≤ r.minSize then
    .error .minSize
  else if r.maxSize < 64 ∨ oneGib < r.maxSize ∨ r.maxSize ≤ r.normalSize then
    .error .maxSize
  else
    .ok ()

end Resolved

/-- How many bits of a byte differ from the pattern. -/
def hammingTo0xaa (byte : UInt8) : Int64 :=
  .ofNat ((List.range 8).countP fun bit =>
    (byte ^^^ 0xaa).toNat.testBit bit)

/-- The mask below the normal size. -/
abbrev maskS : UInt64 := 0x2f

/-- The mask from the normal size on, which is easier to match. -/
abbrev maskL : UInt64 := 0x2c

/-- How many windows may repeat before a cut. -/
abbrev lowEntropyStringThreshold : Nat := 64

/-- Rolls over the bytes of a window: a cut, or the distance after it. -/
def rollWindow (data : Bytes) (mask : UInt64) (i : Nat) :
    (left j : Nat) → (dist : Int64) → Nat ⊕ Int64
  | 0, _, dist => .inr dist
  | left + 1, j, dist =>
    if dist.toUInt64 &&& mask = 0 then
      .inl (i + j)
    else
      let outByte := byteAt data (i + j - 8)
      let inByte := byteAt data (i + j)
      rollWindow data mask i left (j + 1)
        (dist + (hammingTo0xaa inByte - hammingTo0xaa outByte))

/-- Goes over the windows that start at `i` and later; `windows` is how many
there are. -/
def cutFrom (data : Bytes) (normalSize n : Nat) :
    (windows i lowEntropyCount : Nat) → (outBufWin : Bytes) →
      (dist : Int64) → Nat
  | 0, _, _, _, _ => n
  | windows + 1, i, lowEntropyCount, outBufWin, dist =>
    let mask := if normalSize ≤ i then maskL else maskS
    let inBufWin := slice data i (i + 8)
    if inBufWin = outBufWin then
      if lowEntropyStringThreshold ≤ lowEntropyCount + 1 then
        i + 8
      else
        cutFrom data normalSize n windows (i + 8) (lowEntropyCount + 1)
          outBufWin dist
    else
      match rollWindow data mask i 8 0 dist with
      | .inl cut => cut
      | .inr dist => cutFrom data normalSize n windows (i + 8) 0 inBufWin dist

/-- Where the first chunk of a buffer ends. -/
def ultraCdcCutpoint (opts : Resolved) (data : Bytes) : Nat :=
  let minSize := opts.minSize
  if data.length ≤ minSize then
    data.length
  else
    let n := min data.length opts.maxSize
    let normalSize :=
      if data.length < opts.maxSize ∧ data.length ≤ opts.normalSize then
        data.length
      else opts.normalSize
    if n < minSize + 8 then
      n
    else
      let outBufWin := slice data minSize (minSize + 8)
      let dist := (outBufWin.map hammingTo0xaa).foldl (· + ·) 0
      let windows := (n - minSize - 8) / 8
      cutFrom data normalSize n windows (minSize + 8) 0 outBufWin dist

/-- The chunks of what remains; each takes at least one byte. -/
def chunks (opts : Resolved) : (fuel : Nat) → Bytes → List Bytes
  | 0, _ => []
  | fuel + 1, data =>
    if data.isEmpty then
      []
    else
      let buf := data.take opts.maxSize
      let cutpoint := ultraCdcCutpoint opts buf
      buf.take cutpoint :: chunks opts fuel (data.drop cutpoint)

/-- Cuts content into chunks. -/
def splitBytes (opts : Option ByteOpts) (data : Bytes) :
    Except OptionsError (List Bytes) := do
  let resolved := Resolved.new opts
  resolved.validate
  .ok (chunks resolved data.length data)

/-- A reader: what each of its reads returns, a piece that is not empty, until
the input ends. -/
abbrev Pieces := List { piece : Bytes // piece ≠ [] }

/-- The input of a reader. -/
def Pieces.input (pieces : Pieces) : Bytes :=
  (pieces.map Subtype.val).flatten

/-- Reads at most so many bytes, or to the end of the input. -/
def readToEnd : (want : Nat) → Pieces → Bytes × Pieces
  | _, [] => ([], [])
  | want, piece :: rest =>
    if want = 0 then
      ([], piece :: rest)
    else if shorter : want < piece.val.length then
      (piece.val.take want,
        ⟨piece.val.drop want, by
          rw [ne_eq, drop_eq_nil_iff]
          omega⟩ :: rest)
    else
      let (got, left) := readToEnd (want - piece.val.length) rest
      (piece.val ++ got, left)

/-- The loop of the chunker: the buffer is filled up, and its first chunk is
taken off.  Each round takes a byte at least, so that as many rounds as bytes
are enough. -/
def splitFrom (resolved : Resolved) : (rounds : Nat) → (buf : Bytes) →
    (eof : Bool) → (reader : Pieces) → List Bytes
  | 0, _, _, _ => []
  | rounds + 1, buf, eof, reader =>
    let filled :=
      if ¬eof ∧ buf.length < resolved.maxSize then
        let want := resolved.maxSize - buf.length
        let (got, left) := readToEnd want reader
        (buf ++ got, decide (got.length < want), left)
      else
        (buf, eof, reader)
    let buf := filled.1
    if buf.isEmpty then
      []
    else
      let cutpoint := ultraCdcCutpoint resolved buf
      buf.take cutpoint ::
        splitFrom resolved rounds (buf.drop cutpoint) filled.2.1 filled.2.2

/-- Cuts what a reader returns into chunks. -/
def splitReader (opts : Option ByteOpts) (reader : Pieces) :
    Except OptionsError (List Bytes) := do
  let resolved := Resolved.new opts
  resolved.validate
  .ok (splitFrom resolved (reader.input.length + 1) [] false reader)

/-- Rolling cuts within the window. -/
theorem rollWindow_bounds
    {dist : Int64} (isCut : rollWindow data mask i left j dist = .inl cut) :
    i + j ≤ cut ∧ cut < i + j + left := by
  induction left generalizing j dist with
  | zero => cases isCut
  | succ left ih =>
    rw [rollWindow] at isCut
    split at isCut
    · cases isCut
      omega
    · have later := ih isCut
      omega

theorem cutFrom_bounds
    (data : Bytes) (normalSize : Nat) (windows : Nat)
    (lowEntropyCount : Nat) (outBufWin : Bytes) (dist : Int64)
    (positive : 0 < i) (inside : i + 8 * windows ≤ n) :
    0 < cutFrom data normalSize n windows i lowEntropyCount outBufWin dist ∧
      cutFrom data normalSize n windows i lowEntropyCount outBufWin dist ≤
        n := by
  induction windows generalizing i lowEntropyCount outBufWin dist with
  | zero =>
    rw [cutFrom]
    omega
  | succ windows ih =>
    rw [cutFrom]
    split
    · split
      · omega
      · exact ih _ _ _ (by omega) (by omega)
    · split
      · rename_i cut isCut
        have bounds := rollWindow_bounds isCut
        omega
      · exact ih _ _ _ (by omega) (by omega)

theorem maxSize_pos
    {opts : Resolved} (valid : opts.validate = .ok ()) : 0 < opts.maxSize := by
  unfold Resolved.validate at valid
  split_ifs at valid
  omega

/-- A chunk of what is there is not empty. -/
theorem ultraCdcCutpoint_bounds
    {opts : Resolved} (valid : opts.validate = .ok ()) {data : Bytes}
    (present : data ≠ []) :
    0 < ultraCdcCutpoint opts data ∧
      ultraCdcCutpoint opts data ≤ data.length := by
  have positive := length_pos_iff.mpr present
  have sizes := maxSize_pos valid
  unfold ultraCdcCutpoint
  dsimp only
  split
  · omega
  · split
    · omega
    · obtain ⟨lower, upper⟩ := cutFrom_bounds data
        (if data.length < opts.maxSize ∧ data.length ≤ opts.normalSize then
          data.length else opts.normalSize)
        ((min data.length opts.maxSize - opts.minSize - 8) / 8) 0
        (slice data opts.minSize (opts.minSize + 8))
        (((slice data opts.minSize (opts.minSize + 8)).map
          hammingTo0xaa).foldl (· + ·) 0)
        (show 0 < opts.minSize + 8 by omega)
        (show opts.minSize + 8 + 8 *
          ((min data.length opts.maxSize - opts.minSize - 8) / 8) ≤
            min data.length opts.maxSize by omega)
      exact ⟨lower, upper.trans (Nat.min_le_left _ _)⟩

/-- The chunks are the content, in order, and none is empty. -/
theorem flatten_chunks
    (valid : opts.validate = .ok ())
    (enough : data.length ≤ fuel) :
    (chunks opts fuel data).flatten = data ∧ [] ∉ chunks opts fuel data := by
  induction fuel generalizing data with
  | zero =>
    rw [length_eq_zero_iff.mp (Nat.le_zero.mp enough)]
    exact ⟨rfl, not_mem_nil⟩
  | succ fuel ih =>
    rw [chunks]
    by_cases empty : data = []
    · subst empty
      exact ⟨rfl, not_mem_nil⟩
    · have sizes := maxSize_pos valid
      have present : data.take opts.maxSize ≠ [] := by
        rw [ne_eq, take_eq_nil_iff, not_or]
        exact ⟨Nat.ne_of_gt sizes, empty⟩
      obtain ⟨lower, upper⟩ := ultraCdcCutpoint_bounds valid present
      rw [length_take] at upper
      have whole := length_pos_iff.mpr empty
      obtain ⟨rest, notEmpty⟩ := @ih
        (data.drop (ultraCdcCutpoint opts (data.take opts.maxSize)))
        (by rw [length_drop]; omega)
      rw [if_neg (by simpa using empty)]
      dsimp only
      rw [flatten_cons, rest, take_take, Nat.min_eq_left (by omega),
        take_append_drop, mem_cons]
      refine ⟨rfl, ?_⟩
      rintro (isEmpty | later)
      · have length := congrArg List.length isEmpty
        rw [length_nil, length_take] at length
        omega
      · exact notEmpty later

/-- Sizes that are valid cut any content into chunks. -/
theorem exists_splitBytes
    (valid : (Resolved.new opts).validate = .ok ())
    (data : Bytes) :
    ∃ pieces, splitBytes opts data = .ok pieces ∧ pieces.flatten = data ∧
      [] ∉ pieces := by
  obtain ⟨whole, notEmpty⟩ := flatten_chunks valid (le_refl data.length)
  refine ⟨_, ?_, whole, notEmpty⟩
  unfold splitBytes
  dsimp only
  rw [valid]
  rfl

/-! ## The item chunker -/

/-- Decides where runs of items end.  No run of one item does. -/
structure ItemChunker where
  minRun : Nat
  maxRun : Nat
  mask : UInt64
  two_le_minRun : 2 ≤ minRun
  two_le_maxRun : 2 ≤ maxRun

namespace ItemChunker

/-- A chunker for runs of `2 ^ bits` items on average, unless its bounds
overflow. -/
def new (bits : Nat) : Option ItemChunker :=
  let avg := 2 ^ bits
  if avg * 4 < 2 ^ 64 then
    some
      { minRun := max (avg / 4) 2
        maxRun := avg * 4
        mask := .ofNat (avg - 1)
        two_le_minRun := Nat.le_max_right _ _
        two_le_maxRun := le_trans (by decide)
          (Nat.mul_le_mul_right 4 (Nat.one_le_two_pow)) }
  else
    none

/-- Whether a run ends after an item, given the run's length with it. -/
def isBoundary (hash : Bytes → UInt64) (ic : ItemChunker) (enc : Bytes)
    (runLen : Nat) : Bool :=
  if ic.maxRun ≤ runLen then true
  else if runLen < ic.minRun then false
  else hash enc &&& ic.mask = 0

/-- A run that ends has two items or more. -/
theorem two_le_of_isBoundary
    {hash : Bytes → UInt64} {ic : ItemChunker}
    (ends : ic.isBoundary hash enc runLen = true) : 2 ≤ runLen := by
  have := ic.two_le_minRun
  have := ic.two_le_maxRun
  unfold isBoundary at ends
  split_ifs at ends <;> omega

/-- A run that goes on is not full. -/
theorem lt_maxRun_of_not_isBoundary
    {hash : Bytes → UInt64} {ic : ItemChunker}
    (goesOn : ¬ic.isBoundary hash enc runLen = true) : runLen < ic.maxRun := by
  by_contra full
  exact goesOn (if_pos (Nat.not_lt.mp full))

end ItemChunker

end AmberStore.Chunkers
