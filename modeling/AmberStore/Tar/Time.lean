import AmberStore.Lib.Numerals
import Mathlib.Data.Int.Basic

/-!
# Modification times of archive members

A member's header carries its modification time in a numeric field, octal or
base-256, which a PAX record may replace by seconds with a fraction.  Extracting
turns the time into one count of nanoseconds, and that count into the seconds
and nanoseconds the kernel takes.

The count has 64 bits and wraps.  What comes out is the time that went in
exactly when its nanoseconds fit the count, some 292 years around the epoch.
-/

open ByteString

namespace AmberStore.Tar

/-! ## Times -/

/-- The nanoseconds of a second. -/
abbrev nanosPerSecond : Int64 := 1000000000

/-- A time as PAX represents it: whole seconds and what comes on top. -/
structure PaxTime where
  sec : Int64
  nsec : Nat
  normal : nsec < 1000000000
  deriving DecidableEq

theorem toNat_toInt_lt
    (below : nsec < nanosPerSecond) :
    nsec.toInt.toNat < 1000000000 := by
  have bound : nsec.toInt < 1000000000 := Int64.lt_iff_toInt_lt.mp below
  omega

/-- What is left of nanoseconds without their whole seconds. -/
theorem toInt_rest (nsec : Int64) :
    (nsec - nsec / nanosPerSecond * nanosPerSecond).toInt =
      nsec.toInt.tmod 1000000000 := by
  have low := Int64.le_toInt nsec
  have high := Int64.toInt_lt nsec
  have parts := Int.mul_tdiv_add_tmod nsec.toInt 1000000000
  have divided : (nsec / nanosPerSecond).toInt =
      nsec.toInt.tdiv 1000000000 := by
    rw [Int64.toInt_div_of_ne_right _ _ (by decide)]
    rfl
  have split : nsec.toInt.tmod 1000000000 =
      nsec.toInt - nsec.toInt.tdiv 1000000000 * 1000000000 := by
    omega
  have small : -1000000000 < nsec.toInt.tmod 1000000000 ∧
      nsec.toInt.tmod 1000000000 < 1000000000 :=
    ⟨Int.lt_tmod_of_pos _ (by decide), Int.tmod_lt_of_pos _ (by decide)⟩
  rw [Int64.toInt_sub, Int64.toInt_mul, divided,
    show nanosPerSecond.toInt = 1000000000 from rfl, Int.sub_bmod_bmod,
    ← split, Int.bmod_eq_of_le (by omega) (by omega)]

theorem rest_lt (nsec : Int64) :
    nsec - nsec / nanosPerSecond * nanosPerSecond < nanosPerSecond := by
  rw [Int64.lt_iff_toInt_lt, toInt_rest]
  exact Int.tmod_lt_of_pos _ (by decide)

theorem rest_borrowed_lt
    (isNegative : nsec - nsec / nanosPerSecond * nanosPerSecond < 0) :
    nsec - nsec / nanosPerSecond * nanosPerSecond + nanosPerSecond <
      nanosPerSecond := by
  have low : -1000000000 < nsec.toInt.tmod 1000000000 :=
    Int.lt_tmod_of_pos _ (by decide)
  rw [Int64.lt_iff_toInt_lt, toInt_rest] at isNegative
  rw [Int64.lt_iff_toInt_lt, Int64.toInt_add, toInt_rest]
  change nsec.toInt.tmod 1000000000 < 0 at isNegative
  change (nsec.toInt.tmod 1000000000 + 1000000000).bmod (2 ^ 64) < 1000000000
  rw [Int.bmod_eq_of_le (by omega) (by omega)]
  omega

namespace PaxTime

/-- A time of seconds and any nanoseconds, borrowing from the seconds. -/
def unix (sec nsec : Int64) : PaxTime :=
  if inside : 0 ≤ nsec ∧ nsec < nanosPerSecond then
    ⟨sec, nsec.toInt.toNat, toNat_toInt_lt inside.2⟩
  else
    let n := nsec / nanosPerSecond
    let rest := nsec - n * nanosPerSecond
    if borrows : rest < 0 then
      ⟨sec + n - 1, (rest + nanosPerSecond).toInt.toNat,
        toNat_toInt_lt (rest_borrowed_lt borrows)⟩
    else
      ⟨sec + n, rest.toInt.toNat, toNat_toInt_lt (rest_lt nsec)⟩

/-- The nanoseconds since the epoch, which wrap. -/
def unixNanos (time : PaxTime) : Int64 :=
  time.sec * nanosPerSecond + Int64.ofNat time.nsec

/-- The nanoseconds since the epoch as a number. -/
def nanos (time : PaxTime) : Int :=
  time.sec.toInt * 1000000000 + time.nsec

end PaxTime

/-- The time the kernel takes. -/
@[ext]
structure Timespec where
  tvSec : Int64
  tvNsec : Int64
  deriving DecidableEq

/-- What `set_mtime` passes to the kernel: division truncates, so a negative
remainder borrows a second. -/
def setMtime (ns : Int64) : Timespec :=
  let sec := ns / nanosPerSecond
  let nsec := ns % nanosPerSecond
  if nsec < 0 then
    ⟨sec - 1, nsec + nanosPerSecond⟩
  else
    ⟨sec, nsec⟩

/-- Nanoseconds since the epoch as the kernel takes them. -/
def timespecOf (nanos : Int) : Timespec :=
  ⟨Int64.ofInt (nanos / 10 ^ 9), Int64.ofInt (nanos % 10 ^ 9)⟩

/-! ## Reading a header -/

/-- Leading and trailing blanks and NULs cut off. -/
def trimField (b : Bytes) : Bytes :=
  let blank : UInt8 → Bool := fun c => c = 0x20 ∨ c = 0
  ((b.dropWhile blank).reverse.dropWhile blank).reverse

/-- The bytes before the first NUL. -/
def parseString (b : Bytes) : Bytes :=
  b.takeWhile fun c => c ≠ 0

/-- The number octal digits spell after those already read.  Only the
multiplication is checked, which leaves room for the digit. -/
def octalDigits : (x : Nat) → Bytes → Option Nat
  | x, [] => some x
  | x, c :: rest =>
    if 0x30 ≤ c ∧ c ≤ 0x37 ∧ x * 8 < 2 ^ 64 then
      octalDigits (x * 8 + (c.toNat - 0x30)) rest
    else
      none

/-- Reads an octal field.  An empty one is zero, but not one that a NUL cuts to
nothing; a number is taken as signed. -/
def parseOctal (b : Bytes) : Option Int64 :=
  let b := trimField b
  if b = [] then
    some 0
  else
    let s := parseString b
    if s = [] then none
    else (octalDigits 0 s).map Int64.ofNat

/-- The big-endian number of bytes after those already read, if no bit is
shifted out. -/
def base256Digits : (x : Nat) → Bytes → Option Nat
  | x, [] => some x
  | x, c :: rest =>
    if 0 < x >>> 56 then none
    else base256Digits (x <<< 8 ||| c.toNat) rest

/-- Reads a field in base 256.  The first byte loses its mark; the bytes of a
negative number are inverted. -/
def parseBase256 (first : UInt8) (rest : Bytes) : Option Int64 :=
  let inv : UInt8 := if first &&& 0x40 ≠ 0 then 0xff else 0
  let digits := ((first ^^^ inv) &&& 0x7f) :: rest.map fun c => c ^^^ inv
  match base256Digits 0 digits with
  | none => none
  | some x =>
    if 0 < x >>> 63 then none
    else if inv = 0xff then some (~~~Int64.ofNat x)
    else some (Int64.ofNat x)

/-- Reads a numeric field: in base 256 if its top bit is set, else octal. -/
def parseNumeric : Bytes → Option Int64
  | [] => parseOctal []
  | first :: rest =>
    if first &&& 0x80 ≠ 0 then parseBase256 first rest
    else parseOctal (first :: rest)

/-- Whether a byte is a decimal digit. -/
def isAsciiDigit (c : UInt8) : Bool :=
  0x30 ≤ c ∧ c ≤ 0x39

/-- The signed number decimal digits spell after those already read, if it fits
64 bits all along. -/
def signedDigits (sign : Int) : (number : Int) → Bytes → Option Int
  | number, [] => some number
  | number, c :: rest =>
    let next := number * 10 + sign * (c.toNat - 0x30)
    if isAsciiDigit c ∧ -2 ^ 63 ≤ next ∧ next < 2 ^ 63 then
      signedDigits sign next rest
    else
      none

/-- Reads a decimal number with an optional sign, which needs digits. -/
def parseI64 : Bytes → Option Int64
  | [] => none
  | c :: rest =>
    if c = 0x2b ∨ c = 0x2d then
      if rest = [] then none
      else (signedDigits (if c = 0x2d then -1 else 1) 0 rest).map Int64.ofInt
    else
      (signedDigits 1 0 (c :: rest)).map Int64.ofInt

/-- Nine digits of a fraction, padded with zeros on the right. -/
def nanoDigits (sn : Bytes) : Bytes :=
  (sn ++ List.replicate 9 0x30).take 9

/-- Reads a PAX time: seconds, and a fraction cut to nanoseconds that has the
seconds' sign. -/
def parsePaxTime (s : Bytes) : Option PaxTime :=
  let ss := s.takeWhile fun c => c ≠ 0x2e
  let sn := (s.dropWhile fun c => c ≠ 0x2e).drop 1
  match parseI64 ss with
  | none => none
  | some secs =>
    if sn = [] then
      some (.unix secs 0)
    else if ¬sn.all isAsciiDigit then
      none
    else
      let nsecs := Int64.ofNat (Numerals.value 10 0 (nanoDigits sn))
      if ss.head? = some 0x2d then some (.unix secs (-nsecs))
      else some (.unix secs nsecs)

/-- Where a header has a modification time: its numeric field, and the PAX
record of that name. -/
structure TimeFields where
  field : Bytes
  paxRecord : Option Bytes

/-- The modification time of a header.  A record replaces the field, but an
empty one does not. -/
def TimeFields.modTime (header : TimeFields) : Option PaxTime :=
  match parseNumeric header.field with
  | none => none
  | some sec =>
    match header.paxRecord with
    | none | some [] => some (.unix sec 0)
    | some value => parsePaxTime value

/-- What extracting a member passes to the kernel as its modification time. -/
def TimeFields.restored (header : TimeFields) : Option Timespec :=
  header.modTime.map fun time => setMtime time.unixNanos

/-! ## What the kernel gets -/

/-- The kernel gets the count divided with the remainder never negative. -/
theorem toInt_setMtime (ns : Int64) :
    (setMtime ns).tvSec.toInt = ns.toInt / 1000000000 ∧
      (setMtime ns).tvNsec.toInt = ns.toInt % 1000000000 := by
  have low := Int64.le_toInt ns
  have high := Int64.toInt_lt ns
  have parts := Int.mul_tdiv_add_tmod ns.toInt 1000000000
  have above : -1000000000 < ns.toInt.tmod 1000000000 :=
    Int.lt_tmod_of_pos _ (by decide)
  have below : ns.toInt.tmod 1000000000 < 1000000000 :=
    Int.tmod_lt_of_pos _ (by decide)
  have divided : (ns / nanosPerSecond).toInt = ns.toInt.tdiv 1000000000 := by
    rw [Int64.toInt_div_of_ne_right _ _ (by decide)]
    rfl
  have remains : (ns % nanosPerSecond).toInt = ns.toInt.tmod 1000000000 :=
    Int64.toInt_mod ns nanosPerSecond
  have negative : ns % nanosPerSecond < 0 ↔ ns.toInt.tmod 1000000000 < 0 := by
    rw [Int64.lt_iff_toInt_lt, remains]
    rfl
  unfold setMtime
  dsimp only
  split_ifs with borrows
  · rw [negative] at borrows
    dsimp only
    rw [Int64.toInt_sub, Int64.toInt_add, divided, remains]
    change (_ - 1 : Int).bmod _ = _ ∧ (_ + 1000000000 : Int).bmod _ = _
    rw [Int.bmod_eq_of_le (by omega) (by omega),
      Int.bmod_eq_of_le (by omega) (by omega)]
    omega
  · rw [negative] at borrows
    dsimp only
    rw [divided, remains]
    omega

namespace PaxTime

variable (time : PaxTime)

@[simp] theorem toInt_nsec : (Int64.ofNat time.nsec).toInt = time.nsec :=
  Int64.toInt_ofNat_of_lt (by have := time.normal; omega)

/-- The count of a time is its nanoseconds up to multiples of `2 ^ 64`. -/
theorem toInt_unixNanos : time.unixNanos.toInt = time.nanos.bmod (2 ^ 64) := by
  rw [unixNanos, nanos, Int64.toInt_add, Int64.toInt_mul, toInt_nsec,
    Int.bmod_add_bmod]
  rfl

end PaxTime

/-- A count is turned into a time exactly when it is the time's nanoseconds. -/
theorem setMtime_eq_timespecOf_iff
    {nanos : Int}
    (low : -2 ^ 63 ≤ nanos / 10 ^ 9) (high : nanos / 10 ^ 9 < 2 ^ 63) :
    setMtime ns = timespecOf nanos ↔ ns.toInt = nanos := by
  obtain ⟨isSec, isNsec⟩ := toInt_setMtime ns
  rw [Timespec.ext_iff, ← Int64.toInt_inj, ← Int64.toInt_inj, isSec, isNsec,
    timespecOf, Int64.toInt_ofInt_of_le low high,
    Int64.toInt_ofInt_of_le (by omega) (by omega)]
  omega

/-- Extracting restores a time exactly when its nanoseconds fit the count. -/
theorem setMtime_unixNanos_iff
    {time : PaxTime} (low : -2 ^ 63 ≤ time.nanos / 10 ^ 9)
    (high : time.nanos / 10 ^ 9 < 2 ^ 63) :
    setMtime time.unixNanos = timespecOf time.nanos ↔
      -2 ^ 63 ≤ time.nanos ∧ time.nanos < 2 ^ 63 := by
  rw [setMtime_eq_timespecOf_iff low high, time.toInt_unixNanos]
  constructor
  · intro unchanged
    have notBelow := Int64.le_toInt time.unixNanos
    have notAbove := Int64.toInt_lt time.unixNanos
    rw [time.toInt_unixNanos, unchanged] at notBelow notAbove
    exact ⟨notBelow, notAbove⟩
  · rintro ⟨notBelow, notAbove⟩
    exact Int.bmod_eq_of_le (by omega) (by omega)

end AmberStore.Tar
