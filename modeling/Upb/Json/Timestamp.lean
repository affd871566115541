import Upb.Common.Arith
import Upb.Json.Decoder
import Upb.Json.Encoder
import Upb.Json.Numbers

/-!
# Timestamps in JSON

`jsonenc_timestamp` turns the seconds of a timestamp into a date with the divisions of Fliegel and Van
Flandern; `jsondec_timestamp` turns a date into days with a formula for years that start with March. The
arithmetic on `int` and `uint32_t` records which of its operations overflow.
-/

namespace Upb.Json

open Common Arith

/-- The operations of the date arithmetic. -/
inductive DateOp where
  /-- An operation of `jsonenc_timestamp`. -/
  | encode
  /-- The month of a year that starts with March, in `jsondec_epochdays`. -/
  | marchMonth
  /-- The subtraction of the days before 1970, in `jsondec_epochdays`. -/
  | epochOffset
  /-- Another operation of the decoder. -/
  | decode
  deriving DecidableEq

/-- A date and a time of day, as `jsonenc_timestamp` prints them. -/
structure Civil where
  year : ℤ
  month : ℤ
  day : ℤ
  hour : ℤ
  min : ℤ
  sec : ℤ

/-- `N` and `L`: the century of a day and the day of the century. -/
def jsonencCentury (l : ℤ) : Arith DateOp (ℤ × ℤ) := do
  let t ← int32 .encode (4 * l)
  let n := t.tdiv 146097
  let t ← int32 .encode (146097 * n)
  let t ← int32 .encode (t + 3)
  let l ← int32 .encode (l - t.tdiv 4)
  return (n, l)

/-- `I` and `L`: the year of the century and the day of the year, counted from 31 on. -/
def jsonencYear (l : ℤ) : Arith DateOp (ℤ × ℤ) := do
  let t ← int32 .encode (l + 1)
  let t ← int32 .encode (4000 * t)
  let i := t.tdiv 1461001
  let t ← int32 .encode (1461 * i)
  let l ← int32 .encode (l - t.tdiv 4)
  let l ← int32 .encode (l + 31)
  return (i, l)

/-- `I`, `J` and `K`: the year, the month and the day. -/
def jsonencMonth (n i l : ℤ) : Arith DateOp (ℤ × ℤ × ℤ) := do
  let t ← int32 .encode (80 * l)
  let j := t.tdiv 2447
  let t ← int32 .encode (2447 * j)
  let k ← int32 .encode (l - t.tdiv 80)
  let l := j.tdiv 11
  let j ← int32 .encode (j + 2)
  let t ← int32 .encode (12 * l)
  let j ← int32 .encode (j - t)
  let t ← int32 .encode (n - 49)
  let t ← int32 .encode (100 * t)
  let t ← int32 .encode (t + i)
  let i ← int32 .encode (t + l)
  return (i, j, k)

/-- The date of the days since the first of January of the year 1. -/
def jsonencDate (days : ℤ) : Arith DateOp (ℤ × ℤ × ℤ) := do
  let l ← int32 .encode (days - 719162)
  let l ← int32 .encode (l + 68569)
  let l ← int32 .encode (l + 2440588)
  let (n, l) ← jsonencCentury l
  let (i, l) ← jsonencYear l
  jsonencMonth n i l

/-- The date and the time that `jsonenc_timestamp` computes from the seconds. -/
def jsonencCivil (seconds : ℤ) : Arith DateOp Civil := do
  let seconds ← int64 .encode (seconds + 62135596800)
  let days ← int32 .encode (seconds.tdiv 86400)
  let (i, j, k) ← jsonencDate days
  return ⟨i, j, k, (seconds.tdiv 3600).tmod 24, (seconds.tdiv 60).tmod 60, seconds.tmod 60⟩

/-- The loop of `jsonenc_nanos` that takes away groups of three zeros. -/
def nanosLoop : ℕ → ℤ → ℕ → ℤ × ℕ
  | 0, nanos, digits => (nanos, digits)
  | fuel + 1, nanos, digits =>
    if nanos.tmod 1000 = 0 then nanosLoop fuel (nanos.tdiv 1000) (digits - 3) else (nanos, digits)

/-- `jsonenc_nanos`; no number below 10^9 but 0 has four groups of zeros. -/
def jsonencNanos (nanos : ℤ) : Encoding :=
  if nanos = 0 then .empty
  else if nanos < 0 ∨ 1000000000 ≤ nanos then
    jsonencErr "error formatting timestamp as JSON: invalid nanos"
  else
    let (nanos, digits) := nanosLoop 3 nanos 9
    jsonencPrintf (ascii '.' :: formatInt digits nanos)

/-- `jsonenc_timestamp`. -/
def jsonencTimestamp (seconds nanos : ℤ) : Encoding :=
  if seconds < -62135596800 then
    jsonencErr "error formatting timestamp as JSON: minimum acceptable value is 0001-01-01T00:00:00Z"
  else if 253402300799 < seconds then
    jsonencErr "error formatting timestamp as JSON: maximum acceptable value is 9999-12-31T23:59:59Z"
  else
    let t := (jsonencCivil seconds).value
    jsonencPrintf (ascii '"' :: formatPadded 4 t.year ++ [ascii '-'] ++ formatPadded 2 t.month ++
        [ascii '-'] ++ formatPadded 2 t.day ++ [ascii 'T'] ++ formatPadded 2 t.hour ++ [ascii ':'] ++
        formatPadded 2 t.min ++ [ascii ':'] ++ formatPadded 2 t.sec) ++
      jsonencNanos nanos ++ jsonencPutstr ['Z', '"']

/-- `jsondec_tsdigits`, on a text with at least `digits` bytes. -/
def jsondecTsdigits (ptr : List UInt8) (digits : ℕ) (after : List UInt8) :
    Except String (ℤ × List UInt8) :=
  match jsondecBuftouint64 (ptr.take digits) with
  | .error msg => .error msg
  | .ok (val, p) =>
    if p = [] ∧ after.isPrefixOf (ptr.drop digits) then .ok (val, ptr.drop (digits + after.length))
    else .error "Malformed timestamp"

/-- `y_adj` and `m_adj + adjust`: a month of a year that starts with March. -/
def jsondecMarchMonth (y m : ℤ) : Arith DateOp (ℤ × ℤ) := do
  let mAdj ← uint32 .marchMonth (m - 3)
  let carry : ℤ := if m % 2 ^ 32 < mAdj then 1 else 0
  let adjust : ℤ := if carry = 1 then 12 else 0
  let t ← uint32 .decode (y + 4800)
  let yAdj ← uint32 .decode (t - carry)
  let k ← uint32 .marchMonth (mAdj + adjust)
  return (yAdj, k)

/-- The days before a day of a year that starts with March. -/
def jsondecMarchDays (yAdj k d : ℤ) : Arith DateOp ℤ := do
  let t ← uint32 .decode (k * 62719)
  let t ← uint32 .decode (t + 769)
  let monthDays := t / 2048
  let t ← uint32 .decode (yAdj / 4 - yAdj / 100)
  let leapDays ← uint32 .decode (t + yAdj / 400)
  let t ← uint32 .decode (yAdj * 365)
  let t ← uint32 .decode (t + leapDays)
  let t ← uint32 .decode (t + monthDays)
  let d ← int32 .decode (d - 1)
  uint32 .decode (t + d % 2 ^ 32)

/-- `jsondec_epochdays`. -/
def jsondecEpochdays (y m d : ℤ) : Arith DateOp ℤ := do
  let (yAdj, k) ← jsondecMarchMonth y m
  let t ← jsondecMarchDays yAdj k d
  let t ← uint32 .epochOffset (t - 2472632)
  return t.bmod (2 ^ 32)

/-- `jsondec_unixtime`. -/
def jsondecUnixtime (y m d h min s : ℤ) : Arith DateOp ℤ := do
  let days ← jsondecEpochdays y m d
  let t ← int64 .decode (days * 86400)
  let h ← int32 .decode (h * 3600)
  let t ← int64 .decode (t + h)
  let min ← int32 .decode (min * 60)
  let t ← int64 .decode (t + min)
  int64 .decode (t + s)

/-- The end of `jsondec_timestamp`: "[+-]08:00 or Z". -/
def jsondecOffset (seconds : ℤ) : List UInt8 → Except String ℤ
  | [] => .error "Malformed timestamp"
  | ch :: ptr =>
    if ch = ascii '-' ∨ ch = ascii '+' then
      if ptr.length ≠ 5 then .error "Malformed timestamp"
      else do
        let (ofsHour, ptr) ← jsondecTsdigits ptr 2 [ascii ':']
        let (ofsMin, _) ← jsondecTsdigits ptr 2 []
        let ofsMin := (ofsHour * 60 + ofsMin) * 60
        return seconds + if ch = ascii '-' then ofsMin else -ofsMin
    else if ch = ascii 'Z' then
      if ptr ≠ [] then .error "Malformed timestamp" else .ok seconds
    else .error "Malformed timestamp"

/-- `jsondec_timestamp` on the string: the seconds and the nanoseconds. -/
def jsondecTimestampText (str : List UInt8) : Except String (ℤ × ℤ) :=
  if str.length < 20 then .error "Malformed timestamp"
  else do
    let (year, ptr) ← jsondecTsdigits str 4 [ascii '-']
    let (mon, ptr) ← jsondecTsdigits ptr 2 [ascii '-']
    let (day, ptr) ← jsondecTsdigits ptr 2 [ascii 'T']
    let (hour, ptr) ← jsondecTsdigits ptr 2 [ascii ':']
    let (min, ptr) ← jsondecTsdigits ptr 2 [ascii ':']
    let (sec, ptr) ← jsondecTsdigits ptr 2 []
    let seconds := (jsondecUnixtime year mon day hour min sec).value
    let (nanos, ptr) ← jsondecNanos ptr
    let seconds ← jsondecOffset seconds ptr
    if seconds < -62135596800 then .error "Timestamp out of range"
    else return (seconds, nanos)

/-- `jsondec_timestamp`. -/
def jsondecTimestamp : Jsondec (ℤ × ℤ) := do
  jsondecLift (jsondecTimestampText (← jsondecString))

end Upb.Json
