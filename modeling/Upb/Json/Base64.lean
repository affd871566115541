import Mathlib.Algebra.Group.Nat.Defs
import Mathlib.Data.Int.Notation
import Upb.Common.Base64
import Upb.Common.Except

/-!
# Bytes in JSON

`jsonenc_bytes` of `upb/json/encode.c` and `jsondec_base64` of `upb/json/decode.c`, which decodes a
string in place. Whether a `char` is signed is up to the platform.
-/

namespace Upb.Json

open Common.Base64 (padChar)

/-- What ends the decoding: an index outside of the table, a write over bytes that are not read yet, or
`jsondec_err`. -/
inductive Base64Fault where
  | outOfBounds
  | overrun
  | corrupt
  deriving DecidableEq

/-- The table of `jsondec_base64_tablelookup`. -/
def base64Table : List ℤ :=
  List.replicate 43 (-1) ++ [62, -1, 62, -1, 63] ++ (List.range' 52 10).map Int.ofNat ++
    List.replicate 7 (-1) ++ (List.range' 0 26).map Int.ofNat ++ [-1, -1, -1, -1, 63, -1] ++
    (List.range' 26 26).map Int.ofNat ++ List.replicate 133 (-1)

/-- `jsondec_base64_tablelookup`: a signed `char` is extended before it is an index. -/
def tablelookup (charSigned : Bool) (ch : UInt8) : Except Base64Fault (BitVec 32) :=
  let index := if charSigned ∧ 128 ≤ ch.toNat then ch.toNat + (2 ^ 32 - 2 ^ 8) else ch.toNat
  match base64Table[index]? with
  | some v => .ok (BitVec.ofInt 32 v)
  | none => .error .outOfBounds

/-- The string that is decoded in place, up to `stop`: `ptr` is read next, `out` written next. -/
structure Base64State where
  buffer : List UInt8
  ptr : ℕ
  out : ℕ
  stop : ℕ

namespace Base64State

/-- `ptr[i]`. -/
def char (st : Base64State) (i : ℕ) : UInt8 := st.buffer.getD (st.ptr + i) 0

/-- A byte is written, where `limit` bytes are read. -/
def put (st : Base64State) (limit : ℕ) (byte : UInt8) : Except Base64Fault Base64State :=
  if st.out < limit then .ok { st with buffer := st.buffer.set st.out byte, out := st.out + 1 }
  else .error .overrun

end Base64State

/-- A byte of a number. -/
def byteOf (val : BitVec 32) (shift : ℕ) : UInt8 := UInt8.ofNat (val.sshiftRight shift &&& 0xff).toNat

/-- `jsondec_partialbase64`. -/
def partialbase64 (charSigned : Bool) (st : Base64State) : Except Base64Fault Base64State :=
  match st.stop - st.ptr with
  | 2 => do
    let v0 ← tablelookup charSigned (st.char 0)
    let v1 ← tablelookup charSigned (st.char 1)
    let val := v0 <<< 18 ||| v1 <<< 12
    let st ← st.put st.stop (byteOf val 16)
    if val.toInt < 0 then .error .corrupt else .ok st
  | 3 => do
    let v0 ← tablelookup charSigned (st.char 0)
    let v1 ← tablelookup charSigned (st.char 1)
    let v2 ← tablelookup charSigned (st.char 2)
    let val := v0 <<< 18 ||| v1 <<< 12 ||| v2 <<< 6
    let st ← st.put st.stop (byteOf val 16)
    let st ← st.put st.stop (byteOf val 8)
    if val.toInt < 0 then .error .corrupt else .ok st
  | _ => .error .corrupt

/-- The loop over groups of four characters, with the number of groups that are left. -/
def base64Groups (charSigned : Bool) : ℕ → Base64State → Except Base64Fault Base64State
  | 0, st => .ok st
  | n + 1, st => do
    let v0 ← tablelookup charSigned (st.char 0)
    let v1 ← tablelookup charSigned (st.char 1)
    let v2 ← tablelookup charSigned (st.char 2)
    let v3 ← tablelookup charSigned (st.char 3)
    let val := v0 <<< 18 ||| v1 <<< 12 ||| v2 <<< 6 ||| v3 <<< 0
    if val.toInt < 0 then
      -- Junk characters or padding.
      if st.stop - st.ptr = 4 ∧ st.char 3 = padChar then
        if st.char 2 = padChar then .ok { st with stop := st.stop - 2 }
        else .ok { st with stop := st.stop - 1 }
      else .ok st
    else do
      let st ← st.put (st.ptr + 4) (byteOf val 16)
      let st ← st.put (st.ptr + 4) (byteOf val 8)
      let st ← st.put (st.ptr + 4) (byteOf val 0)
      base64Groups charSigned n { st with ptr := st.ptr + 4 }

/-- What follows the loop: the remaining characters. -/
def base64Rest (charSigned : Bool) (st : Base64State) : Except Base64Fault (List UInt8) := do
  let st ← if st.ptr < st.stop then partialbase64 charSigned st else .ok st
  .ok (st.buffer.take st.out)

/-- `jsondec_base64`. -/
def jsondecBase64 (charSigned : Bool) (str : List UInt8) : Except Base64Fault (List UInt8) := do
  let st ← base64Groups charSigned (str.length / 4) ⟨str, 0, 0, str.length⟩
  base64Rest charSigned st

/-- The characters of `jsonenc_bytes`. -/
def base64Chars : List UInt8 :=
  (List.range' 65 26 ++ List.range' 97 26 ++ List.range' 48 10 ++ [43, 47]).map UInt8.ofNat

def base64Char (n : ℕ) : UInt8 := base64Chars.getD n 0

/-- What `jsonenc_bytes` writes between the quotes. -/
def base64Text : List UInt8 → List UInt8
  | a :: b :: c :: rest =>
    [base64Char (a.toNat / 4), base64Char (a.toNat % 4 * 16 + b.toNat / 16),
      base64Char (b.toNat % 16 * 4 + c.toNat / 64), base64Char (c.toNat % 64)] ++ base64Text rest
  | [a, b] =>
    [base64Char (a.toNat / 4), base64Char (a.toNat % 4 * 16 + b.toNat / 16),
      base64Char (b.toNat % 16 * 4), padChar]
  | [a] => [base64Char (a.toNat / 4), base64Char (a.toNat % 4 * 16), padChar, padChar]
  | [] => []

end Upb.Json
