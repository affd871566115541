import Mathlib.Data.Int.Notation
import Upb.Wire.Reads

/-!
# The input stream of the PHP runtime

`CodedInputStream.php` on a 64-bit platform. Integers of PHP are 64 bits wide. A reading method that
fails returns `false` and leaves the stream where it stopped.
-/

namespace Upb.Php

/-- An integer of PHP. -/
abbrev PhpInt := BitVec 64

/-- `CodedInputStream::MAX_VARINT_BYTES`. -/
def maxVarintBytes : ℕ := 10

/-- `CodedInputStream::DEFAULT_RECURSION_LIMIT`. -/
def defaultRecursionLimit : ℤ := 100

/-- `CodedInputStream::DEFAULT_TOTAL_BYTES_LIMIT`. -/
def totalBytesLimit : ℕ := 33554432

/-- `PHP_INT_MAX`. -/
def phpIntMax : ℤ := 2 ^ 63 - 1

/-- `CodedInputStream`. All bytes of the buffer have been read, so that `total_bytes_read` is its
length. -/
structure CodedInputStream where
  buffer : List UInt8
  bufferSizeAfterLimit : ℕ
  bufferEnd : ℕ
  current : ℕ
  currentLimit : ℕ
  legitimateMessageEnd : Bool
  recursionBudget : ℤ
  deriving DecidableEq

namespace CodedInputStream

/-- The constructor. -/
def new (buffer : List UInt8) : CodedInputStream where
  buffer := buffer
  bufferSizeAfterLimit := 0
  bufferEnd := buffer.length
  current := 0
  currentLimit := buffer.length
  legitimateMessageEnd := false
  recursionBudget := defaultRecursionLimit

variable (s : CodedInputStream)

/-- `total_bytes_read`. -/
def totalBytesRead : ℕ := s.buffer.length

def advance (amount : ℕ) : CodedInputStream := { s with current := s.current + amount }

def bufferSize : ℤ := s.bufferEnd - s.current

/-- The method `current`. -/
def position : ℤ := s.totalBytesRead - (s.bufferEnd - s.current + s.bufferSizeAfterLimit)

def substr (start stop : ℤ) : List UInt8 :=
  (s.buffer.drop start.toNat).take (stop - start).toNat

def recomputeBufferLimits : CodedInputStream :=
  let bufferEnd := s.bufferEnd + s.bufferSizeAfterLimit
  let closestLimit := min s.currentLimit totalBytesLimit
  if closestLimit < s.totalBytesRead then
    { s with
      bufferSizeAfterLimit := s.totalBytesRead - closestLimit
      bufferEnd := bufferEnd - (s.totalBytesRead - closestLimit) }
  else { s with bufferSizeAfterLimit := 0, bufferEnd := bufferEnd }

/-- The loop of `readVarint64`, with at most `n` of the ten bytes left. -/
def readVarint64Loop : ℕ → PhpInt → CodedInputStream → Option PhpInt × CodedInputStream
  | 0, _, s => (none, s)
  | n + 1, result, s =>
    if s.current = s.bufferEnd then (none, s)
    else
      let byte := s.buffer.getD s.current 0
      let shift := 7 * (maxVarintBytes - (n + 1))
      let result := result ||| (BitVec.ofNat 64 (byte.toNat % 128) <<< shift)
      if 0x7f < byte.toNat then readVarint64Loop n result (s.advance 1)
      else (some result, s.advance 1)

def readVarint64 : Option PhpInt × CodedInputStream := readVarint64Loop maxVarintBytes 0 s

/-- The lower 32 bits as a signed number. -/
def toInt32 (var : PhpInt) : PhpInt :=
  let var := var &&& 0xFFFFFFFF
  if 0x7FFFFFFF < var.toNat then var ||| ((0xFFFFFFFF : PhpInt) <<< 32) else var

def readVarint32 : Option PhpInt × CodedInputStream :=
  match s.readVarint64 with
  | (some var, s) => (some (toInt32 var), s)
  | (none, s) => (none, s)

/-- `readRaw`; the size may be negative. -/
def readRaw (size : ℤ) : Option (List UInt8) × CodedInputStream :=
  if size < 0 ∨ s.bufferSize < size then (none, s)
  else (some ((s.buffer.drop s.current).take size.toNat), s.advance size.toNat)

/-- `unpack('V', …)`: the number that bytes stand for, the least significant byte first. -/
def unpack : List UInt8 → ℕ
  | [] => 0
  | b :: bs => b.toNat + 256 * unpack bs

def readLittleEndian32 : Option PhpInt × CodedInputStream :=
  match s.readRaw 4 with
  | (some data, s) => (some (BitVec.ofNat 64 (unpack data)), s)
  | (none, s) => (none, s)

def readLittleEndian64 : Option PhpInt × CodedInputStream :=
  match s.readRaw 4 with
  | (none, s) => (none, s)
  | (some data, s) =>
    let low := BitVec.ofNat 64 (unpack data)
    match s.readRaw 4 with
    | (none, s) => (none, s)
    | (some data, s) =>
      let high := BitVec.ofNat 64 (unpack data)
      (some ((high <<< 32) ||| low), s)

/-- `readTag`: 0 at the end of the message and where there is no varint. -/
def readTag : PhpInt × CodedInputStream :=
  if s.current = s.bufferEnd then
    let currentPosition := s.totalBytesRead - s.bufferSizeAfterLimit
    if totalBytesLimit ≤ currentPosition then
      (0, { s with legitimateMessageEnd := s.currentLimit = totalBytesLimit })
    else (0, { s with legitimateMessageEnd := true })
  else
    match s.readVarint32 with
    | (some result, s) => (result, s)
    | (none, s) => (0, s)

/-- `pushLimit`: the old limit, or nothing where an exception is thrown. -/
def pushLimit (byteLimit : ℤ) : Option (ℕ × CodedInputStream) :=
  let currentPosition := s.position
  if 0 ≤ byteLimit ∧ byteLimit ≤ phpIntMax - currentPosition ∧
      byteLimit ≤ s.currentLimit - currentPosition then
    some (s.currentLimit,
      { s with currentLimit := (currentPosition + byteLimit).toNat }.recomputeBufferLimits)
  else none

def popLimit (byteLimit : ℕ) : CodedInputStream :=
  { { s with currentLimit := byteLimit }.recomputeBufferLimits with legitimateMessageEnd := false }

/-- `incrementRecursionDepthAndPushLimit`: the old limit. -/
def incrementRecursionDepthAndPushLimit (byteLimit : ℤ) : Option (ℕ × CodedInputStream) :=
  match s.pushLimit byteLimit with
  | some (oldLimit, s) => some (oldLimit, { s with recursionBudget := s.recursionBudget - 1 })
  | none => none

/-- `decrementRecursionDepthAndPopLimit`: whether the message ended where it should. -/
def decrementRecursionDepthAndPopLimit (byteLimit : ℕ) : Bool × CodedInputStream :=
  let s' := s.popLimit byteLimit
  (s.legitimateMessageEnd, { s' with recursionBudget := s'.recursionBudget + 1 })

def bytesUntilLimit : ℤ :=
  if (s.currentLimit : ℤ) = phpIntMax then -1 else s.currentLimit - s.current

end CodedInputStream

end Upb.Php
