/-!
# SipHash

A keyed digest of 64 bits. The bytes are taken eight at a time as little-endian words; the last word
holds the bytes that are left and, in its highest byte, the number of all bytes modulo 256.
-/

namespace CelEdit.SipHash

/-- The numbers of rounds after each word and at the end. -/
structure Variant where
  compression : Nat
  finalization : Nat

structure Key where
  low : UInt64
  high : UInt64

structure State where
  v0 : UInt64
  v1 : UInt64
  v2 : UInt64
  v3 : UInt64

def rotateLeft (w n : UInt64) : UInt64 := (w <<< n) ||| (w >>> (64 - n))

namespace State

def start (key : Key) : State :=
  ⟨key.low ^^^ 0x736f6d6570736575, key.high ^^^ 0x646f72616e646f6d,
    key.low ^^^ 0x6c7967656e657261, key.high ^^^ 0x7465646279746573⟩

def round (s : State) : State :=
  let a := s.v0 + s.v1
  let b := rotateLeft s.v1 13 ^^^ a
  let c := s.v2 + s.v3
  let d := rotateLeft s.v3 16 ^^^ c
  let e := rotateLeft a 32 + d
  let f := c + b
  ⟨e, rotateLeft b 17 ^^^ f, rotateLeft f 32, rotateLeft d 21 ^^^ e⟩

def rounds : Nat → State → State
  | 0, s => s
  | n + 1, s => rounds n s.round

/-- Takes in one word. -/
def compress (v : Variant) (s : State) (w : UInt64) : State :=
  let mixed := rounds v.compression { s with v3 := s.v3 ^^^ w }
  { mixed with v0 := mixed.v0 ^^^ w }

def finish (v : Variant) (s : State) : UInt64 :=
  let mixed := rounds v.finalization { s with v2 := s.v2 ^^^ 0xff }
  mixed.v0 ^^^ mixed.v1 ^^^ mixed.v2 ^^^ mixed.v3

end State

/-- The word of some bytes, the lowest first. -/
def word (bytes : List UInt8) : UInt64 := bytes.foldr (fun b w => (w <<< 8) ||| b.toUInt64) 0

/-- The words of a text of the given length. -/
def words (length : Nat) : List UInt8 → List UInt64
  | b0 :: b1 :: b2 :: b3 :: b4 :: b5 :: b6 :: b7 :: rest =>
    word [b0, b1, b2, b3, b4, b5, b6, b7] :: words length rest
  | rest => [word rest ||| (UInt64.ofNat length <<< 56)]

def digest (v : Variant) (key : Key) (bytes : List UInt8) : UInt64 :=
  ((words bytes.length bytes).foldl (State.compress v) (.start key)).finish v

end CelEdit.SipHash
