/-
# Digests

The SHA-256 digest of a text, by which an archive names the source it was made from.
-/
import Lode.Text.Hex
import Lode.Text.Utf8
import Lode.Word

namespace Lode.Digest

/-- The state of the digest: eight words of four bytes. -/
abbrev Words := Array UInt32

/-- The words that the digest begins with. -/
def initial : Words :=
  #[0x6a09e667, 0xbb67ae85, 0x3c6ef372, 0xa54ff53a, 0x510e527f, 0x9b05688c, 0x1f83d9ab, 0x5be0cd19]

/-- The constants of the sixty-four rounds. -/
def roundConstants : Words :=
  #[0x428a2f98, 0x71374491, 0xb5c0fbcf, 0xe9b5dba5, 0x3956c25b, 0x59f111f1, 0x923f82a4, 0xab1c5ed5,
    0xd807aa98, 0x12835b01, 0x243185be, 0x550c7dc3, 0x72be5d74, 0x80deb1fe, 0x9bdc06a7, 0xc19bf174,
    0xe49b69c1, 0xefbe4786, 0x0fc19dc6, 0x240ca1cc, 0x2de92c6f, 0x4a7484aa, 0x5cb0a9dc, 0x76f988da,
    0x983e5152, 0xa831c66d, 0xb00327c8, 0xbf597fc7, 0xc6e00bf3, 0xd5a79147, 0x06ca6351, 0x14292967,
    0x27b70a85, 0x2e1b2138, 0x4d2c6dfc, 0x53380d13, 0x650a7354, 0x766a0abb, 0x81c2c92e, 0x92722c85,
    0xa2bfe8a1, 0xa81a664b, 0xc24b8b70, 0xc76c51a3, 0xd192e819, 0xd6990624, 0xf40e3585, 0x106aa070,
    0x19a4c116, 0x1e376c08, 0x2748774c, 0x34b0bcb5, 0x391c0cb3, 0x4ed8aa4a, 0x5b9cca4f, 0x682e6ff3,
    0x748f82ee, 0x78a5636f, 0x84c87814, 0x8cc70208, 0x90befffa, 0xa4506ceb, 0xbef9a3f7, 0xc67178f2]

/-- A word rotated to the right. -/
def rotate (x : UInt32) (count : UInt32) : UInt32 := (x >>> count) ||| (x <<< (32 - count))

/-- A word from four bytes, the highest first. -/
def wordOf : List UInt8 → UInt32
  | bytes => bytes.foldl (fun acc b => (acc <<< 8) ||| b.toUInt32) 0

/-- The words of a list of bytes. -/
def wordsOf : List UInt8 → List UInt32
  | a :: b :: c :: d :: rest => wordOf [a, b, c, d] :: wordsOf rest
  | _ => []

/-- The word of a round from the words of earlier rounds. -/
def expandedWord (w : Words) (i : Nat) : UInt32 :=
  let a := (w[i - 15]?).getD 0
  let b := (w[i - 2]?).getD 0
  let s0 := rotate a 7 ^^^ rotate a 18 ^^^ (a >>> 3)
  let s1 := rotate b 17 ^^^ rotate b 19 ^^^ (b >>> 10)
  (w[i - 16]?).getD 0 + s0 + (w[i - 7]?).getD 0 + s1

/-- The words of all rounds, from the sixteen words of a block. -/
def expand (block : List UInt32) : Words :=
  (List.range 48).foldl (fun w k => w.push (expandedWord w (k + 16))) block.toArray

/-- One round. -/
def round (state : Words) (k w : UInt32) : Words :=
  match state.toList with
  | [a, b, c, d, e, f, g, h] =>
    let s1 := rotate e 6 ^^^ rotate e 11 ^^^ rotate e 25
    let ch := (e &&& f) ^^^ ((~~~ e) &&& g)
    let t1 := h + s1 + ch + k + w
    let s0 := rotate a 2 ^^^ rotate a 13 ^^^ rotate a 22
    let maj := (a &&& b) ^^^ (a &&& c) ^^^ (b &&& c)
    #[t1 + s0 + maj, a, b, c, d + t1, e, f, g]
  | _ => state

/-- Takes a block into the state. -/
def compress (state : Words) (block : List UInt32) : Words :=
  let final := (roundConstants.zip (expand block)).foldl (fun s (k, w) => round s k w) state
  state.zipWith (· + ·) final

/-- Takes words into the state, sixteen at a time. -/
def absorb : Nat → Words → List UInt32 → Words
  | 0, state, _ => state
  | blocks + 1, state, words => absorb blocks (compress state (words.take 16)) (words.drop 16)

/-- A number in eight bytes, the highest first. -/
def lengthBytes (n : Nat) : List UInt8 :=
  (littleEndian 8 n).reverse

/-- A message filled up to whole blocks: a one bit, zeros, and the length in bits. -/
def pad (bytes : List UInt8) : List UInt8 :=
  let zeros := (119 - bytes.length % 64) % 64
  bytes ++ 0x80 :: List.replicate zeros 0 ++ lengthBytes (8 * bytes.length)

/-- The bytes of a word, the highest first. -/
def wordBytes (x : UInt32) : List UInt8 :=
  [(x >>> 24).toUInt8, (x >>> 16).toUInt8, (x >>> 8).toUInt8, x.toUInt8]

/-- The digest of a list of bytes. -/
def ofBytes (bytes : List UInt8) : List UInt8 :=
  let words := wordsOf (pad bytes)
  (absorb (words.length / 16) initial words).toList.flatMap wordBytes

/-- The digest of a text, in hexadecimal digits. -/
def ofText (text : String) : String := hexBytes (ofBytes (encodeUtf8 text))

end Lode.Digest
