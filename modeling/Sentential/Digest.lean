import Sentential.Clause.Table
import Sentential.Formula.Groups

/-!
# Digests

What is proved about groups of repeated parts and about tables holds for all
digests of leaves and of literals. These are the ones that the program runs with.

A 64-bit digest is fed one word at a time: the digest so far is rotated by five
bits, combined with the word and multiplied by an odd constant. Bytes are fed as
little-endian words of eight bytes, the remainder as one word of four, two and
one bytes, as far as they are there. A text is fed as its UTF-8 bytes and the
byte 255, which no text contains.
-/

set_option autoImplicit false

namespace Sentential

namespace Digest

def multiplier : UInt64 := 0x517cc1b727220a95

def feed (digest word : UInt64) : UInt64 :=
  (((digest <<< 5) ||| (digest >>> 59)) ^^^ word) * multiplier

/-- The number that bytes spell with the lowest digit first. -/
def littleEndian (bytes : List UInt8) : UInt64 :=
  bytes.foldr (fun byte high => (high <<< 8) ||| byte.toUInt64) 0

/-- Feeds the first `count` bytes as one word, if there are as many. -/
def feedChunk (state : UInt64 × List UInt8) (count : Nat) : UInt64 × List UInt8 :=
  if count ≤ state.2.length then
    (feed state.1 (littleEndian (state.2.take count)), state.2.drop count)
  else state

def feedBytes (digest : UInt64) (bytes : List UInt8) : UInt64 :=
  if 8 ≤ bytes.length then
    feedBytes (feed digest (littleEndian (bytes.take 8))) (bytes.drop 8)
  else ([4, 2, 1].foldl feedChunk (digest, bytes)).1
termination_by bytes.length

def feedText (digest : UInt64) (text : String) : UInt64 :=
  feed (feedBytes digest text.toUTF8.toList) 0xff

end Digest

/-- The digest of a leaf, made odd so that no leaf has key zero. -/
def Formula.leafDigest (f : Formula) : UInt64 :=
  let digest :=
    match f with
    | .const true => Digest.feed 0 0
    | .const false => Digest.feed 0 1
    | .var name => Digest.feedText (Digest.feed 0 2) name
    | _ => 0
  digest ||| 1

/-- A digest of name and sign. -/
def Literal.digest (l : Literal) : UInt64 :=
  Digest.feed (Digest.feedText 0 l.name) (if l.negated then 1 else 0)

def Table.digest (t : Table) : UInt64 :=
  t.digestWith Literal.digest

end Sentential
