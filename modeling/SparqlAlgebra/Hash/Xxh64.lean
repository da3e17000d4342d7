/-!
The 64-bit hash XXH64 of a list of bytes.
-/

namespace SparqlAlgebra.Hash

def rotate (x : UInt64) (n : UInt64) : UInt64 := (x <<< n) ||| (x >>> (64 - n))

def prime1 : UInt64 := 0x9E3779B185EBCA87

def prime2 : UInt64 := 0xC2B2AE3D27D4EB4F

def prime3 : UInt64 := 0x165667B19E3779F9

def prime4 : UInt64 := 0x85EBCA77C2B2AE63

def prime5 : UInt64 := 0x27D4EB2F165667C5

/-- The word that bytes write, lowest first. -/
def littleEndian (bytes : List UInt8) : UInt64 := bytes.foldr (fun b w => w <<< 8 ||| b.toUInt64) 0

/-- The eight bytes of a word, lowest first. -/
def bytesOf (w : UInt64) : List UInt8 :=
  (List.range 8).map fun i => (w >>> (8 * i).toUInt64).toUInt8

/-- Bytes as words of eight, and the bytes that are left. -/
def words : List UInt8 → List UInt64 × List UInt8
  | a :: b :: c :: d :: e :: f :: g :: h :: rest =>
    let (ws, tail) := words rest
    (littleEndian [a, b, c, d, e, f, g, h] :: ws, tail)
  | tail => ([], tail)

def mix (lane w : UInt64) : UInt64 := rotate (lane + w * prime2) 31 * prime1

/-- Four lanes, each of which takes every fourth word. -/
structure Lanes where
  a : UInt64
  b : UInt64
  c : UInt64
  d : UInt64

namespace Lanes

def start (seed : UInt64) : Lanes where
  a := seed + prime1 + prime2
  b := seed + prime2
  c := seed
  d := seed - prime1

/-- Takes words by four, and gives back those that are left. -/
def absorb (l : Lanes) : List UInt64 → Lanes × List UInt64
  | a :: b :: c :: d :: rest =>
    absorb { a := mix l.a a, b := mix l.b b, c := mix l.c c, d := mix l.d d } rest
  | rest => (l, rest)

def merge (l : Lanes) : UInt64 :=
  [l.a, l.b, l.c, l.d].foldl (fun h lane => (h ^^^ mix 0 lane) * prime1 + prime4)
    (rotate l.a 1 + rotate l.b 7 + rotate l.c 12 + rotate l.d 18)

end Lanes

/-- Adds a word that filled no lane. -/
def addWord (h w : UInt64) : UInt64 := rotate (h ^^^ mix 0 w) 27 * prime1 + prime4

def addByte (h : UInt64) (b : UInt8) : UInt64 := rotate (h ^^^ b.toUInt64 * prime5) 11 * prime1

/-- Adds the last bytes, fewer than eight. -/
def addTail (h : UInt64) : List UInt8 → UInt64
  | a :: b :: c :: d :: rest =>
    rest.foldl addByte (rotate (h ^^^ littleEndian [a, b, c, d] * prime1) 23 * prime2 + prime3)
  | rest => rest.foldl addByte h

/-- Spreads every bit over the word. -/
def finish (h : UInt64) : UInt64 :=
  let h := (h ^^^ h >>> 33) * prime2
  let h := (h ^^^ h >>> 29) * prime3
  h ^^^ h >>> 32

/-- The hash of bytes. The lanes are used only from 32 bytes on. -/
def xxh64 (seed : UInt64) (bytes : List UInt8) : UInt64 :=
  let (ws, tail) := words bytes
  let (lanes, rest) := (Lanes.start seed).absorb ws
  let h := if ws.length < 4 then seed + prime5 else lanes.merge
  finish (addTail (rest.foldl addWord (h + bytes.length.toUInt64)) tail)

end SparqlAlgebra.Hash
