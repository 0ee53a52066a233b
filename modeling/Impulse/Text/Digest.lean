/-!
# Sixty-four bit digests

The XXH64 digest with seed zero. Thirty-two byte stripes are mixed into four accumulators; the rest is
mixed in by words of eight bytes, then four, then one; an avalanche of shifts and products ends it.
All arithmetic wraps at 64 bits.
-/

namespace Impulse.Text.Digest

def prime1 : UInt64 := 11400714785074694791
def prime2 : UInt64 := 14029467366897019727
def prime3 : UInt64 := 1609587929392839161
def prime4 : UInt64 := 9650029242287828579
def prime5 : UInt64 := 2870177450012600261

/-- Rotation to the left by `n` bits, for `0 < n < 64`. -/
def rotate (x : UInt64) (n : UInt64) : UInt64 :=
  (x <<< n) ||| (x >>> (64 - n))

/-- The `count` bytes from position `start` on as one number, the first byte lowest. -/
def word (bytes : Array UInt8) (start : Nat) : Nat → UInt64
  | 0 => 0
  | count + 1 => (bytes.getD start 0).toUInt64 ||| (word bytes (start + 1) count <<< 8)

def mix (acc input : UInt64) : UInt64 :=
  rotate (acc + input * prime2) 31 * prime1

/-- The four accumulators of the stripes. -/
structure Lanes where
  a : UInt64
  b : UInt64
  c : UInt64
  d : UInt64

def Lanes.start : Lanes :=
  ⟨prime1 + prime2, prime2, 0, 0 - prime1⟩

def Lanes.stripe (bytes : Array UInt8) (l : Lanes) (i : Nat) : Lanes :=
  ⟨mix l.a (word bytes i 8), mix l.b (word bytes (i + 8) 8), mix l.c (word bytes (i + 16) 8),
   mix l.d (word bytes (i + 24) 8)⟩

def merge (h v : UInt64) : UInt64 :=
  (h ^^^ mix 0 v) * prime1 + prime4

def Lanes.join (l : Lanes) : UInt64 :=
  let h := rotate l.a 1 + rotate l.b 7 + rotate l.c 12 + rotate l.d 18
  merge (merge (merge (merge h l.a) l.b) l.c) l.d

/-- Mixes the eight bytes at position `i` into the state. -/
def eight (bytes : Array UInt8) (h : UInt64) (i : Nat) : UInt64 :=
  rotate (h ^^^ mix 0 (word bytes i 8)) 27 * prime1 + prime4

/-- Mixes the four bytes at position `i` into the state. -/
def four (bytes : Array UInt8) (h : UInt64) (i : Nat) : UInt64 :=
  rotate (h ^^^ (word bytes i 4 * prime1)) 23 * prime2 + prime3

def one (bytes : Array UInt8) (h : UInt64) (i : Nat) : UInt64 :=
  rotate (h ^^^ (word bytes i 1 * prime5)) 11 * prime1

def avalanche (h : UInt64) : UInt64 :=
  let h := (h ^^^ (h >>> 33)) * prime2
  let h := (h ^^^ (h >>> 29)) * prime3
  h ^^^ (h >>> 32)

end Impulse.Text.Digest

namespace Impulse.Text

open Digest in
def digest (bytes : Array UInt8) : UInt64 :=
  let n := bytes.size
  let striped := n / 32 * 32
  let h :=
    if n < 32 then prime5
    else ((List.range (n / 32)).foldl (fun l i => l.stripe bytes (32 * i)) Lanes.start).join
  let h := h + n.toUInt64
  let eights := (n - striped) / 8
  let h := (List.range eights).foldl (fun h i => eight bytes h (striped + 8 * i)) h
  let at8 := striped + 8 * eights
  let (h, at4) := if n - at8 < 4 then (h, at8) else (four bytes h at8, at8 + 4)
  avalanche ((List.range (n - at4)).foldl (fun h i => one bytes h (at4 + i)) h)

def digestText (s : String) : UInt64 :=
  digest s.toUTF8.data

end Impulse.Text
