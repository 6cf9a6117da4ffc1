import BitcoinNode.Lib.Bytes

/-! SHA-256 over natural-number words, written so that the kernel can run it.
`eager` evaluates a number before the rest of the computation receives it. -/
namespace BitcoinNode.Sha256

def roundConstants : List Nat := [
  0x428a2f98, 0x71374491, 0xb5c0fbcf, 0xe9b5dba5, 0x3956c25b, 0x59f111f1, 0x923f82a4, 0xab1c5ed5,
  0xd807aa98, 0x12835b01, 0x243185be, 0x550c7dc3, 0x72be5d74, 0x80deb1fe, 0x9bdc06a7, 0xc19bf174,
  0xe49b69c1, 0xefbe4786, 0x0fc19dc6, 0x240ca1cc, 0x2de92c6f, 0x4a7484aa, 0x5cb0a9dc, 0x76f988da,
  0x983e5152, 0xa831c66d, 0xb00327c8, 0xbf597fc7, 0xc6e00bf3, 0xd5a79147, 0x06ca6351, 0x14292967,
  0x27b70a85, 0x2e1b2138, 0x4d2c6dfc, 0x53380d13, 0x650a7354, 0x766a0abb, 0x81c2c92e, 0x92722c85,
  0xa2bfe8a1, 0xa81a664b, 0xc24b8b70, 0xc76c51a3, 0xd192e819, 0xd6990624, 0xf40e3585, 0x106aa070,
  0x19a4c116, 0x1e376c08, 0x2748774c, 0x34b0bcb5, 0x391c0cb3, 0x4ed8aa4a, 0x5b9cca4f, 0x682e6ff3,
  0x748f82ee, 0x78a5636f, 0x84c87814, 0x8cc70208, 0x90befffa, 0xa4506ceb, 0xbef9a3f7, 0xc67178f2]

def eager (n : Nat) (k : Nat → α) : α := Nat.casesOn n (k 0) fun m => k (m + 1)

def rotr (n word : Nat) : Nat := (word >>> n) ||| ((word <<< (32 - n)) % 2 ^ 32)

structure Registers where
  a : Nat
  b : Nat
  c : Nat
  d : Nat
  e : Nat
  f : Nat
  g : Nat
  h : Nat

def initial : Registers :=
  ⟨0x6a09e667, 0xbb67ae85, 0x3c6ef372, 0xa54ff53a, 0x510e527f, 0x9b05688c, 0x1f83d9ab, 0x5be0cd19⟩

/-- One round; `keyed` is the round constant plus the scheduled word. -/
def round (keyed : Nat) : Registers → Registers
  | ⟨a, b, c, d, e, f, g, h⟩ =>
    eager (h + (rotr 6 e ^^^ rotr 11 e ^^^ rotr 25 e)
      + ((e &&& f) ^^^ ((4294967295 ^^^ e) &&& g)) + keyed) fun t1 =>
    eager ((rotr 2 a ^^^ rotr 13 a ^^^ rotr 22 a)
      + ((a &&& b) ^^^ (a &&& c) ^^^ (b &&& c))) fun t2 =>
    eager ((t1 + t2) % 2 ^ 32) fun a' =>
    eager ((d + t1) % 2 ^ 32) fun e' =>
    ⟨a', a, b, c, e', e, f, g⟩

/-- The sixteen words of a block, or the last sixteen words of its schedule. -/
structure Window where
  w0 : Nat
  w1 : Nat
  w2 : Nat
  w3 : Nat
  w4 : Nat
  w5 : Nat
  w6 : Nat
  w7 : Nat
  w8 : Nat
  w9 : Nat
  w10 : Nat
  w11 : Nat
  w12 : Nat
  w13 : Nat
  w14 : Nat
  w15 : Nat

/-- The message schedule slides the window by one word a round. -/
def rounds : List Nat → Window → Registers → Registers
  | [], _, s => s
  | constant :: constants, ⟨w0, w1, w2, w3, w4, w5, w6, w7, w8, w9, w10, w11, w12, w13, w14, w15⟩, s =>
    eager ((w0 + (rotr 7 w1 ^^^ rotr 18 w1 ^^^ (w1 >>> 3)) + w9
      + (rotr 17 w14 ^^^ rotr 19 w14 ^^^ (w14 >>> 10))) % 2 ^ 32) fun w16 =>
    rounds constants ⟨w1, w2, w3, w4, w5, w6, w7, w8, w9, w10, w11, w12, w13, w14, w15, w16⟩
      (round (constant + w0) s)

def window (w : List Nat) : Window :=
  ⟨w[0]!, w[1]!, w[2]!, w[3]!, w[4]!, w[5]!, w[6]!, w[7]!, w[8]!, w[9]!, w[10]!, w[11]!,
   w[12]!, w[13]!, w[14]!, w[15]!⟩

def compress (s : Registers) (block : List Nat) : Registers :=
  let t := rounds roundConstants (window block) s
  ⟨(s.a + t.a) % 2 ^ 32, (s.b + t.b) % 2 ^ 32, (s.c + t.c) % 2 ^ 32, (s.d + t.d) % 2 ^ 32,
   (s.e + t.e) % 2 ^ 32, (s.f + t.f) % 2 ^ 32, (s.g + t.g) % 2 ^ 32, (s.h + t.h) % 2 ^ 32⟩

def words : List UInt8 → List Nat
  | a :: b :: c :: d :: rest =>
    (((a.toNat * 256 + b.toNat) * 256 + c.toNat) * 256 + d.toNat) :: words rest
  | _ => []

def bigEndian (width value : Nat) : List UInt8 := (LittleEndian.encode width value).reverse

def pad (message : List UInt8) : List UInt8 :=
  message ++ 0x80 :: List.replicate ((119 - message.length % 64) % 64) 0
    ++ bigEndian 8 (8 * message.length)

def absorb : (blocks : Nat) → List Nat → Registers → Registers
  | 0, _, s => s
  | blocks + 1, input, s => absorb blocks (input.drop 16) (compress s (input.take 16))

def digest (message : List UInt8) : U8Array 32 :=
  let input := words (pad message)
  let s := absorb (input.length / 16) input initial
  ⟨[s.a, s.b, s.c, s.d, s.e, s.f, s.g, s.h].flatMap (bigEndian 4), by simp [bigEndian]⟩

/-- The one-block test vector "abc". -/
example : (digest [0x61, 0x62, 0x63]).val =
    [0xba, 0x78, 0x16, 0xbf, 0x8f, 0x01, 0xcf, 0xea, 0x41, 0x41, 0x40, 0xde, 0x5d, 0xae, 0x22, 0x23,
     0xb0, 0x03, 0x61, 0xa3, 0x96, 0x17, 0x7a, 0x9c, 0xb4, 0x10, 0xff, 0x61, 0xf2, 0x00, 0x15,
     0xad] := by
  decide +kernel

end BitcoinNode.Sha256
