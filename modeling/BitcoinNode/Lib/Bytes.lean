import Mathlib.Data.List.Basic
import Mathlib.Tactic.Ring

/-! Fixed-size byte arrays, slices of a byte vector, and little-endian integers. -/
namespace BitcoinNode

/-- `[u8; n]`: the length is part of the value. -/
abbrev U8Array (n : Nat) := { bytes : List UInt8 // bytes.length = n }

namespace U8Array

def replicate (n : Nat) (byte : UInt8) : U8Array n := ⟨List.replicate n byte, by simp⟩

@[simp] theorem length_val (a : U8Array n) : a.val.length = n := a.property

def reverse (a : U8Array n) : U8Array n := ⟨a.val.reverse, by simp⟩

@[simp] theorem val_reverse (a : U8Array n) : a.reverse.val = a.val.reverse := rfl

@[simp] theorem reverse_reverse (a : U8Array n) : a.reverse.reverse = a :=
  Subtype.ext (List.reverse_reverse a.val)

theorem reverse_inj {a b : U8Array n} : a.reverse = b.reverse ↔ a = b := by
  constructor
  · intro same
    rw [← a.reverse_reverse, same, b.reverse_reverse]
  · exact congrArg reverse

end U8Array

/-- `input[start..stop]`, for bounds that have been checked. -/
def slice (input : List α) (start stop : Nat) : List α := (input.drop start).take (stop - start)

@[simp] theorem slice_self (input : List α) (start : Nat) : slice input start start = [] := by
  simp [slice]

theorem slice_length (input : List α) (start stop : Nat) (bound : stop ≤ input.length) :
    (slice input start stop).length = stop - start := by
  simp only [slice, List.length_take, List.length_drop]
  omega

theorem slice_append (input : List α) (start middle stop : Nat)
    (before : start ≤ middle) (after : middle ≤ stop) :
    slice input start middle ++ slice input middle stop = slice input start stop := by
  have shift : input.drop middle = (input.drop start).drop (middle - start) := by
    rw [List.drop_drop, Nat.add_sub_cancel' before]
  have total : stop - start = (middle - start) + (stop - middle) := by omega
  rw [slice, slice, slice, shift, total, List.take_add]

theorem slice_middle (front word back : List α) :
    slice (front ++ word ++ back) front.length (front.length + word.length) = word := by
  simp [slice]

namespace LittleEndian

/-- The `width` low bytes of `value`, least significant first. -/
def encode : (width value : Nat) → List UInt8
  | 0, _ => []
  | width + 1, value => UInt8.ofNat value :: encode width (value / 256)

def decode : List UInt8 → Nat
  | [] => 0
  | byte :: bytes => byte.toNat + 256 * decode bytes

@[simp] theorem encode_length (width value : Nat) : (encode width value).length = width := by
  induction width generalizing value with
  | zero => rfl
  | succ width ih => simp [encode, ih]

theorem take_encode {narrow width : Nat} (fits : narrow ≤ width) (value : Nat) :
    (encode width value).take narrow = encode narrow value := by
  induction narrow generalizing width value with
  | zero => rfl
  | succ narrow ih =>
    cases width with
    | zero => omega
    | succ width => rw [encode, encode, List.take_succ_cons, ih (Nat.le_of_succ_le_succ fits)]

theorem decode_lt (bytes : List UInt8) : decode bytes < 256 ^ bytes.length := by
  induction bytes with
  | nil => simp [decode]
  | cons byte bytes ih =>
    have low : byte.toNat < 256 := byte.toNat_lt
    simp only [decode, List.length_cons, Nat.pow_succ]
    omega

theorem decode_encode (width value : Nat) : decode (encode width value) = value % 256 ^ width := by
  induction width generalizing value with
  | zero => simp [encode, decode, Nat.mod_one]
  | succ width ih =>
    have low : (UInt8.ofNat value).toNat = value % 256 := UInt8.toNat_ofNat'
    rw [encode, decode, ih, low, Nat.pow_succ, Nat.mul_comm (256 ^ width), Nat.mod_mul]

theorem decode_encode_of_lt (width value : Nat) (fits : value < 256 ^ width) :
    decode (encode width value) = value := by
  rw [decode_encode, Nat.mod_eq_of_lt fits]

theorem encode_decode (bytes : List UInt8) : encode bytes.length (decode bytes) = bytes := by
  induction bytes with
  | nil => rfl
  | cons byte bytes ih =>
    have low : byte.toNat < 256 := byte.toNat_lt
    have rest : (byte.toNat + 256 * decode bytes) / 256 = decode bytes := by omega
    have head : UInt8.ofNat (byte.toNat + 256 * decode bytes) = byte := by
      apply UInt8.toNat_inj.mp
      simp only [UInt8.toNat_ofNat']
      omega
    simp only [List.length_cons, encode, decode, rest, head, ih]

theorem encode_mod (width value : Nat) : encode width (value % 256 ^ width) = encode width value := by
  have back := encode_decode (encode width value)
  rwa [encode_length, decode_encode] at back

theorem encode_add (low high value : Nat) :
    encode (low + high) value = encode low value ++ encode high (value / 256 ^ low) := by
  induction low generalizing value with
  | zero => simp [encode]
  | succ low ih =>
    rw [Nat.succ_add, encode, encode, ih, List.cons_append, Nat.div_div_eq_div_mul, Nat.pow_succ,
      Nat.mul_comm 256]

theorem decode_append (low high : List UInt8) :
    decode (low ++ high) = decode low + 256 ^ low.length * decode high := by
  induction low with
  | nil => simp [decode]
  | cons byte low ih =>
    rw [List.cons_append, decode, decode, ih, List.length_cons, Nat.pow_succ]
    ring

@[simp] theorem decode_zeros (count : Nat) : decode (List.replicate count 0) = 0 := by
  induction count with
  | zero => rfl
  | succ count ih => simp [List.replicate_succ, decode, ih]

/-- Arrays of one length are ordered as the numbers they write most significant byte first. -/
theorem lt_iff_decode_reverse {a b : List UInt8} (same : a.length = b.length) :
    a < b ↔ decode a.reverse < decode b.reverse := by
  induction a generalizing b with
  | nil =>
    obtain rfl := List.length_eq_zero_iff.mp same.symm
    simp
  | cons x a ih =>
    obtain ⟨y, b, rfl⟩ := List.exists_cons_of_length_eq_add_one same.symm
    have lengths : a.length = b.length := Nat.succ.inj same
    have low := decode_lt a.reverse
    have low' := decode_lt b.reverse
    rw [List.length_reverse] at low low'
    rw [List.cons_lt_cons_iff, ih lengths, List.reverse_cons, List.reverse_cons, decode_append,
      decode_append, List.length_reverse, List.length_reverse, lengths, UInt8.lt_iff_toNat_lt,
      ← UInt8.toNat_inj]
    rw [lengths] at low
    simp only [decode, Nat.mul_zero, Nat.add_zero]
    rcases Nat.lt_trichotomy x.toNat y.toNat with less | equal | more
    · have step := Nat.mul_le_mul_left (256 ^ b.length) less
      rw [Nat.mul_succ] at step
      exact iff_of_true (.inl less) (by omega)
    · simp [equal]
    · have step := Nat.mul_le_mul_left (256 ^ b.length) more
      rw [Nat.mul_succ] at step
      exact iff_of_false (by omega) (by omega)

end LittleEndian

/-! `toLeBytes` and `fromLeBytes` of the fixed-width integers in use. -/

def u32ToLeBytes (value : UInt32) : List UInt8 := LittleEndian.encode 4 value.toNat
def u32FromLeBytes (bytes : U8Array 4) : UInt32 := UInt32.ofNat (LittleEndian.decode bytes.val)
def i32ToLeBytes (value : Int32) : List UInt8 := u32ToLeBytes value.toUInt32
def i32FromLeBytes (bytes : U8Array 4) : Int32 := (u32FromLeBytes bytes).toInt32
def i64ToLeBytes (value : Int64) : List UInt8 := LittleEndian.encode 8 value.toUInt64.toNat
def i64FromLeBytes (bytes : U8Array 8) : Int64 :=
  (UInt64.ofNat (LittleEndian.decode bytes.val)).toInt64

def u64ToLeBytes (value : UInt64) : List UInt8 := LittleEndian.encode 8 value.toNat
def u64FromLeBytes (bytes : U8Array 8) : UInt64 := UInt64.ofNat (LittleEndian.decode bytes.val)
def u16ToBeBytes (value : UInt16) : List UInt8 := (LittleEndian.encode 2 value.toNat).reverse
def u16FromBeBytes (bytes : U8Array 2) : UInt16 := UInt16.ofNat (LittleEndian.decode bytes.val.reverse)

@[simp] theorem u32_to_le_bytes_length (v : UInt32) : (u32ToLeBytes v).length = 4 := by
  simp [u32ToLeBytes]
@[simp] theorem i32_to_le_bytes_length (v : Int32) : (i32ToLeBytes v).length = 4 := by
  simp [i32ToLeBytes]
@[simp] theorem i64_to_le_bytes_length (v : Int64) : (i64ToLeBytes v).length = 8 := by
  simp [i64ToLeBytes]
@[simp] theorem u64_to_le_bytes_length (v : UInt64) : (u64ToLeBytes v).length = 8 := by
  simp [u64ToLeBytes]
@[simp] theorem u16_to_be_bytes_length (v : UInt16) : (u16ToBeBytes v).length = 2 := by
  simp [u16ToBeBytes]

@[simp] theorem u32_to_from (bytes : U8Array 4) :
    u32ToLeBytes (u32FromLeBytes bytes) = bytes.val := by
  have fits := LittleEndian.decode_lt bytes.val
  have back := LittleEndian.encode_decode bytes.val
  rw [bytes.length_val] at fits back
  rw [u32ToLeBytes, u32FromLeBytes, UInt32.toNat_ofNat_of_lt' (by simpa using fits), back]

@[simp] theorem u32_from_to (v : UInt32) (h : (u32ToLeBytes v).length = 4) :
    u32FromLeBytes ⟨u32ToLeBytes v, h⟩ = v := by
  have fits : v.toNat < 256 ^ 4 := by simpa using v.toNat_lt
  simp [u32FromLeBytes, u32ToLeBytes, LittleEndian.decode_encode_of_lt 4 _ fits]

@[simp] theorem i32_to_from (bytes : U8Array 4) :
    i32ToLeBytes (i32FromLeBytes bytes) = bytes.val := by
  simp [i32ToLeBytes, i32FromLeBytes]

@[simp] theorem i32_from_to (v : Int32) (h : (i32ToLeBytes v).length = 4) :
    i32FromLeBytes ⟨i32ToLeBytes v, h⟩ = v := by
  simp [i32FromLeBytes, i32ToLeBytes]

@[simp] theorem i64_to_from (bytes : U8Array 8) :
    i64ToLeBytes (i64FromLeBytes bytes) = bytes.val := by
  have fits := LittleEndian.decode_lt bytes.val
  have back := LittleEndian.encode_decode bytes.val
  rw [bytes.length_val] at fits back
  simp [i64ToLeBytes, i64FromLeBytes, UInt64.toNat_ofNat_of_lt' (n := _) (by simpa using fits), back]

@[simp] theorem i64_from_to (v : Int64) (h : (i64ToLeBytes v).length = 8) :
    i64FromLeBytes ⟨i64ToLeBytes v, h⟩ = v := by
  have fits : v.toUInt64.toNat < 256 ^ 8 := by simpa using v.toUInt64.toNat_lt
  simp [i64FromLeBytes, i64ToLeBytes, LittleEndian.decode_encode_of_lt 8 _ fits]

@[simp] theorem u64_from_to (v : UInt64) (h : (u64ToLeBytes v).length = 8) :
    u64FromLeBytes ⟨u64ToLeBytes v, h⟩ = v := by
  have fits : v.toNat < 256 ^ 8 := by simpa using v.toNat_lt
  simp [u64FromLeBytes, u64ToLeBytes, LittleEndian.decode_encode_of_lt 8 _ fits]

@[simp] theorem u16_from_to (v : UInt16) (h : (u16ToBeBytes v).length = 2) :
    u16FromBeBytes ⟨u16ToBeBytes v, h⟩ = v := by
  have fits : v.toNat < 256 ^ 2 := by simpa using v.toNat_lt
  simp [u16FromBeBytes, u16ToBeBytes, LittleEndian.decode_encode_of_lt 2 _ fits]

end BitcoinNode
