import BitcoinNode.Lib.Decoder

/-! Variable-length integers. The received bytes are kept as they are, so a value may be
stored in a longer form than it needs. -/
namespace BitcoinNode

structure CompactSizeUint where
  bytes : List UInt8
  deriving DecidableEq, Repr

namespace CompactSizeUint

open Decoder

/-- `bytesAmount` counts the first byte; the loop copies the low bytes of the `u128`. -/
def getCompactSizeUint (firstByte : UInt8) (bytesAmount value : Nat) : List UInt8 :=
  firstByte :: (LittleEndian.encode 16 value).take (bytesAmount - 1)

def generateCompactSizeUint (value : Nat) : List UInt8 :=
  if 253 ≤ value ∧ value ≤ 0xffff then getCompactSizeUint 0xfd 3 value
  else if 0x10000 ≤ value ∧ value ≤ 0xffffffff then getCompactSizeUint 0xfe 5 value
  else if 0x100000000 ≤ value ∧ value ≤ 0xffffffffffffffff then
    getCompactSizeUint 0xff 9 value
  else [UInt8.ofNat value]

def new (value : Nat) : CompactSizeUint := ⟨generateCompactSizeUint value⟩

/-- The number of bytes that follow a given first byte. -/
def extra (firstByte : UInt8) : Nat :=
  if firstByte = 0xfd then 2 else if firstByte = 0xfe then 4
  else if firstByte = 0xff then 8 else 0

/-- `u64::from_le_bytes` of the bytes after the tag, or of the first byte itself. The slices
`self.bytes[1..n + 1]` panic when the bytes are too short for their tag. -/
def decodedValue (c : CompactSizeUint) : Checked Nat := do
  let firstByte ← Outcome.index c.bytes 0
  if firstByte = 0xfd then copy 2
  else if firstByte = 0xfe then copy 4
  else if firstByte = 0xff then copy 8
  else .ok firstByte.toNat
where
  copy (n : Nat) : Checked Nat :=
    if n + 1 ≤ c.bytes.length then .ok (LittleEndian.decode (slice c.bytes 1 (n + 1)))
    else Outcome.panic

def marshalling (c : CompactSizeUint) : List UInt8 := c.bytes

def unmarshalling : Decoder String CompactSizeUint := do
  require 1 "The received bytes are not enough to unmarshall the CompactSizeUint"
  let value ← take 1
  let firstByte ← lift (Outcome.index value 0)
  if firstByte = 0xfd then
    let rest ← take 2
    return ⟨value ++ rest⟩
  else if firstByte = 0xfe then
    let rest ← take 4
    return ⟨value ++ rest⟩
  else if firstByte = 0xff then
    let rest ← take 8
    return ⟨value ++ rest⟩
  else
    return ⟨value⟩

/-- The bytes have the length their first byte announces. -/
def Structural (c : CompactSizeUint) : Prop :=
  ∃ firstByte rest, c.bytes = firstByte :: rest ∧ rest.length = extra firstByte

def denotes (firstByte : UInt8) (rest : List UInt8) : Nat :=
  if extra firstByte = 0 then firstByte.toNat else LittleEndian.decode rest

theorem decoded_value_eq {c : CompactSizeUint} (shape : c.bytes = firstByte :: rest)
    (length : rest.length = extra firstByte) :
    c.decodedValue = .ok (denotes firstByte rest) := by
  have copied (n : Nat) (exact : rest.length = n) :
      decodedValue.copy c n = .ok (LittleEndian.decode rest) := by
    have whole : slice (firstByte :: rest) 1 (n + 1) = rest := by simp [slice, ← exact]
    rw [decodedValue.copy, shape, whole, if_pos (by simp [exact])]
  have head : (Outcome.index c.bytes 0 : Checked UInt8) = .ok firstByte := by
    simp [Outcome.index, shape]
  rw [decodedValue, head, Outcome.bind_ok]
  unfold extra at length
  unfold denotes extra
  split
  · simp_all
  · split
    · simp_all
    · split <;> simp_all

/-- A structurally valid value never panics, and is below `2 ^ 64`. -/
theorem decoded_value_structural {c : CompactSizeUint} (valid : c.Structural) :
    ∃ value, c.decodedValue = .ok value ∧ value < 2 ^ 64 := by
  obtain ⟨firstByte, rest, shape, length⟩ := valid
  refine ⟨denotes firstByte rest, decoded_value_eq shape length, ?_⟩
  have low : firstByte.toNat < 256 := firstByte.toNat_lt
  have high := LittleEndian.decode_lt rest
  have width : rest.length ≤ 8 := by rw [length, extra]; split_ifs <;> decide
  have bound : 256 ^ rest.length ≤ 256 ^ 8 := Nat.pow_le_pow_right (by decide) width
  unfold denotes
  split <;> omega

/-- Structurally valid and standing for `n`: what a length prefix has to be. -/
def Counts (c : CompactSizeUint) (n : Nat) : Prop :=
  c.Structural ∧ c.decodedValue = .ok n

theorem Counts.lt {c : CompactSizeUint} {n : Nat} (counts : c.Counts n) : n < 2 ^ 64 := by
  obtain ⟨value, decoded, small⟩ := decoded_value_structural counts.1
  obtain rfl := Except.ok.inj (decoded.symm.trans counts.2)
  exact small

theorem new_counts {n : Nat} (fits : n < 2 ^ 64) : (new n).Counts n := by
  have wide (firstByte : UInt8) (width : Nat) (tag : extra firstByte = width) (some : width ≠ 0)
      (narrow : width ≤ 16) (bound : n < 256 ^ width)
      (shape : (new n).bytes = getCompactSizeUint firstByte (width + 1) n) : (new n).Counts n := by
    rw [getCompactSizeUint, Nat.add_sub_cancel, LittleEndian.take_encode narrow] at shape
    have length : (LittleEndian.encode width n).length = extra firstByte := by simp [tag]
    refine ⟨⟨firstByte, _, shape, length⟩, ?_⟩
    rw [decoded_value_eq shape length, denotes, if_neg (tag ▸ some), LittleEndian.decode_encode_of_lt _ _ bound]
  by_cases two : 253 ≤ n ∧ n ≤ 0xffff
  · exact wide 0xfd 2 (by decide) (by decide) (by decide) (by omega) (by simp [new, generateCompactSizeUint, two])
  by_cases four : 0x10000 ≤ n ∧ n ≤ 0xffffffff
  · exact wide 0xfe 4 (by decide) (by decide) (by decide) (by omega)
      (by simp only [new, generateCompactSizeUint, if_neg two, if_pos four])
  by_cases eight : 0x100000000 ≤ n ∧ n ≤ 0xffffffffffffffff
  · exact wide 0xff 8 (by decide) (by decide) (by decide) (by omega)
      (by simp only [new, generateCompactSizeUint, if_neg two, if_neg four, if_pos eight])
  · have small : n < 253 := by omega
    have shape : (new n).bytes = [UInt8.ofNat n] := by
      simp only [new, generateCompactSizeUint, if_neg two, if_neg four, if_neg eight]
    have value : (UInt8.ofNat n).toNat = n := UInt8.toNat_ofNat_of_lt' (Nat.lt_trans small (by decide))
    have tag : extra (UInt8.ofNat n) = 0 := by
      have other (byte : UInt8) (high : 253 ≤ byte.toNat) : UInt8.ofNat n ≠ byte := fun same => by
        rw [← same, value] at high
        omega
      rw [extra, if_neg (other _ (by decide)), if_neg (other _ (by decide)), if_neg (other _ (by decide))]
    refine ⟨⟨_, [], shape, tag.symm⟩, ?_⟩
    rw [decoded_value_eq shape tag.symm, denotes, if_pos tag, value]

theorem unmarshalling_spans :
    Spans unmarshalling (fun c word => word = c.marshalling ∧ c.Structural) := by
  refine .bind (.require _ _) fun _ w hw => .bind (.take 1) fun value u hu =>
    .bind (.lift _) fun firstByte v hv => ?_
  obtain ⟨rfl, single⟩ := hu
  obtain ⟨read, rfl⟩ := hv
  subst hw
  have tag : value = [firstByte] := by
    obtain ⟨b, rfl⟩ := List.length_eq_one_iff.mp single
    simpa [Outcome.index_eq_ok] using read
  subst tag
  have tail (n : Nat) (width : extra firstByte = n) :
      Spans (do let rest ← take n; return ⟨[firstByte] ++ rest⟩ : Decoder String CompactSizeUint)
        (fun c back => [] ++ ([firstByte] ++ ([] ++ back)) = c.marshalling ∧ c.Structural) := by
    refine .bind (.take n) fun rest word hword => .pure ?_
    obtain ⟨rfl, length⟩ := hword
    exact ⟨by simp [marshalling], firstByte, rest, rfl, length.trans width.symm⟩
  split_ifs with fd fe ff
  · exact tail 2 (by simp [extra, fd])
  · exact tail 4 (by simp [extra, fe])
  · exact tail 8 (by simp [extra, ff])
  · exact .pure ⟨rfl, firstByte, [], rfl, by simp [extra, fd, fe, ff]⟩

theorem unmarshalling_reads {c : CompactSizeUint} (valid : c.Structural) :
    Reads unmarshalling c.marshalling c := by
  obtain ⟨firstByte, rest, shape, length⟩ := valid
  obtain ⟨bytes⟩ := c
  subst shape
  have word : marshalling ⟨firstByte :: rest⟩ = [firstByte] ++ rest := rfl
  rw [word]
  have tail (n : Nat) (width : extra firstByte = n) :
      Reads (do let rest ← take n; return ⟨[firstByte] ++ rest⟩ : Decoder String CompactSizeUint)
        rest ⟨firstByte :: rest⟩ :=
    .map (.take rest n (length.trans width)) (.pure _)
  refine .require 1 _ (.bind (.take [firstByte] 1 rfl) (.lift (a := firstByte) rfl ?_)) (by simp)
  split_ifs with fd fe ff
  · exact tail 2 (by simp [extra, fd])
  · exact tail 4 (by simp [extra, fe])
  · exact tail 8 (by simp [extra, ff])
  · have none : rest = [] := List.length_eq_zero_iff.mp (by simp [length, extra, fd, fe, ff])
    subst none
    exact .pure _

theorem new_length {value : Nat} (fits : value < 2 ^ 64) : (new value).bytes.length =
    if value < 253 then 1 else if value < 2 ^ 16 then 3 else if value < 2 ^ 32 then 5 else 9 := by
  rw [new, generateCompactSizeUint]
  split_ifs <;> first | omega | simp [getCompactSizeUint]

/-- Any bytes that can be decoded are at least as many as their tag announces, and the bytes behind those
are not looked at. -/
theorem decoded_value_shape {c : CompactSizeUint} (decoded : c.decodedValue = .ok value) :
    ∃ firstByte rest, c.bytes = firstByte :: rest ∧ extra firstByte ≤ rest.length ∧
      value = denotes firstByte (rest.take (extra firstByte)) := by
  obtain ⟨firstByte, read, decoded⟩ := Outcome.bind_eq_ok.mp decoded
  obtain ⟨_ | ⟨first, rest⟩⟩ := c
  · cases read
  obtain rfl : first = firstByte := by simpa [Outcome.index_eq_ok] using read
  have copied (n : Nat) (tag : extra first = n) (some : n ≠ 0)
      (copied : decodedValue.copy ⟨first :: rest⟩ n = .ok value) :
      extra first ≤ rest.length ∧ value = denotes first (rest.take (extra first)) := by
    rw [decodedValue.copy] at copied
    split_ifs at copied with enough
    · refine ⟨by simpa [tag] using enough, ?_⟩
      rw [denotes, tag, if_neg some, ← Except.ok.inj copied]
      simp [slice]
    · cases copied
  refine ⟨first, rest, rfl, ?_⟩
  split_ifs at decoded with fd fe ff
  · exact copied 2 (by simp [extra, fd]) (by decide) decoded
  · exact copied 4 (by simp [extra, fe]) (by decide) decoded
  · exact copied 8 (by simp [extra, ff]) (by decide) decoded
  · have none : extra first = 0 := by simp [extra, fd, fe, ff]
    exact ⟨by simp [none], by rw [denotes, if_pos none, Except.ok.inj decoded]⟩

theorem denotes_lt {firstByte : UInt8} {rest : List UInt8} (length : rest.length = extra firstByte) :
    denotes firstByte rest < if extra firstByte = 0 then 253 else 256 ^ extra firstByte := by
  rw [denotes]
  split_ifs with none
  · have named (byte : UInt8) (other : firstByte ≠ byte) : firstByte.toNat ≠ byte.toNat :=
      fun same => other (UInt8.toNat_inj.mp same)
    have range := firstByte.toNat_lt
    unfold extra at none
    split_ifs at none with fd fe ff
    have := named _ fd
    have := named _ fe
    have := named _ ff
    simp at *
    omega
  · rw [← length]
    exact LittleEndian.decode_lt rest

theorem new_shortest {value : Nat} {c : CompactSizeUint} (decoded : c.decodedValue = .ok value) :
    (new value).bytes.length ≤ c.bytes.length := by
  obtain ⟨firstByte, rest, shape, enough, rfl⟩ := decoded_value_shape decoded
  have announced : (rest.take (extra firstByte)).length = extra firstByte := List.length_take_of_le enough
  have bound := denotes_lt announced
  have whole : c.bytes.length = rest.length + 1 := by rw [shape, List.length_cons]
  generalize denotes firstByte (rest.take (extra firstByte)) = value at bound ⊢
  have widths : extra firstByte = 0 ∨ extra firstByte = 2 ∨ extra firstByte = 4 ∨ extra firstByte = 8 := by
    unfold extra
    split_ifs <;> simp
  rcases widths with width | width | width | width <;> rw [width] at bound enough <;> norm_num at bound <;>
    rw [new_length (by omega)] <;> split_ifs <;> omega

/-- An offset past the end is never read from. -/
theorem unmarshalling_inside (accepted : unmarshalling input start = .ok (c, stop)) : start ≤ input.length := by
  obtain ⟨_, _, guarded, _⟩ := bind_eq_ok.mp accepted
  by_contra past
  rw [require, if_pos (by omega)] at guarded
  cases guarded

/-- A value is written in the fewest bytes that it can be read from, and it is read back from among any
bytes; and whatever is read is kept as it was received and stands for a value. -/
theorem compact_size_codec :
    (∀ value < 2 ^ 64,
      (new value).bytes.length =
        (if value < 253 then 1 else if value < 2 ^ 16 then 3 else if value < 2 ^ 32 then 5 else 9) ∧
      (∀ c : CompactSizeUint, c.decodedValue = .ok value → (new value).bytes.length ≤ c.bytes.length) ∧
      (new value).decodedValue = .ok value ∧
      ∀ front back, unmarshalling (front ++ (new value).marshalling ++ back) front.length =
        .ok (new value, front.length + (new value).bytes.length)) ∧
    ∀ input start c stop, unmarshalling input start = .ok (c, stop) →
      start ≤ stop ∧ stop ≤ input.length ∧ c.bytes = slice input start stop ∧
        ∃ value, c.decodedValue = .ok value := by
  constructor
  · intro value fits
    obtain ⟨valid, decoded⟩ := new_counts fits
    exact ⟨new_length fits, fun _ => new_shortest, decoded, unmarshalling_reads valid⟩
  · intro input start c stop accepted
    obtain ⟨forward, bound, word, valid⟩ :=
      unmarshalling_spans input start c stop (unmarshalling_inside accepted) accepted
    obtain ⟨value, decoded, _⟩ := decoded_value_structural valid
    exact ⟨forward, bound, word.symm, value, decoded⟩

/-- The least value of five bytes, among others, and a one in three bytes behind one that is skipped. -/
theorem compact_size_codec_boundary :
    let nine : CompactSizeUint := ⟨[0xff, 0, 0, 1, 0, 0, 0, 0, 0]⟩
    let one : CompactSizeUint := ⟨[0xfd, 1, 0]⟩
    ((new 65536).bytes.length ≤ nine.bytes.length ∧
      unmarshalling ([7] ++ (new 65536).marshalling ++ [8]) 1 = .ok (new 65536, 6)) ∧
    1 ≤ 4 ∧ 4 ≤ [7, 0xfd, 1, 0].length ∧ one.bytes = slice [7, 0xfd, 1, 0] 1 4 ∧
      ∃ value, one.decodedValue = .ok value := by
  intro nine one
  obtain ⟨_, shortest, _, read⟩ := compact_size_codec.1 65536 (by decide)
  exact ⟨⟨shortest nine (by decide), read [7] [8]⟩,
    compact_size_codec.2 [7, 0xfd, 1, 0] 1 one 4 (by decide)⟩

end CompactSizeUint

end BitcoinNode
