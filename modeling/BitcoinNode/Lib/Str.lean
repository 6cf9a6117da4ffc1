import BitcoinNode.Lib.Bytes
import BitcoinNode.Lib.Outcome

/-! UTF-8 strings indexed by bytes, numbers in base 16, and arrays filled by a loop. -/
namespace BitcoinNode

namespace Str

/-- `s.len()` counts bytes, not characters. -/
def len (s : List Char) : Nat := (s.map Char.utf8Size).sum

/-- The characters before and after a byte offset; none if it falls inside a character. -/
def splitAt : List Char → (offset : Nat) → Option (List Char × List Char)
  | s, 0 => some ([], s)
  | [], _ + 1 => none
  | c :: s, offset + 1 =>
    if offset + 1 < c.utf8Size then none
    else (splitAt s (offset + 1 - c.utf8Size)).map fun (front, back) => (c :: front, back)

/-- `&s[start..stop]`, which panics unless both offsets are character boundaries. -/
def slice (s : List Char) (start stop : Nat) : Outcome ε (List Char) :=
  match splitAt s start with
  | none => Outcome.panic
  | some (_, back) =>
    match splitAt back (stop - start) with
    | none => Outcome.panic
    | some (word, _) => .ok word

def Ascii (s : List Char) : Prop := ∀ c ∈ s, c.utf8Size = 1

theorem len_of_ascii {s : List Char} (ascii : Ascii s) : len s = s.length := by
  have ones : s.map Char.utf8Size = List.replicate s.length 1 :=
    List.eq_replicate_of_mem (by simpa [Ascii] using ascii) |>.trans (by simp)
  simp [len, ones]

theorem len_append (front back : List Char) : len (front ++ back) = len front + len back := by
  simp [len]

theorem len_pos {s : List Char} (some : s ≠ []) : 0 < len s := by
  obtain ⟨c, rest, rfl⟩ := List.exists_cons_of_ne_nil some
  have := Char.utf8Size_pos c
  simp only [len, List.map_cons, List.sum_cons]
  omega

theorem split_at_append {front : List Char} (ascii : Ascii front) (back : List Char) {offset : Nat}
    (inside : offset ≤ front.length) :
    splitAt (front ++ back) offset = some (front.take offset, front.drop offset ++ back) := by
  induction offset generalizing front with
  | zero => simp [splitAt]
  | succ offset ih =>
    cases front with
    | nil => simp at inside
    | cons c front =>
      have one := ascii c (by simp)
      have tail : Ascii front := fun d member => ascii d (List.mem_cons_of_mem _ member)
      have rest := ih tail (by simpa using inside)
      simp [splitAt, one, rest]

theorem slice_front {front : List Char} (ascii : Ascii front) (back : List Char) {start stop : Nat}
    (order : start ≤ stop) (inside : stop ≤ front.length) :
    (slice (front ++ back) start stop : Outcome ε (List Char)) = .ok ((front.drop start).take (stop - start)) := by
  have rest : Ascii (front.drop start) := fun c member => ascii c (List.mem_of_mem_drop member)
  rw [slice, split_at_append ascii back (by omega)]
  simp only
  rw [split_at_append rest back (by simp; omega)]

theorem slice_behind {front : List Char} (ascii : Ascii front) (back : List Char) (amount : Nat) :
    (slice (front ++ back) front.length (front.length + amount) : Outcome ε (List Char)) = slice back 0 amount := by
  rw [slice, split_at_append ascii back (Nat.le_refl _), List.drop_length, List.nil_append, Nat.add_sub_cancel_left,
    slice, splitAt]
  rfl

theorem slice_of_ascii {s : List Char} (ascii : Ascii s) {start stop : Nat} (order : start ≤ stop)
    (inside : stop ≤ s.length) :
    (slice s start stop : Outcome ε (List Char)) = .ok ((s.drop start).take (stop - start)) := by
  rw [← slice_front ascii [] order inside, List.append_nil]

section Two

variable {c d : Char} {rest : List Char}

theorem slice_two_wide (wide : 3 ≤ c.utf8Size) (rest : List Char) :
    (slice (c :: rest) 0 2 : Outcome ε (List Char)) = Outcome.panic := by
  have inside : 1 + 1 < c.utf8Size := wide
  simp [slice, splitAt, inside]

theorem slice_two_single (two : c.utf8Size = 2) (rest : List Char) :
    (slice (c :: rest) 0 2 : Outcome ε (List Char)) = .ok [c] := by
  simp [slice, splitAt, two]

theorem slice_two_pair (one : c.utf8Size = 1) (one' : d.utf8Size = 1) (rest : List Char) :
    (slice (c :: d :: rest) 0 2 : Outcome ε (List Char)) = .ok [c, d] := by
  simp [slice, splitAt, one, one']

theorem slice_two_straddle (one : c.utf8Size = 1) (more : d.utf8Size ≠ 1) (rest : List Char) :
    (slice (c :: d :: rest) 0 2 : Outcome ε (List Char)) = Outcome.panic := by
  have positive := Char.utf8Size_pos d
  have inside : 0 + 1 < d.utf8Size := by omega
  simp [slice, splitAt, one, inside]

end Two

/-- `char::to_digit(16)` -/
def toDigit (c : Char) : Option Nat :=
  if '0' ≤ c ∧ c ≤ '9' then some (c.toNat - '0'.toNat)
  else if 'a' ≤ c ∧ c ≤ 'f' then some (c.toNat - 'a'.toNat + 10)
  else if 'A' ≤ c ∧ c ≤ 'F' then some (c.toNat - 'A'.toNat + 10)
  else none

def accumulate (result : Nat) (c : Char) : Outcome String Nat :=
  match toDigit c with
  | none => Outcome.fail "invalid digit found in string"
  | some digit =>
    if 255 < result * 16 + digit then
      Outcome.fail "number too large to fit in target type"
    else .ok (result * 16 + digit)

def u8FromDigits (digits : List Char) : Outcome String UInt8 := do
  let value ← digits.foldlM accumulate 0
  return UInt8.ofNat value

/-- `u8::from_str_radix(src, 16)`: a leading plus is skipped, a sign alone is not a digit. -/
def u8FromStrRadix : (src : List Char) → Outcome String UInt8
  | [] => Outcome.fail "cannot parse integer from empty string"
  | ['+'] => Outcome.fail "invalid digit found in string"
  | '+' :: digits => u8FromDigits digits
  | digits => u8FromDigits digits

/-- `format!("{:02x}", byte)` -/
def hexByte (byte : UInt8) : List Char :=
  [Nat.digitChar (byte.toNat / 16), Nat.digitChar (byte.toNat % 16)]

theorem digitChar_cases (P : Char → Nat → Prop)
    (each : ∀ digit : Fin 16, P (Nat.digitChar digit.val) digit.val) {digit : Nat}
    (small : digit < 16) : P (Nat.digitChar digit) digit :=
  each ⟨digit, small⟩

theorem hex_byte_ascii (byte : UInt8) : Ascii (hexByte byte) := by
  have high : byte.toNat / 16 < 16 := by have := byte.toNat_lt; omega
  have low : byte.toNat % 16 < 16 := Nat.mod_lt _ (by decide)
  intro c member
  rcases List.mem_pair.mp member with rfl | rfl
  · exact digitChar_cases (fun c _ => c.utf8Size = 1) (by decide) high
  · exact digitChar_cases (fun c _ => c.utf8Size = 1) (by decide) low

theorem u8_from_str_radix_hex_byte (byte : UInt8) : u8FromStrRadix (hexByte byte) = .ok byte := by
  have range := byte.toNat_lt
  have digit {d : Nat} (small : d < 16) : toDigit (Nat.digitChar d) = some d :=
    digitChar_cases (fun c d => toDigit c = some d) (by decide) small
  have unsigned : Nat.digitChar (byte.toNat / 16) ≠ '+' :=
    digitChar_cases (fun c _ => c ≠ '+') (by decide) (by omega)
  have total : byte.toNat / 16 * 16 + byte.toNat % 16 = byte.toNat := by omega
  have value : u8FromDigits (hexByte byte) = .ok byte := by
    simp [u8FromDigits, hexByte, accumulate, digit (show byte.toNat / 16 < 16 by omega),
      digit (show byte.toNat % 16 < 16 by omega), total, show ¬255 < byte.toNat / 16 by omega,
      show ¬255 < byte.toNat by omega]
  rw [← value, hexByte, u8FromStrRadix]
  · simp
  · simp
  · intro digits signed
    exact unsigned (List.cons.inj signed).1

end Str

/-- `for i in 0..n { result[i] = f(i)?; }` -/
def U8Array.tabulate : (n : Nat) → (Nat → Outcome ε UInt8) → Outcome ε (U8Array n)
  | 0, _ => .ok ⟨[], rfl⟩
  | n + 1, f => do
    let front ← tabulate n f
    let byte ← f n
    return ⟨front.val ++ [byte], by simp⟩

theorem U8Array.tabulate_eq {n : Nat} {f : Nat → Outcome ε UInt8} (bytes : List UInt8)
    (enough : n ≤ bytes.length) (each : ∀ i (hi : i < n), f i = .ok bytes[i]) :
    tabulate n f = .ok ⟨bytes.take n, List.length_take_of_le enough⟩ := by
  induction n with
  | zero => simp [tabulate]
  | succ n ih =>
    rw [tabulate, ih (by omega) fun i hi => each i (by omega), Outcome.bind_ok, each n (by omega)]
    have last : bytes.take n ++ [bytes[n]] = bytes.take (n + 1) := by
      rw [List.take_add_one, List.getElem?_eq_getElem (by omega)]
      rfl
    exact congrArg Except.ok (Subtype.ext last)

theorem U8Array.tabulate_congr {n : Nat} {f g : Nat → Outcome ε UInt8} (each : ∀ i < n, f i = g i) :
    tabulate n f = tabulate n g := by
  induction n with
  | zero => rfl
  | succ n ih => rw [tabulate, tabulate, ih fun i hi => each i (by omega), each n (by omega)]

theorem U8Array.tabulate_ok {n : Nat} {f : Nat → Outcome ε UInt8} (each : ∀ i < n, ∃ byte, f i = .ok byte) :
    ∃ bytes, tabulate n f = .ok bytes := by
  induction n with
  | zero => exact ⟨_, rfl⟩
  | succ n ih =>
    obtain ⟨front, filled⟩ := ih fun i hi => each i (by omega)
    obtain ⟨byte, last⟩ := each n (by omega)
    exact ⟨_, by rw [tabulate, filled, Outcome.bind_ok, last]; rfl⟩

theorem U8Array.tabulate_error {n i : Nat} {f : Nat → Outcome ε UInt8} {e : Failure ε} (inside : i < n)
    (before : ∀ j < i, ∃ byte, f j = .ok byte) (stops : f i = .error e) : tabulate n f = .error e := by
  induction n with
  | zero => exact absurd inside (Nat.not_lt_zero i)
  | succ n ih =>
    rw [tabulate]
    rcases Nat.lt_succ_iff_lt_or_eq.mp inside with earlier | rfl
    · rw [ih earlier]
      rfl
    · obtain ⟨front, filled⟩ := tabulate_ok before
      rw [filled, Outcome.bind_ok, stops]
      rfl

end BitcoinNode
