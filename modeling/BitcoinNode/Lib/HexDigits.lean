import BitcoinNode.Lib.Str
import Mathlib.Data.List.Induction

/-! Hexadecimal digits, and texts that are read as bytes in pairs of characters. -/
namespace BitcoinNode.Str

/-- `char::is_ascii_hexdigit` -/
def isAsciiHexdigit (c : Char) : Prop :=
  ('0' ≤ c ∧ c ≤ '9') ∨ ('a' ≤ c ∧ c ≤ 'f') ∨ ('A' ≤ c ∧ c ≤ 'F')

instance : DecidablePred isAsciiHexdigit := fun c =>
  inferInstanceAs (Decidable (('0' ≤ c ∧ c ≤ '9') ∨ ('a' ≤ c ∧ c ≤ 'f') ∨ ('A' ≤ c ∧ c ≤ 'F')))

theorem to_digit_isSome_iff {c : Char} : (toDigit c).isSome ↔ isAsciiHexdigit c := by
  unfold toDigit isAsciiHexdigit
  split_ifs with decimal lower upper <;> simp [*]

theorem to_digit_lt {c : Char} {digit : Nat} (read : toDigit c = some digit) : digit < 16 := by
  have toNat (d : Char) : d.toNat = d.val.toNat := rfl
  unfold toDigit at read
  simp only [Char.le_def, UInt32.le_iff_toNat_le, toNat] at read
  split_ifs at read with decimal lower upper <;> obtain rfl := Option.some.inj read
  · have : '0'.val.toNat = 48 ∧ '9'.val.toNat = 57 := by decide
    omega
  · have : 'a'.val.toNat = 97 ∧ 'f'.val.toNat = 102 := by decide
    omega
  · have : 'A'.val.toNat = 65 ∧ 'F'.val.toNat = 70 := by decide
    omega

theorem hexdigit_utf8Size {c : Char} (digit : isAsciiHexdigit c) : c.utf8Size = 1 := by
  have below (last : Char) (ascii : last.val ≤ 127) (bound : c ≤ last) : c.utf8Size = 1 :=
    Char.utf8Size_eq_one_iff.mpr (Nat.le_trans bound ascii)
  rcases digit with ⟨_, bound⟩ | ⟨_, bound⟩ | ⟨_, bound⟩
  · exact below '9' (by decide) bound
  · exact below 'f' (by decide) bound
  · exact below 'F' (by decide) bound

/-- Two characters that are read as a byte. The first may be a plus, which is skipped. -/
structure BytePair (c d : Char) : Prop where
  first : c = '+' ∨ isAsciiHexdigit c
  second : isAsciiHexdigit d

theorem accumulate_digit {c : Char} (digit : isAsciiHexdigit c) :
    ∃ value < 16, ∀ result < 16, accumulate result c = .ok (result * 16 + value) := by
  obtain ⟨value, read⟩ := Option.isSome_iff_exists.mp (to_digit_isSome_iff.mpr digit)
  have small := to_digit_lt read
  refine ⟨value, small, fun result bound => ?_⟩
  rw [accumulate, read]
  exact if_neg (by omega)

theorem accumulate_other {c : Char} (other : ¬isAsciiHexdigit c) (result : Nat) :
    accumulate result c = Outcome.fail "invalid digit found in string" := by
  have none : toDigit c = none := by
    rwa [← to_digit_isSome_iff, Bool.not_eq_true, Option.isSome_eq_false_iff, Option.isNone_iff_eq_none] at other
  rw [accumulate, none]

theorem u8_from_str_radix_unsigned {c : Char} (unsigned : c ≠ '+') (rest : List Char) :
    u8FromStrRadix (c :: rest) = u8FromDigits (c :: rest) := by
  rw [u8FromStrRadix]
  · simp
  · simp [unsigned]
  · exact fun digits same => unsigned (List.cons.inj same).1

theorem u8_from_str_radix_pair {c d : Char} (pair : BytePair c d) :
    ∃ byte, u8FromStrRadix [c, d] = .ok byte := by
  obtain ⟨value, _, low⟩ := accumulate_digit pair.second
  by_cases plus : c = '+'
  · subst plus
    exact ⟨_, by simp [u8FromStrRadix, u8FromDigits, low 0 (by decide)]; rfl⟩
  · obtain ⟨value', small, high⟩ := accumulate_digit (pair.first.resolve_left plus)
    exact ⟨_, by
      rw [u8_from_str_radix_unsigned plus, u8FromDigits]
      simp [high 0 (by decide), low value' small]
      rfl⟩

theorem u8_from_str_radix_other {c d : Char} (other : ¬BytePair c d) :
    u8FromStrRadix [c, d] = Outcome.fail "invalid digit found in string" := by
  by_cases plus : c = '+'
  · subst plus
    have tail : ¬isAsciiHexdigit d := fun digit => other ⟨.inl rfl, digit⟩
    simp [u8FromStrRadix, u8FromDigits, accumulate_other tail]
    rfl
  rw [u8_from_str_radix_unsigned plus, u8FromDigits, List.foldlM_cons]
  by_cases first : isAsciiHexdigit c
  · obtain ⟨value, _, high⟩ := accumulate_digit first
    have tail : ¬isAsciiHexdigit d := fun digit => other ⟨.inr first, digit⟩
    simp [high 0 (by decide), accumulate_other tail]
    rfl
  · rw [accumulate_other first]
    rfl

theorem u8_from_str_radix_wide {c : Char} (wide : c.utf8Size ≠ 1) :
    u8FromStrRadix [c] = Outcome.fail "invalid digit found in string" := by
  have unsigned : c ≠ '+' := by
    rintro rfl
    exact wide (by decide)
  have other : ¬isAsciiHexdigit c := fun digit => wide (hexdigit_utf8Size digit)
  rw [u8_from_str_radix_unsigned unsigned, u8FromDigits, List.foldlM_cons, accumulate_other other]
  rfl

/-- Characters in pairs that are read as bytes. -/
inductive BytePairs : List Char → Prop where
  | nil : BytePairs []
  | cons {c d : Char} {rest : List Char} (pair : BytePair c d) (pairs : BytePairs rest) : BytePairs (c :: d :: rest)

theorem exists_byte_pairs (s : List Char) : ∃ front back, s = front ++ back ∧ BytePairs front ∧
    ∀ c d rest, back = c :: d :: rest → ¬BytePair c d := by
  induction s using List.twoStepInduction with
  | nil => exact ⟨[], [], rfl, .nil, by simp⟩
  | singleton c => exact ⟨[], [c], rfl, .nil, by simp⟩
  | cons_cons c d rest ih =>
    by_cases pair : BytePair c d
    · obtain ⟨front, back, rfl, pairs, stops⟩ := ih
      exact ⟨c :: d :: front, back, rfl, .cons pair pairs, stops⟩
    · refine ⟨[], c :: d :: rest, rfl, .nil, ?_⟩
      rintro _ _ _ same
      cases same
      exact pair

namespace BytePairs

variable {front : List Char}

theorem mem (pairs : BytePairs front) {c : Char} (member : c ∈ front) : c = '+' ∨ isAsciiHexdigit c := by
  induction pairs with
  | nil => simp at member
  | cons pair _ ih =>
    rcases List.mem_cons.mp member with rfl | member
    · exact pair.first
    rcases List.mem_cons.mp member with rfl | member
    · exact .inr pair.second
    · exact ih member

theorem ascii (pairs : BytePairs front) : Ascii front := by
  intro c member
  rcases pairs.mem member with rfl | digit
  · decide
  · exact hexdigit_utf8Size digit

theorem even (pairs : BytePairs front) : ∃ amount, front.length = amount * 2 := by
  induction pairs with
  | nil => exact ⟨0, rfl⟩
  | cons _ _ ih =>
    obtain ⟨amount, length⟩ := ih
    exact ⟨amount + 1, by simp only [List.length_cons]; omega⟩

theorem reads (pairs : BytePairs front) {i : Nat} (inside : i * 2 < front.length) :
    ∃ byte, u8FromStrRadix ((front.drop (i * 2)).take 2) = .ok byte := by
  induction pairs generalizing i with
  | nil => simp at inside
  | cons pair pairs ih =>
    cases i with
    | zero => exact u8_from_str_radix_pair pair
    | succ i =>
      have next : (i + 1) * 2 = i * 2 + 2 := by omega
      rw [next] at inside ⊢
      exact ih (by simpa using inside)

end BytePairs

theorem hex_byte_pairs (bytes : List UInt8) : BytePairs (bytes.flatMap hexByte) := by
  have digit {d : Nat} (small : d < 16) : isAsciiHexdigit (Nat.digitChar d) :=
    digitChar_cases (fun c _ => isAsciiHexdigit c) (by decide) small
  induction bytes with
  | nil => exact .nil
  | cons byte bytes ih =>
    have range := byte.toNat_lt
    exact .cons ⟨.inr (digit (by omega)), digit (Nat.mod_lt _ (by decide))⟩ ih

end BitcoinNode.Str
