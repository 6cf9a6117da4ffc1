import BitcoinNode.Lib.Base58
import BitcoinNode.Lib.Str
import Mathlib.Data.List.TakeWhile
import Mathlib.Data.Nat.Digits.Lemmas
import Mathlib.Tactic.Ring

/-! Reading Base58 back. Both directions are a change of base, with leading zeros kept apart. -/
namespace BitcoinNode.Base58

def digitOf (c : Char) : Option Nat := alphabet.findIdx? (· == c)

/-- Base-256 digits, least significant first. -/
def octets : (fuel value : Nat) → List UInt8
  | 0, _ => []
  | fuel + 1, value => if value = 0 then [] else UInt8.ofNat (value % 256) :: octets fuel (value / 256)

/-- There are no more bytes than digits. -/
def decode (s : String) : Option (List UInt8) := do
  let ds ← s.toList.mapM digitOf
  let zeros := (ds.takeWhile (· == 0)).map fun _ => 0
  return zeros ++ (octets ds.length (ds.foldl (fun v d => 58 * v + d) 0)).reverse

theorem digits_eq {fuel value : Nat} (enough : value < 58 ^ fuel) : digits fuel value = Nat.digits 58 value := by
  induction fuel generalizing value with
  | zero =>
    obtain rfl : value = 0 := by simpa using enough
    rfl
  | succ fuel ih =>
    rw [digits]
    split_ifs with zero
    · rw [zero, Nat.digits_zero]
    · rw [Nat.digits_def' (by decide) (by omega), ih]
      rw [pow_succ] at enough
      omega

theorem octets_eq {fuel value : Nat} (enough : value < 256 ^ fuel) :
    octets fuel value = (Nat.digits 256 value).map UInt8.ofNat := by
  induction fuel generalizing value with
  | zero =>
    obtain rfl : value = 0 := by simpa using enough
    rfl
  | succ fuel ih =>
    rw [octets]
    split_ifs with zero
    · rw [zero, Nat.digits_zero, List.map_nil]
    · rw [Nat.digits_def' (by decide) (by omega), ih, List.map_cons]
      rw [pow_succ] at enough
      omega

theorem foldl_eq_ofDigits (base : Nat) (ds : List Nat) :
    ds.foldl (fun v d => base * v + d) 0 = Nat.ofDigits base ds.reverse := by
  induction ds using List.reverseRecOn with
  | nil => rfl
  | append_singleton ds d ih =>
    rw [List.foldl_append, ih, List.reverse_append, List.reverse_singleton, List.singleton_append,
      Nat.ofDigits_cons, List.foldl_cons, List.foldl_nil]
    omega

theorem value_eq (bytes : List UInt8) : value bytes = Nat.ofDigits 256 (bytes.map UInt8.toNat).reverse := by
  rw [value, ← foldl_eq_ofDigits, List.foldl_map]

theorem value_cons (byte : UInt8) (rest : List UInt8) :
    value (byte :: rest) = byte.toNat * 256 ^ rest.length + value rest := by
  rw [value_eq, value_eq, List.map_cons, List.reverse_cons, Nat.ofDigits_append, Nat.ofDigits_singleton,
    List.length_reverse, List.length_map]
  ring

theorem value_lt (bytes : List UInt8) : value bytes < 256 ^ bytes.length := by
  have bound := Nat.ofDigits_lt_base_pow_length (b := 256) (l := (bytes.map UInt8.toNat).reverse)
    (by decide) (by simpa using fun byte _ => UInt8.toNat_lt byte)
  simpa [value_eq] using bound

theorem encode_toList (bytes : List UInt8) : (encode bytes).toList =
    (List.replicate (bytes.takeWhile (· == 0)).length 0 ++ (Nat.digits 58 (value bytes)).reverse).map
      fun d => alphabet.getD d '1' := by
  have enough : value bytes < 58 ^ (2 * bytes.length) := by
    apply Nat.lt_of_lt_of_le (value_lt bytes)
    rw [pow_mul]
    exact Nat.pow_le_pow_left (by decide) _
  rw [encode, digits_eq enough, String.toList_ofList, List.map_append, List.map_replicate, List.map_const']
  rfl

theorem digit_of_alphabet {d : Nat} (small : d < 58) : digitOf (alphabet.getD d '1') = some d := by
  have all : ∀ d : Fin 58, digitOf (alphabet.getD d.val '1') = some d.val := by decide +kernel
  exact all ⟨d, small⟩

theorem mapM_digit_of {ds : List Nat} (small : ∀ d ∈ ds, d < 58) :
    (ds.map fun d => alphabet.getD d '1').mapM digitOf = some ds := by
  induction ds with
  | nil => rfl
  | cons d rest ih =>
    obtain ⟨first, others⟩ := List.forall_mem_cons.mp small
    rw [List.map_cons, List.mapM_cons, digit_of_alphabet first, ih others]
    rfl

theorem small_digits {z v : Nat} : ∀ d ∈ List.replicate z 0 ++ (Nat.digits 58 v).reverse, d < 58 := by
  intro d member
  rcases List.mem_append.mp member with zero | digit
  · rw [List.eq_of_mem_replicate zero]
    decide
  · exact Nat.digits_lt_base (by decide) (List.mem_reverse.mp digit)

theorem takeWhile_zeros {base z v : Nat} :
    (List.replicate z 0 ++ (Nat.digits base v).reverse).takeWhile (· == 0) = List.replicate z 0 := by
  rw [List.takeWhile_append_of_pos (by simp [List.mem_replicate])]
  by_cases zero : v = 0
  · simp [zero]
  · have nonempty : Nat.digits base v ≠ [] := Nat.digits_ne_nil_iff_ne_zero.mpr zero
    have last := Nat.getLast_digit_ne_zero base zero
    obtain ⟨front, d, shape⟩ : ∃ front d, Nat.digits base v = front ++ [d] :=
      ⟨_, _, (List.dropLast_append_getLast nonempty).symm⟩
    simp only [shape, List.getLast_append_singleton] at last
    simp [shape, last]

theorem takeWhile_eq_zeros (bytes : List UInt8) :
    bytes.takeWhile (· == 0) = List.replicate (bytes.takeWhile (· == 0)).length 0 :=
  List.eq_replicate_of_mem fun byte member => by simpa using List.mem_takeWhile_imp member

theorem octets_value {bytes : List UInt8} (firstNonzero : bytes.head? ≠ some 0) :
    ((Nat.digits 256 (value bytes)).map UInt8.ofNat).reverse = bytes := by
  have nonzero (nonempty : (bytes.map UInt8.toNat).reverse ≠ []) :
      (bytes.map UInt8.toNat).reverse.getLast nonempty ≠ 0 := by
    rcases bytes with _ | ⟨first, rest⟩
    · exact absurd rfl nonempty
    · have different : first ≠ 0 := fun zero => firstNonzero (congrArg some zero)
      simpa [← UInt8.toNat_inj] using different
  rw [value_eq, Nat.digits_ofDigits 256 (by decide) _
    (by simpa using fun byte _ => UInt8.toNat_lt byte) nonzero, List.map_reverse, List.reverse_reverse,
    List.map_map]
  exact List.map_id'' (fun _ => UInt8.ofNat_toNat) bytes

theorem value_dropWhile (bytes : List UInt8) : value (bytes.dropWhile (· == 0)) = value bytes := by
  conv_rhs => rw [← List.takeWhile_append_dropWhile (p := (· == 0)) (l := bytes), takeWhile_eq_zeros]
  rw [value_eq, value_eq]
  simp

theorem digits_value (bytes : List UInt8) :
    ((Nat.digits 256 (value bytes)).map UInt8.ofNat).reverse = bytes.dropWhile (· == 0) := by
  rw [← value_dropWhile]
  refine octets_value fun first => ?_
  have nonzero := List.head?_dropWhile_not (· == 0) bytes
  simp [first] at nonzero

theorem decode_encode (bytes : List UInt8) : decode (encode bytes) = some bytes := by
  have enough : value bytes <
      256 ^ ((bytes.takeWhile (· == 0)).length + (Nat.digits 58 (value bytes)).length) := by
    apply Nat.lt_of_lt_of_le (Nat.lt_base_pow_length_digits (b := 58) (by decide))
    apply (Nat.pow_le_pow_left (by decide : 58 ≤ 256) _).trans
    exact Nat.pow_le_pow_right (by decide) (Nat.le_add_left _ _)
  have total : Nat.ofDigits 58 (List.replicate (bytes.takeWhile (· == 0)).length 0 ++
      (Nat.digits 58 (value bytes)).reverse).reverse = value bytes := by
    simp [Nat.ofDigits_digits]
  rw [decode, encode_toList, mapM_digit_of small_digits]
  simp only [Option.bind_eq_bind, Option.bind_some, Option.pure_def, takeWhile_zeros, foldl_eq_ofDigits,
    total, List.map_replicate, ← takeWhile_eq_zeros]
  rw [octets_eq (by simpa using enough), digits_value, List.takeWhile_append_dropWhile]

theorem alphabet_of_digit {c : Char} {d : Nat} (found : digitOf c = some d) :
    alphabet.getD d '1' = c ∧ d < 58 := by
  obtain ⟨small, same, _⟩ := List.findIdx?_eq_some_iff_getElem.mp found
  refine ⟨?_, small⟩
  rw [List.getD_eq_getElem?_getD, List.getElem?_eq_getElem small]
  exact beq_iff_eq.mp same

theorem map_of_mapM_digit_of {cs : List Char} {ds : List Nat} (read : cs.mapM digitOf = some ds) :
    (ds.map fun d => alphabet.getD d '1') = cs ∧ ∀ d ∈ ds, d < 58 := by
  induction cs generalizing ds with
  | nil =>
    cases read
    exact ⟨rfl, by simp⟩
  | cons c rest ih =>
    rw [List.mapM_cons] at read
    obtain ⟨d, first, read⟩ := Option.bind_eq_some_iff.mp read
    obtain ⟨others, later, same⟩ := Option.bind_eq_some_iff.mp read
    cases same
    obtain ⟨rfl, small⟩ := alphabet_of_digit first
    obtain ⟨texts, each⟩ := ih later
    exact ⟨congrArg _ texts, List.forall_mem_cons.mpr ⟨small, each⟩⟩

theorem replicate_append_digits {ds : List Nat} (small : ∀ d ∈ ds, d < 58) :
    List.replicate (ds.takeWhile (· == 0)).length 0 ++
      (Nat.digits 58 (Nat.ofDigits 58 ds.reverse)).reverse = ds := by
  have zeros : ds.takeWhile (· == 0) = List.replicate (ds.takeWhile (· == 0)).length 0 :=
    List.eq_replicate_of_mem fun d member => by simpa using List.mem_takeWhile_imp member
  have split := List.takeWhile_append_dropWhile (p := (· == 0)) (l := ds)
  have total : Nat.ofDigits 58 ds.reverse = Nat.ofDigits 58 (ds.dropWhile (· == 0)).reverse := by
    conv_lhs => rw [← split, zeros]
    simp
  have nonzero (nonempty : (ds.dropWhile (· == 0)).reverse ≠ []) :
      (ds.dropWhile (· == 0)).reverse.getLast nonempty ≠ 0 := by
    rw [List.getLast_reverse]
    exact ne_of_beq_false (List.head_dropWhile_not (· == 0) (by simpa using nonempty))
  have below : ∀ d ∈ (ds.dropWhile (· == 0)).reverse, d < 58 := fun d member =>
    small d ((List.dropWhile_suffix _).subset (List.mem_reverse.mp member))
  rw [total, Nat.digits_ofDigits 58 (by decide) _ below nonzero, List.reverse_reverse, ← zeros, split]

theorem encode_decode {s : String} {bytes : List UInt8} (read : decode s = some bytes) : encode bytes = s := by
  obtain ⟨ds, digitsRead, made⟩ := Option.bind_eq_some_iff.mp read
  obtain ⟨text, small⟩ := map_of_mapM_digit_of digitsRead
  rw [foldl_eq_ofDigits] at made
  have enough : Nat.ofDigits 58 ds.reverse < 256 ^ ds.length := by
    apply Nat.lt_of_lt_of_le (Nat.ofDigits_lt_base_pow_length (by decide) (by simpa using small))
    rw [List.length_reverse]
    exact Nat.pow_le_pow_left (by decide) _
  have octetsNat : bytes.map UInt8.toNat = List.replicate (ds.takeWhile (· == 0)).length 0 ++
      (Nat.digits 256 (Nat.ofDigits 58 ds.reverse)).reverse := by
    cases made
    have octetsBack : ((Nat.digits 256 (Nat.ofDigits 58 ds.reverse)).map UInt8.ofNat).map UInt8.toNat =
        Nat.digits 256 (Nat.ofDigits 58 ds.reverse) := by
      rw [List.map_map, List.map_congr_left (g := id) (fun d digit => ?_), List.map_id]
      exact UInt8.toNat_ofNat_of_lt' (Nat.digits_lt_base (by decide) digit)
    rw [octets_eq enough, List.map_append, List.map_reverse, octetsBack, List.map_const',
      List.map_replicate]
    rfl
  have zeros : (bytes.takeWhile (· == 0)).length = (ds.takeWhile (· == 0)).length := by
    have heads := congrArg (fun ns => (ns.takeWhile (· == 0)).length) octetsNat
    have same : (fun n : Nat => n == 0) ∘ UInt8.toNat = (· == 0) := by
      funext byte
      simp [← UInt8.toNat_inj]
    simpa only [List.takeWhile_map, same, List.length_map, takeWhile_zeros, List.length_replicate] using heads
  have total : value bytes = Nat.ofDigits 58 ds.reverse := by
    rw [value_eq, octetsNat]
    simp [Nat.ofDigits_digits]
  apply String.toList_inj.mp
  rw [encode_toList, zeros, total, replicate_append_digits small, text]

theorem decode_eq_some_iff {s : String} {bytes : List UInt8} : decode s = some bytes ↔ s = encode bytes :=
  ⟨fun read => (encode_decode read).symm, fun same => same ▸ decode_encode bytes⟩

theorem encode_injective : Function.Injective encode := by
  intro bytes bytes' same
  have read := decode_encode bytes
  rw [same, decode_encode] at read
  exact (Option.some.inj read).symm

theorem encode_ascii (bytes : List UInt8) : Str.Ascii (encode bytes).toList := by
  intro c member
  rw [encode_toList] at member
  obtain ⟨d, digit, rfl⟩ := List.mem_map.mp member
  have all : ∀ d : Fin 58, (alphabet.getD d.val '1').utf8Size = 1 := by decide +kernel
  exact all ⟨d, small_digits d digit⟩

theorem len_encode {first : UInt8} {rest : List UInt8} {k : Nat} (nonzero : first ≠ 0)
    (low : 58 ^ k ≤ value (first :: rest)) (high : value (first :: rest) < 58 ^ (k + 1)) :
    Str.len (encode (first :: rest)).toList = k + 1 := by
  have length : (Nat.digits 58 (value (first :: rest))).length = k + 1 := by
    apply Nat.le_antisymm ((Nat.digits_length_le_iff (by decide) _).mpr high)
    exact (Nat.lt_digits_length_iff (by decide) _).mpr low
  rw [Str.len_of_ascii (encode_ascii _), encode_toList]
  simp [nonzero, length]

theorem len_encode_version {version : UInt8} {rest : List UInt8} {n k : Nat} (length : rest.length = n)
    (nonzero : version ≠ 0) (low : 58 ^ k ≤ version.toNat * 256 ^ n)
    (high : (version.toNat + 1) * 256 ^ n ≤ 58 ^ (k + 1)) :
    Str.len (encode (version :: rest)).toList = k + 1 := by
  have bound := value_lt rest
  have value := value_cons version rest
  rw [length] at bound value
  rw [Nat.add_mul, Nat.one_mul] at high
  exact len_encode nonzero (by omega) (by omega)

end BitcoinNode.Base58
