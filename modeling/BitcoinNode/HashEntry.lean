import BitcoinNode.HexStrings
import BitcoinNode.Lib.DecoderPanics
import BitcoinNode.Lib.HexDigits

/-! Hashes as they are entered, for which there are two parsers. One cuts the text at byte offsets and the
other cuts a vector of its characters, both once the text has 64 bytes. -/
namespace BitcoinNode

open Str

/-- `&hex_chars[start..end]`, which panics past the end. -/
def hexCharsSlice (hexChars : List Char) (start stop : Nat) : Outcome ε (List Char) :=
  if stop ≤ hexChars.length then .ok (BitcoinNode.slice hexChars start stop) else Outcome.panic

/-- The parser of the entries. `result[31 - i] = byte` fills the array from its end, and a pair that cannot be
read gives `None`. -/
def hexStringToBytes (hexString : String) : Checked (Option Hash) := do
  if Str.len hexString.toList ≠ 64 then return none
  else
    let result ← Outcome.attempt (U8Array.tabulate 32 fun i => do
      let byte ← hexCharsSlice hexString.toList (i * 2) (i * 2 + 2)
      Str.u8FromStrRadix byte)
    return result.toOption.map U8Array.reverse

/-- 64 hexadecimal digits. -/
structure HexHash (s : String) : Prop where
  length : s.toList.length = 64
  digits : ∀ c ∈ s.toList, isAsciiHexdigit c

/-- Both parsers answer, in the same way, and they take 64 hexadecimal digits and nothing else. -/
structure ReadAlike (s : String) : Prop where
  bytes_returns : (stringToBytes s).Returns
  hex_returns : (hexStringToBytes s).Returns
  alike : ∀ bytes, stringToBytes s = .ok bytes ↔ hexStringToBytes s = .ok (some bytes.reverse)
  accepts : (∃ bytes, stringToBytes s = .ok bytes) ↔ HexHash s

/-- Behind the pairs that are read as bytes, a text is misread: where there is nothing, for a plus among the
pairs; where the next two bytes end inside a character, which panics in the one parser; and where there is a
single character, which panics in the other. -/
inductive Misread (front : List Char) : (back : List Char) → Prop where
  | plus (signed : '+' ∈ front) : Misread front []
  | wide {c : Char} {rest : List Char} (wide : 3 ≤ c.utf8Size) : Misread front (c :: rest)
  | straddle {c d : Char} {rest : List Char} (one : c.utf8Size = 1) (more : d.utf8Size ≠ 1) :
      Misread front (c :: d :: rest)
  | last {c : Char} (two : c.utf8Size = 2) : Misread front [c]

/-- A text of 64 bytes that starts with pairs of digits, or of a plus and a digit, and is misread behind them. -/
def MisreadHash (s : String) : Prop :=
  Str.len s.toList = 64 ∧ ∃ front back, s.toList = front ++ back ∧ BytePairs front ∧ Misread front back

section Pairs

variable {front back : List Char} {word : Nat → Outcome String (List Char)}

/-- What both parsers cut off the pairs at the front. -/
def CutsPairs (front : List Char) (word : Nat → Outcome String (List Char)) : Prop :=
  ∀ i, i * 2 < front.length → word i = .ok ((front.drop (i * 2)).take 2)

theorem slice_cuts (pairs : BytePairs front) (back : List Char) :
    CutsPairs front fun i => Str.slice (front ++ back) (i * 2) (i * 2 + 2) := by
  intro i inside
  obtain ⟨amount, even⟩ := pairs.even
  beta_reduce
  rw [slice_front pairs.ascii back (Nat.le_add_right _ _) (by omega), Nat.add_sub_cancel_left]

theorem hex_chars_slice_cuts (pairs : BytePairs front) (back : List Char) :
    CutsPairs front fun i => hexCharsSlice (front ++ back) (i * 2) (i * 2 + 2) := by
  intro i inside
  obtain ⟨amount, even⟩ := pairs.even
  beta_reduce
  rw [hexCharsSlice, if_pos (by rw [List.length_append]; omega), BitcoinNode.slice, Nat.add_sub_cancel_left,
    List.drop_append_of_le_length (by omega), List.take_append_of_le_length (by rw [List.length_drop]; omega)]

theorem tabulate_pairs (whole : front.length = 64) (cuts : CutsPairs front word) :
    U8Array.tabulate 32 (fun i => word i >>= u8FromStrRadix) =
      U8Array.tabulate 32 fun i => u8FromStrRadix ((front.drop (i * 2)).take 2) :=
  U8Array.tabulate_congr fun i hi => by rw [cuts i (by omega), Outcome.bind_ok]

theorem tabulate_stops (pairs : BytePairs front) (cuts : CutsPairs front word) {amount : Nat}
    (length : front.length = amount * 2) (short : amount < 32) {e : Failure String}
    (stops : (word amount >>= u8FromStrRadix) = .error e) :
    U8Array.tabulate 32 (fun i => word i >>= u8FromStrRadix) = .error e := by
  apply U8Array.tabulate_error short _ stops
  intro i before
  obtain ⟨byte, read⟩ := pairs.reads (i := i) (by omega)
  exact ⟨byte, by rw [cuts i (by omega), Outcome.bind_ok, read]⟩

theorem hex_chars_slice_behind (front back : List Char) (amount : Nat) :
    (hexCharsSlice (front ++ back) front.length (front.length + amount) : Outcome ε (List Char)) =
      hexCharsSlice back 0 amount := by
  simp only [hexCharsSlice, List.length_append, Nat.add_le_add_iff_left, BitcoinNode.slice, List.drop_left,
    Nat.add_sub_cancel_left, Nat.sub_zero, List.drop_zero]

end Pairs

section Texts

variable {s : String} {front back : List Char} (size : Str.len s.toList = 64)

include size

theorem string_to_bytes_of_size : stringToBytes s = U8Array.tabulate 32 fun i =>
    Str.slice s.toList (i * 2) (i * 2 + 2) >>= u8FromStrRadix :=
  if_neg (not_not_intro size)

theorem hex_string_to_bytes_of_size {result : Outcome String Hash}
    (tabulated : U8Array.tabulate 32 (fun i =>
      hexCharsSlice s.toList (i * 2) (i * 2 + 2) >>= u8FromStrRadix) = result) :
    hexStringToBytes s = Outcome.attempt result >>= fun result => .ok (result.toOption.map U8Array.reverse) := by
  rw [← tabulated]
  exact if_neg (not_not_intro size)

theorem read_of_pairs (pairs : BytePairs s.toList) :
    ∃ bytes, stringToBytes s = .ok bytes ∧ hexStringToBytes s = .ok (some bytes.reverse) := by
  have whole : s.toList.length = 64 := by rw [← len_of_ascii pairs.ascii, size]
  obtain ⟨bytes, read⟩ := U8Array.tabulate_ok (n := 32)
    (f := fun i => u8FromStrRadix ((s.toList.drop (i * 2)).take 2)) fun i hi => pairs.reads (by omega)
  have cuts := slice_cuts pairs []
  have cuts' := hex_chars_slice_cuts pairs []
  rw [List.append_nil] at cuts cuts'
  refine ⟨bytes, ?_, ?_⟩
  · rw [string_to_bytes_of_size size, tabulate_pairs whole cuts, read]
  · rw [hex_string_to_bytes_of_size size ((tabulate_pairs whole cuts').trans read)]
    rfl

variable (shape : s.toList = front ++ back) (pairs : BytePairs front) (more : back ≠ [])

include shape pairs more

theorem size_behind : ∃ amount < 32, front.length = amount * 2 ∧ amount * 2 + Str.len back = 64 := by
  obtain ⟨amount, even⟩ := pairs.even
  have positive := len_pos more
  rw [shape, len_append, len_of_ascii pairs.ascii, even] at size
  exact ⟨amount, by omega, even, size⟩

theorem string_to_bytes_stops {e : Failure String}
    (stops : (Str.slice back 0 2 >>= u8FromStrRadix : Outcome String UInt8) = .error e) :
    stringToBytes s = .error e := by
  obtain ⟨amount, short, even, _⟩ := size_behind size shape pairs more
  rw [string_to_bytes_of_size size, shape]
  apply tabulate_stops pairs (slice_cuts pairs back) even short
  rw [← even, slice_behind pairs.ascii, stops]

theorem hex_string_to_bytes_stops {e : Failure String}
    (stops : (hexCharsSlice back 0 2 >>= u8FromStrRadix : Outcome String UInt8) = .error e) :
    hexStringToBytes s = Outcome.attempt (.error e : Outcome String Hash) >>= fun result =>
      .ok (result.toOption.map U8Array.reverse) := by
  obtain ⟨amount, short, even, _⟩ := size_behind size shape pairs more
  apply hex_string_to_bytes_of_size size
  rw [shape]
  apply tabulate_stops pairs (hex_chars_slice_cuts pairs back) even short
  rw [← even, hex_chars_slice_behind, stops]

theorem rejected_of_stop (stops : ∀ c d rest, back = c :: d :: rest → ¬BytePair c d) (fair : ¬Misread front back) :
    (∃ e, stringToBytes s = Outcome.fail e) ∧ hexStringToBytes s = .ok none ∧
      ∃ c d rest, back = c :: d :: rest := by
  obtain ⟨c, rest, rfl⟩ := List.exists_cons_of_ne_nil more
  have narrow : c.utf8Size < 3 := Nat.lt_of_not_le fun wide => fair (.wide wide)
  cases rest with
  | nil =>
    -- The size of a single character is even, and it is not two.
    obtain ⟨amount, _, _, bytes⟩ := size_behind size shape pairs more
    have positive := Char.utf8Size_pos c
    have single : c.utf8Size ≠ 2 := fun two => fair (.last two)
    simp only [Str.len, List.map_cons, List.map_nil, List.sum_cons, List.sum_nil] at bytes
    omega
  | cons d rest =>
    have other : ¬BytePair c d := stops c d rest rfl
    have chars : (hexCharsSlice (c :: d :: rest) 0 2 >>= u8FromStrRadix : Outcome String UInt8) =
        Outcome.fail "invalid digit found in string" := by
      rw [hexCharsSlice, if_pos (by simp)]
      exact u8_from_str_radix_other other
    have bytes : (Str.slice (c :: d :: rest) 0 2 >>= u8FromStrRadix : Outcome String UInt8) =
        Outcome.fail "invalid digit found in string" := by
      by_cases two : c.utf8Size = 2
      · rw [slice_two_single two, Outcome.bind_ok, u8_from_str_radix_wide (by omega)]
      have one : c.utf8Size = 1 := by
        have positive := Char.utf8Size_pos c
        omega
      have one' : d.utf8Size = 1 := by
        by_contra straddles
        exact fair (.straddle one straddles)
      rw [slice_two_pair one one', Outcome.bind_ok, u8_from_str_radix_other other]
    refine ⟨⟨_, string_to_bytes_stops size shape pairs more bytes⟩, ?_, c, d, rest, rfl⟩
    rw [hex_string_to_bytes_stops size shape pairs more chars]
    rfl

end Texts

section Alike

variable {s : String}

theorem rejected_of_size (size : Str.len s.toList ≠ 64) :
    (∃ e, stringToBytes s = Outcome.fail e) ∧ hexStringToBytes s = .ok none :=
  ⟨⟨_, if_pos size⟩, if_pos size⟩

theorem HexHash.size (hash : HexHash s) : Str.len s.toList = 64 := by
  rw [len_of_ascii fun c member => hexdigit_utf8Size (hash.digits c member), hash.length]

theorem ReadAlike.of_rejected (bytes : ∃ e, stringToBytes s = Outcome.fail e)
    (hex : hexStringToBytes s = .ok none) (other : ¬HexHash s) : ReadAlike s := by
  obtain ⟨e, bytes⟩ := bytes
  constructor
  · exact .inr ⟨e, bytes⟩
  · exact .inl ⟨none, hex⟩
  · simp [bytes, hex, Outcome.fail]
  · simp [bytes, Outcome.fail, other]

theorem read_alike_of_not_misread (fair : ¬MisreadHash s) : ReadAlike s := by
  by_cases size : Str.len s.toList = 64
  swap
  · obtain ⟨bytes, hex⟩ := rejected_of_size size
    exact .of_rejected bytes hex fun hash => size hash.size
  obtain ⟨front, back, shape, pairs, stops⟩ := exists_byte_pairs s.toList
  have fair : ¬Misread front back := fun misread => fair ⟨size, front, back, shape, pairs, misread⟩
  by_cases more : back = []
  · subst more
    rw [List.append_nil] at shape
    rw [← shape] at pairs fair
    obtain ⟨bytes, read, hex⟩ := read_of_pairs size pairs
    have hash : HexHash s := by
      refine ⟨by rw [← len_of_ascii pairs.ascii, size], fun c member => ?_⟩
      rcases pairs.mem member with rfl | digit
      · exact absurd (.plus member) fair
      · exact digit
    constructor
    · exact .inl ⟨bytes, read⟩
    · exact .inl ⟨_, hex⟩
    · intro bytes'
      rw [read, hex]
      rw [Except.ok.injEq, Except.ok.injEq, Option.some.injEq, U8Array.reverse_inj]
    · exact iff_of_true ⟨bytes, read⟩ hash
  · obtain ⟨bytes, hex, c, d, rest, rfl⟩ := rejected_of_stop size shape pairs more stops fair
    apply ReadAlike.of_rejected bytes hex
    intro hash
    have digit (c : Char) (member : c ∈ s.toList) : isAsciiHexdigit c := hash.digits c member
    exact stops c d rest rfl ⟨.inr (digit c (by simp [shape])), digit d (by simp [shape])⟩

theorem not_misread_of_read_alike (alike : ReadAlike s) : ¬MisreadHash s := by
  rintro ⟨size, front, back, shape, pairs, misread⟩
  have panics {ε β : Type} {m : Outcome ε β} (returns : m.Returns) (panic : m = Outcome.panic) : False :=
    (Outcome.returns_iff.mp returns).1 panic
  cases misread with
  | plus signed =>
    rw [List.append_nil] at shape
    obtain ⟨bytes, read, _⟩ := read_of_pairs size (shape ▸ pairs)
    exact absurd ((alike.accepts.mp ⟨bytes, read⟩).digits '+' (shape ▸ signed)) (by decide)
  | wide wide =>
    apply panics alike.bytes_returns
    exact string_to_bytes_stops size shape pairs (List.cons_ne_nil _ _) (by rw [slice_two_wide wide]; rfl)
  | straddle one more =>
    apply panics alike.bytes_returns
    exact string_to_bytes_stops size shape pairs (List.cons_ne_nil _ _) (by rw [slice_two_straddle one more]; rfl)
  | last two =>
    apply panics alike.hex_returns
    exact hex_string_to_bytes_stops size shape pairs (List.cons_ne_nil _ _) rfl

theorem hex_string_to_bytes_hex_hash (hash : Hash) :
    hexStringToBytes (bytesToHexHash hash) = .ok (some hash) := by
  have shown := string_to_bytes_hex_hash hash
  have size : Str.len (bytesToHexHash hash).toList = 64 := by
    by_contra other
    obtain ⟨⟨e, rejected⟩, _⟩ := rejected_of_size other
    rw [rejected] at shown
    cases shown
  have pairs : BytePairs (bytesToHexHash hash).toList := by
    rw [bytesToHexHash, String.toList_ofList]
    exact hex_byte_pairs _
  obtain ⟨bytes, read, hex⟩ := read_of_pairs size pairs
  obtain rfl := Except.ok.inj (read.symm.trans shown)
  rw [hex, U8Array.reverse_reverse]

end Alike

/-- The two parsers read a text alike exactly when it is not misread, and a shown hash is read as the hash. -/
theorem hash_entry_iff (s : String) (hash : Hash) :
    (ReadAlike s ↔ ¬MisreadHash s) ∧ hexStringToBytes (bytesToHexHash hash) = .ok (some hash) :=
  ⟨⟨not_misread_of_read_alike, read_alike_of_not_misread⟩, hex_string_to_bytes_hex_hash hash⟩

/-- Plus signs stand for noughts, a euro sign in the first place panics in the one parser, and a letter of
two bytes in the last place panics in the other. -/
theorem hash_entry_misread :
    let signed := String.ofList (List.replicate 32 ['+', 'f']).flatten
    let wide := String.ofList ('€' :: List.replicate 61 '0')
    let last := String.ofList (List.replicate 62 '0' ++ ['é'])
    stringToBytes signed = .ok (U8Array.replicate 32 15) ∧ ¬HexHash signed ∧
      stringToBytes wide = Outcome.panic ∧ hexStringToBytes last = Outcome.panic ∧ ¬∀ s, ReadAlike s := by
  intro signed wide last
  have panics : stringToBytes wide = Outcome.panic := by
    rw [stringToBytes, String.toList_ofList]
    decide +kernel
  refine ⟨?_, ?_, panics, ?_, ?_⟩
  · rw [stringToBytes, String.toList_ofList]
    decide +kernel
  · intro hash
    have digit := hash.digits '+' (by rw [String.toList_ofList]; decide)
    exact absurd digit (by decide)
  · rw [hexStringToBytes, String.toList_ofList]
    decide +kernel
  · intro all
    exact (Outcome.returns_iff.mp (all wide).bytes_returns).1 panics

end BitcoinNode
