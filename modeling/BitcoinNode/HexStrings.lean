import BitcoinNode.Lib.Str
import BitcoinNode.Blocks

/-! Hashes as the node shows them, in hexadecimal with the bytes reversed, and back. -/
namespace BitcoinNode

def bytesToHexHash (hashAsBytes : Hash) : String :=
  String.ofList (hashAsBytes.reverse.val.flatMap Str.hexByte)

def Block.hexHash [Crates] (b : Block) : String := bytesToHexHash b.hash

def Transaction.hexHash [Crates] (tx : Transaction) : String := bytesToHexHash tx.hash

/-- Errors are the texts they display. -/
def stringToBytes (input : String) : Outcome String Hash :=
  if Str.len input.toList ≠ 64 then
    Outcome.fail "Invalid string. The string must be 64 characters long"
  else
    U8Array.tabulate 32 fun i => do
      let byteStr ← Str.slice input.toList (i * 2) (i * 2 + 2)
      Str.u8FromStrRadix byteStr

theorem hex_bytes_ascii (bytes : List UInt8) : Str.Ascii (bytes.flatMap Str.hexByte) := by
  intro c member
  obtain ⟨byte, _, digit⟩ := List.mem_flatMap.mp member
  exact Str.hex_byte_ascii byte c digit

theorem hex_bytes_length (bytes : List UInt8) :
    (bytes.flatMap Str.hexByte).length = 2 * bytes.length := by
  induction bytes with
  | nil => rfl
  | cons byte bytes ih => simp [Str.hexByte, ih]; omega

theorem hex_bytes_drop (bytes : List UInt8) (i : Nat) :
    (bytes.flatMap Str.hexByte).drop (i * 2) = (bytes.drop i).flatMap Str.hexByte := by
  induction i generalizing bytes with
  | zero => simp
  | succ i ih =>
    cases bytes with
    | nil => simp
    | cons byte bytes =>
      have next : (i + 1) * 2 = i * 2 + 2 := by omega
      simpa [next, Str.hexByte] using ih bytes

theorem string_to_bytes_hex_hash (hash : Hash) :
    stringToBytes (bytesToHexHash hash) = .ok hash.reverse := by
  rw [bytesToHexHash]
  generalize hash.reverse = shown
  have ascii := hex_bytes_ascii shown.val
  have length := hex_bytes_length shown.val
  have whole : shown.val.take 32 = shown.val := List.take_of_length_le (by simp)
  simp only [U8Array.length_val] at length
  rw [stringToBytes, String.toList_ofList, Str.len_of_ascii ascii, length, if_neg (by decide),
    U8Array.tabulate_eq shown.val (by simp)]
  · exact congrArg Except.ok (Subtype.ext whole)
  intro i hi
  rw [Str.slice_of_ascii ascii (by omega) (by omega), hex_bytes_drop,
    List.drop_eq_getElem_cons (by simpa using hi), Outcome.bind_ok, List.flatMap_cons,
    Nat.add_sub_cancel_left]
  exact (congrArg Str.u8FromStrRadix (List.take_left' rfl)).trans (Str.u8_from_str_radix_hex_byte _)

end BitcoinNode
