import Mathlib.Data.List.Basic

/-! Base58 as addresses use it: a leading zero byte is the digit `1`. -/
namespace BitcoinNode.Base58

def alphabet : List Char := "123456789ABCDEFGHJKLMNPQRSTUVWXYZabcdefghijkmnopqrstuvwxyz".toList

/-- Base-58 digits, least significant first. -/
def digits : (fuel value : Nat) → List Nat
  | 0, _ => []
  | fuel + 1, value => if value = 0 then [] else value % 58 :: digits fuel (value / 58)

def value (bytes : List UInt8) : Nat := bytes.foldl (fun v byte => 256 * v + byte.toNat) 0

/-- Two digits a byte are always enough fuel. -/
def encode (bytes : List UInt8) : String :=
  let zeros := (bytes.takeWhile (· == 0)).map fun _ => '1'
  let rest := (digits (2 * bytes.length) (value bytes)).reverse.map fun d => alphabet.getD d '1'
  String.ofList (zeros ++ rest)

/-- An address with version byte `0x6f` and the zero key hash. -/
example : encode (0x6f :: List.replicate 20 0 ++ [0x8f, 0x62, 0xb7, 0x21]) =
    "mfWxJ45yp2SFn7UciZyNpvDKrzbhyfKrY8" := by
  decide +kernel

end BitcoinNode.Base58
