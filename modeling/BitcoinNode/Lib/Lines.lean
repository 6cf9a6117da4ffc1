import BitcoinNode.Lib.Outcome
import Mathlib.Algebra.Ring.Int.Defs

/-! Texts that are read line by line, and what is read from a word: numbers in base 10 and booleans. -/
namespace BitcoinNode

namespace Str

/-- `\r` belongs to the end of a line. -/
def cutReturn (line : List UInt8) : List UInt8 := if line.getLast? = some 0x0d then line.dropLast else line

/-- `reader.lines()`. Behind the last `\n` there is one more line only if there is something; its `\r`
stays. -/
def lines (content : List UInt8) : List (List UInt8) :=
  let pieces := content.splitOn 0x0a
  let last := pieces.getLastD []
  pieces.dropLast.map cutReturn ++ if last = [] then [] else [last]

theorem lines_written {written : List (List UInt8)}
    (whole : ∀ line ∈ written, 0x0a ∉ line ∧ line.getLast? ≠ some 0x0d) :
    lines (written.flatMap (· ++ [0x0a])) = written := by
  have pieces : (written.flatMap (· ++ [0x0a])).splitOn 0x0a = written ++ [[]] := by
    induction written with
    | nil => rfl
    | cons line written ih =>
      obtain ⟨first, others⟩ := List.forall_mem_cons.mp whole
      rw [List.flatMap_cons, List.append_assoc, List.singleton_append,
        List.splitOn_append_cons_self_of_not_mem first.1, ih others, List.cons_append]
  have uncut : written.map cutReturn = written :=
    (List.map_congr_left fun line member => if_neg (whole line member).2).trans (List.map_id _)
  have last : (written ++ [[]]).getLastD [] = ([] : List UInt8) := by
    rw [List.getLastD_eq_getLast?, List.getLast?_concat, Option.getD_some]
  rw [lines, pieces, last, List.dropLast_concat, uncut, if_pos rfl, List.append_nil]

/-- `text.split(separator)` -/
def split (separator : Char) (text : String) : List String := (text.toList.splitOn separator).map String.ofList

theorem split_pair {separator : Char} {front back : String} (apart : separator ∉ front.toList)
    (apart' : separator ∉ back.toList) :
    split separator (front ++ String.singleton separator ++ back) = [front, back] := by
  rw [split, String.toList_append, String.toList_append, String.toList_singleton, List.append_assoc,
    List.singleton_append, List.splitOn_append_cons_self_of_not_mem apart, List.splitOn_eq_singleton apart']
  simp

/-- `char::to_digit(10)` -/
def toDecimalDigit (c : Char) : Option Nat := if '0' ≤ c ∧ c ≤ '9' then some (c.toNat - '0'.toNat) else none

/-- The digits of a negative number are subtracted. -/
def accumulateDecimal (least most sign : Int) (result : Int) (c : Char) : Outcome String Int :=
  match toDecimalDigit c with
  | none => Outcome.fail "invalid digit found in string"
  | some digit =>
    if result * 10 + sign * digit < least then Outcome.fail "number too small to fit in target type"
    else if most < result * 10 + sign * digit then Outcome.fail "number too large to fit in target type"
    else .ok (result * 10 + sign * digit)

/-- `from_str` of an integer type with these bounds. Only a signed type takes a minus; a sign alone is
not a digit. -/
def intFromStr (least most : Int) (src : String) : Outcome String Int :=
  match src.toList with
  | [] => Outcome.fail "cannot parse integer from empty string"
  | ['+'] | ['-'] => Outcome.fail "invalid digit found in string"
  | '+' :: digits => digits.foldlM (accumulateDecimal least most 1) 0
  | '-' :: digits =>
    if least < 0 then digits.foldlM (accumulateDecimal least most (-1)) 0
    else Outcome.fail "invalid digit found in string"
  | digits => digits.foldlM (accumulateDecimal least most 1) 0

def usizeFromStr (src : String) : Outcome String Nat := do return (← intFromStr 0 (2 ^ 64 - 1) src).toNat

def u64FromStr (src : String) : Outcome String UInt64 := do
  return UInt64.ofNat (← intFromStr 0 (2 ^ 64 - 1) src).toNat

def u16FromStr (src : String) : Outcome String UInt16 := do
  return UInt16.ofNat (← intFromStr 0 (2 ^ 16 - 1) src).toNat

def u8FromStr (src : String) : Outcome String UInt8 := do
  return UInt8.ofNat (← intFromStr 0 (2 ^ 8 - 1) src).toNat

def i32FromStr (src : String) : Outcome String Int32 := do
  return Int32.ofInt (← intFromStr (-2 ^ 31) (2 ^ 31 - 1) src)

def boolFromStr (src : String) : Outcome String Bool :=
  if src = "true" then .ok true
  else if src = "false" then .ok false
  else Outcome.fail "provided string was not `true` or `false`"

end Str

end BitcoinNode
