import BitcoinNode.Lib.Bytes
import BitcoinNode.Lib.Proc

/-! Bytes that arrive in pieces. Between two pieces a read times out, after the last one the
connection is closed, and a read that wants more than the current piece loses what it took. -/
namespace BitcoinNode

inductive IoError where
  | WouldBlock
  | UnexpectedEof
  deriving DecidableEq, Repr

def IoError.fmt : IoError → String
  | .WouldBlock => "Resource temporarily unavailable (os error 11)"
  | .UnexpectedEof => "failed to fill whole buffer"

/-- The bytes that are still to come, cut where a read times out. -/
abbrev Socket := List (List UInt8)

namespace Socket

def readExact (n : Nat) : Proc Socket IoError (U8Array n) :=
  ⟨fun
    | [] => if zero : n = 0 then (.ok ⟨[], zero.symm⟩, []) else (Outcome.fail .UnexpectedEof, [])
    | piece :: later =>
      if enough : n ≤ piece.length then
        (.ok ⟨piece.take n, List.length_take_of_le enough⟩, piece.drop n :: later)
      else (Outcome.fail (if later = [] then .UnexpectedEof else .WouldBlock), later)⟩

/-- No part is torn: every end of a piece is the end of a part. -/
def Aligned (s : Socket) (parts : List (List UInt8)) : Prop :=
  s.flatten = parts.flatten ∧ ∀ i, ∃ j, (s.take i).flatten = (parts.take j).flatten

theorem aligned_whole (parts : List (List UInt8)) : Aligned [parts.flatten] parts := by
  refine ⟨by simp, fun i => ?_⟩
  cases i with
  | zero => exact ⟨0, rfl⟩
  | succ i => exact ⟨parts.length, by simp⟩

theorem aligned_nil {s : Socket} (empty : s.flatten = []) : Aligned s [] := by
  refine ⟨empty, fun i => ⟨0, ?_⟩⟩
  simp only [List.flatten_eq_nil_iff, List.take_nil, List.flatten_nil] at empty ⊢
  exact fun piece member => empty piece (List.mem_of_mem_take member)

@[simp] theorem aligned_nil_piece {later : Socket} {parts : List (List UInt8)} :
    Aligned ([] :: later) parts ↔ Aligned later parts := by
  constructor
  · rintro ⟨same, ends⟩
    exact ⟨same, fun i => ends (i + 1)⟩
  · rintro ⟨same, ends⟩
    refine ⟨same, fun i => ?_⟩
    cases i with
    | zero => exact ⟨0, rfl⟩
    | succ i => exact ends i

@[simp] theorem aligned_nil_part {s : Socket} {parts : List (List UInt8)} :
    Aligned s ([] :: parts) ↔ Aligned s parts := by
  constructor
  · rintro ⟨same, ends⟩
    refine ⟨same, fun i => ?_⟩
    obtain ⟨j, ends⟩ := ends i
    cases j with
    | zero => exact ⟨0, ends⟩
    | succ j => exact ⟨j, ends⟩
  · rintro ⟨same, ends⟩
    refine ⟨same, fun i => ?_⟩
    obtain ⟨j, ends⟩ := ends i
    exact ⟨j + 1, ends⟩

theorem aligned_cons {part back : List UInt8} {later : Socket} {parts : List (List UInt8)} :
    Aligned ((part ++ back) :: later) (part :: parts) ↔ Aligned (back :: later) parts := by
  constructor
  · rintro ⟨same, ends⟩
    refine ⟨by simpa using same, fun i => ?_⟩
    cases i with
    | zero => exact ⟨0, rfl⟩
    | succ i =>
      obtain ⟨j, ends⟩ := ends (i + 1)
      cases j with
      | zero =>
        have empty : back = [] ∧ ∀ piece ∈ later.take i, piece = [] := by
          simpa using And.right (by simpa using ends)
        exact ⟨0, by simpa using empty⟩
      | succ j => exact ⟨j, by simpa using ends⟩
  · rintro ⟨same, ends⟩
    refine ⟨by simpa using same, fun i => ?_⟩
    cases i with
    | zero => exact ⟨0, rfl⟩
    | succ i =>
      obtain ⟨j, ends⟩ := ends (i + 1)
      exact ⟨j + 1, by simpa using ends⟩

/-- A part that is next is there in one piece, if not before then after the next time-out. -/
theorem Aligned.next {s : Socket} {part : List UInt8} {parts : List (List UInt8)} (nonempty : part ≠ [])
    (aligned : Aligned s (part :: parts)) :
    (∃ piece later, s = [] :: piece :: later ∧ Aligned (piece :: later) (part :: parts)) ∨
      ∃ back later, s = (part ++ back) :: later ∧ Aligned (back :: later) parts := by
  match s, aligned with
  | [], ⟨same, _⟩ => simp [nonempty] at same
  | [[]], ⟨same, _⟩ => simp [nonempty] at same
  | [] :: piece :: later, aligned => exact .inl ⟨piece, later, rfl, aligned_nil_piece.mp aligned⟩
  | (byte :: piece) :: later, aligned =>
    obtain ⟨j, ends⟩ := aligned.2 1
    cases j with
    | zero => simp at ends
    | succ j =>
      have split : byte :: piece = part ++ (parts.take j).flatten := by simpa using ends
      rw [split] at aligned ⊢
      exact .inr ⟨_, later, rfl, aligned_cons.mp aligned⟩

theorem read_exact_enough {n : Nat} {piece : List UInt8} (later : Socket) (enough : n ≤ piece.length) :
    (readExact n).run (piece :: later) =
      (.ok ⟨piece.take n, List.length_take_of_le enough⟩, piece.drop n :: later) := dif_pos enough

theorem read_exact_short {n : Nat} {piece : List UInt8} (later : Socket) (short : ¬n ≤ piece.length) :
    (readExact n).run (piece :: later) =
      (Outcome.fail (if later = [] then .UnexpectedEof else .WouldBlock), later) := dif_neg short

theorem read_exact_nil {n : Nat} (nonzero : n ≠ 0) :
    (readExact n).run [] = (Outcome.fail .UnexpectedEof, []) := dif_neg nonzero

theorem read_exact_timeout {n : Nat} (pos : 0 < n) (piece : List UInt8) (later : Socket) :
    (readExact n).run ([] :: piece :: later) = (Outcome.fail .WouldBlock, piece :: later) := by
  rw [read_exact_short _ (by simpa using Nat.ne_of_gt pos), if_neg (List.cons_ne_nil _ _)]

theorem read_exact_front {n : Nat} (word : U8Array n) (back : List UInt8) (later : Socket) :
    (readExact n).run ((word.val ++ back) :: later) = (.ok word, back :: later) := by
  obtain ⟨word, rfl⟩ := word
  rw [read_exact_enough later (by simp)]
  simp

theorem read_exact_ok {n : Nat} {s s' : Socket} {bytes : U8Array n}
    (read : (readExact n).run s = (.ok bytes, s')) :
    (s = [] ∧ s' = [] ∧ bytes.val = []) ∨
      ∃ back later, s = (bytes.val ++ back) :: later ∧ s' = back :: later := by
  rcases s with _ | ⟨piece, later⟩
  · by_cases zero : n = 0
    · subst zero
      cases read
      exact .inl ⟨rfl, rfl, rfl⟩
    · rw [read_exact_nil zero] at read
      cases (Prod.mk.inj read).1
  · by_cases enough : n ≤ piece.length
    · rw [read_exact_enough later enough] at read
      cases read
      exact .inr ⟨piece.drop n, later, by simp, rfl⟩
    · rw [read_exact_short later enough] at read
      cases (Prod.mk.inj read).1

theorem read_exact_flatten {n : Nat} {s s' : Socket} {bytes : U8Array n}
    (read : (readExact n).run s = (.ok bytes, s')) : s.flatten = bytes.val ++ s'.flatten := by
  rcases read_exact_ok read with ⟨rfl, rfl, empty⟩ | ⟨back, later, rfl, rfl⟩
  · simp [empty]
  · simp

theorem read_exact_length {n : Nat} {s s' : Socket} {bytes : U8Array n}
    (read : (readExact n).run s = (.ok bytes, s')) : s'.length ≤ s.length := by
  rcases read_exact_ok read with ⟨rfl, rfl, _⟩ | ⟨back, later, rfl, rfl⟩ <;> simp

theorem read_exact_aligned {n : Nat} {s s' : Socket} {bytes : U8Array n}
    (read : (readExact n).run s = (.ok bytes, s')) {parts : List (List UInt8)} (aligned : Aligned s' parts) :
    Aligned s (bytes.val :: parts) := by
  rcases read_exact_ok read with ⟨rfl, rfl, empty⟩ | ⟨back, later, rfl, rfl⟩
  · rw [empty]
    exact aligned_nil_part.mpr aligned
  · exact aligned_cons.mpr aligned

theorem read_exact_error {n : Nat} {s s' : Socket} {e : Failure IoError}
    (read : (readExact n).run s = (.error e, s')) :
    s' = s.tail ∧ (e = .err .UnexpectedEof ∨ e = .err .WouldBlock ∧ s ≠ []) := by
  rcases s with _ | ⟨piece, later⟩
  · by_cases zero : n = 0
    · subst zero
      cases (Prod.mk.inj read).1
    · rw [read_exact_nil zero] at read
      cases read
      exact ⟨rfl, .inl rfl⟩
  · by_cases enough : n ≤ piece.length
    · rw [read_exact_enough later enough] at read
      cases (Prod.mk.inj read).1
    · rw [read_exact_short later enough] at read
      cases read
      refine ⟨rfl, ?_⟩
      by_cases last : s' = [] <;> simp [last]

end Socket

end BitcoinNode
