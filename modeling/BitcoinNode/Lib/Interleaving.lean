import Mathlib.Data.List.Perm.Basic

/-! Interleavings of any number of lists: every step takes the next element of one of them. -/
namespace BitcoinNode

inductive Interleaving : List (List α) → List α → Prop where
  | done {parts : List (List α)} (empty : ∀ part ∈ parts, part = []) : Interleaving parts []
  | next {before after : List (List α)} {x : α} {rest merged : List α}
      (more : Interleaving (before ++ rest :: after) merged) :
      Interleaving (before ++ (x :: rest) :: after) (x :: merged)

theorem Interleaving.part {before after : List (List α)} {merged : List α} (xs : List α)
    (others : Interleaving (before ++ [] :: after) merged) :
    Interleaving (before ++ xs :: after) (xs ++ merged) := by
  induction xs with
  | nil => exact others
  | cons x xs ih => exact .next ih

theorem Interleaving.perm {parts : List (List α)} {merged : List α}
    (interleaved : Interleaving parts merged) : merged.Perm parts.flatten := by
  induction interleaved with
  | done empty => rw [List.flatten_eq_nil_iff.mpr empty]
  | @next before after x rest merged _ ih =>
    have front : (x :: (before ++ rest :: after).flatten).Perm
        (before ++ (x :: rest) :: after).flatten := by
      simpa using List.perm_middle.symm
    exact (ih.cons x).trans front

theorem Interleaving.mem_iff {parts : List (List α)} {merged : List α}
    (interleaved : Interleaving parts merged) {x : α} :
    x ∈ merged ↔ ∃ part ∈ parts, x ∈ part := by
  rw [interleaved.perm.mem_iff, List.mem_flatten]

end BitcoinNode
