import BitcoinNode.Lib.Runs
import Mathlib.Data.List.Infix
import Mathlib.Logic.Function.Basic

/-! Two parties on a connection. What a party has written depends on nothing but what has arrived, and
more of what the other has written may arrive at any moment. Where everything has arrived does not depend
on the order in which it did. -/
namespace BitcoinNode

namespace Duplex

variable {writes : Bool → List β → List β} {arrived : Bool → List β}

/-- So many more of the bytes that the other party has written arrive at one side. -/
def step (writes : Bool → List β → List β) (arrived : Bool → List β) (move : Bool × Nat) : Bool → List β :=
  Function.update arrived move.1
    ((writes (!move.1) (arrived (!move.1))).take ((arrived move.1).length + move.2))

def start : Bool → List β := fun _ => []

/-- What arrives later takes nothing back of what was written. -/
def Monotone (writes : Bool → List β → List β) : Prop :=
  ∀ side early late, early <+: late → writes side early <+: writes side late

def Consistent (writes : Bool → List β → List β) (arrived : Bool → List β) : Prop :=
  ∀ side, arrived side <+: writes (!side) (arrived (!side))

def Settled (writes : Bool → List β → List β) (arrived : Bool → List β) : Prop :=
  ∀ side, arrived side = writes (!side) (arrived (!side))

theorem step_grows (consistent : Consistent writes arrived) (move : Bool × Nat) (side : Bool) :
    arrived side <+: step writes arrived move side := by
  rw [step, Function.update_apply]
  split_ifs with here
  · subst here
    exact List.prefix_take_iff.mpr ⟨consistent move.1, Nat.le_add_right _ _⟩
  · exact List.prefix_rfl

theorem Consistent.step (monotone : Monotone writes) (consistent : Consistent writes arrived)
    (move : Bool × Nat) : Consistent writes (step writes arrived move) := by
  intro side
  have written := monotone (!side) _ _ (step_grows consistent move (!side))
  refine List.IsPrefix.trans ?_ written
  rw [Duplex.step, Function.update_apply]
  split_ifs with here
  · subst here
    exact List.take_prefix _ _
  · exact consistent side

theorem Consistent.execute (monotone : Monotone writes) (consistent : Consistent writes arrived)
    (schedule : List (Bool × Nat)) : Consistent writes (execute (Duplex.step writes) arrived schedule) := by
  induction schedule generalizing arrived with
  | nil => exact consistent
  | cons move schedule ih => exact ih (consistent.step monotone move)

theorem start_consistent : Consistent writes start := fun _ => List.nil_prefix

theorem execute_below (monotone : Monotone writes) {final : Bool → List β} (settled : Settled writes final)
    (below : ∀ side, arrived side <+: final side) (schedule : List (Bool × Nat)) (side : Bool) :
    execute (step writes) arrived schedule side <+: final side := by
  induction schedule generalizing arrived with
  | nil => exact below side
  | cons move schedule ih =>
    refine ih fun side => ?_
    rw [step, Function.update_apply]
    split_ifs with here
    · rw [settled side, here]
      exact (List.take_prefix _ _).trans (monotone _ _ _ (below (!move.1)))
    · exact below side

theorem execute_mono (monotone : Monotone writes) {later : Bool → List β}
    (more : ∀ side, arrived side <+: later side) (schedule : List (Bool × Nat)) (side : Bool) :
    execute (step writes) arrived schedule side <+: execute (step writes) later schedule side := by
  induction schedule generalizing arrived later with
  | nil => exact more side
  | cons move schedule ih =>
    refine ih fun side => ?_
    rw [step, step, Function.update_apply, Function.update_apply]
    split_ifs with here
    · have written := monotone (!move.1) _ _ (more (!move.1))
      refine List.prefix_take_iff.mpr ⟨(List.take_prefix _ _).trans written, ?_⟩
      exact (List.length_take_le _ _).trans (Nat.add_le_add_right (more move.1).length_le _)
    · exact more side

/-- If everything has arrived once, it is what arrives after any other schedule too, as soon as all of it
has arrived; and there is a way to get there. -/
theorem settled_unique (monotone : Monotone writes) {once : List (Bool × Nat)}
    (settled : Settled writes (execute (step writes) start once)) (schedule : List (Bool × Nat)) :
    execute (step writes) start (schedule ++ once) = execute (step writes) start once ∧
      (Settled writes (execute (step writes) start schedule) →
        execute (step writes) start schedule = execute (step writes) start once) := by
  have least (side : Bool) : start side <+: execute (step writes) start schedule side := List.nil_prefix
  refine ⟨?_, fun done => ?_⟩ <;> funext side
  · have upper := execute_below monotone settled (fun _ => List.nil_prefix) (schedule ++ once) side
    rw [execute_append] at upper ⊢
    exact upper.eq_of_length_le (execute_mono monotone least once side).length_le
  · have upper := execute_below monotone settled (fun _ => List.nil_prefix) schedule side
    exact upper.eq_of_length_le (execute_below monotone done (fun _ => List.nil_prefix) once side).length_le

/-- Bytes that arrive in the end: each party has written them once it has what the other needs for its own. -/
inductive Ladder (writes : Bool → List β → List β) : Bool → List β → Prop where
  | ground (side : Bool) : Ladder writes side []
  | climb {side : Bool} {below bytes : List β} (lower : Ladder writes (!side) below)
      (written : bytes <+: writes (!side) below) : Ladder writes side bytes

theorem Ladder.reached (monotone : Monotone writes) {side : Bool} {bytes : List β}
    (ladder : Ladder writes side bytes) :
    ∃ schedule, bytes <+: execute (step writes) start schedule side := by
  induction ladder with
  | ground side => exact ⟨[], List.nil_prefix⟩
  | @climb side below bytes lower written ih =>
    obtain ⟨schedule, arrived⟩ := ih
    refine ⟨schedule ++ [(side, bytes.length)], ?_⟩
    rw [execute_append, execute_cons, execute_nil, step, Function.update_self]
    exact List.prefix_take_iff.mpr ⟨written.trans (monotone _ _ _ arrived), Nat.le_add_left _ _⟩

theorem execute_grows (monotone : Monotone writes) (consistent : Consistent writes arrived)
    (schedule : List (Bool × Nat)) (side : Bool) : arrived side <+: execute (step writes) arrived schedule side := by
  induction schedule generalizing arrived with
  | nil => exact List.prefix_rfl
  | cons move schedule ih => exact (step_grows consistent move side).trans (ih (consistent.step monotone move))

/-- Where everything has arrived that arrives in the end, there is a schedule that gets there. -/
theorem exists_settled (monotone : Monotone writes) {final : Bool → List β} (settled : Settled writes final)
    (ladders : ∀ side, Ladder writes side (final side)) : ∃ once, execute (step writes) start once = final := by
  obtain ⟨first, low⟩ := (ladders false).reached monotone
  obtain ⟨second, high⟩ := (ladders true).reached monotone
  have middle := start_consistent.execute monotone first
  refine ⟨first ++ second, funext fun side => ?_⟩
  have upper := execute_below monotone settled (fun _ => List.nil_prefix) (first ++ second) side
  refine upper.eq_of_length_le (List.IsPrefix.length_le ?_)
  rw [execute_append]
  cases side with
  | false => exact low.trans (execute_grows monotone middle second false)
  | true => exact high.trans (execute_mono monotone (fun _ => List.nil_prefix) second true)

end Duplex

end BitcoinNode
