import BitcoinNode.Lib.Outcome
import Mathlib.Algebra.Order.BigOperators.Group.List
import Mathlib.Algebra.Order.Ring.Int

/-! Sums of 64-bit integers whose additions panic on overflow. -/
namespace BitcoinNode

def Fits (values : List Int) : Prop :=
  ∀ front, front <+: values → -2 ^ 63 ≤ front.sum ∧ front.sum < 2 ^ 63

theorem fits_singleton {a : Int} : Fits [a] ↔ -2 ^ 63 ≤ a ∧ a < 2 ^ 63 := by
  constructor
  · intro fits
    simpa using fits [a] List.prefix_rfl
  · intro inside front before
    rcases List.prefix_cons_iff.mp before with rfl | ⟨rest, rfl, nil⟩
    · simp
    · simpa [List.prefix_nil.mp nil] using inside

theorem fits_cons_cons {a b : Int} {rest : List Int} :
    Fits (a :: b :: rest) ↔ (-2 ^ 63 ≤ a ∧ a < 2 ^ 63) ∧ Fits ((a + b) :: rest) := by
  constructor
  · intro fits
    refine ⟨by simpa using fits [a] ⟨b :: rest, rfl⟩, fun front before => ?_⟩
    rcases List.prefix_cons_iff.mp before with rfl | ⟨front, rfl, behind⟩
    · simp
    · have sum := fits (a :: b :: front)
        (List.cons_prefix_cons.mpr ⟨rfl, List.cons_prefix_cons.mpr ⟨rfl, behind⟩⟩)
      simpa [Int.add_assoc] using sum
  · rintro ⟨inside, fits⟩ front before
    rcases List.prefix_cons_iff.mp before with rfl | ⟨front, rfl, behind⟩
    · simp
    rcases List.prefix_cons_iff.mp behind with rfl | ⟨front, rfl, later⟩
    · simpa using inside
    · have sum := fits ((a + b) :: front) (List.cons_prefix_cons.mpr ⟨rfl, later⟩)
      simpa [Int.add_assoc] using sum

theorem fits_zero_cons {values : List Int} : Fits (0 :: values) ↔ Fits values := by
  cases values with
  | nil => exact iff_of_true (fits_singleton.mpr (by decide)) fun front before => by simp [List.prefix_nil.mp before]
  | cons v values => rw [fits_cons_cons, Int.zero_add, and_iff_right (by decide)]

theorem fits_iff_of_nonneg {values : List Int} (nonneg : ∀ v ∈ values, 0 ≤ v) : Fits values ↔ values.sum < 2 ^ 63 := by
  constructor
  · intro fits
    exact (fits values List.prefix_rfl).2
  · rintro small front ⟨back, rfl⟩
    obtain ⟨first, later⟩ := List.forall_mem_append.mp nonneg
    have low := List.sum_nonneg first
    have high := List.sum_nonneg later
    rw [List.sum_append] at small
    omega

theorem Fits.initial {front values : List Int} (fits : Fits values) (before : front <+: values) : Fits front :=
  fun shorter shorterBefore => fits shorter (shorterBefore.trans before)

/-- `a + b`, as compiled with overflow checks. -/
def checkedAdd (a b : Int64) : Checked Int64 :=
  if -2 ^ 63 ≤ a.toInt + b.toInt ∧ a.toInt + b.toInt < 2 ^ 63 then .ok (a + b) else Outcome.panic

theorem checked_add_eq {a b : Int64} (low : -2 ^ 63 ≤ a.toInt + b.toInt)
    (high : a.toInt + b.toInt < 2 ^ 63) :
    ∃ c, checkedAdd a b = .ok c ∧ c.toInt = a.toInt + b.toInt := by
  refine ⟨a + b, if_pos ⟨low, high⟩, ?_⟩
  rw [Int64.toInt_add]
  exact Int.bmod_eq_of_le (by simpa using low) (by simpa using high)

theorem checked_add_eq_add {a b c : Int64} (added : checkedAdd a b = .ok c) : a + b = c := by
  rw [checkedAdd] at added
  split_ifs at added
  · exact Except.ok.inj added
  · cases added

theorem checked_add_eq_ok {a b c : Int64} (added : checkedAdd a b = .ok c) :
    c.toInt = a.toInt + b.toInt := by
  rw [checkedAdd] at added
  split_ifs at added with fits
  · obtain ⟨c', same, value⟩ := checked_add_eq fits.1 fits.2
    rw [checkedAdd, if_pos fits, added] at same
    rw [Except.ok.inj same, value]
  · cases added

/-- A sum that comes out has values that come out, and partial sums that are 64-bit integers. -/
theorem fits_of_foldlM {α : Type} {xs : List α} {value : α → Checked Int64} (worth : α → Int)
    (each : ∀ x ∈ xs, ∀ v, value x = .ok v → v.toInt = worth x) {start total : Int64}
    (summed : xs.foldlM (fun balance x => do checkedAdd balance (← value x)) start = .ok total) :
    (∀ x ∈ xs, ∃ v, value x = .ok v) ∧ Fits (start.toInt :: xs.map worth) := by
  induction xs generalizing start with
  | nil =>
    exact ⟨fun _ member => absurd member List.not_mem_nil, fits_singleton.mpr ⟨start.le_toInt, start.toInt_lt⟩⟩
  | cons x xs ih =>
    obtain ⟨first, others⟩ := List.forall_mem_cons.mp each
    rw [List.foldlM_cons] at summed
    obtain ⟨balance, added, summed⟩ := Outcome.bind_eq_ok.mp summed
    obtain ⟨v, evaluated, added⟩ := Outcome.bind_eq_ok.mp added
    obtain ⟨later, fits⟩ := ih others summed
    rw [checked_add_eq_ok added, first v evaluated] at fits
    exact ⟨List.forall_mem_cons.mpr ⟨⟨v, evaluated⟩, later⟩,
      fits_cons_cons.mpr ⟨⟨start.le_toInt, start.toInt_lt⟩, fits⟩⟩

/-- A loop that adds up integers comes out exactly when every partial sum is one. -/
theorem foldlM_checked_add_iff {α : Type} {xs : List α} {value : α → Int64} {start : Int64} :
    (∃ total, xs.foldlM (fun balance x => do checkedAdd balance (← pure (value x))) start = .ok total) ↔
      Fits (start.toInt :: xs.map fun x => (value x).toInt) := by
  constructor
  · rintro ⟨total, summed⟩
    exact (fits_of_foldlM (fun x => (value x).toInt) (fun x _ v same => by rw [← Except.ok.inj same]) summed).2
  · intro fits
    induction xs generalizing start with
    | nil => exact ⟨start, rfl⟩
    | cons x rest ih =>
      rw [List.map_cons, fits_cons_cons] at fits
      have inside := fits_singleton.mp (fits.2.initial ⟨rest.map fun x => (value x).toInt, rfl⟩)
      obtain ⟨balance, added, balance_eq⟩ := checked_add_eq inside.1 inside.2
      rw [← balance_eq] at fits
      obtain ⟨total, summed⟩ := ih fits.2
      exact ⟨total, Outcome.bind_eq_ok.mpr ⟨balance, added, summed⟩⟩

theorem foldlM_checked_add {α : Type} (xs : List α) (value : α → Checked Int64) (worth : α → Int)
    (each : ∀ x ∈ xs, ∃ v, value x = .ok v ∧ v.toInt = worth x) (fits : Fits (xs.map worth)) :
    ∃ total, xs.foldlM (fun balance x => do checkedAdd balance (← value x)) 0 = .ok total ∧
      total.toInt = (xs.map worth).sum := by
  -- The invariant: what is added so far is the sum of the elements that are behind.
  suffices step : ∀ front balance, balance.toInt = front.sum → Fits (front ++ xs.map worth) →
      ∃ total, xs.foldlM (fun balance x => do checkedAdd balance (← value x)) balance = .ok total ∧
        total.toInt = (front ++ xs.map worth).sum from
    step [] 0 (by simp) fits
  clear fits
  induction xs with
  | nil => exact fun front balance behind _ => ⟨balance, rfl, by simpa using behind⟩
  | cons x xs ih =>
    intro front balance behind fits
    obtain ⟨v, evaluated, worthEq⟩ := each x (by simp)
    have next := fits (front ++ [worth x]) ⟨xs.map worth, by simp⟩
    rw [List.sum_append, ← behind, List.sum_singleton, ← worthEq] at next
    obtain ⟨sum, added, sum_eq⟩ := checked_add_eq next.1 next.2
    have split : front ++ (x :: xs).map worth = (front ++ [worth x]) ++ xs.map worth := by simp
    rw [split] at fits ⊢
    obtain ⟨total, rest, totalEq⟩ := ih (fun y member => each y (by simp [member]))
      (front ++ [worth x]) sum (by simp [sum_eq, behind, worthEq]) fits
    exact ⟨total, by simp [evaluated, added, rest], totalEq⟩

end BitcoinNode
