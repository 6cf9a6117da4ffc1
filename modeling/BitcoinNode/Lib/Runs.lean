import Mathlib.Data.List.Basic

/-! Runs of a state machine with total steps, and what holds in every state they reach. -/
namespace BitcoinNode

def execute (step : σ → γ → σ) (s : σ) (calls : List γ) : σ := calls.foldl step s

/-- `P` holds at the start and after every call. -/
def Throughout (step : σ → γ → σ) (P : σ → Prop) (s : σ) (calls : List γ) : Prop :=
  ∀ before, before <+: calls → P (execute step s before)

/-- Every call meets `Q` in the state it is made in. -/
def EachCall (step : σ → γ → σ) (Q : σ → γ → Prop) (s : σ) (calls : List γ) : Prop :=
  ∀ before call after, calls = before ++ call :: after → Q (execute step s before) call

theorem exists_split_cons {P : List α → α → Prop} {first : α} {rest : List α} :
    (∃ before x after, first :: rest = before ++ x :: after ∧ P before x) ↔
      P [] first ∨ ∃ before x after, rest = before ++ x :: after ∧ P (first :: before) x := by
  constructor
  · rintro ⟨_ | ⟨y, before⟩, x, after, shape, holds⟩
    · obtain ⟨rfl, rfl⟩ := List.cons.inj shape
      exact .inl holds
    · obtain ⟨rfl, rfl⟩ := List.cons.inj shape
      exact .inr ⟨before, x, after, rfl, holds⟩
  · rintro (holds | ⟨before, x, after, rfl, holds⟩)
    · exact ⟨[], first, rest, rfl, holds⟩
    · exact ⟨first :: before, x, after, rfl, holds⟩

theorem forall_split_cons {P : List α → α → Prop} {first : α} {rest : List α} :
    (∀ before x after, first :: rest = before ++ x :: after → P before x) ↔
      P [] first ∧ ∀ before x after, rest = before ++ x :: after → P (first :: before) x := by
  constructor
  · intro all
    exact ⟨all [] first rest rfl, fun before x after shape => all (first :: before) x after (by rw [shape]; rfl)⟩
  · rintro ⟨here, later⟩ (_ | ⟨y, before⟩) x after shape
    · obtain ⟨rfl, rfl⟩ := List.cons.inj shape
      exact here
    · obtain ⟨rfl, same⟩ := List.cons.inj shape
      exact later before x after same

variable {step : σ → γ → σ}

@[simp] theorem execute_nil (s : σ) : execute step s [] = s := rfl

@[simp] theorem execute_cons (s : σ) (call : γ) (calls : List γ) :
    execute step s (call :: calls) = execute step (step s call) calls := rfl

theorem execute_append (s : σ) (calls more : List γ) :
    execute step s (calls ++ more) = execute step (execute step s calls) more := List.foldl_append

@[simp] theorem throughout_nil {P : σ → Prop} {s : σ} : Throughout step P s [] ↔ P s := by
  simp [Throughout]

theorem throughout_cons {P : σ → Prop} {s : σ} {call : γ} {calls : List γ} :
    Throughout step P s (call :: calls) ↔ P s ∧ Throughout step P (step s call) calls := by
  constructor
  · intro always
    refine ⟨always [] (List.nil_prefix), fun before inside => ?_⟩
    exact always (call :: before) (List.cons_prefix_cons.mpr ⟨rfl, inside⟩)
  · rintro ⟨start, rest⟩ before inside
    cases before with
    | nil => exact start
    | cons c before =>
      obtain ⟨rfl, tail⟩ := List.cons_prefix_cons.mp inside
      exact rest before tail

@[simp] theorem eachCall_nil {Q : σ → γ → Prop} {s : σ} : EachCall step Q s [] := by
  simp [EachCall]

theorem eachCall_cons {Q : σ → γ → Prop} {s : σ} {call : γ} {calls : List γ} :
    EachCall step Q s (call :: calls) ↔ Q s call ∧ EachCall step Q (step s call) calls :=
  @forall_split_cons _ (fun before c => Q (execute step s before) c) call calls

/-- If a step keeps `P` exactly when it meets `Q`, a run keeps `P` exactly when each step does. -/
theorem throughout_iff {P : σ → Prop} {Q : σ → γ → Prop}
    (one : ∀ s call, P s → (P (step s call) ↔ Q s call)) {s : σ} {calls : List γ} :
    Throughout step P s calls ↔ P s ∧ EachCall step Q s calls := by
  induction calls generalizing s with
  | nil => simp
  | cons call calls ih =>
    rw [throughout_cons, eachCall_cons, ih]
    refine and_congr_right fun start => and_congr_left fun _ => one s call start

/-- An invariant of every step holds throughout every run. -/
theorem Throughout.of_step {P : σ → Prop} (keeps : ∀ s call, P s → P (step s call)) {s : σ}
    (start : P s) (calls : List γ) : Throughout step P s calls :=
  (throughout_iff (Q := fun _ _ => True) fun s call holds => iff_of_true (keeps s call holds) trivial).mpr
    ⟨start, fun _ _ _ _ => trivial⟩

/-- What a step keeps where it meets `Q` holds throughout a run whose steps all meet it. -/
theorem Throughout.of_each {P : σ → Prop} {Q : σ → γ → Prop}
    (keeps : ∀ s call, P s → Q s call → P (step s call)) {s : σ} (start : P s) {calls : List γ}
    (each : EachCall step Q s calls) : Throughout step P s calls := by
  induction calls generalizing s with
  | nil => exact throughout_nil.mpr start
  | cons call calls ih =>
    obtain ⟨first, rest⟩ := eachCall_cons.mp each
    exact throughout_cons.mpr ⟨start, ih (keeps s call start first) rest⟩

theorem Throughout.imp {P P' : σ → Prop} (implies : ∀ s, P s → P' s) {s : σ} {calls : List γ}
    (always : Throughout step P s calls) : Throughout step P' s calls :=
  fun before inside => implies _ (always before inside)

theorem eachCall_of_forall {Q : σ → γ → Prop} {calls : List γ} (all : ∀ call ∈ calls, ∀ s, Q s call) (s : σ) :
    EachCall step Q s calls := by
  rintro before call after rfl
  exact all call (by simp) _

theorem eachCall_append {Q : σ → γ → Prop} {s : σ} {calls more : List γ} :
    EachCall step Q s (calls ++ more) ↔ EachCall step Q s calls ∧ EachCall step Q (execute step s calls) more := by
  induction calls generalizing s with
  | nil => simp
  | cons call calls ih => rw [List.cons_append, eachCall_cons, eachCall_cons, ih, and_assoc, execute_cons]

end BitcoinNode
