import BitcoinNode.Lib.Runs
import Mathlib.Logic.Function.Basic

/-! Two threads of atomic steps over one state. If one of them never makes a step that notices what
the other has still to do, the outcome is that of the one thread after the other. -/
namespace BitcoinNode

/-- A thread asks for a step and goes on with its answer. -/
inductive Thread (ℓ ρ α : Type) where
  | done (result : α)
  | call (access : ℓ) (next : ρ → Thread ℓ ρ α)

namespace Thread

def run (act : ℓ → σ → ρ × σ) : Thread ℓ ρ α → σ → α × σ
  | .done result, s => (result, s)
  | .call access next, s => (next (act access s).1).run act (act access s).2

/-- How many steps it takes alone. -/
def steps (act : ℓ → σ → ρ × σ) : Thread ℓ ρ α → σ → Nat
  | .done _, _ => 0
  | .call access next, s => (next (act access s).1).steps act (act access s).2 + 1

/-- Every step that the thread may still make meets `P`, whatever the answers are. -/
def All (P : ℓ → Prop) : Thread ℓ ρ α → Prop
  | .done _ => True
  | .call access next => P access ∧ ∀ answer, (next answer).All P

@[simp] theorem all_done {P : ℓ → Prop} {result : α} : (done result : Thread ℓ ρ α).All P := trivial

@[simp] theorem all_call {P : ℓ → Prop} {access : ℓ} {next : ρ → Thread ℓ ρ α} :
    (call access next).All P ↔ P access ∧ ∀ answer, (next answer).All P := Iff.rfl

theorem All.imp {P Q : ℓ → Prop} {t : Thread ℓ ρ α} (all : t.All P) (weaker : ∀ access, P access → Q access) :
    t.All Q := by
  induction t with
  | done => trivial
  | call access next ih => exact ⟨weaker access all.1, fun answer => ih answer (all.2 answer)⟩

theorem All.and {P Q : ℓ → Prop} {t : Thread ℓ ρ α} (all : t.All P) (others : t.All Q) :
    t.All fun access => P access ∧ Q access := by
  induction t with
  | done => trivial
  | call access next ih =>
    exact ⟨⟨all.1, others.1⟩, fun answer => ih answer (all.2 answer) (others.2 answer)⟩

theorem run_keeps {act : ℓ → σ → ρ × σ} {P : σ → Prop} {t : Thread ℓ ρ α}
    (keeps : t.All fun access => ∀ s, P s → P (act access s).2) {s : σ} (start : P s) :
    P (t.run act s).2 := by
  induction t generalizing s with
  | done => exact start
  | call access next ih => exact ih _ (keeps.2 _) (keeps.1 s start)

/-- Two steps that do not notice each other. -/
structure Commute (act : ℓ → σ → ρ × σ) (access access' : ℓ) : Prop where
  state : ∀ s, (act access (act access' s).2).2 = (act access' (act access s).2).2
  answer : ∀ s, (act access (act access' s).2).1 = (act access s).1
  answer' : ∀ s, (act access' (act access s).2).1 = (act access' s).1

theorem Commute.symm {act : ℓ → σ → ρ × σ} {access access' : ℓ} (commute : Commute act access access') :
    Commute act access' access := ⟨fun s => (commute.state s).symm, commute.answer', commute.answer⟩

/-- A step that only reads commutes with every step that it does not see. -/
theorem Commute.of_read {act : ℓ → σ → ρ × σ} {access access' : ℓ} (reads : ∀ s, (act access s).2 = s)
    (unseen : ∀ s, (act access (act access' s).2).1 = (act access s).1) : Commute act access access' :=
  ⟨fun s => by rw [reads, reads], unseen, fun s => by rw [reads]⟩

/-- The step may as well be made after the thread has run. -/
structure Past (act : ℓ → σ → ρ × σ) (t : Thread ℓ ρ α) (access : ℓ) (s : σ) : Prop where
  run : t.run act (act access s).2 = ((t.run act s).1, (act access (t.run act s).2).2)
  answer : (act access (t.run act s).2).1 = (act access s).1

theorem Past.of_commute {act : ℓ → σ → ρ × σ} {t : Thread ℓ ρ α} {access : ℓ}
    (commute : t.All fun later => Commute act later access) (s : σ) : Past act t access s := by
  induction t generalizing s with
  | done => exact ⟨rfl, rfl⟩
  | call first next ih =>
    obtain ⟨step, others⟩ := commute
    have rest := ih (act first s).1 (others _) (act first s).2
    constructor
    · rw [Thread.run, step.answer, step.state]
      exact rest.run
    · exact rest.answer.trans (step.answer' s)

end Thread

/-- Two threads and the state they share. -/
structure Pair (ℓ ρ α σ : Type) where
  threads : Bool → Thread ℓ ρ α
  state : σ

namespace Pair

/-- One thread makes its next step. -/
def step (act : ℓ → σ → ρ × σ) (p : Pair ℓ ρ α σ) (side : Bool) : Pair ℓ ρ α σ :=
  match p.threads side with
  | .done _ => p
  | .call access next =>
    ⟨Function.update p.threads side (next (act access p.state).1), (act access p.state).2⟩

def Finished (p : Pair ℓ ρ α σ) : Prop := ∀ side, ∃ result, p.threads side = .done result

/-- A step of the thread that is not the leader may be made after the leader has run. -/
def Yields (act : ℓ → σ → ρ × σ) (leader : Bool) (p : Pair ℓ ρ α σ) (side : Bool) : Prop :=
  side ≠ leader → ∀ access next, p.threads side = .call access next →
    (p.threads leader).Past act access p.state

theorem step_done {act : ℓ → σ → ρ × σ} {p : Pair ℓ ρ α σ} {side : Bool} {result : α}
    (finished : p.threads side = .done result) : p.step act side = p := by
  rw [step, finished]

theorem step_call {act : ℓ → σ → ρ × σ} {p : Pair ℓ ρ α σ} {side : Bool} {access : ℓ}
    {next : ρ → Thread ℓ ρ α} (asks : p.threads side = .call access next) :
    p.step act side =
      ⟨Function.update p.threads side (next (act access p.state).1), (act access p.state).2⟩ := by
  rw [step, asks]

/-- What every step of a thread meets, every step it may still make after some steps meets. -/
theorem all_step {act : ℓ → σ → ρ × σ} {P : ℓ → Prop} {p : Pair ℓ ρ α σ} {side other : Bool}
    (all : (p.threads other).All P) : ((p.step act side).threads other).All P := by
  rcases asks : p.threads side with result | ⟨access, next⟩
  · rwa [step_done asks]
  rw [step_call asks]
  by_cases same : other = side
  · subst same
    rw [asks] at all
    simpa only [Function.update_self] using all.2 _
  · simpa only [Function.update_of_ne same] using all

theorem execute_alone {act : ℓ → σ → ρ × σ} {p : Pair ℓ ρ α σ} {side : Bool} {t : Thread ℓ ρ α}
    (here : p.threads side = t) :
    execute (step act) p (List.replicate (t.steps act p.state) side) =
      ⟨Function.update p.threads side (.done (t.run act p.state).1), (t.run act p.state).2⟩ := by
  induction t generalizing p with
  | done result => rw [Thread.steps, Thread.run, ← here, Function.update_eq_self]; rfl
  | call access next ih =>
    have rest := ih (act access p.state).1
      (p := ⟨Function.update p.threads side (next (act access p.state).1), (act access p.state).2⟩)
      (Function.update_self ..)
    rw [Thread.steps, List.replicate_succ, execute_cons, step_call here, rest, Thread.run,
      Function.update_idem]

/-- Under any schedule to the end, a thread that yields to the other comes out as run after it. -/
theorem serial {act : ℓ → σ → ρ × σ} {leader : Bool} {p : Pair ℓ ρ α σ} {schedule : List Bool}
    (yields : EachCall (step act) (Yields act leader) p schedule)
    (finished : (execute (step act) p schedule).Finished) :
    (execute (step act) p schedule).state =
      ((p.threads !leader).run act ((p.threads leader).run act p.state).2).2 := by
  induction schedule generalizing p with
  | nil =>
    obtain ⟨result, led⟩ := finished leader
    obtain ⟨result', followed⟩ := finished !leader
    rw [execute_nil] at led followed
    rw [led, followed]
    rfl
  | cons side schedule ih =>
    obtain ⟨first, others⟩ := eachCall_cons.mp yields
    rw [execute_cons] at finished ⊢
    rw [ih others finished]
    rcases asks : p.threads side with result | ⟨access, next⟩
    · rw [step_done asks]
    rw [step_call asks]
    by_cases led : side = leader
    · subst led
      have other : (!side) ≠ side := by cases side <;> decide
      simp only [Function.update_self, Function.update_of_ne other, asks, Thread.run]
    · have other : side = !leader := by cases side <;> cases leader <;> simp_all
      subst other
      have past := first led access next asks
      simp only [Function.update_self, Function.update_of_ne (Ne.symm led), asks, Thread.run, past.run,
        past.answer]

section Project

variable {act : ℓ → σ → ρ × σ} {act' : ℓ → τ → ρ × τ} {view : σ → τ} {Good : σ → Prop} {Safe : ℓ → Prop}

theorem run_project
    (sim : ∀ access s, Safe access → Good s → (act access s).1 = (act' access (view s)).1 ∧
      view (act access s).2 = (act' access (view s)).2 ∧ Good (act access s).2)
    {t : Thread ℓ ρ α} (safe : t.All Safe) {s : σ} (good : Good s) :
    (t.run act s).1 = (t.run act' (view s)).1 ∧ view (t.run act s).2 = (t.run act' (view s)).2 ∧
      Good (t.run act s).2 := by
  induction t generalizing s with
  | done => exact ⟨rfl, rfl, good⟩
  | call access next ih =>
    obtain ⟨answer, state, good'⟩ := sim access s safe.1 good
    have rest := ih (act access s).1 (safe.2 _) good'
    rw [state, answer] at rest
    rw [Thread.run, Thread.run, answer]
    exact rest

def project (view : σ → τ) (p : Pair ℓ ρ α σ) : Pair ℓ ρ α τ := ⟨p.threads, view p.state⟩

theorem execute_project
    (sim : ∀ access s, Safe access → Good s → (act access s).1 = (act' access (view s)).1 ∧
      view (act access s).2 = (act' access (view s)).2 ∧ Good (act access s).2)
    {p : Pair ℓ ρ α σ} (safe : ∀ side, (p.threads side).All Safe) (good : Good p.state)
    (schedule : List Bool) :
    (execute (step act) p schedule).project view = execute (step act') (p.project view) schedule := by
  induction schedule generalizing p with
  | nil => rfl
  | cons side schedule ih =>
    rw [execute_cons, execute_cons]
    rcases asks : p.threads side with result | ⟨access, next⟩
    · have asks' : (p.project view).threads side = .done result := asks
      rw [step_done asks, step_done asks', ih safe good]
    · have asks' : (p.project view).threads side = .call access next := asks
      have here := safe side
      rw [asks] at here
      obtain ⟨answer, state, good'⟩ := sim access p.state here.1 good
      have step' : (p.step act side).project view = (p.project view).step act' side := by
        rw [step_call asks, step_call asks', project, answer, state]
        rfl
      rw [← step', ih fun other => all_step (safe other)]
      rwa [step_call asks]

end Project

end Pair

end BitcoinNode
