import Mathlib.Control.Basic

/-! Results of code that may return an error, panic, or abort the whole process. -/
namespace BitcoinNode

/-- `panic` unwinds one thread; `abort` is recursion without end, which kills the process. -/
inductive Failure (ε : Type) where
  | err (e : ε)
  | panic
  | abort
  deriving DecidableEq, Repr

abbrev Outcome (ε α : Type) := Except (Failure ε) α

/-- A function without an error value still may not return. -/
abbrev Checked (α : Type) := Outcome Empty α

def Failure.widen : Failure Empty → Failure ε
  | .panic => .panic
  | .abort => .abort

namespace Outcome

def fail (e : ε) : Outcome ε α := .error (.err e)
def panic : Outcome ε α := .error .panic
def abort : Outcome ε α := .error .abort

/-- `mapErr`: errors are translated, a panic or an abort stays what it is. -/
def mapErr (f : ε → ε') : Outcome ε α → Outcome ε' α
  | .ok a => .ok a
  | .error (.err e) => fail (f e)
  | .error .panic => panic
  | .error .abort => abort

/-- Use in a function that does have errors. -/
def widen : Checked α → Outcome ε α
  | .ok a => .ok a
  | .error e => .error e.widen

@[simp] theorem widen_ok (a : α) : (widen (.ok a) : Outcome ε α) = .ok a := rfl
@[simp] theorem widen_error (e : Failure Empty) :
    (widen (.error e) : Outcome ε α) = .error e.widen := rfl

theorem widen_eq_ok {m : Checked α} {a : α} : (widen m : Outcome ε α) = .ok a ↔ m = .ok a := by
  cases m <;> simp

@[simp] theorem mapErr_ok (f : ε → ε') (a : α) : mapErr f (.ok a) = .ok a := rfl
@[simp] theorem mapErr_fail (f : ε → ε') (e : ε) :
    mapErr f (fail e : Outcome ε α) = fail (f e) := rfl

@[simp] theorem bind_ok (a : α) (f : α → Outcome ε β) : (Except.ok a >>= f) = f a := rfl
@[simp] theorem bind_error (e : Failure ε) (f : α → Outcome ε β) :
    (Except.error e >>= f) = .error e := rfl
@[simp] theorem pure_eq (a : α) : (pure a : Outcome ε α) = .ok a := rfl

theorem bind_eq_ok {m : Outcome ε α} {f : α → Outcome ε β} {b : β} :
    (m >>= f) = .ok b ↔ ∃ a, m = .ok a ∧ f a = .ok b := by
  cases m <;> simp

/-- Indexing a vector panics outside its bounds. -/
def index (xs : List α) (i : Nat) : Outcome ε α :=
  match xs[i]? with
  | some x => .ok x
  | none => panic

theorem index_eq_ok {xs : List α} {i : Nat} {x : α} :
    (index xs i : Outcome ε α) = .ok x ↔ xs[i]? = some x := by
  cases h : xs[i]? <;> simp [index, h, panic]

theorem index_of_lt (xs : List α) (i : Nat) (h : i < xs.length) :
    (index xs i : Outcome ε α) = .ok xs[i] := index_eq_ok.mpr (List.getElem?_eq_getElem h)

/-- Assigning to a position of an array, with the same bounds check. -/
def assign (xs : List α) (i : Nat) (x : α) : Outcome ε (List α) :=
  if i < xs.length then .ok (xs.set i x) else panic

/-- `match` on a `Result`, which neither a panic nor an abort reaches. -/
def attempt : Outcome ε α → Outcome ε' (Except ε α)
  | .ok a => .ok (.ok a)
  | .error (.err e) => .ok (.error e)
  | .error .panic => panic
  | .error .abort => abort

/-- `for x in xs { if let Some(y) = f(x)? { v.push(y) } }` -/
def collect (f : α → Outcome ε (Option β)) (xs : List α) : Outcome ε (List β) :=
  xs.foldlM (fun v x => do
    match ← f x with
    | some y => return v ++ [y]
    | none => return v) []

theorem collect_eq {f : α → Outcome ε (Option β)} {g : α → Option β} {xs : List α}
    (each : ∀ x ∈ xs, f x = .ok (g x)) : collect f xs = .ok (xs.filterMap g) := by
  suffices step : ∀ v, xs.foldlM (fun v x => do
      match ← f x with
      | some y => return v ++ [y]
      | none => return v) v = .ok (v ++ xs.filterMap g) from step []
  induction xs with
  | nil => simp
  | cons x xs ih =>
    intro v
    have rest := ih fun y member => each y (by simp [member])
    rw [List.foldlM_cons, each x (by simp)]
    cases kept : g x with
    | none => rw [List.filterMap_cons_none kept]; exact rest v
    | some y => rw [List.filterMap_cons_some kept, List.append_cons]; exact rest (v ++ [y])

/-- If nothing but panics goes wrong, one panic decides the result. -/
theorem collect_panic {f : α → Outcome ε (Option β)} {xs : List α} {x : α}
    (total : ∀ x ∈ xs, f x = panic ∨ ∃ y, f x = .ok y) (member : x ∈ xs) (panics : f x = panic) :
    collect f xs = panic := by
  suffices step : ∀ v, xs.foldlM (fun v x => do
      match ← f x with
      | some y => return v ++ [y]
      | none => return v) v = panic from step []
  induction xs with
  | nil => exact absurd member List.not_mem_nil
  | cons first rest ih =>
    intro v
    rw [List.foldlM_cons]
    rcases total first (by simp) with here | ⟨y, read⟩
    · rw [here]
      rfl
    · have later : x ∈ rest := (List.mem_cons.mp member).resolve_left fun same => by
        rw [same, read] at panics
        cases panics
      have others := ih (fun x inside => total x (by simp [inside])) later
      rw [read]
      cases y with
      | none => exact others v
      | some y => exact others (v ++ [y])

theorem mem_of_collect {f : α → Outcome ε (Option β)} {xs : List α} {ys : List β}
    (collected : collect f xs = .ok ys) : ∀ y ∈ ys, ∃ x ∈ xs, f x = .ok (some y) := by
  suffices step : ∀ v ys, xs.foldlM (fun v x => do
      match ← f x with
      | some y => return v ++ [y]
      | none => return v) v = .ok ys → ∀ y ∈ ys, y ∈ v ∨ ∃ x ∈ xs, f x = .ok (some y) from
    fun y member => (step [] ys collected y member).resolve_left List.not_mem_nil
  clear collected ys
  induction xs with
  | nil =>
    intro v ys done y member
    cases done
    exact .inl member
  | cons x rest ih =>
    intro v ys done y member
    rw [List.foldlM_cons] at done
    obtain ⟨v', stepped, done⟩ := bind_eq_ok.mp done
    obtain ⟨result, evaluated, pushed⟩ := bind_eq_ok.mp stepped
    rcases ih v' ys done y member with behind | ⟨x', ahead, same⟩
    · cases result with
      | none =>
        cases pushed
        exact .inl behind
      | some z =>
        cases pushed
        rcases List.mem_append.mp behind with before | last
        · exact .inl before
        · rw [List.mem_singleton.mp last]
          exact .inr ⟨x, by simp, evaluated⟩
    · exact .inr ⟨x', by simp [ahead], same⟩

theorem forM_eq_ok {f : α → Outcome ε Unit} {xs : List α} :
    xs.forM f = .ok () ↔ ∀ x ∈ xs, f x = .ok () := by
  induction xs with
  | nil => simp
  | cons x rest ih =>
    rw [List.forM_eq_forM, List.forM_cons, bind_eq_ok, List.forall_mem_cons, ← ih]
    exact ⟨fun ⟨_, first, others⟩ => ⟨first, others⟩, fun ⟨first, others⟩ => ⟨(), first, others⟩⟩

theorem mapM_eq_ok {f : α → Outcome ε β} {P : β → Prop} {xs : List α}
    (each : ∀ x ∈ xs, ∃ y, f x = .ok y ∧ P y) : ∃ ys, xs.mapM f = .ok ys ∧ ∀ y ∈ ys, P y := by
  induction xs with
  | nil => exact ⟨[], rfl, by simp⟩
  | cons x rest ih =>
    obtain ⟨⟨y, evaluated, holds⟩, others⟩ := List.forall_mem_cons.mp each
    obtain ⟨ys, mapped, all⟩ := ih others
    exact ⟨y :: ys, by simp [List.mapM_cons, evaluated, mapped], List.forall_mem_cons.mpr ⟨holds, all⟩⟩

theorem mapM_length {f : α → Outcome ε β} {xs : List α} {ys : List β}
    (mapped : xs.mapM f = .ok ys) : ys.length = xs.length := by
  induction xs generalizing ys with
  | nil =>
    cases mapped
    rfl
  | cons x rest ih =>
    rw [List.mapM_cons] at mapped
    obtain ⟨y, _, mapped⟩ := Outcome.bind_eq_ok.mp mapped
    obtain ⟨others, later, same⟩ := Outcome.bind_eq_ok.mp mapped
    cases same
    rw [List.length_cons, ih later, List.length_cons]

theorem mapM_map_iff {f : α → Outcome ε β} {g : β → γ} {h : α → γ} {xs : List α} :
    (∃ ys, xs.mapM f = .ok ys ∧ ys.map g = xs.map h) ↔ ∀ x ∈ xs, ∃ y, f x = .ok y ∧ g y = h x := by
  induction xs with
  | nil => exact iff_of_true ⟨[], rfl, rfl⟩ fun _ member => absurd member List.not_mem_nil
  | cons x rest ih =>
    rw [List.forall_mem_cons, ← ih, List.mapM_cons]
    constructor
    · rintro ⟨ys, mapped, same⟩
      obtain ⟨y, evaluated, mapped⟩ := bind_eq_ok.mp mapped
      obtain ⟨others, later, listed⟩ := bind_eq_ok.mp mapped
      obtain rfl := Except.ok.inj listed
      obtain ⟨first, behind⟩ := List.cons.inj same
      exact ⟨⟨y, evaluated, first⟩, others, later, behind⟩
    · rintro ⟨⟨y, evaluated, first⟩, others, later, behind⟩
      refine ⟨y :: others, by rw [evaluated, bind_ok, later]; rfl, ?_⟩
      rw [List.map_cons, first, behind, List.map_cons]

theorem mapM_getElem {f : α → Outcome ε β} {xs : List α} {ys : List β} (mapped : xs.mapM f = .ok ys)
    {i : Nat} {x : α} (here : xs[i]? = some x) : ∃ y, ys[i]? = some y ∧ f x = .ok y := by
  induction xs generalizing ys i with
  | nil => simp at here
  | cons first rest ih =>
    rw [List.mapM_cons] at mapped
    obtain ⟨y, evaluated, mapped⟩ := Outcome.bind_eq_ok.mp mapped
    obtain ⟨others, later, same⟩ := Outcome.bind_eq_ok.mp mapped
    cases same
    cases i with
    | zero =>
      obtain rfl := Option.some.inj here
      exact ⟨y, rfl, evaluated⟩
    | succ i => exact ih later here

end Outcome

end BitcoinNode
