import BitcoinNode.Lib.Outcome

/-! Procedures over shared state. What a procedure wrote before it failed stays written, so
every run has a state, whatever its outcome. -/
namespace BitcoinNode

/-- A procedure over shared state `σ`: what it wrote before failing stays written. -/
structure Proc (σ ε α : Type) where
  run : σ → Outcome ε α × σ

namespace Proc

instance : Monad (Proc σ ε) where
  pure a := ⟨fun s => (.ok a, s)⟩
  bind m f := ⟨fun s => match m.run s with
    | (.ok a, s') => (f a).run s'
    | (.error e, s') => (.error e, s')⟩

def get : Proc σ ε σ := ⟨fun s => (.ok s, s)⟩
def modify (f : σ → σ) : Proc σ ε Unit := ⟨fun s => (.ok (), f s)⟩
def lift (m : Outcome ε α) : Proc σ ε α := ⟨fun s => (m, s)⟩

/-- `for x in xs { f(x)?; }` -/
def each (xs : List α) (f : α → Proc σ ε Unit) : Proc σ ε Unit :=
  match xs with
  | [] => pure ()
  | x :: xs => do
    f x
    each xs f

@[simp] theorem run_pure (a : α) (s : σ) : (pure a : Proc σ ε α).run s = (.ok a, s) := rfl
@[simp] theorem run_get (s : σ) : (get : Proc σ ε σ).run s = (.ok s, s) := rfl
@[simp] theorem run_modify (f : σ → σ) (s : σ) :
    (modify f : Proc σ ε Unit).run s = (.ok (), f s) := rfl
@[simp] theorem run_lift (m : Outcome ε α) (s : σ) : (lift m : Proc σ ε α).run s = (m, s) := rfl
@[simp] theorem run_each_nil (f : α → Proc σ ε Unit) (s : σ) : (each [] f).run s = (.ok (), s) := rfl

theorem run_bind (m : Proc σ ε α) (f : α → Proc σ ε β) (s : σ) :
    (m >>= f).run s = match m.run s with
      | (.ok a, s') => (f a).run s'
      | (.error e, s') => (.error e, s') := rfl

theorem run_bind_ok {m : Proc σ ε α} {s s' : σ} {a : α} (f : α → Proc σ ε β)
    (h : m.run s = (.ok a, s')) : (m >>= f).run s = (f a).run s' := by
  rw [run_bind, h]

theorem run_bind_error {m : Proc σ ε α} {s s' : σ} {e : Failure ε} (f : α → Proc σ ε β)
    (h : m.run s = (.error e, s')) : (m >>= f).run s = (.error e, s') := by
  rw [run_bind, h]

theorem run_bind_eq_ok {m : Proc σ ε α} {f : α → Proc σ ε β} {s s'' : σ} {b : β}
    (ran : (m >>= f).run s = (.ok b, s'')) :
    ∃ a s', m.run s = (.ok a, s') ∧ (f a).run s' = (.ok b, s'') := by
  rw [run_bind] at ran
  rcases first : m.run s with ⟨e | a, s'⟩ <;> rw [first] at ran
  · cases (Prod.mk.inj ran).1
  · exact ⟨a, s', rfl, ran⟩

/-- What comes next only has to agree where it is run. -/
theorem run_bind_congr {m : Proc σ ε α} {f g : α → Proc σ ε β} {s : σ}
    (agree : ∀ a s', m.run s = (.ok a, s') → (f a).run s' = (g a).run s') : (m >>= f).run s = (m >>= g).run s := by
  rw [run_bind, run_bind]
  rcases first : m.run s with ⟨e | a, s'⟩
  · rfl
  · exact agree a s' first

theorem run_eq_of_returns {m : Proc σ ε α} {s : σ} {a : α} (returned : (m.run s).1 = .ok a) :
    m.run s = (.ok a, (m.run s).2) := Prod.ext returned rfl

/-- A loop whose body never fails is a fold. -/
theorem run_each {f : α → Proc σ ε Unit} {g : α → σ → σ} {xs : List α}
    (body : ∀ x ∈ xs, ∀ s, (f x).run s = (.ok (), g x s)) (s : σ) :
    (each xs f).run s = (.ok (), xs.foldl (fun s x => g x s) s) := by
  induction xs generalizing s with
  | nil => rfl
  | cons x xs ih =>
    rw [each, run_bind_ok _ (body x (by simp) s), ih fun y member => body y (by simp [member])]
    rfl

theorem each_ok {f : α → Proc σ ε Unit} {xs : List α} {s s' : σ} (ran : (each xs f).run s = (.ok (), s')) :
    ∀ x ∈ xs, ∃ t t', (f x).run t = (.ok (), t') := by
  induction xs generalizing s with
  | nil => exact fun _ member => absurd member List.not_mem_nil
  | cons x xs ih =>
    obtain ⟨_, t, first, later⟩ := run_bind_eq_ok ran
    exact List.forall_mem_cons.mpr ⟨⟨s, t, first⟩, ih later⟩

/-- A procedure on a part of the state. -/
def zoom (part : σ → τ) (put : τ → σ → σ) (m : Proc τ ε α) : Proc σ ε α :=
  ⟨fun s => ((m.run (part s)).1, put (m.run (part s)).2 s)⟩

@[simp] theorem run_zoom (part : σ → τ) (put : τ → σ → σ) (m : Proc τ ε α) (s : σ) :
    (zoom part put m).run s = ((m.run (part s)).1, put (m.run (part s)).2 s) := rfl

/-- Use of a procedure without errors in one that does have errors. -/
def widen (m : Proc σ Empty α) : Proc σ ε α := ⟨fun s => ((m.run s).1.widen, (m.run s).2)⟩

@[simp] theorem run_widen (m : Proc σ Empty α) (s : σ) :
    (m.widen : Proc σ ε α).run s = ((m.run s).1.widen, (m.run s).2) := rfl

/-- `match m { Ok(..) => .., Err(..) => .. }`; what was written before an error stays written. -/
def attempt (m : Proc σ ε α) : Proc σ ε' (Except ε α) := ⟨fun s => ((m.run s).1.attempt, (m.run s).2)⟩

theorem run_attempt_ok {m : Proc σ ε α} {s s' : σ} {a : α} (ran : m.run s = (.ok a, s')) :
    (m.attempt : Proc σ ε' (Except ε α)).run s = (.ok (.ok a), s') := by
  simp only [attempt, ran, Outcome.attempt]

theorem run_attempt_err {m : Proc σ ε α} {s s' : σ} {e : ε} (ran : m.run s = (.error (.err e), s')) :
    (m.attempt : Proc σ ε' (Except ε α)).run s = (.ok (.error e), s') := by
  simp only [attempt, ran, Outcome.attempt]

/-- `m.map_err(f)` -/
def mapErr (m : Proc σ ε α) (f : ε → ε') : Proc σ ε' α := ⟨fun s => (Outcome.mapErr f (m.run s).1, (m.run s).2)⟩

@[simp] theorem run_map_err (m : Proc σ ε α) (f : ε → ε') (s : σ) :
    (m.mapErr f).run s = (Outcome.mapErr f (m.run s).1, (m.run s).2) := rfl

theorem run_map_err_ok {f : ε → ε'} {m : Proc σ ε α} {s s' : σ} {a : α} (ran : m.run s = (.ok a, s')) :
    (m.mapErr f).run s = (.ok a, s') := by
  rw [run_map_err, ran]
  rfl

/-- `m.unwrap()` -/
def unwrap (m : Proc σ ε α) : Proc σ ε' α := do
  match ← attempt m with
  | .ok a => return a
  | .error _ => lift Outcome.panic

/-- A run from `pre` that returns ends in `post`, and one that fails ends in `fails`. -/
def Triple (pre : σ → Prop) (m : Proc σ ε α) (post : α → σ → Prop) (fails : σ → Prop) : Prop :=
  ∀ s, pre s → match m.run s with
    | (.ok a, s') => post a s'
    | (.error _, s') => fails s'

theorem Triple.pure {pre : σ → Prop} {post : α → σ → Prop} {fails : σ → Prop} {a : α}
    (holds : ∀ s, pre s → post a s) : Triple pre (Pure.pure a : Proc σ ε α) post fails := holds

theorem Triple.get {pre : σ → Prop} {post : σ → σ → Prop} {fails : σ → Prop}
    (holds : ∀ s, pre s → post s s) : Triple pre (Proc.get : Proc σ ε σ) post fails := holds

theorem Triple.modify {pre : σ → Prop} {post : Unit → σ → Prop} {fails : σ → Prop} {f : σ → σ}
    (holds : ∀ s, pre s → post () (f s)) : Triple pre (Proc.modify f : Proc σ ε Unit) post fails :=
  holds

theorem Triple.lift {pre : σ → Prop} {post : α → σ → Prop} {fails : σ → Prop} {m : Outcome ε α}
    (holds : ∀ a s, m = .ok a → pre s → post a s) (failed : ∀ s, pre s → fails s) :
    Triple pre (Proc.lift m) post fails := by
  intro s start
  rw [run_lift]
  cases m with
  | ok a => exact holds a s rfl start
  | error e => exact failed s start

theorem Triple.bind {pre : σ → Prop} {post : β → σ → Prop} {fails : σ → Prop} {m : Proc σ ε α}
    {f : α → Proc σ ε β} (middle : α → σ → Prop) (first : Triple pre m middle fails)
    (rest : ∀ a, Triple (middle a) (f a) post fails) : Triple pre (m >>= f) post fails := by
  intro s start
  have step := first s start
  rw [run_bind]
  rcases ran : m.run s with ⟨e | a, s'⟩ <;> rw [ran] at step
  · exact step
  · exact rest a s' step

/-- An error that is caught is a value, a panic still fails. -/
theorem Triple.attempt {pre : σ → Prop} {post : α → σ → Prop} {errors fails : σ → Prop}
    {m : Proc σ ε α} (body : Triple pre m post errors) (failed : ∀ s, errors s → fails s) :
    Triple pre (m.attempt : Proc σ ε' (Except ε α)) (fun result s =>
      (∀ a, result = .ok a → post a s) ∧ ∀ e, result = .error e → errors s) fails := by
  intro s start
  have step := body s start
  simp only [Proc.attempt]
  rcases ran : m.run s with ⟨(e | _ | _) | a, s'⟩ <;> rw [ran] at step
  · exact ⟨fun _ same => (nomatch same), fun _ _ => step⟩
  · exact failed s' step
  · exact failed s' step
  · exact ⟨fun _ same => Except.ok.inj same ▸ step, fun _ same => (nomatch same)⟩

theorem Triple.returns {pre : σ → Prop} {post : α → σ → Prop} {fails : σ → Prop} {m : Proc σ ε α}
    {s : σ} {a : α} (body : Triple pre m post fails) (start : pre s) (ran : (m.run s).1 = .ok a) :
    post a (m.run s).2 := by
  have done := body s start
  rcases step : m.run s with ⟨result, s'⟩
  rw [step] at ran done
  cases ran
  exact done

theorem Triple.strengthen {pre pre' : σ → Prop} {post : α → σ → Prop} {fails : σ → Prop}
    {m : Proc σ ε α} (body : Triple pre m post fails) (stronger : ∀ s, pre' s → pre s) :
    Triple pre' m post fails := fun s start => body s (stronger s start)

theorem Triple.weaken {pre : σ → Prop} {post post' : α → σ → Prop} {fails : σ → Prop}
    {m : Proc σ ε α} (body : Triple pre m post fails) (weaker : ∀ a s, post a s → post' a s) :
    Triple pre m post' fails := by
  intro s start
  have done := body s start
  rcases ran : m.run s with ⟨e | a, s'⟩ <;> rw [ran] at done
  · exact done
  · exact weaker a s' done

/-- Whatever the outcome, `part` of the state is what it was. -/
def Keeps (part : σ → τ) (m : Proc σ ε α) : Prop := ∀ s, part (m.run s).2 = part s

theorem Keeps.pure {part : σ → τ} (a : α) : Keeps part (Pure.pure a : Proc σ ε α) := fun _ => rfl

theorem Keeps.get {part : σ → τ} : Keeps part (Proc.get : Proc σ ε σ) := fun _ => rfl

theorem Keeps.lift {part : σ → τ} (m : Outcome ε α) : Keeps part (Proc.lift m : Proc σ ε α) :=
  fun _ => rfl

theorem Keeps.modify {part : σ → τ} {f : σ → σ} (same : ∀ s, part (f s) = part s) :
    Keeps part (Proc.modify f : Proc σ ε Unit) := same

theorem Keeps.zoom {part : σ → τ} {get : σ → υ} {put : υ → σ → σ} (m : Proc υ ε α)
    (same : ∀ v s, part (put v s) = part s) : Keeps part (Proc.zoom get put m) := fun s => same _ s

theorem Keeps.bind {part : σ → τ} {m : Proc σ ε α} {f : α → Proc σ ε β} (first : Keeps part m)
    (rest : ∀ a, Keeps part (f a)) : Keeps part (m >>= f) := by
  intro s
  rw [run_bind]
  rcases ran : m.run s with ⟨e | a, s'⟩
  · simpa [ran] using first s
  · have step := first s
    rw [ran] at step
    exact (rest a s').trans step

theorem Keeps.attempt {part : σ → τ} {m : Proc σ ε α} (body : Keeps part m) :
    Keeps part (m.attempt : Proc σ ε' (Except ε α)) := body

theorem Keeps.mapErr {part : σ → τ} {m : Proc σ ε α} (body : Keeps part m) (f : ε → ε') :
    Keeps part (m.mapErr f) := body

theorem Keeps.unwrap {part : σ → τ} {m : Proc σ ε α} (body : Keeps part m) :
    Keeps part (m.unwrap : Proc σ ε' α) := by
  refine .bind body.attempt fun result => ?_
  cases result with
  | ok a => exact .pure a
  | error e => exact .lift _

theorem Keeps.each {part : σ → τ} {xs : List α} {f : α → Proc σ ε Unit}
    (body : ∀ x ∈ xs, Keeps part (f x)) : Keeps part (Proc.each xs f) := by
  induction xs with
  | nil => exact .pure ()
  | cons x xs ih => exact .bind (body x (by simp)) fun _ => ih fun y member => body y (by simp [member])

/-- Whatever the outcome, the state is related to what it was. -/
def Moves (R : σ → σ → Prop) (m : Proc σ ε α) : Prop := ∀ s, R s (m.run s).2

variable {R : σ → σ → Prop}

theorem Moves.get (refl : ∀ s, R s s) : Moves R (Proc.get : Proc σ ε σ) := refl

theorem Moves.pure (refl : ∀ s, R s s) (a : α) : Moves R (Pure.pure a : Proc σ ε α) := refl

theorem Moves.lift (refl : ∀ s, R s s) (m : Outcome ε α) : Moves R (Proc.lift m : Proc σ ε α) := refl

theorem Moves.bind {m : Proc σ ε α} {f : α → Proc σ ε β} (trans : ∀ s s' s'', R s s' → R s' s'' → R s s'')
    (first : Moves R m) (rest : ∀ s a, (m.run s).1 = .ok a → R (m.run s).2 ((f a).run (m.run s).2).2) :
    Moves R (m >>= f) := by
  intro s
  have step := first s
  have later := rest s
  rw [run_bind]
  rcases ran : m.run s with ⟨e | a, s'⟩ <;> rw [ran] at step later
  · exact step
  · exact trans _ _ _ step (later a rfl)

theorem Moves.each {xs : List α} {f : α → Proc σ ε Unit} (refl : ∀ s, R s s)
    (trans : ∀ s s' s'', R s s' → R s' s'' → R s s'') (body : ∀ x ∈ xs, Moves R (f x)) :
    Moves R (Proc.each xs f) := by
  induction xs with
  | nil => exact refl
  | cons x xs ih =>
    have rest := ih fun y member => body y (List.mem_cons_of_mem x member)
    exact .bind trans (body x List.mem_cons_self) fun s _ _ => rest _

end Proc

end BitcoinNode
