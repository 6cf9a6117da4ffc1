import BitcoinNode.Lib.Proc

/-! Loops that need not end. A loop is given a number of rounds; it ends if some number of them is enough. -/
namespace BitcoinNode.Proc

/-- `while more(s) { body }`, in so many rounds at most. -/
def loop (more : σ → Prop) [DecidablePred more] (body : Proc σ ε α) : (rounds : Nat) → Proc σ ε Unit
  | 0 => Proc.lift Outcome.abort
  | rounds + 1 => do
    let s ← Proc.get
    if more s then do
      let _ ← body
      loop more body rounds
    else return ()

variable {more : σ → Prop} [DecidablePred more] {body : Proc σ ε α} {s : σ}

theorem run_loop_done (done : ¬more s) (rounds : Nat) : (loop more body (rounds + 1)).run s = (.ok (), s) := by
  rw [loop, run_bind_ok _ (run_get s), if_neg done, run_pure]

theorem run_loop_round {a : α} {s' : σ} (going : more s) (ran : body.run s = (.ok a, s')) (rounds : Nat) :
    (loop more body (rounds + 1)).run s = (loop more body rounds).run s' := by
  rw [loop, run_bind_ok _ (run_get s), if_pos going, run_bind_ok _ ran]

/-- Every round keeps the invariant and makes the measure smaller. -/
theorem loop_ends {inv : σ → Prop} (measure : σ → Nat)
    (round : ∀ s, inv s → more s → ∃ a s', body.run s = (.ok a, s') ∧ inv s' ∧ measure s' < measure s)
    (start : inv s) : ∃ rounds s', (loop more body rounds).run s = (.ok (), s') ∧ inv s' ∧ ¬more s' := by
  induction left : measure s using Nat.strongRecOn generalizing s with
  | ind n ih =>
    by_cases going : more s
    · obtain ⟨a, t, ran, kept, smaller⟩ := round s start going
      obtain ⟨rounds, s', returned, last⟩ := ih (measure t) (left ▸ smaller) kept rfl
      exact ⟨rounds + 1, s', by rw [run_loop_round going ran, returned], last⟩
    · exact ⟨1, s, run_loop_done going 0, start, going⟩

/-- Every round keeps an invariant under which there is a next round. -/
theorem loop_endless {inv : σ → Prop} (round : ∀ s, inv s → more s ∧ ∃ a s', body.run s = (.ok a, s') ∧ inv s')
    (start : inv s) (rounds : Nat) : ((loop more body rounds).run s).1 = Outcome.abort := by
  induction rounds generalizing s with
  | zero => rfl
  | succ rounds ih =>
    obtain ⟨going, a, s', ran, kept⟩ := round s start
    rw [run_loop_round going ran, ih kept]

end BitcoinNode.Proc
