import Mathlib.Data.List.Nodup
import Mathlib.Logic.Function.Basic

/-! Ledgers of indexed outputs. An event spends outputs of other events and then stores its own
under its key, over whatever was there. What a ledger holds is decided by the last event of a
key and the spends after it. -/
namespace BitcoinNode.Ledger

structure Event (κ α : Type) where
  key : κ
  outs : List α
  spends : List (κ × Nat)

/-- The outputs still held under a key, each with its position in the event that made it. -/
abbrev State (κ α : Type) := κ → Option (List (α × Nat))

def empty : State κ α := fun _ => none

def erase (index : Nat) (outs : List (α × Nat)) : List (α × Nat) := outs.eraseP (·.2 = index)

section Run

variable [DecidableEq κ]

def spend (s : State κ α) (p : κ × Nat) : State κ α :=
  Function.update s p.1 ((s p.1).map (erase p.2))

def apply (s : State κ α) (e : Event κ α) : State κ α :=
  Function.update (e.spends.foldl spend s) e.key (some e.outs.zipIdx)

def run (s : State κ α) (es : List (Event κ α)) : State κ α := es.foldl apply s

end Run

def Spent (es : List (Event κ α)) (key : κ) (index : Nat) : Prop := ∃ e ∈ es, (key, index) ∈ e.spends

instance [DecidableEq κ] (es : List (Event κ α)) (key : κ) (index : Nat) :
    Decidable (Spent es key index) := inferInstanceAs (Decidable (∃ e ∈ es, (key, index) ∈ e.spends))

@[simp] theorem not_spent_nil (key : κ) (index : Nat) : ¬Spent ([] : List (Event κ α)) key index := by
  simp [Spent]

@[simp] theorem spent_cons (e : Event κ α) (es : List (Event κ α)) (key : κ) (index : Nat) :
    Spent (e :: es) key index ↔ (key, index) ∈ e.spends ∨ Spent es key index := by
  simp [Spent]

theorem spent_append {es es' : List (Event κ α)} {key : κ} {index : Nat} :
    Spent (es ++ es') key index ↔ Spent es key index ∨ Spent es' key index := by
  simp [Spent, or_and_right, exists_or]

/-- No event from `es` stores under `key`. -/
def Silent (es : List (Event κ α)) (key : κ) : Prop := ∀ e ∈ es, e.key ≠ key

/-- Positions under a key are distinct, so erasing removes the only entry there is. -/
def Indexed (outs : List (α × Nat)) : Prop := (outs.map Prod.snd).Nodup

theorem Indexed.filter {outs : List (α × Nat)} (indexed : Indexed outs) (p : α × Nat → Bool) :
    Indexed (outs.filter p) := indexed.sublist (List.filter_sublist.map _)

theorem Indexed.zipIdx (outs : List α) : Indexed outs.zipIdx := by
  rw [Indexed, List.zipIdx_map_snd]
  exact List.nodup_range'

theorem erase_eq_filter {outs : List (α × Nat)} (indexed : Indexed outs) (index : Nat) :
    erase index outs = outs.filter (·.2 ≠ index) := by
  induction outs with
  | nil => rfl
  | cons o outs ih =>
    obtain ⟨fresh, rest⟩ := List.nodup_cons.mp indexed
    by_cases here : o.2 = index
    · have others : ∀ o' ∈ outs, o'.2 ≠ index := fun o' member same =>
        fresh (List.mem_map.mpr ⟨o', member, same.trans here.symm⟩)
      simpa [erase, here] using (List.filter_eq_self.mpr (by simpa using others)).symm
    · have tail := ih rest
      rw [erase] at tail ⊢
      simp [here, tail]

section Run

variable [DecidableEq κ]

theorem foldl_spend (ps : List (κ × Nat)) (s : State κ α) (key : κ)
    (indexed : ∀ outs ∈ s key, Indexed outs) :
    (ps.foldl spend s) key = (s key).map (·.filter fun o => (key, o.2) ∉ ps) := by
  induction ps generalizing s with
  | nil => simp
  | cons p ps ih =>
    by_cases here : p.1 = key
    · subst here
      cases held : s p.1 with
      | none => rw [List.foldl_cons, ih _ (by simp [spend, held])]; simp [spend, held]
      | some outs =>
        have first := erase_eq_filter (indexed outs held) p.2
        rw [List.foldl_cons, ih _ (by simpa [spend, held, first] using (indexed outs held).filter _)]
        simp only [spend, held, first, Function.update_self, Option.map_some, List.filter_filter]
        congr 1
        exact List.filter_congr fun o _ => by simp [Prod.ext_iff, Bool.and_comm]
    · have other : spend s p key = s key := Function.update_of_ne (Ne.symm here) _ _
      rw [List.foldl_cons, ih _ (by rwa [other]), other]
      simp [Prod.ext_iff, Ne.symm here]

@[simp] theorem run_nil (s : State κ α) : run s [] = s := rfl

@[simp] theorem run_cons (s : State κ α) (e : Event κ α) (es : List (Event κ α)) :
    run s (e :: es) = run (apply s e) es := rfl

theorem run_append (s : State κ α) (es es' : List (Event κ α)) :
    run s (es ++ es') = run (run s es) es' := List.foldl_append

theorem apply_same (s : State κ α) (e : Event κ α) : apply s e e.key = some e.outs.zipIdx := by
  simp [apply]

theorem apply_of_ne {s : State κ α} {e : Event κ α} {key : κ} (other : e.key ≠ key)
    (indexed : ∀ outs ∈ s key, Indexed outs) :
    apply s e key = (s key).map (·.filter fun o => (key, o.2) ∉ e.spends) := by
  rw [apply, Function.update_of_ne (Ne.symm other), foldl_spend _ _ _ indexed]

/-- Without a new event of its key, an entry only loses what is spent. -/
theorem run_silent {es : List (Event κ α)} {key : κ} (silent : Silent es key) (s : State κ α)
    (indexed : ∀ outs ∈ s key, Indexed outs) :
    run s es key = (s key).map (·.filter fun o => ¬Spent es key o.2) := by
  induction es generalizing s with
  | nil => simp
  | cons e es ih =>
    have step := apply_of_ne (silent e (by simp)) indexed
    have next : ∀ outs ∈ apply s e key, Indexed outs := by
      rw [step]
      intro _ left
      obtain ⟨outs, held, rfl⟩ := Option.map_eq_some_iff.mp left
      exact (indexed outs held).filter _
    rw [run_cons, ih (fun e' member => silent e' (List.mem_cons_of_mem _ member)) _ next, step,
      Option.map_map]
    congr 1
    funext outs
    simp only [Function.comp, List.filter_filter]
    exact List.filter_congr fun o _ => by simp [Bool.and_comm]

theorem run_last {before after : List (Event κ α)} {e : Event κ α} (last : Silent after e.key)
    (s : State κ α) : run s (before ++ e :: after) e.key =
      some (e.outs.zipIdx.filter fun o => ¬Spent after e.key o.2) := by
  have stored := apply_same (run s before) e
  rw [run_append, run_cons, run_silent last _ (by simpa [stored] using Indexed.zipIdx e.outs), stored]
  rfl

theorem run_empty_of_silent {es : List (Event κ α)} {key : κ} (silent : Silent es key) :
    run empty es key = none := by
  rw [run_silent silent _ (by simp [empty])]
  rfl

theorem exists_last {es : List (Event κ α)} {key : κ} (present : ¬Silent es key) :
    ∃ before e after, es = before ++ e :: after ∧ e.key = key ∧ Silent after key := by
  induction es with
  | nil => simp [Silent] at present
  | cons e es ih =>
    by_cases later : Silent es key
    · have here : e.key = key := by
        by_contra other
        apply present
        intro e' member
        rcases List.mem_cons.mp member with rfl | member
        · exact other
        · exact later e' member
      exact ⟨[], e, es, rfl, here, later⟩
    · obtain ⟨before, last, after, rfl, same, silent⟩ := ih later
      exact ⟨e :: before, last, after, rfl, same, silent⟩

/-- Output `index` of the last event of `key` is `out`, and nothing after it spends that. -/
def Unspent (es : List (Event κ α)) (key : κ) (index : Nat) (out : α) : Prop :=
  ∃ before e after, es = before ++ e :: after ∧ e.key = key ∧ e.outs[index]? = some out ∧
    Silent after key ∧ ¬Spent after key index

theorem mem_run {es : List (Event κ α)} {key : κ} {index : Nat} {out : α} :
    (∃ outs, run empty es key = some outs ∧ (out, index) ∈ outs) ↔ Unspent es key index out := by
  constructor
  · rintro ⟨outs, held, member⟩
    have present : ¬Silent es key := fun silent => by simp [run_empty_of_silent silent] at held
    obtain ⟨before, e, after, rfl, rfl, silent⟩ := exists_last present
    rw [run_last silent] at held
    obtain rfl := Option.some.inj held
    obtain ⟨listed, unspent⟩ := List.mem_filter.mp member
    exact ⟨before, e, after, rfl, rfl, List.mem_zipIdx_iff_getElem?.mp listed, silent,
      by simpa using unspent⟩
  · rintro ⟨before, e, after, rfl, rfl, listed, silent, unspent⟩
    exact ⟨_, run_last silent empty, List.mem_filter.mpr
      ⟨List.mem_zipIdx_iff_getElem?.mpr listed, by simpa using unspent⟩⟩

theorem run_indexed {es : List (Event κ α)} {key : κ} {outs : List (α × Nat)}
    (held : run empty es key = some outs) : Indexed outs := by
  have present : ¬Silent es key := fun silent => by simp [run_empty_of_silent silent] at held
  obtain ⟨before, e, after, rfl, rfl, silent⟩ := exists_last present
  rw [run_last silent] at held
  obtain rfl := Option.some.inj held
  exact (Indexed.zipIdx _).filter _

end Run

/-- Output `index` of the last event of `key` is spent after it. -/
def SpentSince (es : List (Event κ α)) (key : κ) (index : Nat) : Prop :=
  ∃ before e after, es = before ++ e :: after ∧ e.key = key ∧ Silent after key ∧ Spent after key index

theorem last_unique {before before' after after' : List (Event κ α)} {e e' : Event κ α}
    (same : before ++ e :: after = before' ++ e' :: after') (key : e.key = e'.key)
    (last : Silent after e.key) (last' : Silent after' e'.key) : after = after' := by
  rcases List.append_eq_append_iff.mp same with ⟨middle, -, tail⟩ | ⟨middle, -, tail⟩
  · cases middle with
    | nil => exact (List.cons.inj tail).2
    | cons x middle =>
      have later : e' ∈ after := by rw [(List.cons.inj tail).2]; simp
      exact absurd key.symm (last e' later)
  · cases middle with
    | nil => exact (List.cons.inj tail).2.symm
    | cons x middle =>
      have later : e ∈ after' := by rw [(List.cons.inj tail).2]; simp
      exact absurd key (last' e later)

theorem spentSince_iff {before after : List (Event κ α)} {e : Event κ α} {index : Nat}
    (last : Silent after e.key) :
    SpentSince (before ++ e :: after) e.key index ↔ Spent after e.key index := by
  constructor
  · rintro ⟨before', e', after', same, key, last', spent⟩
    rwa [last_unique same key.symm last (key ▸ last')]
  · exact fun spent => ⟨before, e, after, rfl, rfl, last, spent⟩

theorem SpentSince.spent {es : List (Event κ α)} {key : κ} {index : Nat}
    (since : SpentSince es key index) : Spent es key index := by
  obtain ⟨before, e, after, rfl, -, -, spender, later, spends⟩ := since
  exact ⟨spender, by simp [later], spends⟩

/-- Two orders of events with the same keys leave the same ledger when each output is spent after
its last event in both or in neither. -/
theorem run_empty_eq_iff [DecidableEq κ] {es es' : List (Event κ α)}
    (keys : ∀ key, Silent es key ↔ Silent es' key)
    (outs : ∀ e ∈ es, ∀ e' ∈ es', e.key = e'.key → e.outs = e'.outs) :
    run empty es = run empty es' ↔ ∀ e ∈ es', ∀ index < e.outs.length,
      (SpentSince es e.key index ↔ SpentSince es' e.key index) := by
  constructor
  · intro same e member index inside
    have present' : ¬Silent es' e.key := fun silent => silent e member rfl
    obtain ⟨before, l, after, rfl, key, last⟩ := exists_last ((keys _).not.mpr present')
    obtain ⟨before', l', after', rfl, key', last'⟩ := exists_last present'
    have held := congrFun same e.key
    rw [← key] at last held
    rw [run_last last, key, ← key', run_last (key' ▸ last'), key'] at held
    have listed : l.outs = e.outs := outs l (by simp) e member key
    have listed' : l.outs = l'.outs := outs l (by simp) l' (by simp) (key.trans key'.symm)
    have entry := congrArg ((e.outs[index], index) ∈ ·) (Option.some.inj held)
    rw [← key, spentSince_iff last, key, ← key', spentSince_iff (key' ▸ last'), key']
    simpa [← listed', listed, List.mem_zipIdx_iff_getElem?, inside, not_iff_not] using entry
  · intro spends
    funext key
    by_cases silent : Silent es' key
    · rw [run_empty_of_silent silent, run_empty_of_silent ((keys key).mpr silent)]
    · obtain ⟨before, l, after, rfl, rfl, last⟩ := exists_last ((keys key).not.mpr silent)
      obtain ⟨before', l', after', rfl, key', last'⟩ := exists_last silent
      have listed : l.outs = l'.outs := outs l (by simp) l' (by simp) key'.symm
      rw [← key'] at last'
      rw [run_last last, ← key', run_last last', listed]
      congr 1
      apply List.filter_congr
      intro o member
      have inside := (List.getElem?_eq_some_iff.mp (List.mem_zipIdx_iff_getElem?.mp member)).1
      have agree := spends l' (by simp) o.2 inside
      rw [spentSince_iff last', key', spentSince_iff last] at agree
      simp [key', agree]

end BitcoinNode.Ledger
