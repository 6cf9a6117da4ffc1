import Mathlib.Data.List.Nodup

/-! Items that are staged until they are settled. Some are made here, others are heard of; a made item
is never forgotten, it is staged or settled. -/
namespace BitcoinNode

structure Staged (α : Type) where
  pending : List α
  confirmed : List α
  made : List α

namespace Staged

/-- No item is staged twice or staged and settled, and no two made ones that are staged conflict. -/
structure Clean (Apart : α → α → Prop) (s : Staged α) : Prop where
  once : s.pending.Nodup
  unconfirmed : ∀ a ∈ s.pending, a ∉ s.confirmed
  apart : ∀ a ∈ s.pending, a ∈ s.made → ∀ b ∈ s.pending, b ∈ s.made → a ≠ b → Apart a b

def Kept (s : Staged α) : Prop := ∀ a ∈ s.made, a ∈ s.pending ∨ a ∈ s.confirmed

def make (a : α) (s : Staged α) : Staged α := ⟨s.pending ++ [a], s.confirmed, s.made ++ [a]⟩

def hear (a : α) (s : Staged α) : Staged α := { s with pending := s.pending ++ [a] }

def Settles (s s' : Staged α) : Prop :=
  ∃ front moved back, s.pending = front ++ moved :: back ∧
    s' = { s with pending := front ++ back, confirmed := s.confirmed ++ [moved] }

variable {Apart : α → α → Prop} {s s' : Staged α} {a : α}

theorem Kept.make (kept : s.Kept) (a : α) : (s.make a).Kept := by
  intro b made
  rcases List.mem_append.mp made with before | new
  · exact (kept b before).imp_left (List.mem_append_left _)
  · exact .inl (List.mem_append_right _ new)

theorem Kept.hear (kept : s.Kept) (a : α) : (s.hear a).Kept :=
  fun b made => (kept b made).imp_left (List.mem_append_left _)

theorem Settles.kept (settles : Settles s s') (kept : s.Kept) : s'.Kept := by
  obtain ⟨front, moved, back, split, rfl⟩ := settles
  intro b made
  rcases kept b made with staged | settled
  · rw [split] at staged
    rcases List.mem_append.mp staged with before | after
    · exact .inl (List.mem_append_left _ before)
    rcases List.mem_cons.mp after with rfl | later
    · exact .inr (List.mem_append_right _ (List.mem_singleton_self b))
    · exact .inl (List.mem_append_right _ later)
  · exact .inr (List.mem_append_left _ settled)

/-- An item that is made must be new, and must not conflict with one that was made and is staged. -/
theorem Clean.make_iff (symm : ∀ a b, Apart a b → Apart b a) (clean : s.Clean Apart) :
    (s.make a).Clean Apart ↔
      a ∉ s.pending ∧ a ∉ s.confirmed ∧ ∀ b ∈ s.pending, b ∈ s.made → Apart a b := by
  have here : a ∈ (s.make a).pending := List.mem_append_right _ (List.mem_singleton_self a)
  have made : a ∈ (s.make a).made := List.mem_append_right _ (List.mem_singleton_self a)
  constructor
  · intro after
    have new : a ∉ s.pending := fun staged =>
      (List.nodup_append.mp after.once).2.2 a staged a (List.mem_singleton_self a) rfl
    refine ⟨new, after.unconfirmed a here, fun b staged before => ?_⟩
    exact after.apart a here made b (List.mem_append_left _ staged) (List.mem_append_left _ before)
      fun same => new (same ▸ staged)
  · rintro ⟨new, unsettled, apart⟩
    -- among the staged items, those made are the new one and those made before
    have cases : ∀ b ∈ (s.make a).pending, b ∈ (s.make a).made → b = a ∨ b ∈ s.pending ∧ b ∈ s.made := by
      intro b staged made
      by_cases same : b = a
      · exact .inl same
      · have other (list : List α) (member : b ∈ list ++ [a]) : b ∈ list :=
          (List.mem_append.mp member).resolve_right fun last => same (List.mem_singleton.mp last)
        exact .inr ⟨other _ staged, other _ made⟩
    constructor
    case once =>
      refine List.nodup_append.mpr ⟨clean.once, List.nodup_singleton a, ?_⟩
      rintro b staged _ last rfl
      exact new (List.mem_singleton.mp last ▸ staged)
    case unconfirmed =>
      intro b staged
      rcases List.mem_append.mp staged with before | last
      · exact clean.unconfirmed b before
      · rwa [List.mem_singleton.mp last]
    case apart =>
      intro b staged made b' staged' made' different
      rcases cases b staged made with rfl | before <;> rcases cases b' staged' made' with rfl | before'
      · exact absurd rfl different
      · exact apart b' before'.1 before'.2
      · exact symm _ _ (apart b before.1 before.2)
      · exact clean.apart b before.1 before.2 b' before'.1 before'.2 different

/-- An item that is heard of, and not staged, must not be settled. It was not made then. -/
theorem Clean.hear_iff (clean : s.Clean Apart) (kept : s.Kept) (new : a ∉ s.pending) :
    (s.hear a).Clean Apart ↔ a ∉ s.confirmed := by
  constructor
  · exact fun after => after.unconfirmed a (List.mem_append_right _ (List.mem_singleton_self a))
  · intro unsettled
    have foreign : a ∉ s.made := fun made => (kept a made).elim new unsettled
    have before {b : α} (staged : b ∈ (s.hear a).pending) (made : b ∈ s.made) : b ∈ s.pending :=
      (List.mem_append.mp staged).resolve_right fun last => foreign (List.mem_singleton.mp last ▸ made)
    constructor
    case once =>
      refine List.nodup_append.mpr ⟨clean.once, List.nodup_singleton a, ?_⟩
      rintro b staged _ last rfl
      exact new (List.mem_singleton.mp last ▸ staged)
    case unconfirmed =>
      intro b staged
      rcases List.mem_append.mp staged with before | last
      · exact clean.unconfirmed b before
      · rwa [List.mem_singleton.mp last]
    case apart =>
      exact fun b staged made b' staged' made' =>
        clean.apart b (before staged made) made b' (before staged' made') made'

theorem Settles.clean (settles : Settles s s') (clean : s.Clean Apart) : s'.Clean Apart := by
  obtain ⟨front, moved, back, split, rfl⟩ := settles
  have part : (front ++ back).Sublist s.pending := by
    rw [split]
    exact (List.Sublist.refl front).append (List.sublist_cons_self moved back)
  have gone : moved ∉ front ++ back := by
    have once := clean.once
    rw [split] at once
    exact (List.nodup_cons.mp (List.nodup_middle.mp once)).1
  constructor
  case once => exact part.nodup clean.once
  case unconfirmed =>
    intro b staged settled
    rcases List.mem_append.mp settled with before | last
    · exact clean.unconfirmed b (part.subset staged) before
    · exact gone (List.mem_singleton.mp last ▸ staged)
  case apart =>
    exact fun b staged made b' staged' made' =>
      clean.apart b (part.subset staged) made b' (part.subset staged') made'

end Staged

end BitcoinNode
