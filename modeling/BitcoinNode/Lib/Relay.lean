import Mathlib.Data.List.Infix
import Mathlib.Data.List.Nodup
import Mathlib.Logic.Relation

/-! A connection over which one party announces what it has made, each thing by its key, and sends what the
other party asks for. Messages arrive in the order in which they were sent, whenever they do. As long as the
connection is up, everything is accounted for: it has arrived, or it is on the way at one of three stages. -/
namespace BitcoinNode

/-- What the maker sends. -/
inductive Relay.Message (κ α : Type) where
  | announce (key : κ)
  | deliver (item : α)

/-- `out` and `back` are on the way, the oldest first. -/
structure Relay (κ α : Type) where
  made : List α
  out : List (Relay.Message κ α)
  back : List κ
  heard : List α
  up : Prop

namespace Relay

variable {κ α : Type} {key : α → κ} {r r' : Relay κ α}

def announcements : List (Message κ α) → List κ
  | [] => []
  | .announce k :: rest => k :: announcements rest
  | .deliver _ :: rest => announcements rest

def deliveries : List (Message κ α) → List α
  | [] => []
  | .announce _ :: rest => deliveries rest
  | .deliver item :: rest => item :: deliveries rest

@[simp] theorem announcements_nil : announcements ([] : List (Message κ α)) = [] := rfl
@[simp] theorem announcements_announce (k : κ) (rest : List (Message κ α)) :
    announcements (.announce k :: rest) = k :: announcements rest := rfl
@[simp] theorem announcements_deliver (item : α) (rest : List (Message κ α)) :
    announcements (.deliver item :: rest) = announcements rest := rfl
@[simp] theorem deliveries_nil : deliveries ([] : List (Message κ α)) = [] := rfl
@[simp] theorem deliveries_announce (k : κ) (rest : List (Message κ α)) :
    deliveries (.announce k :: rest) = deliveries rest := rfl
@[simp] theorem deliveries_deliver (item : α) (rest : List (Message κ α)) :
    deliveries (.deliver item :: rest) = item :: deliveries rest := rfl

@[simp] theorem announcements_append (out more : List (Message κ α)) :
    announcements (out ++ more) = announcements out ++ announcements more := by
  induction out with
  | nil => rfl
  | cons message out ih => cases message <;> simp [ih]

@[simp] theorem deliveries_append (out more : List (Message κ α)) :
    deliveries (out ++ more) = deliveries out ++ deliveries more := by
  induction out with
  | nil => rfl
  | cons message out ih => cases message <;> simp [ih]

def announced (r : Relay κ α) : List κ := announcements r.out

def sent (r : Relay κ α) : List α := r.heard ++ deliveries r.out

/-- Once the connection is down, announcements may be left out or not read, and requests refused. -/
inductive Step (key : α → κ) : Relay κ α → Relay κ α → Prop where
  | make (r : Relay κ α) (item : α) :
    Step key r { r with made := r.made ++ [item], out := r.out ++ [.announce (key item)] }
  | withhold (r : Relay κ α) (item : α) (down : ¬r.up) : Step key r { r with made := r.made ++ [item] }
  | ask {r : Relay κ α} {k : κ} {rest : List (Message κ α)} (next : r.out = .announce k :: rest) :
    Step key r { r with out := rest, back := r.back ++ [k] }
  | ignore {r : Relay κ α} {k : κ} {rest : List (Message κ α)} (next : r.out = .announce k :: rest) (down : ¬r.up) :
    Step key r { r with out := rest }
  | answer {r : Relay κ α} {item : α} {rest : List κ} (next : r.back = key item :: rest) (kept : item ∈ r.made) :
    Step key r { r with out := r.out ++ [.deliver item], back := rest }
  | refuse {r : Relay κ α} {k : κ} {rest : List κ} (next : r.back = k :: rest) (down : ¬r.up) :
    Step key r { r with back := rest }
  | hear {r : Relay κ α} {item : α} {rest : List (Message κ α)} (next : r.out = .deliver item :: rest) :
    Step key r { r with out := rest, heard := r.heard ++ [item] }
  | cut (r : Relay κ α) (up : Prop) (still : up → r.up) : Step key r { r with up }

theorem still_up (steps : Relation.ReflTransGen (Step key) r r') (up : r'.up) : r.up := by
  induction steps with
  | refl => exact up
  | tail _ step ih =>
    cases step with
    | cut _ still => exact ih (still up)
    | _ => exact ih up

/-- What is made is what was sent, what is asked for and what is announced, in this order. -/
structure Accounted (key : α → κ) (r : Relay κ α) : Prop where
  stages : r.up → r.made.map key = r.sent.map key ++ r.back ++ r.announced
  items : ∀ item ∈ r.sent, item ∈ r.made
  keys : ∀ k ∈ r.back ++ r.announced, k ∈ r.made.map key

theorem Accounted.start (up : Prop) : Accounted key ⟨[], [], [], [], up⟩ :=
  ⟨fun _ => rfl, fun _ member => absurd member List.not_mem_nil, fun _ member => absurd member List.not_mem_nil⟩

theorem Accounted.step (accounted : Accounted key r) (step : Step key r r') : Accounted key r' := by
  obtain ⟨stages, items, keys⟩ := accounted
  rw [sent] at stages items
  rw [announced] at stages keys
  cases step with
  | make item =>
    refine ⟨fun up => ?_, fun a member => List.mem_append_left _ (items a ?_), fun k member => ?_⟩
    · simp [sent, announced, stages up]
    · simpa [sent] using member
    · rw [List.map_append]
      rw [announced, announcements_append, ← List.append_assoc] at member
      exact List.mem_append.mpr ((List.mem_append.mp member).imp_left (keys k))
  | withhold item down =>
    refine ⟨fun up => absurd up down, fun a member => List.mem_append_left _ (items a member), fun k member => ?_⟩
    rw [List.map_append]
    exact List.mem_append_left _ (keys k member)
  | @ask k rest next =>
    rw [next] at stages items keys
    refine ⟨fun up => ?_, items, fun k' member => keys k' ?_⟩
    · simp [sent, announced, stages up]
    · simpa [announced, or_assoc] using member
  | @ignore k rest next down =>
    rw [next] at items keys
    refine ⟨fun up => absurd up down, items, fun k' member => keys k' ?_⟩
    exact (List.Sublist.append_left (List.sublist_cons_self k _) r.back).subset member
  | @answer item rest next kept =>
    rw [next] at stages keys
    refine ⟨fun up => ?_, fun a member => ?_, fun k member => keys k ?_⟩
    · simp [sent, announced, stages up]
    · rw [sent, deliveries_append, ← List.append_assoc] at member
      exact (List.mem_append.mp member).elim (items a) fun last => List.mem_singleton.mp last ▸ kept
    · rw [announced, announcements_append, announcements_deliver, announcements_nil, List.append_nil] at member
      exact List.mem_cons_of_mem _ member
  | @refuse k rest next down =>
    rw [next] at keys
    exact ⟨fun up => absurd up down, items, fun k' member => keys k' (List.mem_cons_of_mem _ member)⟩
  | @hear item rest next =>
    rw [next] at stages items keys
    refine ⟨fun up => ?_, fun a member => items a ?_, keys⟩
    · simp [sent, announced, stages up]
    · simpa [sent] using member
  | cut up still => exact ⟨fun up => stages (still up), items, keys⟩

theorem Accounted.run (accounted : Accounted key r) (steps : Relation.ReflTransGen (Step key) r r') :
    Accounted key r' := by
  induction steps with
  | refl => exact accounted
  | tail _ step ih => exact ih.step step

theorem eq_of_keys_eq {xs ys : List α} (injective : ∀ x ∈ xs, ∀ y ∈ ys, key x = key y → x = y)
    (same : xs.map key = ys.map key) : xs = ys := by
  induction xs generalizing ys with
  | nil => exact (List.map_eq_nil_iff.mp same.symm).symm
  | cons x xs ih =>
    cases ys with
    | nil => cases same
    | cons y ys =>
      obtain ⟨first, rest⟩ := List.cons.inj same
      have later := ih (fun x member y member' =>
        injective x (List.mem_cons_of_mem _ member) y (List.mem_cons_of_mem _ member')) rest
      rw [injective x List.mem_cons_self y List.mem_cons_self first, later]

/-- What was sent is an initial part of what was made: in its order, without a gap, and nothing twice. -/
theorem Accounted.sent_prefix (accounted : Accounted key r) (up : r.up) (distinct : (r.made.map key).Nodup) :
    r.sent <+: r.made := by
  have stages := accounted.stages up
  have front : r.sent.map key <+: r.made.map key := ⟨r.back ++ r.announced, by rw [stages, List.append_assoc]⟩
  have same : (r.made.take r.sent.length).map key = r.sent.map key := by
    rw [List.map_take, ← List.length_map key]
    exact (List.prefix_iff_eq_take.mp front).symm
  suffices r.made.take r.sent.length = r.sent from this ▸ List.take_prefix _ _
  have injective := List.inj_on_of_nodup_map distinct
  exact eq_of_keys_eq (fun x taken y item => injective (List.mem_of_mem_take taken) (accounted.items y item)) same

theorem Accounted.settled (accounted : Accounted key r) (up : r.up) (distinct : (r.made.map key).Nodup)
    (out : r.out = []) (back : r.back = []) : r.heard = r.made := by
  have all : r.sent = r.heard := by rw [sent, out, deliveries_nil, List.append_nil]
  have part := accounted.sent_prefix up distinct
  have stages := accounted.stages up
  rw [announced, out, back, announcements_nil, List.append_nil, List.append_nil] at stages
  rw [← all]
  refine part.eq_of_length ?_
  rw [← List.length_map key, ← stages, List.length_map]

theorem Accounted.fresh (accounted : Accounted key r) (up : r.up) (distinct : (r.made.map key).Nodup) :
    r.announced.Nodup ∧ ∀ k ∈ r.announced, k ∉ r.sent.map key ++ r.back := by
  rw [accounted.stages up] at distinct
  obtain ⟨_, nodup, apart⟩ := List.nodup_append.mp distinct
  exact ⟨nodup, fun k member earlier => apart k earlier k member rfl⟩

end Relay

end BitcoinNode
