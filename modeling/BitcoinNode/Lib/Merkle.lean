import Mathlib.Data.Nat.Log
import Mathlib.Data.List.Nodup
import Mathlib.Logic.Function.Iterate

/-! Hash trees over an arbitrary `combine`, where a level of odd length repeats its last
entry. A root determines its leaves up to that repetition, unless `combine` collides. -/
namespace BitcoinNode.Merkle

/-- Adjacent entries, the last one with itself when it stands alone. -/
def pairs : List α → List (α × α)
  | a :: b :: rest => (a, b) :: pairs rest
  | [a] => [(a, a)]
  | [] => []

/-- The level as it is hashed: even, with the last entry repeated if need be. -/
def pad : List α → List α
  | a :: b :: rest => a :: b :: pad rest
  | [a] => [a, a]
  | [] => []

variable (combine : α → α → α)

def level (l : List α) : List α := (pairs l).map fun p => combine p.1 p.2

/-- Number of levels above the leaves. -/
def height (l : List α) : Nat := Nat.clog 2 l.length

def climb (n : Nat) : List α → List α := (level combine)^[n]

/-- The single entry on top; only the empty list has none. -/
def root (l : List α) : Option α := (climb combine (height l) l).head?

theorem pairs_length (l : List α) : (pairs l).length = (l.length + 1) / 2 := by
  induction l using pairs.induct with
  | case1 a b rest ih => simp only [pairs, List.length_cons, ih]; omega
  | case2 => simp [pairs]
  | case3 => simp [pairs]

@[simp] theorem level_length (l : List α) : (level combine l).length = (l.length + 1) / 2 := by
  simp [level, pairs_length]

theorem pad_eq (l : List α) : pad l = if l.length % 2 = 1 then l ++ l.getLast?.toList else l := by
  induction l using pad.induct with
  | case1 a b rest ih =>
    have parity : (a :: b :: rest).length % 2 = rest.length % 2 := by simp; omega
    rw [pad, ih, parity]
    split
    · cases rest <;> simp_all
    · rfl
  | case2 => rfl
  | case3 => rfl

theorem pad_length (l : List α) : (pad l).length = 2 * ((l.length + 1) / 2) := by
  induction l using pad.induct with
  | case1 a b rest ih => simp only [pad, List.length_cons, ih]; omega
  | case2 => simp [pad]
  | case3 => simp [pad]

theorem prefix_pad (l : List α) : l <+: pad l := by
  rw [pad_eq]
  split
  · exact List.prefix_append _ _
  · exact List.prefix_rfl

/-- A repeated entry is never the first one found. -/
theorem findIdx?_pad (p : α → Bool) (l : List α) : (pad l).findIdx? p = l.findIdx? p := by
  rw [pad_eq]
  split
  · rw [List.findIdx?_append]
    cases found : l.findIdx? p with
    | some i => rfl
    | none =>
      have noneHolds := List.findIdx?_eq_none_iff.mp found
      cases last : l.getLast? with
      | none => rfl
      | some x => simp [noneHolds x (List.mem_of_getLast? last)]
  · rfl

theorem pairs_pad (l : List α) : pairs (pad l) = pairs l := by
  induction l using pad.induct with
  | case1 a b rest ih => simp [pad, pairs, ih]
  | case2 => rfl
  | case3 => rfl

theorem unpair (l : List α) : (pairs l).flatMap (fun p => [p.1, p.2]) = pad l := by
  induction l using pad.induct with
  | case1 a b rest ih => simp [pad, pairs, ih]
  | case2 => rfl
  | case3 => rfl

theorem pairs_map (f : α → β) (l : List α) :
    pairs (l.map f) = (pairs l).map fun p => (f p.1, f p.2) := by
  induction l using pairs.induct with
  | case1 a b rest ih => simp [pairs, ih]
  | case2 => rfl
  | case3 => rfl

/-- Entry `j` of the level above is made of entries `2 * j` and `2 * j + 1`. -/
theorem pairs_getElem? (l : List α) (j : Nat) (a b : α) (left : (pad l)[2 * j]? = some a)
    (right : (pad l)[2 * j + 1]? = some b) : (pairs l)[j]? = some (a, b) := by
  induction l using pairs.induct generalizing j with
  | case1 x y rest ih =>
    cases j with
    | zero => simp_all [pad, pairs]
    | succ j =>
      have next : 2 * (j + 1) = 2 * j + 2 := by omega
      simp only [pad, next, List.getElem?_cons_succ] at left right
      simpa [pairs] using ih j left right
  | case2 x =>
    cases j with
    | zero => simp_all [pad, pairs]
    | succ j =>
      have next : 2 * (j + 1) = 2 * j + 2 := by omega
      simp [pad, next] at left
  | case3 => simp [pad] at left

theorem mem_of_mem_pairs {l : List α} {p : α × α} (member : p ∈ pairs l) : p.1 ∈ l ∧ p.2 ∈ l := by
  induction l using pairs.induct with
  | case1 a b rest ih =>
    rcases List.mem_cons.mp member with rfl | later
    · simp
    · exact ⟨by simp [(ih later).1], by simp [(ih later).2]⟩
  | case2 a =>
    obtain rfl : p = (a, a) := by simpa [pairs] using member
    simp
  | case3 => simp [pairs] at member

theorem height_of_two_le {l : List α} (many : 2 ≤ l.length) :
    height l = height (level combine l) + 1 := by
  rw [height, height, Nat.clog_of_two_le (by decide) many, level_length]
  rfl

@[simp] theorem root_singleton (a : α) : root combine [a] = some a := by
  simp [root, height, climb]

theorem root_level {l : List α} (many : 2 ≤ l.length) :
    root combine l = root combine (level combine l) := by
  rw [root, height_of_two_le combine many, climb, Function.iterate_succ_apply]
  rfl

theorem climb_length (n : Nat) (l : List α) (h : Nat.clog 2 l.length = n) (nonempty : l ≠ []) :
    (climb combine n l).length = 1 := by
  induction n generalizing l with
  | zero =>
    have positive := List.length_pos_iff.mpr nonempty
    have small : l.length ≤ 1 := by simpa using (Nat.clog_le_iff_le_pow (by decide)).mp (Nat.le_of_eq h)
    simp only [climb, Function.iterate_zero, id]
    omega
  | succ n ih =>
    have many : 2 ≤ l.length := by
      by_contra few
      rw [Nat.clog_of_right_le_one (by omega)] at h
      omega
    have step := height_of_two_le combine many
    rw [climb, Function.iterate_succ_apply]
    apply ih _ (by rw [height, height] at step; omega)
    intro none
    have := level_length combine l
    simp [none] at this
    omega

/-- A non-empty list climbs to exactly its root. -/
theorem climb_eq_root {l : List α} (nonempty : l ≠ []) :
    ∃ top, climb combine (height l) l = [top] ∧ root combine l = some top := by
  obtain ⟨top, single⟩ := List.length_eq_one_iff.mp (climb_length combine _ l rfl nonempty)
  exact ⟨top, single, by simp [root, height, single]⟩

/-- The neighbour of position `i`, and whether it stands on the left. -/
def sibling (l : List α) (i : Nat) : Option (α × Bool) :=
  if i % 2 = 0 then (pad l)[i + 1]?.map fun x => (x, false) else (pad l)[i - 1]?.map fun x => (x, true)

def fold (x : α) (path : List (α × Bool)) : α :=
  path.foldl (fun x s => if s.2 then combine s.1 x else combine x s.1) x

theorem level_sibling {l : List α} {i : Nat} {x : α} (atI : l[i]? = some x) :
    ∃ s, sibling l i = some s ∧ (level combine l)[i / 2]? = some (fold combine x [s]) := by
  have inside : i < l.length := (List.getElem?_eq_some_iff.mp atI).1
  have size := pad_length l
  have here : (pad l)[i]? = some x := by
    obtain ⟨more, eq⟩ := prefix_pad l
    rw [← eq, List.getElem?_append_left inside, atI]
  rcases Nat.mod_two_eq_zero_or_one i with even | odd
  · have next : i + 1 < (pad l).length := by omega
    have right := List.getElem?_eq_getElem next
    refine ⟨((pad l)[i + 1], false), by simp [sibling, even, right], ?_⟩
    have double : 2 * (i / 2) = i := by omega
    have pair := pairs_getElem? l (i / 2) _ _ (by rwa [double]) (by rwa [double])
    simp [level, pair, fold]
  · have before : i - 1 < (pad l).length := by omega
    have left := List.getElem?_eq_getElem before
    refine ⟨((pad l)[i - 1], true), by simp [sibling, odd, left], ?_⟩
    have double : 2 * (i / 2) = i - 1 := by omega
    have double' : 2 * (i / 2) + 1 = i := by omega
    have pair := pairs_getElem? l (i / 2) _ _ (by rwa [double]) (by rwa [double'])
    simp [level, pair, fold]

theorem fold_cons (x : α) (s : α × Bool) (path : List (α × Bool)) :
    fold combine x (s :: path) = fold combine (fold combine x [s]) path := rfl

/-- The list and the `n` levels above it, padded as they are hashed; the top is not hashed. -/
def tower : (n : Nat) → List α → List (List α)
  | 0, l => [l]
  | n + 1, l => pad l :: tower n (level combine l)

theorem tower_getLast (n : Nat) (l : List α) :
    (tower combine n l).getLast? = some (climb combine n l) := by
  induction n generalizing l with
  | zero => rfl
  | succ n ih =>
    have step := ih (level combine l)
    rw [climb, Function.iterate_succ_apply, ← climb, ← step]
    cases n <;> simp [tower]

/-- The argument pairs that climbing `n` levels gives to `combine`. -/
def hashedPairs : (n : Nat) → List α → List (α × α)
  | 0, _ => []
  | n + 1, l => pairs l ++ hashedPairs n (level combine l)

def hashed (l : List α) : List (α × α) := hashedPairs combine (height l) l

/-- Two different argument pairs, one from each list, with the same result. -/
def Collision (ps qs : List (α × α)) : Prop :=
  ∃ p ∈ ps, ∃ q ∈ qs, p ≠ q ∧ combine p.1 p.2 = combine q.1 q.2

variable {combine}

theorem Collision.mono {ps ps' qs qs' : List (α × α)} (collision : Collision combine ps qs)
    (left : ps ⊆ ps') (right : qs ⊆ qs') : Collision combine ps' qs' := by
  obtain ⟨p, hp, q, hq, h⟩ := collision
  exact ⟨p, left hp, q, right hq, h⟩

theorem Collision.symm {ps qs : List (α × α)} (collision : Collision combine ps qs) :
    Collision combine qs ps := by
  obtain ⟨p, hp, q, hq, different, same⟩ := collision
  exact ⟨q, hq, p, hp, different.symm, same.symm⟩

theorem not_collision_of_nodup {ps : List (α × α)}
    (nodup : (ps.map fun p => combine p.1 p.2).Nodup) : ¬Collision combine ps ps := by
  rintro ⟨p, hp, q, hq, different, same⟩
  exact different (List.inj_on_of_nodup_map nodup hp hq same)

/-- Repeat the last entry on every level, down to `2 ^ n` leaves. -/
def fill : (n : Nat) → {α : Type} → List α → List α
  | 0, _, l => l
  | n + 1, _, l => (fill n (pairs l)).flatMap fun p => [p.1, p.2]

/-- The leaves a tree of the list's own height really hashes. -/
def complete {α : Type} (l : List α) : List α := fill (height l) l

theorem fill_map {α β : Type} (f : α → β) (n : Nat) (l : List α) :
    fill n (l.map f) = (fill n l).map f := by
  induction n generalizing α β with
  | zero => rfl
  | succ n ih => simp [fill, pairs_map, ih, List.flatMap_map, List.map_flatMap]

theorem mem_of_mem_fill {α : Type} {n : Nat} {l : List α} {x : α} (member : x ∈ fill n l) : x ∈ l := by
  induction n generalizing α with
  | zero => exact member
  | succ n ih =>
    obtain ⟨p, hp, hx⟩ := List.mem_flatMap.mp member
    have inside := mem_of_mem_pairs (ih hp)
    rcases List.mem_pair.mp hx with rfl | rfl
    · exact inside.1
    · exact inside.2

theorem prefix_fill {α : Type} (n : Nat) (l : List α) : l <+: fill n l := by
  induction n generalizing α with
  | zero => exact List.prefix_rfl
  | succ n ih =>
    obtain ⟨more, eq⟩ := ih (pairs l)
    rw [fill, ← eq, List.flatMap_append, unpair]
    exact (prefix_pad l).trans (List.prefix_append _ _)

theorem eq_of_fill_eq {α : Type} {n m : Nat} {l l' : List α} (same : fill n l = fill m l')
    (length : l.length = l'.length) : l = l' := by
  have left := List.prefix_iff_eq_take.mp (prefix_fill n l)
  have right := List.prefix_iff_eq_take.mp (prefix_fill m l')
  rw [left, right, same, length]

theorem map_eq_or_collision {l l' : List (α × α)}
    (same : l.map (fun p => combine p.1 p.2) = l'.map (fun p => combine p.1 p.2)) :
    l = l' ∨ Collision combine l l' := by
  induction l generalizing l' with
  | nil => exact .inl (List.map_eq_nil_iff.mp same.symm).symm
  | cons p l ih =>
    cases l' with
    | nil => simp at same
    | cons q l' =>
      simp only [List.map_cons, List.cons.injEq] at same
      by_cases different : p = q
      · rcases ih same.2 with rfl | collision
        · exact .inl (by rw [different])
        · exact .inr (collision.mono (List.subset_cons_self _ _) (List.subset_cons_self _ _))
      · exact .inr ⟨p, by simp, q, by simp, different, same.1⟩

/-- Climbing the same number of levels to the same list: the filled leaves agree. By induction
on the levels, where two different pairs under one entry are the collision. -/
theorem fill_eq_of_climb_eq {α : Type} {combine : α → α → α} (n : Nat) {l l' : List α}
    (same : climb combine n l = climb combine n l') :
    fill n l = fill n l' ∨ Collision combine (hashedPairs combine n l) (hashedPairs combine n l') := by
  induction n generalizing l l' with
  | zero => exact .inl same
  | succ n ih =>
    simp only [climb, Function.iterate_succ_apply] at same
    rcases ih same with eq | collision
    · rw [level, level, fill_map, fill_map] at eq
      rcases map_eq_or_collision eq with pairsEq | collision
      · exact .inl (by rw [fill, fill, pairsEq])
      · refine .inr (collision.mono ?_ ?_) <;> intro p hp <;>
          exact List.mem_append_left _ (mem_of_mem_fill hp)
    · exact .inr (collision.mono (List.subset_append_right _ _) (List.subset_append_right _ _))

theorem hashedPairs_add (n m : Nat) (l : List α) :
    hashedPairs combine (m + n) l = hashedPairs combine m l ++ hashedPairs combine n (climb combine m l) := by
  induction m generalizing l with
  | zero => simp [hashedPairs, climb]
  | succ m ih =>
    rw [Nat.succ_add, hashedPairs, hashedPairs, ih, List.append_assoc, climb, climb,
      Function.iterate_succ_apply]

theorem climb_entry_hashed {n : Nat} {l : List α} {x : α} (member : x ∈ climb combine (n + 1) l) :
    ∃ p ∈ hashedPairs combine (n + 1) l, combine p.1 p.2 = x := by
  rw [climb, Function.iterate_succ_apply'] at member
  obtain ⟨p, hp, rfl⟩ := List.mem_map.mp member
  refine ⟨p, ?_, rfl⟩
  rw [hashedPairs_add 1 n]
  exact List.mem_append_right _ (by simpa [hashedPairs, climb] using hp)

/-- A lower tree and a higher one with the same root: either a collision, or the first leaf of
the lower one is an inner entry of the higher one. -/
theorem leaf_is_inner_of_root_eq {α : Type} {combine : α → α → α} {l l' : List α}
    (nonempty : l ≠ []) (nonempty' : l' ≠ []) (lower : height l < height l')
    (same : root combine l = root combine l') :
    Collision combine (hashed combine l) (hashed combine l') ∨
      ∃ leaf ∈ l, ∃ p ∈ hashed combine l', combine p.1 p.2 = leaf := by
  obtain ⟨extra, split⟩ : ∃ extra, height l' = (extra + 1) + height l :=
    ⟨height l' - height l - 1, by omega⟩
  obtain ⟨top, climbs, top_eq⟩ := climb_eq_root combine nonempty
  obtain ⟨top', climbs', top_eq'⟩ := climb_eq_root combine nonempty'
  obtain rfl : top = top' := by simpa [top_eq, top_eq'] using same
  have meet : climb combine (height l) l =
      climb combine (height l) (climb combine (extra + 1) l') := by
    rw [climbs, ← climbs', split, climb, climb, climb, Nat.add_comm (extra + 1),
      Function.iterate_add_apply]
  have parts : hashed combine l' = hashedPairs combine (extra + 1) l' ++
      hashedPairs combine (height l) (climb combine (extra + 1) l') := by
    rw [hashed, split, hashedPairs_add]
  rw [parts]
  rcases fill_eq_of_climb_eq (height l) meet with eq | collision
  · right
    obtain ⟨leaf, rest, shape⟩ := List.exists_cons_of_ne_nil nonempty
    have member : leaf ∈ fill (height l) l := (prefix_fill _ l).subset (by simp [shape])
    rw [eq] at member
    obtain ⟨p, hp, inner⟩ := climb_entry_hashed (mem_of_mem_fill member)
    exact ⟨leaf, by simp [shape], p, List.mem_append_left _ hp, inner⟩
  · exact .inl (collision.mono (List.Subset.refl _) (List.subset_append_right _ _))

theorem complete_eq_of_root_eq {α : Type} {combine : α → α → α} {l l' : List α}
    (nonempty : l ≠ []) (nonempty' : l' ≠ []) (level : height l = height l')
    (same : root combine l = root combine l') :
    complete l = complete l' ∨ Collision combine (hashed combine l) (hashed combine l') := by
  obtain ⟨top, climbs, top_eq⟩ := climb_eq_root combine nonempty
  obtain ⟨top', climbs', top_eq'⟩ := climb_eq_root combine nonempty'
  obtain rfl : top = top' := by simpa [top_eq, top_eq'] using same
  rw [← climbs', ← level] at climbs
  rw [complete, complete, hashed, hashed, ← level]
  exact fill_eq_of_climb_eq _ climbs

variable (combine) in
def stepPair (x : α) (s : α × Bool) : α × α := if s.2 then (s.1, x) else (x, s.1)

variable (combine) in
/-- The argument pairs that folding a path gives to `combine`. -/
def foldPairs (x : α) : List (α × Bool) → List (α × α)
  | [] => []
  | s :: path => stepPair x s :: foldPairs (fold combine x [s]) path

theorem fold_step (x : α) (s : α × Bool) :
    fold combine x [s] = combine (stepPair x s).1 (stepPair x s).2 := by
  simp only [fold, List.foldl_cons, List.foldl_nil, stepPair]
  split <;> rfl

theorem mem_of_stepPair_mem {l : List α} {x : α} {s : α × Bool} (member : stepPair x s ∈ pairs l) :
    x ∈ l := by
  have inside := mem_of_mem_pairs member
  unfold stepPair at inside
  split at inside
  · exact inside.2
  · exact inside.1

/-- A path that folds to an entry `n` levels up starts at a leaf, or collides with the tree. From
the top down: under an entry that is reached either the same pair stands, or a different one. -/
theorem mem_or_collision_of_fold {n : Nat} {l : List α} {x : α} {path : List (α × Bool)}
    (length : path.length = n) (reached : fold combine x path ∈ climb combine n l) :
    x ∈ l ∨ Collision combine (foldPairs combine x path) (hashedPairs combine n l) := by
  induction n generalizing l x path with
  | zero =>
    obtain rfl := List.length_eq_zero_iff.mp length
    exact .inl reached
  | succ n ih =>
    obtain ⟨s, rest, rfl⟩ := List.exists_cons_of_length_eq_add_one length
    rw [climb, Function.iterate_succ_apply, ← climb, fold_cons] at reached
    rcases ih (Nat.succ.inj length) reached with inside | collision
    · obtain ⟨p, paired, same⟩ := List.mem_map.mp inside
      rw [fold_step] at same
      by_cases equal : stepPair x s = p
      · exact .inl (mem_of_stepPair_mem (equal ▸ paired))
      · exact .inr ⟨stepPair x s, by simp [foldPairs], p, List.mem_append_left _ paired, equal,
          same.symm⟩
    · exact .inr (collision.mono (List.subset_cons_self _ _) (List.subset_append_right _ _))

variable (combine) in
theorem tower_pairs (n : Nat) (l : List α) :
    (tower combine n l).dropLast.flatMap pairs = hashedPairs combine n l := by
  induction n generalizing l with
  | zero => rfl
  | succ n ih =>
    have above : tower combine n (level combine l) ≠ [] := by cases n <;> simp [tower]
    rw [tower, List.dropLast_cons_of_ne_nil above, List.flatMap_cons, pairs_pad, ih, hashedPairs]

variable (combine) in
theorem tower_length (n : Nat) (l : List α) : (tower combine n l).length = n + 1 := by
  induction n generalizing l with
  | zero => rfl
  | succ n ih => rw [tower, List.length_cons, ih]

variable (combine) in
/-- One entry is its own root; more of them have the root of the level above. -/
inductive IsRoot : List α → α → Prop
  | single (a : α) : IsRoot [a] a
  | level {l : List α} {top : α} (many : 2 ≤ l.length) (above : IsRoot (level combine l) top) :
      IsRoot l top

theorem IsRoot.root_eq {l : List α} {top : α} (rooted : IsRoot combine l top) :
    root combine l = some top := by
  induction rooted with
  | single a => exact root_singleton combine a
  | level many _ ih => rw [root_level combine many, ih]

theorem isRoot_iff {l : List α} {top : α} : IsRoot combine l top ↔ root combine l = some top := by
  refine ⟨IsRoot.root_eq, fun rooted => ?_⟩
  induction size : l.length using Nat.strong_induction_on generalizing l with
  | _ n ih =>
    rcases Nat.lt_or_ge l.length 2 with few | many
    · cases l with
      | nil => simp [root, climb, height] at rooted
      | cons a rest =>
        rw [List.length_cons] at few
        obtain rfl : rest = [] := List.length_eq_zero_iff.mp (by omega)
        obtain rfl : a = top := by simpa using rooted
        exact .single a
    · rw [root_level combine many] at rooted
      have smaller := level_length combine l
      exact .level many (ih _ (by omega) rooted rfl)

end BitcoinNode.Merkle
