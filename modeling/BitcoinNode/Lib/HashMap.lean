import Mathlib.Data.Finmap

/-! Hash maps as finite maps. The order in which a map is visited is not part of its value; code
that visits one takes an enumeration of its entries, and results hold for every enumeration. -/
namespace BitcoinNode

abbrev HashMap (κ ν : Type) := Finmap fun _ : κ => ν

namespace HashMap

variable [DecidableEq κ]

def get (m : HashMap κ ν) (key : κ) : Option ν := m.lookup key

@[simp] theorem get_empty (key : κ) : get (∅ : HashMap κ ν) key = none := Finmap.lookup_empty key

@[simp] theorem get_insert (m : HashMap κ ν) (key : κ) (value : ν) :
    get (m.insert key value) key = some value := Finmap.lookup_insert m

theorem get_insert_of_ne (m : HashMap κ ν) {key other : κ} (different : other ≠ key) (value : ν) :
    get (m.insert key value) other = m.get other := Finmap.lookup_insert_of_ne m different

theorem ext_get {m m' : HashMap κ ν} (same : ∀ key, m.get key = m'.get key) : m = m' :=
  Finmap.ext_lookup same

theorem insert_comm (m : HashMap κ ν) {key key' : κ} {value value' : ν}
    (agree : key = key' → value = value') :
    (m.insert key value).insert key' value' = (m.insert key' value').insert key value := by
  by_cases same : key = key'
  · subst same
    rw [agree rfl]
  · exact Finmap.insert_insert_of_ne m same

/-- `if let Some(value) = map.get_mut(key) { f(value) }` -/
def modify (m : HashMap κ ν) (key : κ) (f : ν → ν) : HashMap κ ν :=
  match m.get key with
  | some value => m.insert key (f value)
  | none => m

@[simp] theorem get_modify (m : HashMap κ ν) (key : κ) (f : ν → ν) :
    (m.modify key f).get key = (m.get key).map f := by
  cases h : m.get key <;> simp [modify, h]

theorem get_modify_of_ne (m : HashMap κ ν) {key other : κ} (different : other ≠ key) (f : ν → ν) :
    (m.modify key f).get other = m.get other := by
  cases h : m.get key <;> simp [modify, h, get_insert_of_ne _ different]

theorem isSome_get_modify (m : HashMap κ ν) (key other : κ) (f : ν → ν) :
    ((m.modify key f).get other).isSome = (m.get other).isSome := by
  by_cases here : other = key
  · subst here
    simp
  · rw [get_modify_of_ne m here]

theorem modify_comm (m : HashMap κ ν) {f g : ν → ν} (commute : ∀ value, f (g value) = g (f value))
    (key key' : κ) : (m.modify key g).modify key' f = (m.modify key' f).modify key g := by
  by_cases same : key = key'
  · subst same
    apply ext_get
    intro other
    by_cases here : other = key
    · subst here
      cases m.get other <;> simp [Function.comp_def, commute]
    · simp only [get_modify_of_ne _ here]
  · apply ext_get
    intro other
    by_cases here : other = key
    · subst here
      simp [get_modify_of_ne _ same]
    · by_cases there : other = key'
      · subst there
        simp [get_modify_of_ne _ here]
      · simp only [get_modify_of_ne _ here, get_modify_of_ne _ there]

theorem modify_insert_of_ne (m : HashMap κ ν) {key key' : κ} (different : key ≠ key') (value : ν)
    (f : ν → ν) : modify (m.insert key' value) key f = (m.modify key f).insert key' value := by
  rw [modify, modify, get_insert_of_ne m different]
  cases m.get key with
  | none => rfl
  | some held => exact Finmap.insert_insert_of_ne m different.symm

def keys (m : HashMap κ ν) : Finset κ := Finmap.keys m

def len (m : HashMap κ ν) : Nat := m.keys.card

/-- `map.extend(other)` -/
def extend (m other : HashMap κ ν) : HashMap κ ν := other ∪ m

omit [DecidableEq κ] in
@[simp] theorem keys_empty : (∅ : HashMap κ ν).keys = ∅ := rfl

theorem mem_keys_insert {m : HashMap κ ν} {key other : κ} {value : ν} :
    other ∈ keys (m.insert key value) ↔ other = key ∨ other ∈ m.keys := by
  simp [keys, Finmap.mem_keys]

theorem mem_keys_extend {m other : HashMap κ ν} {key : κ} :
    key ∈ (m.extend other).keys ↔ key ∈ m.keys ∨ key ∈ other.keys := by
  simp [keys, extend, Finmap.mem_keys, or_comm]

/-- An order in which the entries of a map may be visited. -/
def Enumerates (m : HashMap κ ν) (visit : List (κ × ν)) : Prop :=
  (visit.map Prod.fst).Nodup ∧ ∀ key value, (key, value) ∈ visit ↔ m.get key = some value

theorem exists_enumerates (m : HashMap κ ν) : ∃ visit, Enumerates m visit := by
  induction m using Finmap.induction_on with | _ entries
  refine ⟨entries.entries.map fun e => (e.1, e.2), ?_, fun key value => ?_⟩
  · have nodup := entries.nodupKeys
    rw [List.NodupKeys, List.keys] at nodup
    simpa [List.map_map, Function.comp_def] using nodup
  · rw [get, Finmap.lookup_toFinmap, AList.lookup, ← Option.mem_def,
      List.mem_dlookup_iff entries.nodupKeys]
    simp

theorem enumerates_insert_empty (key : κ) (value : ν) :
    Enumerates ((∅ : HashMap κ ν).insert key value) [(key, value)] := by
  refine ⟨List.nodup_singleton _, fun key' value' => ?_⟩
  by_cases same : key' = key
  · subst same
    simp [get_insert, eq_comm]
  · simp [get_insert_of_ne _ same, same]

/-- Some order of the entries. -/
noncomputable def visit (m : HashMap κ ν) : List (κ × ν) := m.exists_enumerates.choose

theorem enumerates_visit (m : HashMap κ ν) : Enumerates m m.visit := m.exists_enumerates.choose_spec

end HashMap

end BitcoinNode
