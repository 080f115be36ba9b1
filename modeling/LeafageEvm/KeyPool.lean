import LeafageEvm.HashMap
import LeafageEvm.Outcome
import Mathlib.Data.List.Basic

/-! Pools of keys without repeats, in the order in which they first came, and reads of many keys at once that fall back
to one read per key. -/

namespace LeafageEvm
open Option List

/-- The keys, with the slot of each. -/
structure KeyPool (K : Type) where
  keys : List K := []
  slots : HashMap K Nat := HashMap.empty

namespace KeyPool

variable {K V : Type} {pool : KeyPool K} {key other : K}

def lookup (pool : KeyPool K) (results : List V) (key : K) : Option V := (pool.slots key).bind fun i => results[i]?

def Has (pool : KeyPool K) (key : K) : Prop := (pool.slots key).isSome = true

def Indexed (pool : KeyPool K) : Prop := ∀ key (i : Nat), pool.slots key = some i → pool.keys[i]? = some key

theorem indexed_empty : Indexed ({} : KeyPool K) := by
  nofun

theorem Indexed.lookup_map (h : pool.Indexed) (hkey : pool.Has key) {f : K → V} :
    pool.lookup (pool.keys.map f) key = some (f key) := by
  obtain ⟨i, hi⟩ := isSome_iff_exists.mp hkey
  rw [lookup, hi, bind_some, getElem?_map, h key i hi]
  rfl

variable [DecidableEq K]

/-- A key that is not there yet goes to the end. -/
def entry (pool : KeyPool K) (key : K) : KeyPool K :=
  if (pool.slots key).isSome then pool
  else { keys := pool.keys ++ [key], slots := pool.slots.insert key pool.keys.length }

theorem Indexed.entry (h : pool.Indexed) : (pool.entry key).Indexed := by
  rw [KeyPool.entry]
  split
  · exact h
  intro other i hi
  rcases HashMap.insert_eq_some.mp hi with ⟨rfl, rfl⟩ | ⟨-, hold⟩
  · simp
  · have hget := h other i hold
    rw [List.getElem?_append_left (List.getElem?_eq_some_iff.mp hget).1]
    exact hget

theorem entry_slots {i : Nat} (h : pool.slots other = some i) : (pool.entry key).slots other = some i := by
  rw [entry]
  split
  · exact h
  · next hnew =>
      show pool.slots.insert key pool.keys.length other = some i
      rw [HashMap.insert_of_ne, h]
      rintro rfl
      simp [h] at hnew

theorem entry_has : (pool.entry key).Has key := by
  rw [entry]
  split
  · next h => exact h
  · simp [Has]

theorem Has.entry (h : pool.Has other) : (pool.entry key).Has other := by
  obtain ⟨i, hi⟩ := isSome_iff_exists.mp h
  exact isSome_iff_exists.mpr ⟨i, entry_slots hi⟩

end KeyPool

/-! ### Many reads at once -/

variable {K V E E' : Type} {keys : List K} {single : K → Except E V}

def readMany (many : Except E (List V)) (single : K → Except E V) (error : K → E → E') (keys : List K) :
    List (Except E' V) :=
  match many with
  | .ok values => values.map .ok
  | .error _ => keys.map fun key => (single key).mapError (error key)

theorem zip_map_self {f : K → V} : keys.zip (keys.map f) = keys.map fun key => (key, f key) := by
  induction keys with
  | nil => rfl
  | cons _ _ ih => rw [map_cons, zip_cons_cons, ih, map_cons]

def ReadsAgree (many : List K → Except E (List V)) (single : K → Except E V) : Prop :=
  ∀ keys values, many keys = .ok values → keys.mapM single = .ok values

theorem map_ok_of_mapM {error : K → E → E'} {values : List V}
    (h : keys.mapM single = .ok values) : values.map .ok = keys.map fun key => (single key).mapError (error key) := by
  induction keys generalizing values with
  | nil =>
    cases h
    rfl
  | cons _ _ ih =>
    rw [mapM_cons] at h
    obtain ⟨_, hvalue, h⟩ := bind_ok h
    obtain ⟨_, hrest, h⟩ := bind_ok h
    cases h
    rw [map_cons, map_cons, ih hrest, hvalue]
    rfl

theorem readMany_eq {many : List K → Except E (List V)} {error : K → E → E'} (h : ReadsAgree many single) :
    readMany (many keys) single error keys = keys.map fun key => (single key).mapError (error key) := by
  cases hmany : many keys with
  | ok values => exact map_ok_of_mapM (h keys values hmany)
  | error e => rfl

end LeafageEvm
