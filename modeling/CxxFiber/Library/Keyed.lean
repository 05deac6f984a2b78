import Mathlib.Data.List.AList
import Mathlib.Logic.Function.Basic

/-! Variables that share one finite map, each through a key of its own. -/
namespace Keyed

variable {K V E : Type*} [DecidableEq K] {m : AList fun _ : K => E} {k k' : K} {e : Option E}
  {key : V → K} {v : V}

/-- A write of nothing takes the entry away. -/
def write (m : AList fun _ : K => E) (k : K) : Option E → AList fun _ : K => E
  | some e => m.insert k e
  | none => m.erase k

theorem lookup_write_self : (write m k e).lookup k = e := by
  cases e with
  | none => exact m.lookup_erase k
  | some e => exact m.lookup_insert

theorem lookup_write_of_ne (h : k' ≠ k) : (write m k e).lookup k' = m.lookup k' := by
  cases e with
  | none => exact m.lookup_erase_ne h
  | some e => exact m.lookup_insert_ne h

/-- What the map holds for each variable. -/
def values (key : V → K) (m : AList fun _ : K => E) (v : V) : Option E := m.lookup (key v)

/-- With a key for each variable, a write changes one variable. -/
theorem values_write [DecidableEq V] (h : Function.Injective key) :
    values key (write m (key v) e) = Function.update (values key m) v e := by
  funext u
  by_cases hu : u = v
  · subst u
    rw [Function.update_self]
    exact lookup_write_self
  · rw [Function.update_of_ne hu]
    exact lookup_write_of_ne (h.ne hu)

/-- Variables with equal keys read each other's writes. -/
theorem values_write_of_eq {u : V} (h : key u = key v) : values key (write m (key v) e) u = e := by
  unfold values
  rw [h]
  exact lookup_write_self

end Keyed
