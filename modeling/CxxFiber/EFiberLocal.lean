import CxxFiber.Library.Keyed
import Mathlib.Data.List.Basic

/-! `EFiberLocal`: values of variables, for each fiber. -/
namespace CxxFiber.FiberLocal

/-- A 64-bit address; 0 is null. -/
abbrev Pointer := BitVec 64

/-- The bytes of a pointer as they lie in memory. -/
def bytes (klen : ℕ) (p : Pointer) : List (BitVec 8) :=
  (List.range klen).map fun i => p.extractLsb' (8 * i) 8

/-- `keyWrap` has the callback as its only field. -/
structure EFiberLocal where
  callback : Pointer
  deriving DecidableEq, Repr

/-- `sizeof(this)`, the `klen` of every call. -/
def sizeofThis : ℕ := 8

/-- `localValues`. -/
abbrev Hash := AList fun _ : List (BitVec 8) => Pointer

/-- The key that the hash compares: `klen` bytes from the address of `keyWrap`. -/
def EFiberLocal.key (x : EFiberLocal) : List (BitVec 8) := bytes sizeofThis x.callback

def esoHashGet (h : Hash) (key : List (BitVec 8)) : Pointer := (h.lookup key).getD 0

/-- A null value takes the entry away. -/
def esoHashSet (h : Hash) (key : List (BitVec 8)) (val : Pointer) : Hash :=
  Keyed.write h key (if val = 0 then none else some val)

/-- `localValues` of each fiber. -/
abbrev State := ℕ → Hash

namespace State

/-- Outside of fibers `get` returns null. -/
def get (s : State) (currFiber : Option ℕ) (x : EFiberLocal) : Pointer :=
  match currFiber with
  | none => 0
  | some f => esoHashGet (s f) x.key

def set (s : State) (currFiber : Option ℕ) (x : EFiberLocal) (e : Pointer) : State :=
  match currFiber with
  | none => s
  | some f => Function.update s f (esoHashSet (s f) x.key e)

def remove (s : State) (currFiber : Option ℕ) (x : EFiberLocal) : State :=
  match currFiber with
  | none => s
  | some f => Function.update s f (esoHashSet (s f) x.key 0)

/-- The end of `~EFiber`. -/
def destroy (s : State) (f : ℕ) : State := Function.update s f ∅

end State

/-- Calls on the variables, each in the current fiber of its thread, and the end of a fiber. -/
inductive Op (V : Type)
  | get (currFiber : Option ℕ) (v : V)
  | set (currFiber : Option ℕ) (v : V) (e : Pointer)
  | remove (currFiber : Option ℕ) (v : V)
  | destroy (f : ℕ)

variable {V : Type} (var : V → EFiberLocal)

def Op.run (s : State) : Op V → State
  | .get _ _ => s
  | .set f v e => s.set f (var v) e
  | .remove f v => s.remove f (var v)
  | .destroy f => s.destroy f

def run (ops : List (Op V)) : State := ops.foldl (Op.run var) fun _ => ∅

variable [DecidableEq V]

/-- The value last set on a variable in a fiber since its last remove. -/
def Op.lastAfter (last : ℕ → V → Pointer) : Op V → ℕ → V → Pointer
  | .get _ _ | .set none _ _ | .remove none _ => last
  | .set (some f) v e => Function.update last f (Function.update (last f) v e)
  | .remove (some f) v => Function.update last f (Function.update (last f) v 0)
  | .destroy f => Function.update last f fun _ => 0

def last (ops : List (Op V)) : ℕ → V → Pointer := ops.foldl Op.lastAfter fun _ _ => 0

/-- After every sequence of calls each variable has its own value in each fiber, and none outside
of fibers. -/
def Independent : Prop :=
  ∀ ops v, (∀ f, (run var ops).get (some f) (var v) = last ops f v) ∧
    (run var ops).get none (var v) = 0

variable {var} {s : State} {l : ℕ → V → Pointer} {h : Hash} {v : V} {e : Pointer} {f : ℕ}

/-- All 8 bytes of the callback are compared. -/
theorem bytes_injective : Function.Injective (bytes sizeofThis) := by
  intro p q h
  have hbyte : ∀ i < 8, p.extractLsb' (8 * i) 8 = q.extractLsb' (8 * i) 8 := by
    intro i hi
    have hget := congrArg (fun l => l[i]?) h
    simpa [bytes, sizeofThis, hi] using hget
  apply BitVec.eq_of_getLsbD_eq
  intro j hj
  have hbit := congrArg (fun b => b.getLsbD (j % 8)) (hbyte (j / 8) (by omega))
  have hlt : j % 8 < 8 := Nat.mod_lt j (by omega)
  simpa [hlt, Nat.div_add_mod] using hbit

section

omit [DecidableEq V]

theorem key_injective (hc : Function.Injective fun v => (var v).callback) :
    Function.Injective fun v => (var v).key :=
  bytes_injective.comp hc

end

theorem getD_stored : (if e = 0 then none else some e).getD 0 = e := by
  split
  · next he => exact he.symm
  · rfl

/-- The hashes hold what was last set. -/
def Matches (var : V → EFiberLocal) (s : State) (l : ℕ → V → Pointer) : Prop :=
  ∀ f v, (Keyed.values (fun v => (var v).key) (s f) v).getD 0 = l f v

theorem matches_set (hc : Function.Injective fun v => (var v).callback) (hm : Matches var s l) :
    Matches var (Function.update s f (esoHashSet (s f) (var v).key e))
      (Function.update l f (Function.update (l f) v e)) := by
  intro g u
  by_cases hg : g = f
  · subst g
    have hw := Keyed.values_write (m := s f) (v := v) (e := if e = 0 then none else some e)
      (key_injective hc)
    rw [Function.update_self, Function.update_self, esoHashSet, hw]
    by_cases hu : u = v
    · subst u
      rw [Function.update_self, Function.update_self]
      exact getD_stored
    · rw [Function.update_of_ne hu, Function.update_of_ne hu]
      exact hm f u
  · rw [Function.update_of_ne hg, Function.update_of_ne hg]
    exact hm g u

theorem matches_step (hc : Function.Injective fun v => (var v).callback) (hm : Matches var s l)
    (o : Op V) : Matches var (o.run var s) (o.lastAfter l) := by
  cases o with
  | get => exact hm
  | set f v e =>
    cases f with
    | none => exact hm
    | some f => exact matches_set hc hm
  | remove f v =>
    cases f with
    | none => exact hm
    | some f => exact matches_set hc hm
  | destroy f =>
    intro g u
    by_cases hg : g = f
    · subst g
      simp [Op.run, State.destroy, Op.lastAfter, Keyed.values]
    · simpa [Op.run, State.destroy, Op.lastAfter, hg] using hm g u

theorem matches_run (hc : Function.Injective fun v => (var v).callback) (ops : List (Op V)) :
    Matches var (run var ops) (last ops) := by
  have hfold : ∀ (ops : List (Op V)) s l, Matches var s l →
      Matches var (ops.foldl (Op.run var) s) (ops.foldl Op.lastAfter l) := by
    intro ops
    induction ops with
    | nil => exact fun _ _ hm => hm
    | cons o ops ih => exact fun s l hm => ih _ _ (matches_step hc hm o)
  apply hfold
  intro f v
  simp [Keyed.values]

/-- The variables of a program are independent exactly when no two share a destroy callback. -/
theorem independent_iff (var : V → EFiberLocal) :
    Independent var ↔ Function.Injective fun v => (var v).callback := by
  constructor
  · intro h u v huv
    by_contra hne
    have hkey : (var u).key = (var v).key := congrArg (bytes sizeofThis) huv
    -- one fiber sets `v` and finds its value in `u`
    have hget := (h [.set (some 0) v 1] u).1 0
    have hval : Keyed.values (fun v => (var v).key) (Keyed.write ∅ (var v).key (some (1 : Pointer)))
        u = some 1 := Keyed.values_write_of_eq hkey
    have hone : (run var [.set (some 0) v 1]).get (some 0) (var u) = 1 :=
      congrArg (fun o => o.getD 0) hval
    have hlast : last [.set (some 0) v 1] 0 u = 0 := by simp [last, Op.lastAfter, hne]
    rw [hone, hlast] at hget
    exact absurd hget (by decide)
  · intro hc ops v
    exact ⟨fun f => matches_run hc ops f v, rfl⟩

/-- Two variables without a callback: what is set on the first is read from the second. -/
theorem locals_collide : ∃ var : Bool → EFiberLocal, (∀ v, (var v).callback = 0) ∧
    (run var [.set (some 0) false 1]).get (some 0) (var true) = 1 ∧ ¬ Independent var := by
  refine ⟨fun _ => ⟨0⟩, fun _ => rfl, by decide, fun h => ?_⟩
  have hget := (h [.set (some 0) false 1] true).1 0
  exact absurd hget (by decide)

end CxxFiber.FiberLocal
