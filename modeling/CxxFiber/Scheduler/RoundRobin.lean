import CxxFiber.Library.MachineInt
import Mathlib.Data.List.Induction
import Mathlib.Data.Nat.ModEq

/-! `balanceIndex`: the stubs that scheduling calls and the dispatch of `join(int)` take in turn. -/
namespace CxxFiber.RoundRobin

open MachineInt

/-- `balanceIndex` is a counter of 32 bits. `assigned` is history: for how many stubs an index was
computed, and the index. -/
structure State where
  balanceIndex : ℤ
  assigned : List (ℕ × ℤ)

def initial : State := ⟨0, []⟩

/-- `(balanceIndex++) % n`, with the sign of the counter. -/
def State.draw (s : State) (n : ℕ) : State where
  balanceIndex := narrow 32 (s.balanceIndex + 1)
  assigned := s.assigned ++ [(n, s.balanceIndex.tmod n)]

/-- The two places that draw: `scheduleIgnoreBalance` without a callback, and the dispatch of
`join(int)`. -/
inductive Draw
  | schedule (length : ℕ)
  | dispatch (threadNums : ℕ)
  deriving DecidableEq, Repr

def Draw.stubs : Draw → ℕ
  | .schedule length => length
  | .dispatch threadNums => threadNums

def State.step (s : State) : Draw → State
  | .schedule length => s.draw length
  | .dispatch threadNums => s.draw threadNums

def run (ds : List Draw) : State := ds.foldl State.step initial

/-- Every index is in range, and `n` consecutive ones for `n` stubs are all different. -/
structure Rotates (s : State) : Prop where
  inRange : ∀ n i, (n, i) ∈ s.assigned → 0 ≤ i ∧ i < n
  different : ∀ k n (index : ℕ → ℤ), (∀ j < n, s.assigned[k + j]? = some (n, index j)) →
    ∀ j < n, ∀ j' < n, index j = index j' → j = j'

/-- The `k`-th value of the counter is not negative, or `n` divides it. -/
def InTurn (k n : ℕ) : Prop := k % 2 ^ 32 < 2 ^ 31 ∨ n ∣ 2 ^ 32 - k % 2 ^ 32

instance {k n : ℕ} : Decidable (InTurn k n) := inferInstanceAs (Decidable (_ ∨ _))

/-- The index that the `k`-th draw computes. -/
def indexAt (k n : ℕ) : ℤ := (narrow 32 k).tmod n

variable {ds : List Draw} {d : Draw} {k n j : ℕ}

theorem narrow_succ : narrow 32 (narrow 32 k + 1) = narrow 32 ((k + 1 : ℕ) : ℤ) := by
  unfold narrow
  rw [Int.bmod_add_bmod, Int.natCast_succ]

theorem run_append : run (ds ++ [d]) = (run ds).draw d.stubs := by
  rw [run, List.foldl_append]
  cases d <;> rfl

/-- Each draw has the next value of the counter. -/
theorem run_eq (ds : List Draw) : (run ds).balanceIndex = narrow 32 ds.length ∧
    (run ds).assigned = ds.mapIdx fun k d => (d.stubs, indexAt k d.stubs) := by
  induction ds using List.reverseRecOn with
  | nil => exact ⟨rfl, rfl⟩
  | append_singleton ds d ih =>
    obtain ⟨hc, ha⟩ := ih
    rw [run_append]
    constructor
    · simp only [State.draw, hc, narrow_succ, List.length_append, List.length_singleton]
    · simp [State.draw, hc, ha, indexAt]

theorem assigned_eq : (run ds).assigned[k]? = ds[k]?.map fun d => (d.stubs, indexAt k d.stubs) := by
  rw [(run_eq ds).2, List.getElem?_mapIdx]

theorem narrow_eq_mod : narrow 32 k =
    if k % 2 ^ 32 < 2 ^ 31 then ((k % 2 ^ 32 : ℕ) : ℤ) else (k % 2 ^ 32 : ℕ) - 2 ^ 32 := by
  rw [narrow_eq (by decide)]
  split <;> split <;> omega

/-- A counter that is not negative gives the remainder. -/
theorem indexAt_of_lt (h : k % 2 ^ 32 < 2 ^ 31) : indexAt k n = (k % 2 ^ 32 % n : ℕ) := by
  rw [indexAt, narrow_eq_mod, if_pos h, Int.tmod_eq_emod_of_nonneg (Int.natCast_nonneg _)]
  exact (Int.natCast_emod _ _).symm

/-- A negative one gives a remainder that is not positive. -/
theorem indexAt_of_le (h : 2 ^ 31 ≤ k % 2 ^ 32) :
    indexAt k n = -((2 ^ 32 - k % 2 ^ 32) % n : ℕ) := by
  have hk : k % 2 ^ 32 < 2 ^ 32 := Nat.mod_lt _ (by decide)
  have hneg : narrow 32 k = -((2 ^ 32 - k % 2 ^ 32 : ℕ) : ℤ) := by
    rw [narrow_eq_mod, if_neg (Nat.not_lt.mpr h)]
    omega
  rw [indexAt, hneg, Int.neg_tmod, Int.tmod_eq_emod_of_nonneg (Int.natCast_nonneg _)]
  rw [Int.natCast_emod]

theorem inRange_iff (hn : 0 < n) : 0 ≤ indexAt k n ∧ indexAt k n < n ↔ InTurn k n := by
  by_cases hk : k % 2 ^ 32 < 2 ^ 31
  · have hlt := Nat.mod_lt (k % 2 ^ 32) hn
    rw [indexAt_of_lt hk]
    simp only [InTurn, hk, true_or, iff_true]
    omega
  · rw [indexAt_of_le (Nat.not_lt.mp hk), InTurn, Nat.dvd_iff_mod_eq_zero]
    omega

/-- No negative value is in turn before another value that is. -/
theorem InTurn.next (h : InTurn k n) (h' : InTurn (k + 1) n) (hn : 2 ≤ n) :
    k % 2 ^ 32 < 2 ^ 31 := by
  by_contra hk
  have hlt : k % 2 ^ 32 < 2 ^ 32 := Nat.mod_lt _ (by decide)
  have hd : n ∣ 2 ^ 32 - k % 2 ^ 32 := h.resolve_left hk
  have h1 : n ∣ 1 := by
    rcases h' with h' | h'
    · -- the last value before the counter is 0 again
      have he : 2 ^ 32 - k % 2 ^ 32 = 1 := by omega
      exact he ▸ hd
    · have hs := Nat.dvd_sub hd h'
      have he : 2 ^ 32 - k % 2 ^ 32 - (2 ^ 32 - (k + 1) % 2 ^ 32) = 1 ∨ (k + 1) % 2 ^ 32 = 0 := by
        omega
      rcases he with he | he
      · exact he ▸ hs
      · have he : 2 ^ 32 - k % 2 ^ 32 = 1 := by omega
        exact he ▸ hd
  have hle := Nat.le_of_dvd Nat.one_pos h1
  omega

/-- Among `n` consecutive values in turn only the last one can be negative, and then `n` divides
`2 ^ 31`: the remainders go on. -/
theorem indexAt_window (hn : 2 ≤ n) (hm : n < 2 ^ 31) (h : ∀ j < n, InTurn (k + j) n)
    (hj : j < n) : indexAt (k + j) n = ((k % 2 ^ 32 + j) % n : ℕ) := by
  have hlow : ∀ i, i + 1 < n → (k + i) % 2 ^ 32 < 2 ^ 31 := by
    intro i hi
    exact (h i (by omega)).next (h (i + 1) hi) hn
  have h0 := hlow 0 (by omega)
  have hmod : (k + j) % 2 ^ 32 = k % 2 ^ 32 + j := by omega
  rw [← hmod]
  by_cases hk : (k + j) % 2 ^ 32 < 2 ^ 31
  · exact indexAt_of_lt hk
  · have hd := (h j hj).resolve_left hk
    have hp := hlow (j - 1)
    have he : (k + j) % 2 ^ 32 = 2 ^ 31 := by omega
    rw [indexAt_of_le (Nat.not_lt.mp hk)]
    rw [he] at hd ⊢
    have hd' : n ∣ 2 ^ 31 := hd
    rw [Nat.mod_eq_zero_of_dvd hd, Nat.mod_eq_zero_of_dvd hd']
    rfl

/-- All indices are in range and go round exactly when every draw finds the counter in turn. -/
theorem rotates_iff (hds : ∀ d ∈ ds, 2 ≤ d.stubs ∧ d.stubs < 2 ^ 31) :
    Rotates (run ds) ↔ ∀ k d, ds[k]? = some d → InTurn k d.stubs := by
  constructor
  · intro h k d hk
    have hmem : (d.stubs, indexAt k d.stubs) ∈ (run ds).assigned := by
      apply List.mem_of_getElem? (i := k)
      rw [assigned_eq, hk]
      rfl
    have hd := hds d (List.mem_of_getElem? hk)
    exact (inRange_iff (by omega)).mp (h.inRange _ _ hmem)
  · intro h
    constructor
    case inRange =>
      intro n i hmem
      obtain ⟨k, hk⟩ := List.mem_iff_getElem?.mp hmem
      rw [assigned_eq] at hk
      obtain ⟨d, hd, he⟩ := Option.map_eq_some_iff.mp hk
      obtain ⟨rfl, rfl⟩ := Prod.mk.inj he
      have hb := hds d (List.mem_of_getElem? hd)
      exact (inRange_iff (by omega)).mpr (h k d hd)
    case different =>
      intro k n index hw j hj j' hj' he
      have hdraw : ∀ j < n, ∃ d, ds[k + j]? = some d ∧ d.stubs = n ∧
          index j = indexAt (k + j) n := by
        intro j hj
        have hk := hw j hj
        rw [assigned_eq] at hk
        obtain ⟨d, hd, he⟩ := Option.map_eq_some_iff.mp hk
        obtain ⟨rfl, hi⟩ := Prod.mk.inj he
        exact ⟨d, hd, rfl, hi.symm⟩
      have hturn : ∀ j < n, InTurn (k + j) n := by
        intro j hj
        obtain ⟨d, hd, rfl, _⟩ := hdraw j hj
        exact h _ d hd
      obtain ⟨d, hd, hn, hi⟩ := hdraw j hj
      obtain ⟨_, _, _, hi'⟩ := hdraw j' hj'
      obtain ⟨h2, hm⟩ := hds d (List.mem_of_getElem? hd)
      rw [hn] at h2 hm
      rw [hi, hi', indexAt_window h2 hm hturn hj, indexAt_window h2 hm hturn hj'] at he
      have hmod : k % 2 ^ 32 + j ≡ k % 2 ^ 32 + j' [MOD n] := Int.ofNat.inj he
      exact (Nat.ModEq.add_left_cancel' _ hmod).eq_of_lt_of_lt hj hj'

/-- Three workers and a fresh scheduler. -/
theorem rotates_three : Rotates (run [.dispatch 3, .dispatch 3, .schedule 3, .schedule 3]) := by
  apply (rotates_iff (by decide)).mpr
  intro k d hk
  have hlt : k < 4 := (List.getElem?_eq_some_iff.mp hk).1
  exact Or.inl (by omega)

/-- The fiber after `2 ^ 31` others goes to the stub -2 of 3. -/
theorem index_negative : (3, -2) ∈ (run (List.replicate (2 ^ 31 + 1) (.schedule 3))).assigned ∧
    ¬ Rotates (run (List.replicate (2 ^ 31 + 1) (.schedule 3))) := by
  have hidx : indexAt (2 ^ 31) 3 = -2 := by decide
  have hmem : (3, -2) ∈ (run (List.replicate (2 ^ 31 + 1) (.schedule 3))).assigned := by
    apply List.mem_of_getElem? (i := 2 ^ 31)
    rw [assigned_eq, List.getElem?_replicate_of_lt (Nat.lt_succ_self _)]
    exact congrArg (fun i => some (3, i)) hidx
  refine ⟨hmem, fun h => ?_⟩
  have hr := (h.inRange _ _ hmem).1
  omega

end CxxFiber.RoundRobin
