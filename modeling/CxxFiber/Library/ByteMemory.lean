import Mathlib.Algebra.Order.Ring.Nat
import Mathlib.Data.Nat.ModEq
import Mathlib.Tactic.Ring

/-! Bytes under addresses of a fixed width that wrap around, numbers in them with the low byte
first, and C strings. -/
namespace ByteMemory

/-- A byte at every address. -/
abbrev Bytes (w : ℕ) := BitVec w → BitVec 8

variable {w n k v : ℕ} {m m' : Bytes w} {a b x : BitVec w}

/-- The number in the `n` bytes from `a` on. -/
def read (m : Bytes w) (a : BitVec w) : ℕ → ℕ
  | 0 => 0
  | n + 1 => (m a).toNat + 256 * read m (a + 1) n

/-- The low `n` bytes of `v` from `a` on. -/
def write (m : Bytes w) (a : BitVec w) (n v : ℕ) : Bytes w := fun x =>
  if (x - a).toNat < n then BitVec.ofNat 8 (v / 256 ^ (x - a).toNat) else m x

/-- No address is both among the `n` from `a` on and among the `k` from `b` on. -/
def Apart (a : BitVec w) (n : ℕ) (b : BitVec w) (k : ℕ) : Prop :=
  ∀ i < n, k ≤ (a + BitVec.ofNat w i - b).toNat

instance : Decidable (Apart a n b k) := inferInstanceAs (Decidable (∀ i < n, _))

theorem succ_address (i : ℕ) : a + 1 + BitVec.ofNat w i = a + BitVec.ofNat w (i + 1) := by
  rw [BitVec.add_assoc, BitVec.ofNat_add, BitVec.add_comm 1]
  rfl

theorem read_congr (h : ∀ i < n, m (a + BitVec.ofNat w i) = m' (a + BitVec.ofNat w i)) :
    read m a n = read m' a n := by
  induction n generalizing a with
  | zero => rfl
  | succ n ih =>
    have hhead : m a = m' a := by simpa using h 0 n.succ_pos
    have htail : read m (a + 1) n = read m' (a + 1) n := by
      refine ih fun i hi => ?_
      rw [succ_address]
      exact h (i + 1) (Nat.succ_lt_succ hi)
    rw [read, read, hhead, htail]

theorem read_lt : read m a n < 256 ^ n := by
  induction n generalizing a with
  | zero => exact Nat.one_pos
  | succ n ih =>
    have hhead : (m a).toNat < 256 := (m a).isLt
    have htail := ih (a := a + 1)
    rw [read, Nat.pow_succ']
    omega

theorem write_of_le (h : n ≤ (x - a).toNat) : write m a n v x = m x :=
  if_neg (Nat.not_lt.mpr h)

/-- A write does not change what is read apart from it. -/
theorem read_write_apart (h : Apart a n b k) : read (write m b k v) a n = read m a n :=
  read_congr fun i hi => write_of_le (h i hi)

theorem toNat_offset (h : k < 2 ^ w) : (a + BitVec.ofNat w k - a).toNat = k := by
  rw [BitVec.add_comm, BitVec.add_sub_cancel, BitVec.toNat_ofNat, Nat.mod_eq_of_lt h]

theorem read_eq_mod (h : ∀ i < n, m (a + BitVec.ofNat w i) = BitVec.ofNat 8 (v / 256 ^ i)) :
    read m a n = v % 256 ^ n := by
  induction n generalizing a v with
  | zero => rw [read, Nat.pow_zero, Nat.mod_one]
  | succ n ih =>
    have hhead : (m a).toNat = v % 256 := by
      have h0 := h 0 n.succ_pos
      rw [BitVec.add_zero, Nat.pow_zero, Nat.div_one] at h0
      rw [h0, BitVec.toNat_ofNat]
    have htail : read m (a + 1) n = v / 256 % 256 ^ n := by
      refine ih fun i hi => ?_
      rw [succ_address, h (i + 1) (Nat.succ_lt_succ hi), Nat.div_div_eq_div_mul, Nat.pow_succ']
    rw [read, hhead, htail, Nat.pow_succ', Nat.mod_mul]

/-- What is written is read again, as far as it fits. -/
theorem read_write (hn : n ≤ 2 ^ w) : read (write m a n v) a n = v % 256 ^ n := by
  refine read_eq_mod fun i hi => ?_
  have hoff : (a + BitVec.ofNat w i - a).toNat = i := toNat_offset (hi.trans_le hn)
  rw [write, hoff, if_pos hi]

/-- A byte of the number that is read. -/
theorem byte_read (h : k < n) :
    BitVec.ofNat 8 (read m a n / 256 ^ k) = m (a + BitVec.ofNat w k) := by
  induction n generalizing a k with
  | zero => exact absurd h k.not_lt_zero
  | succ n ih =>
    have hlt : (m a).toNat < 256 := (m a).isLt
    cases k with
    | zero =>
      rw [Nat.pow_zero, Nat.div_one, BitVec.add_zero]
      apply BitVec.eq_of_toNat_eq
      rw [BitVec.toNat_ofNat, read, Nat.add_mul_mod_self_left, Nat.mod_eq_of_lt hlt]
    | succ k =>
      have hdiv : read m a (n + 1) / 256 ^ (k + 1) = read m (a + 1) n / 256 ^ k := by
        rw [read, Nat.pow_succ', ← Nat.div_div_eq_div_mul]
        congr 1
        omega
      rw [hdiv, ih (Nat.lt_of_succ_lt_succ h), succ_address]

/-- A number written where it stands already changes nothing. -/
theorem write_read : write m a n (read m a n) = m := by
  funext x
  rcases Nat.lt_or_ge (x - a).toNat n with hlt | hge
  · rw [write, if_pos hlt, byte_read hlt, BitVec.ofNat_toNat, BitVec.setWidth_eq, BitVec.add_comm,
      BitVec.sub_add_cancel]
  · exact write_of_le hge

/-- Being apart goes both ways. -/
theorem Apart.symm (h : Apart a n b k) : Apart b k a n := by
  intro j hj
  by_contra hlt
  have hplace : a + BitVec.ofNat w (b + BitVec.ofNat w j - a).toNat = b + BitVec.ofNat w j := by
    rw [BitVec.ofNat_toNat, BitVec.setWidth_eq, BitVec.add_comm, BitVec.sub_add_cancel]
  have hle := h _ (Nat.lt_of_not_le hlt)
  rw [hplace, BitVec.add_comm b, BitVec.add_sub_cancel, BitVec.toNat_ofNat] at hle
  have hmod := Nat.mod_le j (2 ^ w)
  omega

/-! Words of 64 bits -/

/-- The word in the eight bytes from `a` on. -/
def quad (m : Bytes 64) (a : BitVec 64) : BitVec 64 := .ofNat 64 (read m a 8)

def setQuad (m : Bytes 64) (a v : BitVec 64) : Bytes 64 := write m a 8 v.toNat

section Quad

variable {m m' : Bytes 64} {a b v : BitVec 64} {d e : ℕ}

@[simp] theorem quad_setQuad : quad (setQuad m a v) a = v := by
  apply BitVec.eq_of_toNat_eq
  have hlt : v.toNat < 256 ^ 8 := v.isLt
  rw [quad, setQuad, read_write (by decide), BitVec.toNat_ofNat, Nat.mod_eq_of_lt hlt]
  exact Nat.mod_eq_of_lt v.isLt

theorem quad_setQuad_apart (h : Apart a 8 b 8) : quad (setQuad m b v) a = quad m a := by
  rw [quad, setQuad, read_write_apart h, quad]

theorem quad_congr (h : ∀ i < 8, m (a + .ofNat 64 i) = m' (a + .ofNat 64 i)) :
    quad m a = quad m' a := by
  rw [quad, read_congr h, quad]

/-- Words at different places of one small block. -/
theorem apart_offset (hd : d < 2 ^ 32) (he : e < 2 ^ 32) (h : d + 8 ≤ e ∨ e + 8 ≤ d) :
    Apart (a + .ofNat 64 d) 8 (a + .ofNat 64 e) 8 := by
  intro i hi
  have hsub : a + .ofNat 64 d + .ofNat 64 i - (a + .ofNat 64 e) =
      BitVec.ofNat 64 (d + i) - .ofNat 64 e := by
    rw [BitVec.ofNat_add]
    bv_omega
  rw [hsub, BitVec.toNat_sub, BitVec.toNat_ofNat, BitVec.toNat_ofNat]
  omega

end Quad

/-! C strings -/

/-- A string as its bytes before the terminating zero. -/
structure CString where
  bytes : List (BitVec 8)
  nonzero : ∀ c ∈ bytes, c ≠ 0
  deriving DecidableEq

/-- The bytes and then a zero stand from `a` on. -/
def standsAt (m : Bytes w) (a : BitVec w) : List (BitVec 8) → Bool
  | [] => m a == 0
  | c :: s => m a == c && standsAt m (a + 1) s

/-- `strcmp` of what stands at `a` with `s` is zero. -/
def strEq (m : Bytes w) (a : BitVec w) (s : CString) : Bool := standsAt m a s.bytes

theorem standsAt_unique {s t : List (BitVec 8)} (hs : standsAt m a s) (ht : standsAt m a t)
    (hs0 : ∀ c ∈ s, c ≠ 0) (ht0 : ∀ c ∈ t, c ≠ 0) : s = t := by
  induction s generalizing a t with
  | nil =>
    cases t with
    | nil => rfl
    | cons d t =>
      have hzero : m a = 0 := by simpa [standsAt] using hs
      obtain ⟨hd, _⟩ : m a = d ∧ standsAt m (a + 1) t := by simpa [standsAt] using ht
      exact absurd (hd.symm.trans hzero) (ht0 d List.mem_cons_self)
  | cons c s ih =>
    obtain ⟨hc, hs'⟩ : m a = c ∧ standsAt m (a + 1) s := by simpa [standsAt] using hs
    cases t with
    | nil =>
      have hzero : m a = 0 := by simpa [standsAt] using ht
      exact absurd (hc.symm.trans hzero) (hs0 c List.mem_cons_self)
    | cons d t =>
      obtain ⟨hd, ht'⟩ : m a = d ∧ standsAt m (a + 1) t := by simpa [standsAt] using ht
      obtain rfl : c = d := hc.symm.trans hd
      rw [ih hs' ht' (fun e he => hs0 e (List.mem_cons_of_mem c he))
        fun e he => ht0 e (List.mem_cons_of_mem c he)]

/-- At an address there is at most one string. -/
theorem strEq_unique {s t : CString} (hs : strEq m a s) (ht : strEq m a t) : s = t := by
  have h : s.bytes = t.bytes := standsAt_unique hs ht s.nonzero t.nonzero
  cases s
  cases t
  cases h
  rfl

end ByteMemory
