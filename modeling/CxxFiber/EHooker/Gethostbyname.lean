import CxxFiber.Library.Runs
import CxxFiber.Library.Turns
import Mathlib.Algebra.Order.Ring.Nat

/-! `gethostbyname` in a fiber: a loop that asks again with a buffer of twice the size. -/
namespace CxxFiber.EHooker.Gethostbyname

open Transition Turns

def ERANGE : ℤ := 34

/-- What a name comes to: a host or NULL, and the `errno` that is set. It is left alone for a name
that is not found. -/
structure Definitive (H : Type) where
  result : Option H
  errno : Option ℤ
  deriving DecidableEq, Repr

/-- The resolver for one name: every buffer above some size is large enough. -/
structure Resolver (H : Type) where
  enough : BitVec 64 → Bool
  definitive : Definitive H
  bound : BitVec 64
  enough_above : ∀ size, bound < size → enough size = true

/-- `*result` and `errno` after the call. -/
def Resolver.gethostbyname_r {H : Type} (r : Resolver H) (iBufferSize : BitVec 64) (errno : ℤ) :
    Option H × ℤ :=
  if r.enough iBufferSize then (r.definitive.result, r.definitive.errno.getD errno)
  else (none, ERANGE)

/-- `hostbuf_wrap`: whether `buffer` is not NULL, and its size. -/
structure HostBuf where
  buffer : Bool
  iBufferSize : BitVec 64
  deriving DecidableEq, Repr

/-- The variables of the loop. -/
structure Vars where
  hw : HostBuf
  errno : ℤ
  deriving DecidableEq, Repr

/-- The buffer may be used: it is not NULL, or it is said to have no bytes. -/
def Vars.Usable (v : Vars) : Prop := v.hw.buffer = true ∨ v.hw.iBufferSize = 0

instance {v : Vars} : Decidable v.Usable := inferInstanceAs (Decidable (_ ∨ _))

/-- How a call ends. `undefined` is the use of a NULL pointer. -/
inductive Outcome (H : Type)
  | returned (result : Option H) (errno : ℤ) (hw : Option HostBuf)
  | undefined
  deriving DecidableEq, Repr

/-- A call in a fiber, whose `hostbuf_wrap_local` is `hw`. -/
structure Call (H : Type) where
  /-- The name is not NULL. -/
  named : Bool
  /-- There is a scheduler, and no signal is handled. -/
  hooked : Bool
  /-- What `gethostbyname_f` does. -/
  plain : Option H × ℤ
  resolver : Resolver H
  hw : Option HostBuf
  errno : ℤ
  calloc : Bool
  malloc : Bool
  /-- Whether the `n`th `realloc` has a buffer. -/
  realloc : ℕ → Bool

namespace Call

variable {H : Type}

/-- What comes before `RETRY`. -/
def enter (c : Call H) : Vars ⊕ Outcome H :=
  if !c.named then .inr (.returned none c.errno c.hw)
  else if !c.hooked then .inr (.returned c.plain.1 c.plain.2 c.hw)
  else if c.hw.isNone && !c.calloc then .inr .undefined
  else
    let hw := c.hw.getD ⟨false, 0⟩
    -- a buffer that has grown is given back
    let hw := if hw.buffer && 1024 < hw.iBufferSize then ⟨false, hw.iBufferSize⟩ else hw
    let hw := if !hw.buffer then ⟨c.malloc, 1024⟩ else hw
    .inl ⟨hw, c.errno⟩

/-- One turn, from `RETRY` on: neither what `gethostbyname_r` returns nor the new buffer is tested.
`realloc` leaves `errno` alone when it has a buffer. -/
def turn (c : Call H) (v : Vars) (realloc : Bool) : Vars ⊕ Outcome H :=
  if v.Usable then
    let answer := c.resolver.gethostbyname_r v.hw.iBufferSize v.errno
    if answer.1.isNone && answer.2 == ERANGE then
      .inl ⟨⟨realloc, v.hw.iBufferSize * 2⟩, answer.2⟩
    else .inr (.returned answer.1 answer.2 (some v.hw))
  else .inr .undefined

/-- The call after `n` attempts. -/
def exec (c : Call H) (n : ℕ) : Vars ⊕ Outcome H :=
  c.enter.elim (fun v => after c.turn c.realloc v n) .inr

/-- The definitive result after finitely many attempts, each with a larger buffer. -/
def Right (c : Call H) : Prop :=
  ∃ n errno hw, c.exec n = .inr (.returned c.resolver.definitive.result errno hw) ∧
    ∀ j x y, c.exec j = .inl x → c.exec (j + 1) = .inl y →
      x.hw.iBufferSize < y.hw.iBufferSize

/-- The variables before the `n`th attempt when all buffers before were too small. -/
def before (c : Call H) (v : Vars) : ℕ → Vars
  | 0 => v
  | n + 1 => ⟨⟨c.realloc n, (before c v n).hw.iBufferSize * 2⟩, ERANGE⟩

/-- The definitive result is not NULL, or leaves something else than `ERANGE` in `errno`. -/
def Stops (c : Call H) (v : Vars) : Prop :=
  c.resolver.definitive.result ≠ none ∨ c.resolver.definitive.errno.getD v.errno ≠ ERANGE

/-- The buffer of the `k`th attempt is the first that is large enough. The sizes up to it fit into a
`size_t`, all buffers are there, and the definitive result stops the loop then. -/
structure Fits (c : Call H) (v : Vars) (k : ℕ) : Prop where
  small : ∀ j < k, c.resolver.enough (c.before v j).hw.iBufferSize = false
  enough : c.resolver.enough (c.before v k).hw.iBufferSize = true
  room : v.hw.iBufferSize.toNat * 2 ^ k < 2 ^ 64
  memory : ∀ j ≤ k, (c.before v j).Usable
  stops : c.Stops (c.before v k)

end Call

variable {H : Type} {c : Call H} {v w : Vars} {result : Option H} {errno : ℤ} {hw : Option HostBuf}
  {j k n : ℕ} {ok : Bool}

/-! One turn -/

/-- A buffer that is too small leads to the next one. -/
theorem turn_small (hu : v.Usable) (hs : c.resolver.enough v.hw.iBufferSize = false) :
    c.turn v ok = .inl ⟨⟨ok, v.hw.iBufferSize * 2⟩, ERANGE⟩ := by
  simp [Call.turn, hu, Resolver.gethostbyname_r, hs]

theorem turn_stops (hu : v.Usable) (he : c.resolver.enough v.hw.iBufferSize = true)
    (hs : c.Stops v) : c.turn v ok = .inr (.returned c.resolver.definitive.result
      (c.resolver.definitive.errno.getD v.errno) (some v.hw)) := by
  have htest : c.resolver.definitive.result = none →
      ¬ c.resolver.definitive.errno.getD v.errno = ERANGE := by
    intro hnone
    exact hs.resolve_left (not_not_intro hnone)
  simpa [Call.turn, hu, Resolver.gethostbyname_r, he] using htest

/-- A turn that goes on has met a buffer that is too small, or an answer that does not end the
loop. -/
theorem turn_inl (h : c.turn v ok = .inl w) : v.Usable ∧
    w = ⟨⟨ok, v.hw.iBufferSize * 2⟩, ERANGE⟩ ∧
      (c.resolver.enough v.hw.iBufferSize = true → ¬ c.Stops v) := by
  by_cases hu : v.Usable
  · refine ⟨hu, ?_, fun he hs => ?_⟩
    · simp only [Call.turn, if_pos hu] at h
      split at h
      · next htest =>
        have herr := (Bool.and_eq_true_iff.mp htest).2
        cases h
        rw [eq_of_beq herr]
      · cases h
    · rw [turn_stops hu he hs] at h
      cases h
  · simp only [Call.turn, if_neg hu] at h
    cases h

/-- A turn that returns has met an answer that ends the loop. -/
theorem turn_returned (h : c.turn v ok = .inr (.returned result errno hw)) : v.Usable ∧
    c.resolver.enough v.hw.iBufferSize = true ∧ c.Stops v := by
  by_cases hu : v.Usable
  · cases he : c.resolver.enough v.hw.iBufferSize with
    | false =>
      rw [turn_small hu he] at h
      cases h
    | true =>
      refine ⟨hu, rfl, ?_⟩
      by_contra hs
      obtain ⟨hnone, herr⟩ := not_or.mp hs
      simp [Call.turn, hu, Resolver.gethostbyname_r, he, not_not.mp hnone, not_not.mp herr] at h
  · simp only [Call.turn, if_neg hu] at h
    cases h

/-! The sizes -/

theorem double_lt {x : BitVec 64} : x < x * 2 ↔ 0 < x.toNat ∧ x.toNat * 2 < 2 ^ 64 := by
  have hx : x.toNat < 2 ^ 64 := x.isLt
  rw [BitVec.lt_def, BitVec.toNat_mul]
  change x.toNat < x.toNat * 2 % 2 ^ 64 ↔ _
  omega

theorem size_before :
    (c.before v n).hw.iBufferSize.toNat = v.hw.iBufferSize.toNat * 2 ^ n % 2 ^ 64 := by
  induction n with
  | zero =>
    have hv : v.hw.iBufferSize.toNat < 2 ^ 64 := v.hw.iBufferSize.isLt
    rw [Nat.pow_zero, Nat.mul_one, Nat.mod_eq_of_lt hv]
    rfl
  | succ n ih =>
    have hdouble : (c.before v (n + 1)).hw.iBufferSize.toNat =
        (c.before v n).hw.iBufferSize.toNat * 2 % 2 ^ 64 := BitVec.toNat_mul ..
    have hpow : (2 : ℕ) ^ (n + 1) = 2 ^ n * 2 := Nat.pow_succ ..
    rw [hdouble, ih, Nat.mod_mul_mod, hpow, Nat.mul_assoc]

/-- Sizes that get larger have not wrapped around. -/
theorem room_of_increasing (h : ∀ j < k,
    (c.before v j).hw.iBufferSize < (c.before v (j + 1)).hw.iBufferSize) :
    v.hw.iBufferSize.toNat * 2 ^ k < 2 ^ 64 := by
  induction k with
  | zero => simpa using v.hw.iBufferSize.isLt
  | succ k ih =>
    have hk := ih fun j hj => h j (Nat.lt_succ_of_lt hj)
    have hlt : (c.before v k).hw.iBufferSize < (c.before v k).hw.iBufferSize * 2 :=
      h k k.lt_succ_self
    have hroom := (double_lt.mp hlt).2
    rwa [size_before, Nat.mod_eq_of_lt hk, Nat.mul_assoc, ← Nat.pow_succ] at hroom

theorem increasing_of_room (hpos : 0 < v.hw.iBufferSize.toNat)
    (h : v.hw.iBufferSize.toNat * 2 ^ k < 2 ^ 64) (hj : j < k) :
    (c.before v j).hw.iBufferSize < (c.before v (j + 1)).hw.iBufferSize := by
  have hpow : (2 : ℕ) ^ (j + 1) ≤ 2 ^ k := Nat.pow_le_pow_right (by omega) hj
  have hnext : v.hw.iBufferSize.toNat * 2 ^ (j + 1) < 2 ^ 64 :=
    (Nat.mul_le_mul_left _ hpow).trans_lt h
  have hdouble : v.hw.iBufferSize.toNat * 2 ^ j * 2 < 2 ^ 64 := by
    rwa [Nat.mul_assoc, ← Nat.pow_succ]
  have hsize : (c.before v j).hw.iBufferSize.toNat = v.hw.iBufferSize.toNat * 2 ^ j := by
    rw [size_before]
    exact Nat.mod_eq_of_lt (by omega)
  have hbefore : 0 < (c.before v j).hw.iBufferSize.toNat := by
    rw [hsize]
    exact Nat.mul_pos hpos (Nat.two_pow_pos j)
  exact double_lt.mpr ⟨hbefore, by rwa [hsize]⟩

/-! The loop -/

theorem exec_eq (h : c.enter = .inl v) (n : ℕ) : c.exec n = after c.turn c.realloc v n := by
  rw [Call.exec, h, Sum.elim_inl]

/-- A call that goes on has only met buffers that are too small, or might have. -/
theorem exec_inl (h : c.enter = .inl v) (hn : c.exec n = .inl w) : w = c.before v n := by
  rw [exec_eq h] at hn
  induction n generalizing w with
  | zero => exact (Sum.inl.inj hn).symm
  | succ n ih =>
    obtain ⟨u, hu, hturn⟩ := after_inl_succ hn
    obtain rfl := ih hu
    exact (turn_inl hturn).2.1

/-- The attempts before one that is made. -/
theorem exec_before (h : c.enter = .inl v) (hn : c.exec n = .inl w) (hj : j ≤ n) :
    c.exec j = .inl (c.before v j) := by
  rw [exec_eq h] at hn
  obtain ⟨x, hx⟩ := after_inl_of_le hn hj
  rw [← exec_eq h] at hx
  rw [hx, exec_inl h hx]

theorem turn_before (h : c.enter = .inl v) (hn : c.exec n = .inl w) (hj : j < n) :
    c.turn (c.before v j) (c.realloc j) = .inl (c.before v (j + 1)) := by
  have hnext := exec_before h hn (Nat.succ_le_of_lt hj)
  have hfirst := exec_before h hn (Nat.le_of_lt hj)
  rw [exec_eq h] at hnext hfirst
  rwa [after_succ hfirst] at hnext

/-- As long as the buffers are too small, the call goes on. -/
theorem exec_small (h : c.enter = .inl v)
    (hs : ∀ j < n, c.resolver.enough (c.before v j).hw.iBufferSize = false)
    (hu : ∀ j < n, (c.before v j).Usable) : c.exec n = .inl (c.before v n) := by
  rw [exec_eq h]
  induction n with
  | zero => rfl
  | succ n ih =>
    have hn := ih (fun j hj => hs j (Nat.lt_succ_of_lt hj)) fun j hj => hu j (Nat.lt_succ_of_lt hj)
    rw [after_succ hn, turn_small (hu n n.lt_succ_self) (hs n n.lt_succ_self), Call.before]

/-- After an answer that has not ended the loop no answer does. -/
theorem not_stops_of_earlier (hj : j < k) (h : ¬ c.Stops (c.before v j)) :
    ¬ c.Stops (c.before v k) := by
  obtain ⟨hnone, herr⟩ := not_or.mp h
  rintro (hk | hk)
  · exact hnone hk
  · cases k with
    | zero => exact absurd hj j.not_lt_zero
    | succ k =>
      cases he : c.resolver.definitive.errno with
      | none =>
        rw [he] at hk
        exact hk rfl
      | some e =>
        rw [he] at herr hk
        exact herr hk

theorem fits_of_right (h : c.enter = .inl v) (hr : c.Right) : ∃ k, c.Fits v k := by
  obtain ⟨n, errno, hw, hn, hlarger⟩ := hr
  rw [exec_eq h] at hn
  obtain ⟨k, t, hkn, hk, hturn⟩ := after_inr hn
  rw [← exec_eq h] at hk
  obtain rfl := exec_inl h hk
  obtain ⟨husable, henough, hstops⟩ := turn_returned hturn
  have hroom : v.hw.iBufferSize.toNat * 2 ^ k < 2 ^ 64 :=
    room_of_increasing (c := c) fun j hj =>
      hlarger j _ _ (exec_before h hk (Nat.le_of_lt hj)) (exec_before h hk hj)
  refine ⟨k, fun j hj => ?_, henough, hroom, fun j hj => ?_, hstops⟩
  · -- a buffer that was large enough before would not have stopped the loop, nor would this one
    by_contra hlarge
    rw [Bool.not_eq_false] at hlarge
    have hgoes := (turn_inl (turn_before h hk hj)).2.2 hlarge
    exact not_stops_of_earlier hj hgoes hstops
  · rcases Nat.lt_or_eq_of_le hj with hlt | rfl
    · exact (turn_inl (turn_before h hk hlt)).1
    · exact husable

/-- The call returns after the first attempt with a buffer that is large enough. -/
theorem exec_fits (h : c.enter = .inl v) (hf : c.Fits v k) :
    c.exec (k + 1) = .inr (.returned c.resolver.definitive.result
      (c.resolver.definitive.errno.getD (c.before v k).errno) (some (c.before v k).hw)) := by
  have hk := exec_small h hf.small fun j hj => hf.memory j (Nat.le_of_lt hj)
  rw [exec_eq h] at hk ⊢
  rw [after_succ hk, turn_stops (hf.memory k (le_refl k)) hf.enough hf.stops]

/-- Only a size that is not zero can be too small first and large enough later. -/
theorem size_pos (hf : c.Fits v k) (hk : 0 < k) : 0 < v.hw.iBufferSize.toNat := by
  rcases Nat.eq_zero_or_pos v.hw.iBufferSize.toNat with hzero | hpos
  · have hsame : (c.before v k).hw.iBufferSize = (c.before v 0).hw.iBufferSize := by
      apply BitVec.eq_of_toNat_eq
      rw [size_before, size_before, hzero, Nat.zero_mul, Nat.zero_mul]
    have hsmall := hf.small 0 hk
    rw [← hsame, hf.enough] at hsmall
    cases hsmall
  · exact hpos

theorem right_of_fits (h : c.enter = .inl v) (hf : c.Fits v k) : c.Right := by
  refine ⟨k + 1, _, _, exec_fits h hf, fun j x y hx hy => ?_⟩
  have hj : j < k := by
    by_contra hge
    have hend := exec_fits h hf
    rw [exec_eq h] at hend hy
    rw [after_stays hend (by omega)] at hy
    cases hy
  rw [exec_inl h hx, exec_inl h hy]
  exact increasing_of_room (size_pos hf (Nat.zero_lt_of_lt hj)) hf.room hj

/-! The buffer that a fiber keeps -/

/-- A buffer that is kept has at least the size that is asked for first. -/
def Kept (hw : Option HostBuf) : Prop := ∀ b ∈ hw, b.buffer = true → 1024 ≤ b.iBufferSize

/-- A call of the fiber that returns, and the buffer that it leaves. -/
def Served (hw : Option HostBuf) (c : Call H) (hw' : Option HostBuf) : Prop :=
  c.hw = hw ∧ (∃ n result errno, c.exec n = .inr (.returned result errno hw')) ∧
    ∀ v, c.enter = .inl v → ∃ k, c.Fits v k

/-- With the buffer of an earlier call the loop starts as with a new one. -/
theorem enter_size (hk : Kept c.hw) (h : c.enter = .inl v) :
    v.hw.iBufferSize = 1024 ∧ v.errno = c.errno := by
  simp only [Call.enter] at h
  split at h
  · cases h
  split at h
  · cases h
  split at h
  · cases h
  cases h
  refine ⟨?_, rfl⟩
  cases hw : c.hw with
  | none => rfl
  | some b =>
    obtain ⟨buffer, iBufferSize⟩ := b
    cases buffer with
    | false => rfl
    | true =>
      have hle : 1024 ≤ iBufferSize := hk _ hw rfl
      by_cases hlt : 1024#64 < iBufferSize
      · simp [hlt]
      · have heq : iBufferSize = 1024 := BitVec.le_antisymm (BitVec.not_lt.mp hlt) hle
        simp [heq]

/-- A call that does not reach the loop leaves the buffer alone. -/
theorem enter_returned (h : c.enter = .inr (.returned result errno hw)) : hw = c.hw := by
  simp only [Call.enter] at h
  split at h
  · cases h
    rfl
  split at h
  · cases h
    rfl
  split at h
  · cases h
  · cases h

theorem kept_served {hw' : Option HostBuf} (hk : Kept hw) (h : Served hw c hw') : Kept hw' := by
  obtain ⟨rfl, ⟨n, result, errno, hn⟩, hfits⟩ := h
  cases henter : c.enter with
  | inl v =>
    obtain ⟨k, hf⟩ := hfits v henter
    have hend := exec_fits henter hf
    rw [exec_eq henter] at hn hend
    cases after_unique hn hend
    rintro b hb _
    cases hb
    have hsize := (enter_size hk henter).1
    have hroom := hf.room
    rw [BitVec.le_def, size_before, Nat.mod_eq_of_lt hroom, hsize]
    exact Nat.le_mul_of_pos_right _ (Nat.two_pow_pos k)
  | inr o =>
    rw [Call.exec, henter, Sum.elim_inr] at hn
    cases hn
    rwa [enter_returned henter]

/-- In all calls of a fiber the loop starts with 1024 bytes. -/
theorem size_in_run {cs : List (Call H)} (hr : Run Served none cs c.hw) (h : c.enter = .inl v) :
    v.hw.iBufferSize = 1024 :=
  (enter_size (hr.invariant (fun _ _ _ => kept_served) fun b hb => by cases hb) h).1

/-! Names by their answers -/

theorem before_errno (h : v.errno = ERANGE) : (c.before v n).errno = ERANGE := by
  cases n with
  | zero => exact h
  | succ n => rfl

/-- For a name that is not found the loop never ends when `errno` is `ERANGE` on entry. -/
theorem never_returns (h : c.enter = .inl v) (hd : c.resolver.definitive = ⟨none, none⟩)
    (he : v.errno = ERANGE) (n : ℕ) : c.exec n ≠ .inr (.returned result errno hw) := by
  intro hn
  rw [exec_eq h] at hn
  obtain ⟨k, t, _, hk, hturn⟩ := after_inr hn
  rw [← exec_eq h] at hk
  obtain rfl := exec_inl h hk
  rcases (turn_returned hturn).2.2 with hs | hs
  · rw [hd] at hs
    exact hs rfl
  · rw [hd] at hs
    exact hs (before_errno he)

/-- For a name that is not found the first buffer has to be large enough, and `errno` another. -/
theorem not_found_iff (hd : c.resolver.definitive = ⟨none, none⟩) :
    (∃ k, c.Fits v k) ↔ v.Usable ∧ c.resolver.enough v.hw.iBufferSize = true ∧
      v.errno ≠ ERANGE := by
  constructor
  · rintro ⟨k, hf⟩
    have hstops : (c.before v k).errno ≠ ERANGE := by
      have hs := hf.stops
      rw [Call.Stops, hd] at hs
      exact hs.resolve_left (not_not_intro rfl)
    cases k with
    | zero => exact ⟨hf.memory 0 (le_refl 0), hf.enough, hstops⟩
    | succ k => exact absurd rfl hstops
  · rintro ⟨hu, henough, herr⟩
    refine ⟨0, fun j hj => absurd hj j.not_lt_zero, henough, ?_, fun j hj => ?_, .inr ?_⟩
    · simpa using v.hw.iBufferSize.isLt
    · obtain rfl := Nat.le_zero.mp hj
      exact hu
    · rw [hd]
      exact herr

/-- A host, or a failure with an `errno` of its own, is found as long as there is memory. -/
theorem fits_of_definitive (hv : v.hw.iBufferSize = 1024) (hb : v.hw.buffer = true)
    (hm : ∀ n, c.realloc n = true) (hbound : c.resolver.bound.toNat < 2 ^ 63)
    (hd : c.resolver.definitive.result ≠ none ∨
      ∃ e, c.resolver.definitive.errno = some e ∧ e ≠ ERANGE) : ∃ k, c.Fits v k := by
  -- the largest size is above the bound
  have hlarge : c.resolver.enough (c.before v 53).hw.iBufferSize = true := by
    refine c.resolver.enough_above _ ?_
    rw [BitVec.lt_def, size_before, hv]
    change c.resolver.bound.toNat < 1024 * 2 ^ 53 % 2 ^ 64
    omega
  have hex : ∃ k, c.resolver.enough (c.before v k).hw.iBufferSize = true := ⟨53, hlarge⟩
  let k := Nat.find hex
  have hk : k ≤ 53 := Nat.find_min' hex hlarge
  have hpow : (2 : ℕ) ^ k ≤ 2 ^ 53 := Nat.pow_le_pow_right (by omega) hk
  refine ⟨k, fun j hj => ?_, Nat.find_spec hex, ?_, fun j _ => .inl ?_, ?_⟩
  · exact Bool.eq_false_iff.mpr (Nat.find_min hex hj)
  · rw [hv]
    change 1024 * 2 ^ k < 2 ^ 64
    omega
  · cases j with
    | zero => exact hb
    | succ j => exact hm j
  · rcases hd with hd | ⟨e, he, hne⟩
    · exact .inl hd
    · right
      rw [he]
      exact hne

/-- The loop makes finitely many attempts, each with a larger buffer, and returns the definitive
result exactly when the first buffer that is large enough can be had and `errno` is not `ERANGE`
after a result that is NULL. -/
theorem right_iff (h : c.enter = .inl v) : c.Right ↔ ∃ k, c.Fits v k :=
  ⟨fits_of_right h, fun ⟨_, hf⟩ => right_of_fits h hf⟩

/-- The first call of a fiber, for a name that needs some bytes. -/
def firstCall (need : BitVec 64) (definitive : Definitive String) (errno : ℤ) : Call String where
  named := true
  hooked := true
  plain := (none, 0)
  resolver := ⟨fun size => decide (need ≤ size), definitive, need,
    fun _ h => decide_eq_true (BitVec.le_of_lt h)⟩
  hw := none
  errno := errno
  calloc := true
  malloc := true
  realloc := fun _ => true

/-- A host that needs 3000 bytes is there after the third attempt. -/
theorem third_attempt : (firstCall 3000 ⟨some "x2.xxx.xxx", none⟩ ERANGE).Right :=
  (right_iff (v := ⟨⟨true, 1024⟩, ERANGE⟩) rfl).mpr
    ⟨2, by decide, by decide, by decide, by decide, .inl (by decide)⟩

/-- A name that is not found, when `errno` is `ERANGE` before the call. -/
theorem stale_errno : ¬ (firstCall 1 ⟨none, none⟩ ERANGE).Right := by
  rintro ⟨n, errno, hw, hn, _⟩
  exact never_returns (v := ⟨⟨true, 1024⟩, ERANGE⟩) rfl rfl rfl n hn

end CxxFiber.EHooker.Gethostbyname
