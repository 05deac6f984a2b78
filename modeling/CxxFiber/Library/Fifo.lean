import CxxFiber.Library.Runs
import Mathlib.Data.List.Nodup

/-! A queue without duplicates: whoever is in it leaves it before as many heads have been taken as
it had entries. -/
namespace Fifo

variable {α : Type*}

/-- A move of the queue, with whether its head is taken. Entries may also leave it on their own. -/
inductive Move : List α → Bool → List α → Prop
  | push {q x} : x ∉ q → Move q false (q ++ [x])
  | take {q x} : Move (x :: q) true q
  | none : Move [] true []
  | leave {q r} : r.Sublist q → Move q false r

variable {q r : List α} {x : α} {taken : Bool} {ps : List Bool}

theorem Move.nodup (h : Move q taken r) (hq : q.Nodup) : r.Nodup := by
  cases h with
  | push hx => exact List.nodup_append.mpr ⟨hq, List.nodup_singleton _, by grind⟩
  | take => exact hq.of_cons
  | none => exact hq
  | leave hr => exact hq.sublist hr

variable [DecidableEq α]

theorem idxOf_sublist (h : r.Sublist q) (hq : q.Nodup) (hx : x ∈ r) : r.idxOf x ≤ q.idxOf x := by
  induction h with
  | slnil => exact Nat.le_refl _
  | @cons r q y h ih =>
    have hne : y ≠ x := by
      rintro rfl
      exact (List.nodup_cons.mp hq).1 (h.subset hx)
    rw [List.idxOf_cons_ne _ hne]
    exact Nat.le_succ_of_le (ih hq.of_cons hx)
  | @cons_cons r q y h ih =>
    by_cases hy : y = x
    · subst hy
      simp
    · rw [List.idxOf_cons_ne _ hy, List.idxOf_cons_ne _ hy]
      exact Nat.succ_le_succ (ih hq.of_cons ((List.mem_cons.mp hx).resolve_left (Ne.symm hy)))

/-- Taking a head brings everyone behind it one place forward; nothing sends anyone back. -/
theorem Move.idxOf (h : Move q taken r) (hq : q.Nodup) (hx : x ∈ q) (hr : x ∈ r) :
    r.idxOf x + taken.toNat ≤ q.idxOf x := by
  cases h with
  | push => rw [List.idxOf_append_of_mem hx]; exact Nat.le_refl _
  | @take q y =>
    have hne : y ≠ x := by
      rintro rfl
      exact (List.nodup_cons.mp hq).1 hr
    rw [List.idxOf_cons_ne _ hne]
    exact Nat.le_refl _
  | none => exact nomatch hx
  | leave h => exact idxOf_sublist h hq hr

open Transition in
theorem idxOf_run (h : Run (Keeping (x ∈ ·) Move) q ps r) (hq : q.Nodup) (hx : x ∈ q) :
    r.idxOf x + ps.count true ≤ q.idxOf x := by
  induction h with
  | refl => simp
  | @step q u r p ps hst _ ih =>
    have hu := hst.1.idxOf hq hx hst.2
    have hr := ih (hst.1.nodup hq) hst.2
    cases p with
    | false =>
      rw [List.count_cons_of_ne (by decide)]
      exact Nat.le_trans hr hu
    | true =>
      rw [List.count_cons_self]
      simp only [Bool.toNat_true] at hu
      omega

open Transition in
/-- While `x` stays in a queue of `k` entries, fewer than `k` heads are taken. -/
theorem count_lt_length (h : Run (Keeping (x ∈ ·) Move) q ps r) (hq : q.Nodup) (hx : x ∈ q) :
    ps.count true < q.length := by
  have hi := idxOf_run h hq hx
  have hl := List.idxOf_lt_length_of_mem hx
  omega

/-- A move that leaves `x` in the queue; others may leave it from any place. -/
inductive Pass (x : α) : List α → Bool → List α → Prop
  | push {q : List α} (l : List α) : Pass x q false (q ++ l)
  | take {q : List α} {y : α} : y ≠ x → Pass x (y :: q) true q
  | leave {q : List α} {y : α} : y ≠ x → Pass x q false (q.erase y)

/-- Those who stand before `x`. -/
def ahead (x : α) (q : List α) : List α := q.takeWhile (· ≠ x)

theorem ahead_eq {front rest : List α} (hx : x ∉ front) :
    ahead x (front ++ x :: rest) = front := by
  unfold ahead
  rw [List.takeWhile_append_of_pos]
  · simp
  · intro y hy
    have hne : y ≠ x := fun he => hx (he ▸ hy)
    simpa using hne

/-- Nobody comes to stand before `x`, and a head that is taken stood there. -/
theorem ahead_pass (h : Pass x q taken r) (hx : x ∈ q) : x ∈ r ∧
    (ahead x r).Sublist (ahead x q) ∧
    (ahead x r).length + taken.toNat ≤ (ahead x q).length := by
  obtain ⟨front, rest, rfl, hn⟩ := List.eq_append_cons_of_mem hx
  rw [ahead_eq hn]
  generalize hq : front ++ x :: rest = q at h
  cases h with
  | push l =>
    rw [← hq, List.append_assoc, List.cons_append, ahead_eq hn]
    exact ⟨by simp, List.Sublist.refl _, Nat.le_refl _⟩
  | @take q y hy =>
    cases front with
    | nil => exact (hy (List.cons.inj hq).1.symm).elim
    | cons z front =>
      rw [List.cons_append] at hq
      obtain ⟨rfl, rfl⟩ := List.cons.inj hq
      rw [ahead_eq fun hx' => hn (List.mem_cons_of_mem _ hx')]
      exact ⟨by simp, List.sublist_cons_self _ _, Nat.le_refl _⟩
  | @leave q y hy =>
    subst hq
    by_cases hm : y ∈ front
    · rw [List.erase_append_left _ hm, ahead_eq fun hx' => hn (List.mem_of_mem_erase hx')]
      exact ⟨by simp, List.erase_sublist, List.length_erase_le⟩
    · have hne : (x == y) = false := by simpa using Ne.symm hy
      rw [List.erase_append_right _ hm, List.erase_cons_tail (by simp [hne]), ahead_eq hn]
      exact ⟨by simp, List.Sublist.refl _, Nat.le_refl _⟩

open Transition in
/-- Whoever leaves the queue before `x` by its head stood before `x` from the start. -/
theorem ahead_run (h : Run (Pass x) q ps r) (hx : x ∈ q) : x ∈ r ∧
    (ahead x r).Sublist (ahead x q) ∧
    (ahead x r).length + ps.count true ≤ (ahead x q).length := by
  induction h with
  | refl => exact ⟨hx, List.Sublist.refl _, Nat.le_refl _⟩
  | @step q u r p ps hst _ ih =>
    obtain ⟨hu, hsub, hlen⟩ := ahead_pass hst hx
    obtain ⟨hr, hsub', hlen'⟩ := ih hu
    refine ⟨hr, hsub'.trans hsub, ?_⟩
    have hcount : (p :: ps).count true = ps.count true + p.toNat := by
      cases p <;> simp
    omega

/-- A move of a queue that only its heads leave; they may be there more than once. -/
inductive Serve : List α → Bool → List α → Prop
  | push {q : List α} (l : List α) : Serve q false (q ++ l)
  | take {q : List α} {x : α} : Serve (x :: q) true q

omit [DecidableEq α] in
open Transition in
/-- Those who have come stand behind those who were there, and as many have gone from the front as
heads have been taken. -/
theorem serve_run (h : Run Serve q ps r) : ∃ added, ps.count true ≤ (q ++ added).length ∧
    r = (q ++ added).drop (ps.count true) := by
  induction h with
  | refl => exact ⟨[], by simp, by simp⟩
  | step hst _ ih =>
    obtain ⟨added, hle, rfl⟩ := ih
    cases hst with
    | push l =>
      rw [List.count_cons_of_ne (by decide)]
      rw [List.append_assoc] at hle ⊢
      exact ⟨l ++ added, hle, rfl⟩
    | take =>
      rw [List.count_cons_self]
      exact ⟨added, by simpa using hle, rfl⟩

end Fifo
