import Mathlib.Data.List.Basic
import Mathlib.Logic.Function.Basic

/-! Chains of nodes, each linked to the next; the last one is linked to nothing. -/
namespace Chain

variable {N : Type*} {next next' : N → Option N} {a b : N} {l l' l₁ l₂ : List N}

/-- The nodes `l` follow `a`, in this order. -/
def Linked (next : N → Option N) : N → List N → Prop
  | a, [] => next a = none
  | a, b :: l => next a = some b ∧ Linked next b l

/-- The end of the chain that starts with `a`. -/
def last (a : N) (l : List N) : N := (a :: l).getLast (List.cons_ne_nil a l)

@[simp] theorem last_nil : last a [] = a := rfl

@[simp] theorem last_cons : last a (b :: l) = last b l := List.getLast_cons _

@[simp] theorem last_append : last a (l ++ [b]) = b := by
  simp [last]

theorem last_mem : last a l ∈ a :: l := List.getLast_mem _

theorem Linked.congr (h : Linked next a l) (hn : ∀ b ∈ a :: l, next' b = next b) :
    Linked next' a l := by
  induction l generalizing a with
  | nil => exact (hn a List.mem_cons_self).trans h
  | cons b l ih =>
    obtain ⟨ha, hl⟩ := h
    exact ⟨(hn a List.mem_cons_self).trans ha, ih hl fun c hc => hn c (List.mem_cons_of_mem _ hc)⟩

/-- The links determine the chain. -/
theorem Linked.unique (h : Linked next a l) (h' : Linked next a l') : l = l' := by
  induction l generalizing a l' with
  | nil =>
    cases l' with
    | nil => rfl
    | cons b l' =>
      have hn : next a = none := h
      have hs : next a = some b := h'.1
      rw [hn] at hs
      cases hs
  | cons b l ih =>
    cases l' with
    | nil =>
      have hn : next a = none := h'
      have hs : next a = some b := h.1
      rw [hn] at hs
      cases hs
    | cons c l' =>
      obtain rfl := Option.some.inj (h.1.symm.trans h'.1)
      rw [ih h.2 h'.2]

theorem Linked.drop (h : Linked next a (l₁ ++ b :: l₂)) : Linked next b l₂ := by
  induction l₁ generalizing a with
  | nil => exact h.2
  | cons c l₁ ih => exact ih h.2

/-- A chain that ends does not come back to a node. -/
theorem Linked.nodup (h : Linked next a l) : (a :: l).Nodup := by
  induction l generalizing a with
  | nil => simp
  | cons b l ih =>
    refine List.nodup_cons.mpr ⟨?_, ih h.2⟩
    intro hmem
    obtain ⟨l₁, l₂, heq⟩ := List.append_of_mem hmem
    have hlen := congrArg List.length heq
    rw [heq] at h
    have hself := h.unique h.drop
    have hlen' := congrArg List.length hself
    rw [List.length_append, List.length_cons] at hlen'
    omega

/-- A node with no successor is linked behind the last one. -/
theorem Linked.append [DecidableEq N] (h : Linked next a l) (hb : b ∉ a :: l)
    (hn : next b = none) :
    Linked (Function.update next (last a l) (some b)) a (l ++ [b]) := by
  induction l generalizing a with
  | nil =>
    have hba : b ≠ a := fun heq => hb (heq ▸ List.mem_cons_self)
    refine ⟨Function.update_self .., ?_⟩
    change Function.update next a (some b) b = none
    rw [Function.update_of_ne hba]
    exact hn
  | cons c l ih =>
    obtain ⟨ha, hl⟩ := h
    have hne : a ≠ last c l := by
      intro heq
      have hlinked : Linked next a (c :: l) := ⟨ha, hl⟩
      exact (List.nodup_cons.mp hlinked.nodup).1 (heq ▸ last_mem)
    refine ⟨?_, ?_⟩
    · rw [last_cons, Function.update_of_ne hne]
      exact ha
    · rw [last_cons]
      exact ih hl fun hmem => hb (List.mem_cons_of_mem _ hmem)

end Chain
