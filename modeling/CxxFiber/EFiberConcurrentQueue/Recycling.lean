import CxxFiber.EFiberConcurrentQueue
import Mathlib.Data.List.Nodup

/-! Order, owners of the nodes and handles of the polled fibers, as one invariant: the memory of
each queue is a chain of the packings of the fibers in it. -/
namespace CxxFiber.ConcurrentQueue

open Chain Holders Transition

variable {N E Q F : Type} [DecidableEq N] [DecidableEq Q] [DecidableEq F]

def State.links (s : State N E Q F) (n : N) : Option N := (s.node n).next

/-- The nodes of the fibers of a queue. -/
def State.nodes (s : State N E Q F) (fiber : E → F) (es : List E) : List N :=
  es.map fun e => s.packing (fiber e)

/-- The queues contain the handles `es`. -/
structure Contains (fiber : E → F) (s : State N E Q F) (es : Q → List E) : Prop where
  exclusive : Exclusive s.holds
  allocated : ∀ n, s.allocated n = true ↔ Held s.holds n
  chain : ∀ q, s.made q = true → Linked s.links (s.head q) (s.nodes fiber (es q))
  tail : ∀ q, s.made q = true → s.tail q = last (s.head q) (s.nodes fiber (es q))
  unmade : ∀ q, s.made q = false → es q = []
  queued : ∀ q, ∀ e ∈ es q, s.phase (fiber e) = .queued q ∧ s.own (fiber e) = some e
  listed : ∀ f q, s.phase f = .queued q → ∃ e ∈ es q, fiber e = f
  adding : ∀ f q n e, s.phase f = .adding q n e →
    s.made q = true ∧ n = s.packing f ∧ s.own f = some e ∧ (s.node n).next = none
  polling : ∀ f n v, s.phase f = .polling n v → s.own f = some v
  absent : ∀ f, s.phase f = .absent → s.own f = none
  handle : ∀ f e, s.own f = some e → fiber e = f
  value : ∀ f e n, s.own f = some e → s.holds (.packing f) = some n → (s.node n).value = some e
  fifo : ∀ q, s.added q = s.polled q ++ es q

variable {fiber : E → F} {s t : State N E Q F} {es : Q → List E} {f g : F} {q : Q} {n k : N}
  {e v : E} {a : Act N E Q F} {as : List (Act N E Q F)}

omit [DecidableEq N] [DecidableEq Q] [DecidableEq F] in
theorem contains_initial (h : Initial s) : Contains fiber s fun _ => [] := by
  have hnone : ∀ o, s.holds o = none := by
    intro o
    cases o with
    | dummy q => simp [State.holds, h.made]
    | packing f => simp [State.holds, h.phase]
    | poll f => simp [State.holds, h.phase]
  constructor
  case exclusive =>
    intro o o' n ho
    rw [hnone] at ho
    cases ho
  case allocated =>
    intro n
    rw [h.allocated]
    refine ⟨fun hf => (Bool.false_ne_true hf).elim, ?_⟩
    rintro ⟨o, ho⟩
    rw [hnone] at ho
    cases ho
  case chain =>
    intro q hq
    rw [h.made] at hq
    cases hq
  case tail =>
    intro q hq
    rw [h.made] at hq
    cases hq
  case unmade => exact fun _ _ => rfl
  case queued =>
    intro q e he
    exact absurd he List.not_mem_nil
  case listed =>
    intro f q hf
    rw [h.phase] at hf
    cases hf
  case adding =>
    intro f q n e hf
    rw [h.phase] at hf
    cases hf
  case polling =>
    intro f n v hf
    rw [h.phase] at hf
    cases hf
  case absent => exact fun f _ => h.own f
  case handle =>
    intro f e hf
    rw [h.own] at hf
    cases hf
  case value =>
    intro f e n hf
    rw [h.own] at hf
    cases hf
  case fifo =>
    intro q
    rw [h.added, h.polled]
    rfl

omit [DecidableEq N] [DecidableEq Q] [DecidableEq F] in
theorem holds_queued (hf : s.phase f = .queued q) :
    s.holds (.packing f) = some (s.packing f) := by
  simp [State.holds, hf]

section Frame

variable (hs : Contains fiber s es)
include hs

omit [DecidableEq N] [DecidableEq Q] [DecidableEq F]

/-- The nodes of a chain belong to the queue and to the fibers in it. -/
theorem Contains.owner_of_mem (hq : s.made q = true)
    (hn : n ∈ s.head q :: s.nodes fiber (es q)) : ∃ o, s.holds o = some n ∧
      (o = .dummy q ∨ ∃ f, o = .packing f ∧ s.phase f = .queued q) := by
  rcases List.mem_cons.mp hn with rfl | hn
  · exact ⟨.dummy q, holds_dummy hq, Or.inl rfl⟩
  · obtain ⟨e, he, rfl⟩ := List.mem_map.mp hn
    have hf := (hs.queued q e he).1
    exact ⟨.packing (fiber e), holds_queued hf, Or.inr ⟨fiber e, rfl, hf⟩⟩

theorem Contains.not_held (hn : s.allocated n = false) : ¬ Held s.holds n := by
  intro hheld
  have := (hs.allocated n).mpr hheld
  rw [hn] at this
  cases this

/-- A node that nobody has is in no chain. -/
theorem Contains.notMem_of_free (hq : s.made q = true) (hn : s.allocated n = false) :
    n ∉ s.head q :: s.nodes fiber (es q) := by
  intro hmem
  obtain ⟨o, ho, -⟩ := hs.owner_of_mem hq hmem
  exact hs.not_held hn ⟨o, ho⟩

/-- The packing of a fiber is in the chain of its queue only. -/
theorem Contains.notMem_of_packing (hq : s.made q = true) (hn : s.holds (.packing f) = some n)
    (hf : s.phase f ≠ .queued q) : n ∉ s.head q :: s.nodes fiber (es q) := by
  intro hmem
  obtain ⟨o, ho, hor⟩ := hs.owner_of_mem hq hmem
  obtain rfl := hs.exclusive _ _ n ho hn
  rcases hor with h | ⟨g, h, hg⟩
  · cases h
  · obtain rfl : f = g := Owner.packing.inj h
    exact hf hg

/-- Chains of different queues have no node in common. -/
theorem Contains.disjoint {q' : Q} (hq : s.made q = true) (hq' : s.made q' = true) (hne : q' ≠ q)
    (hn : n ∈ s.head q :: s.nodes fiber (es q)) : n ∉ s.head q' :: s.nodes fiber (es q') := by
  intro hmem
  obtain ⟨o, ho, hor⟩ := hs.owner_of_mem hq hn
  obtain ⟨o', ho', hor'⟩ := hs.owner_of_mem hq' hmem
  obtain rfl := hs.exclusive o o' n ho ho'
  rcases hor with rfl | ⟨f, rfl, hf⟩
  · rcases hor' with h | ⟨g, h, hg⟩
    · exact hne (Owner.dummy.inj h).symm
    · cases h
  · rcases hor' with h | ⟨g, h, hg⟩
    · cases h
    · obtain rfl : f = g := Owner.packing.inj h
      rw [hf] at hg
      exact hne (Phase.queued.inj hg).symm

/-- A fiber in a queue is not one that is elsewhere. -/
theorem Contains.ne_of_queued (he : e ∈ es q) (hf : s.phase f ≠ .queued q) : fiber e ≠ f := by
  rintro rfl
  exact hf (hs.queued q e he).1

/-- The chains do not see the packing of a fiber that is in no queue. -/
theorem Contains.nodes_eq (q : Q) (hf : s.phase f ≠ .queued q)
    (hp : ∀ g, g ≠ f → t.packing g = s.packing g) :
    t.nodes fiber (es q) = s.nodes fiber (es q) := by
  refine List.map_congr_left fun e he => ?_
  exact hp (fiber e) (hs.ne_of_queued he hf)

theorem Contains.nodes_unmade (hq : s.made q = false) : t.nodes fiber (es q) = [] := by
  simp [State.nodes, hs.unmade q hq]

theorem Contains.ne_of_free {o : Owner Q F} (hn : s.allocated n = false)
    (ho : s.holds o = some k) : k ≠ n := by
  rintro rfl
  exact hs.not_held hn ⟨o, ho⟩

theorem Contains.holds_adding (hf : s.phase f = .adding q n e) :
    s.holds (.packing f) = some n := by
  simp [State.holds, hf, (hs.adding f q n e hf).2.1]

end Frame

theorem contains_newQueue (hs : Contains fiber s es) (hq : s.made q = false)
    (hn : s.allocated n = false) : Contains fiber (s.newQueue q n) es where
  exclusive := by
    rw [holds_newQueue]
    exact hs.exclusive.take (hs.not_held hn)
  allocated k := by
    rw [holds_newQueue, held_take (by simp [State.holds, hq]), ← hs.allocated]
    by_cases hk : k = n
    · simp [State.newQueue, hk]
    · simp [State.newQueue, hk]
  chain q' hq' := by
    by_cases heq : q' = q
    · subst heq
      rw [hs.nodes_unmade hq]
      simp [State.newQueue, State.links, Linked]
    · have hmade : s.made q' = true := by simpa [State.newQueue, heq] using hq'
      have hhead : (s.newQueue q n).head q' = s.head q' := Function.update_of_ne heq ..
      rw [hhead]
      refine (hs.chain q' hmade).congr fun b hb => ?_
      have hb : b ≠ n := by
        rintro rfl
        exact hs.notMem_of_free hmade hn hb
      simp [State.links, State.newQueue, hb]
  tail q' hq' := by
    by_cases heq : q' = q
    · subst heq
      rw [hs.nodes_unmade hq]
      simp [State.newQueue]
    · have hmade : s.made q' = true := by simpa [State.newQueue, heq] using hq'
      simpa [State.newQueue, State.nodes, heq] using hs.tail q' hmade
  unmade q' hq' := by
    by_cases heq : q' = q
    · exact heq ▸ hs.unmade q hq
    · exact hs.unmade q' (by simpa [State.newQueue, heq] using hq')
  queued := hs.queued
  listed := hs.listed
  adding f q' k e hf := by
    obtain ⟨hmade, hk, hown, hnext⟩ := hs.adding f q' k e hf
    have hne : q' ≠ q := by
      rintro rfl
      rw [hq] at hmade
      cases hmade
    have hkn := hs.ne_of_free hn (hs.holds_adding (f := f) hf)
    refine ⟨by simpa [State.newQueue, hne] using hmade, hk, hown, ?_⟩
    simpa [State.newQueue, hkn] using hnext
  polling := hs.polling
  absent := hs.absent
  handle := hs.handle
  value f e k hown hk := by
    rw [holds_newQueue, Function.update_of_ne (by simp)] at hk
    have hkn := hs.ne_of_free hn hk
    have hold := hs.value f e k hown hk
    simpa [State.newQueue, hkn] using hold
  fifo := hs.fifo

theorem contains_newFiber (hs : Contains fiber s es) (hf : s.phase f = .absent)
    (hn : s.allocated n = false) : Contains fiber (s.newFiber f n) es where
  exclusive := by
    rw [holds_newFiber hf]
    exact hs.exclusive.take (hs.not_held hn)
  allocated k := by
    rw [holds_newFiber hf, held_take (by simp [State.holds, hf]), ← hs.allocated]
    by_cases hk : k = n
    · simp [State.newFiber, hk]
    · simp [State.newFiber, hk]
  chain q hq := by
    have hpacking : ∀ g, g ≠ f → (s.newFiber f n).packing g = s.packing g := by
      intro g hg
      exact Function.update_of_ne hg ..
    rw [hs.nodes_eq q (by simp [hf]) hpacking]
    refine (hs.chain q hq).congr fun b hb => ?_
    have hb : b ≠ n := by
      rintro rfl
      exact hs.notMem_of_free hq hn hb
    simp [State.links, State.newFiber, hb]
  tail q hq := by
    have hpacking : ∀ g, g ≠ f → (s.newFiber f n).packing g = s.packing g := by
      intro g hg
      exact Function.update_of_ne hg ..
    rw [hs.nodes_eq q (by simp [hf]) hpacking]
    exact hs.tail q hq
  unmade := hs.unmade
  queued q e he := by
    have hne : fiber e ≠ f := hs.ne_of_queued he (by simp [hf])
    simpa [State.newFiber, hne] using hs.queued q e he
  listed g q hg := by
    by_cases hgf : g = f
    · simp [State.newFiber, hgf] at hg
    · exact hs.listed g q (by simpa [State.newFiber, hgf] using hg)
  adding g q k e hg := by
    by_cases hgf : g = f
    · simp [State.newFiber, hgf] at hg
    · have hg : s.phase g = .adding q k e := by simpa [State.newFiber, hgf] using hg
      obtain ⟨hmade, hk, hown, hnext⟩ := hs.adding g q k e hg
      have hkn := hs.ne_of_free hn (hs.holds_adding hg)
      refine ⟨hmade, by simpa [State.newFiber, hgf] using hk, hown, ?_⟩
      simpa [State.newFiber, hkn] using hnext
  polling g k v hg := by
    by_cases hgf : g = f
    · simp [State.newFiber, hgf] at hg
    · exact hs.polling g k v (by simpa [State.newFiber, hgf] using hg)
  absent g hg := by
    by_cases hgf : g = f
    · simp [State.newFiber, hgf] at hg
    · exact hs.absent g (by simpa [State.newFiber, hgf] using hg)
  handle := hs.handle
  value g e k hown hk := by
    by_cases hgf : g = f
    · have hnone := hs.absent f hf
      rw [← hgf] at hnone
      have hown : s.own g = some e := hown
      rw [hnone] at hown
      cases hown
    · rw [holds_newFiber hf, Function.update_of_ne (by simpa using hgf)] at hk
      have hkn := hs.ne_of_free hn hk
      have hold := hs.value g e k hown hk
      simpa [State.newFiber, hkn] using hold
  fifo := hs.fifo

theorem contains_deleteFiber (hs : Contains fiber s es) (hf : s.phase f = .idle) :
    Contains fiber (s.deleteFiber f) es where
  exclusive := by
    rw [holds_deleteFiber hf]
    exact hs.exclusive.release
  allocated k := by
    have hheld : s.holds (.packing f) = some (s.packing f) := by simp [State.holds, hf]
    rw [holds_deleteFiber hf, hs.exclusive.held_release hheld, ← hs.allocated]
    by_cases hk : k = s.packing f
    · simp [State.deleteFiber, hk]
    · simp [State.deleteFiber, hk]
  chain := hs.chain
  tail := hs.tail
  unmade := hs.unmade
  queued q e he := by
    have hne : fiber e ≠ f := hs.ne_of_queued he (by simp [hf])
    simpa [State.deleteFiber, hne] using hs.queued q e he
  listed g q hg := by
    by_cases hgf : g = f
    · simp [State.deleteFiber, hgf] at hg
    · exact hs.listed g q (by simpa [State.deleteFiber, hgf] using hg)
  adding g q k e hg := by
    by_cases hgf : g = f
    · simp [State.deleteFiber, hgf] at hg
    · have hold := hs.adding g q k e (by simpa [State.deleteFiber, hgf] using hg)
      simpa [State.deleteFiber, hgf] using hold
  polling g k v hg := by
    by_cases hgf : g = f
    · simp [State.deleteFiber, hgf] at hg
    · have hold := hs.polling g k v (by simpa [State.deleteFiber, hgf] using hg)
      simpa [State.deleteFiber, hgf] using hold
  absent g hg := by
    by_cases hgf : g = f
    · simp [State.deleteFiber, hgf]
    · have hold := hs.absent g (by simpa [State.deleteFiber, hgf] using hg)
      simpa [State.deleteFiber, hgf] using hold
  handle g e hown := by
    by_cases hgf : g = f
    · simp [State.deleteFiber, hgf] at hown
    · exact hs.handle g e (by simpa [State.deleteFiber, hgf] using hown)
  value g e k hown hk := by
    by_cases hgf : g = f
    · simp [State.deleteFiber, hgf] at hown
    · rw [holds_deleteFiber hf, Function.update_of_ne (by simpa using hgf)] at hk
      exact hs.value g e k (by simpa [State.deleteFiber, hgf] using hown) hk
  fifo := hs.fifo

omit [DecidableEq Q] in
/-- The node that `add` prepares is in no chain, though old neighbours may still link to it. -/
theorem contains_prepare (hs : Contains fiber s es) (hq : s.made q = true)
    (hf : s.phase (fiber e) = .idle) : Contains fiber (s.prepare (fiber e) q e) es where
  exclusive := by
    rw [holds_prepare hf]
    exact hs.exclusive
  allocated k := by
    rw [holds_prepare hf]
    exact hs.allocated k
  chain q' hq' := by
    refine (hs.chain q' hq').congr fun b hb => ?_
    have hheld : s.holds (.packing (fiber e)) = some (s.packing (fiber e)) := by
      simp [State.holds, hf]
    have hb : b ≠ s.packing (fiber e) := by
      rintro rfl
      exact hs.notMem_of_packing hq' hheld (by simp [hf]) hb
    simp [State.links, State.prepare, hb]
  tail := hs.tail
  unmade := hs.unmade
  queued q' e' he := by
    have hne : fiber e' ≠ fiber e := hs.ne_of_queued he (by simp [hf])
    simpa [State.prepare, hne] using hs.queued q' e' he
  listed g q' hg := by
    by_cases hgf : g = fiber e
    · simp [State.prepare, hgf] at hg
    · exact hs.listed g q' (by simpa [State.prepare, hgf] using hg)
  adding g q' k e' hg := by
    by_cases hgf : g = fiber e
    · subst hgf
      obtain ⟨rfl, rfl, rfl⟩ : q = q' ∧ s.packing (fiber e) = k ∧ e = e' := by
        simpa [State.prepare] using hg
      exact ⟨hq, rfl, by simp [State.prepare], by simp [State.prepare]⟩
    · have hg : s.phase g = .adding q' k e' := by simpa [State.prepare, hgf] using hg
      obtain ⟨hmade, hk, hown, hnext⟩ := hs.adding g q' k e' hg
      have hne : k ≠ s.packing (fiber e) := by
        intro heq
        have hek : s.holds (.packing (fiber e)) = some k := by simp [State.holds, hf, heq]
        exact hgf (Owner.packing.inj (hs.exclusive _ _ k (hs.holds_adding hg) hek))
      refine ⟨hmade, hk, by simpa [State.prepare, hgf] using hown, ?_⟩
      simpa [State.prepare, hne] using hnext
  polling g k v hg := by
    by_cases hgf : g = fiber e
    · simp [State.prepare, hgf] at hg
    · have hold := hs.polling g k v (by simpa [State.prepare, hgf] using hg)
      simpa [State.prepare, hgf] using hold
  absent g hg := by
    by_cases hgf : g = fiber e
    · simp [State.prepare, hgf] at hg
    · have hold := hs.absent g (by simpa [State.prepare, hgf] using hg)
      simpa [State.prepare, hgf] using hold
  handle g e' hown := by
    by_cases hgf : g = fiber e
    · obtain rfl : e = e' := by simpa [State.prepare, hgf] using hown
      exact hgf.symm
    · exact hs.handle g e' (by simpa [State.prepare, hgf] using hown)
  value g e' k hown hk := by
    rw [holds_prepare hf] at hk
    have hek : s.holds (.packing (fiber e)) = some (s.packing (fiber e)) := by
      simp [State.holds, hf]
    by_cases hgf : g = fiber e
    · obtain rfl : e = e' := by simpa [State.prepare, hgf] using hown
      obtain rfl : s.packing (fiber e) = k := Option.some.inj (hek.symm.trans (hgf ▸ hk))
      simp [State.prepare]
    · have hne : k ≠ s.packing (fiber e) := by
        rintro rfl
        exact hgf (Owner.packing.inj (hs.exclusive _ _ _ hk hek))
      have hold := hs.value g e' k (by simpa [State.prepare, hgf] using hown) hk
      simpa [State.prepare, hne] using hold
  fifo := hs.fifo

/-- The prepared node becomes the end of the chain. -/
theorem contains_link (hs : Contains fiber s es) (hf : s.phase f = .adding q n e) :
    Contains fiber (s.link f q n e) (Function.update es q (es q ++ [e])) := by
  obtain ⟨hq, hn, hown, hnext⟩ := hs.adding f q n e hf
  have hfe : fiber e = f := hs.handle f e hown
  have hheld := hs.holds_adding hf
  have hnotMem : n ∉ s.head q :: s.nodes fiber (es q) :=
    hs.notMem_of_packing hq hheld (by simp [hf])
  have htail : s.tail q ∈ s.head q :: s.nodes fiber (es q) := by
    rw [hs.tail q hq]
    exact last_mem
  have hnodes : (s.link f q n e).nodes fiber (es q ++ [e]) = s.nodes fiber (es q) ++ [n] := by
    simp [State.nodes, State.link, hfe, hn]
  have hlinks : (s.link f q n e).links = Function.update s.links (s.tail q) (some n) := by
    funext b
    by_cases hb : b = s.tail q
    · simp [State.links, State.link, hb]
    · simp [State.links, State.link, hb]
  have hvalue : ∀ b, ((s.link f q n e).node b).value = (s.node b).value := by
    intro b
    by_cases hb : b = s.tail q
    · simp [State.link, hb]
    · simp [State.link, hb]
  constructor
  case exclusive =>
    rw [holds_link hf]
    exact hs.exclusive
  case allocated =>
    intro k
    rw [holds_link hf]
    exact hs.allocated k
  case chain =>
    intro q' hq'
    by_cases heq : q' = q
    · subst heq
      rw [Function.update_self, hnodes, hlinks, hs.tail q' hq]
      exact (hs.chain q' hq).append hnotMem hnext
    · rw [Function.update_of_ne heq, hlinks]
      refine (hs.chain q' hq').congr fun b hb => Function.update_of_ne ?_ ..
      rintro rfl
      exact hs.disjoint hq hq' heq htail hb
  case tail =>
    intro q' hq'
    by_cases heq : q' = q
    · subst heq
      rw [Function.update_self, hnodes, last_append]
      simp [State.link]
    · have htail' : (s.link f q n e).tail q' = s.tail q' := Function.update_of_ne heq ..
      rw [Function.update_of_ne heq, htail']
      exact hs.tail q' hq'
  case unmade =>
    intro q' hq'
    have hne : q' ≠ q := by
      rintro rfl
      have hmade : s.made q' = false := hq'
      rw [hmade] at hq
      cases hq
    rw [Function.update_of_ne hne]
    exact hs.unmade q' hq'
  case queued =>
    intro q' e' he
    by_cases heq : q' = q
    · subst heq
      rw [Function.update_self] at he
      rcases List.mem_append.mp he with he | he
      · have hne : fiber e' ≠ f := hs.ne_of_queued he (by simp [hf])
        simpa [State.link, hne] using hs.queued q' e' he
      · obtain rfl := List.mem_singleton.mp he
        simpa [State.link, hfe] using hown
    · rw [Function.update_of_ne heq] at he
      have hne : fiber e' ≠ f := hs.ne_of_queued he (by simp [hf])
      simpa [State.link, hne] using hs.queued q' e' he
  case listed =>
    intro g q' hg
    by_cases hgf : g = f
    · obtain rfl : q = q' := by simpa [State.link, hgf] using hg
      rw [Function.update_self]
      exact ⟨e, List.mem_append_right _ List.mem_cons_self, hfe.trans hgf.symm⟩
    · obtain ⟨e', he, hge⟩ := hs.listed g q' (by simpa [State.link, hgf] using hg)
      refine ⟨e', ?_, hge⟩
      by_cases heq : q' = q
      · subst heq
        rw [Function.update_self]
        exact List.mem_append_left _ he
      · rwa [Function.update_of_ne heq]
  case adding =>
    intro g q' k e' hg
    by_cases hgf : g = f
    · simp [State.link, hgf] at hg
    · have hg : s.phase g = .adding q' k e' := by simpa [State.link, hgf] using hg
      obtain ⟨hmade, hk, ho, hnone⟩ := hs.adding g q' k e' hg
      refine ⟨hmade, hk, ho, ?_⟩
      have hne : k ≠ s.tail q := by
        rintro rfl
        exact hs.notMem_of_packing hq (hs.holds_adding hg) (by simp [hg]) htail
      simpa [State.link, hne] using hnone
  case polling =>
    intro g k v hg
    by_cases hgf : g = f
    · simp [State.link, hgf] at hg
    · exact hs.polling g k v (by simpa [State.link, hgf] using hg)
  case absent =>
    intro g hg
    by_cases hgf : g = f
    · simp [State.link, hgf] at hg
    · exact hs.absent g (by simpa [State.link, hgf] using hg)
  case handle => exact hs.handle
  case value =>
    intro g e' k ho hk
    rw [holds_link hf] at hk
    rw [hvalue]
    exact hs.value g e' k ho hk
  case fifo =>
    intro q'
    by_cases heq : q' = q
    · subst heq
      simp [State.link, hs.fifo q']
    · simpa [State.link, heq] using hs.fifo q'

omit [DecidableEq N] [DecidableEq Q] [DecidableEq F] in
/-- What a `poll` finds behind the dummy is the fiber that was added first. -/
theorem Contains.first (hs : Contains fiber s es) (hq : s.made q = true)
    (hn : (s.node (s.head q)).next = some n) : ∃ e rest, es q = e :: rest ∧
      s.packing (fiber e) = n ∧ (s.node n).value = some e := by
  have hchain := hs.chain q hq
  cases hes : es q with
  | nil =>
    rw [hes] at hchain
    have hnone : (s.node (s.head q)).next = none := hchain
    rw [hn] at hnone
    cases hnone
  | cons e rest =>
    rw [hes] at hchain
    have hsome : (s.node (s.head q)).next = some (s.packing (fiber e)) := hchain.1
    have hp : s.packing (fiber e) = n := Option.some.inj (hsome.symm.trans hn)
    obtain ⟨hphase, hown⟩ := hs.queued q e (hes ▸ List.mem_cons_self)
    refine ⟨e, rest, rfl, hp, ?_⟩
    exact hs.value (fiber e) e n hown (hp ▸ holds_queued hphase)

omit [DecidableEq N] in
theorem contains_take (hs : Contains fiber s es) (hq : s.made q = true)
    (hn : (s.node (s.head q)).next = some n) (hv : (s.node n).value = some v) :
    Contains fiber (s.take (fiber v) q n v) (Function.update es q (es q).tail) := by
  obtain ⟨e, rest, hes, hp, he⟩ := hs.first hq hn
  obtain rfl : e = v := Option.some.inj (he.symm.trans hv)
  have hmem : e ∈ es q := hes ▸ List.mem_cons_self
  obtain ⟨hphase, hown⟩ := hs.queued q e hmem
  have hchain := hs.chain q hq
  have htail := hs.tail q hq
  rw [hes] at hchain htail ⊢
  -- No other handle in a queue belongs to the fiber that is taken out.
  have hother : ∀ q', ∀ e' ∈ Function.update es q rest q', fiber e' ≠ fiber e := by
    intro q' e' he'
    by_cases heq : q' = q
    · rw [heq, Function.update_self] at he'
      intro hfe
      have hnd := (List.nodup_cons.mp hchain.nodup).2
      refine (List.nodup_cons.mp hnd).1 (List.mem_map.mpr ⟨e', he', ?_⟩)
      exact congrArg s.packing hfe
    · rw [Function.update_of_ne heq] at he'
      refine hs.ne_of_queued he' ?_
      rw [hphase]
      exact fun h => heq (Phase.queued.inj h).symm
  have hhead : (s.take (fiber e) q n e).head q = n := Function.update_self ..
  have hheads : ∀ q', q' ≠ q → (s.take (fiber e) q n e).head q' = s.head q' := by
    intro q' hne
    exact Function.update_of_ne hne ..
  have hholds := holds_take (v := e) hq hphase hp
  constructor
  case exclusive =>
    rw [hholds]
    exact hs.exclusive.swap.swap
  case allocated =>
    intro k
    rw [hholds, held_swap, held_swap]
    exact hs.allocated k
  case chain =>
    intro q' hq'
    by_cases heq : q' = q
    · rw [heq, Function.update_self]
      rw [hhead, ← hp]
      exact hchain.2
    · rw [Function.update_of_ne heq]
      rw [hheads q' heq]
      exact hs.chain q' hq'
  case tail =>
    intro q' hq'
    by_cases heq : q' = q
    · rw [heq, Function.update_self]
      rw [hhead, ← hp]
      exact htail.trans last_cons
    · rw [Function.update_of_ne heq]
      rw [hheads q' heq]
      exact hs.tail q' hq'
  case unmade =>
    intro q' hq'
    have hne : q' ≠ q := by
      rintro rfl
      have hmade : s.made q' = false := hq'
      rw [hmade] at hq
      cases hq
    rw [List.tail_cons, Function.update_of_ne hne]
    exact hs.unmade q' hq'
  case queued =>
    intro q' e' he'
    have hne := hother q' e' he'
    have he' : e' ∈ es q' := by
      by_cases heq : q' = q
      · rw [heq, List.tail_cons, Function.update_self] at he'
        rw [heq, hes]
        exact List.mem_cons_of_mem _ he'
      · rwa [Function.update_of_ne heq] at he'
    simpa [State.take, hne] using hs.queued q' e' he'
  case listed =>
    intro g q' hg
    by_cases hgf : g = fiber e
    · simp [State.take, hgf] at hg
    · obtain ⟨e', he', hge⟩ := hs.listed g q' (by simpa [State.take, hgf] using hg)
      refine ⟨e', ?_, hge⟩
      by_cases heq : q' = q
      · rw [heq, hes] at he'
        rw [heq, List.tail_cons, Function.update_self]
        rcases List.mem_cons.mp he' with rfl | he'
        · exact (hgf hge.symm).elim
        · exact he'
      · rwa [Function.update_of_ne heq]
  case adding =>
    intro g q' k e' hg
    by_cases hgf : g = fiber e
    · simp [State.take, hgf] at hg
    · exact hs.adding g q' k e' (by simpa [State.take, hgf] using hg)
  case polling =>
    intro g k v hg
    by_cases hgf : g = fiber e
    · have hve : e = v := by
        have hg : Phase.polling (s.head q) e = (Phase.polling k v : Phase N E Q) := by
          simpa [State.take, hgf] using hg
        exact (Phase.polling.inj hg).2
      rw [hgf, ← hve]
      exact hown
    · exact hs.polling g k v (by simpa [State.take, hgf] using hg)
  case absent =>
    intro g hg
    by_cases hgf : g = fiber e
    · simp [State.take, hgf] at hg
    · exact hs.absent g (by simpa [State.take, hgf] using hg)
  case handle => exact hs.handle
  case value =>
    intro g e' k ho hk
    by_cases hgf : g = fiber e
    · simp [State.holds, State.take, hgf] at hk
    · refine hs.value g e' k ho ?_
      simpa [State.holds, State.take, hgf] using hk
  case fifo =>
    intro q'
    by_cases heq : q' = q
    · simp [State.take, heq, hs.fifo q, hes]
    · simpa [State.take, heq] using hs.fifo q'

theorem contains_recycle (hs : Contains fiber s es) (hf : s.phase f = .polling n v) :
    Contains fiber (s.recycle f n v) es := by
  have hown := hs.polling f n v hf
  have hpoll : s.holds (.poll f) = some n := holds_poll.mpr ⟨v, hf⟩
  have hlinks : (s.recycle f n v).links = s.links := by
    funext b
    by_cases hb : b = n
    · simp [State.links, State.recycle, hb]
    · simp [State.links, State.recycle, hb]
  have hnodes : ∀ q, (s.recycle f n v).nodes fiber (es q) = s.nodes fiber (es q) := by
    intro q
    have hpacking : ∀ g, g ≠ f → (s.recycle f n v).packing g = s.packing g := by
      intro g hg
      exact Function.update_of_ne hg ..
    exact hs.nodes_eq q (by simp [hf]) hpacking
  constructor
  case exclusive =>
    rw [holds_recycle hf]
    exact hs.exclusive.swap
  case allocated =>
    intro k
    rw [holds_recycle hf, held_swap]
    exact hs.allocated k
  case chain =>
    intro q hq
    rw [hlinks, hnodes]
    exact hs.chain q hq
  case tail =>
    intro q hq
    rw [hnodes]
    exact hs.tail q hq
  case unmade => exact hs.unmade
  case queued =>
    intro q e he
    have hne : fiber e ≠ f := hs.ne_of_queued he (by simp [hf])
    simpa [State.recycle, hne] using hs.queued q e he
  case listed =>
    intro g q hg
    by_cases hgf : g = f
    · simp [State.recycle, hgf] at hg
    · exact hs.listed g q (by simpa [State.recycle, hgf] using hg)
  case adding =>
    intro g q k e hg
    by_cases hgf : g = f
    · simp [State.recycle, hgf] at hg
    · have hg' : s.phase g = .adding q k e := by simpa [State.recycle, hgf] using hg
      obtain ⟨hmade, hk, ho, hnone⟩ := hs.adding g q k e hg'
      have hne : k ≠ n := by
        rintro rfl
        cases hs.exclusive _ _ k (hs.holds_adding hg') hpoll
      refine ⟨hmade, by simpa [State.recycle, hgf] using hk, ho, ?_⟩
      simpa [State.recycle, hne] using hnone
  case polling =>
    intro g k v' hg
    by_cases hgf : g = f
    · simp [State.recycle, hgf] at hg
    · exact hs.polling g k v' (by simpa [State.recycle, hgf] using hg)
  case absent =>
    intro g hg
    by_cases hgf : g = f
    · simp [State.recycle, hgf] at hg
    · exact hs.absent g (by simpa [State.recycle, hgf] using hg)
  case handle => exact hs.handle
  case value =>
    intro g e k ho hk
    by_cases hgf : g = f
    · obtain rfl : v = e := Option.some.inj (hown.symm.trans (hgf ▸ ho))
      obtain rfl : n = k := by simpa [State.holds, State.recycle, hgf] using hk
      simp [State.recycle]
    · have hk' : s.holds (.packing g) = some k := by
        simpa [State.holds, State.recycle, hgf] using hk
      have hne : k ≠ n := by
        rintro rfl
        cases hs.exclusive _ _ k hk' hpoll
      have hold := hs.value g e k ho hk'
      simpa [State.recycle, hne] using hold
  case fifo => exact hs.fifo

theorem contains_step (hs : Contains fiber s es) (h : Step fiber s a t) :
    ∃ es', Contains fiber t es' := by
  cases h with
  | newQueue hq hn => exact ⟨es, contains_newQueue hs hq hn⟩
  | newFiber hf hn => exact ⟨es, contains_newFiber hs hf hn⟩
  | deleteFiber hf => exact ⟨es, contains_deleteFiber hs hf⟩
  | prepare hq hf => exact ⟨es, contains_prepare hs hq hf⟩
  | link hf => exact ⟨_, contains_link hs hf⟩
  | pollNull _ _ => exact ⟨es, hs⟩
  | take hq hn hv => exact ⟨_, contains_take hs hq hn hv⟩
  | recycle hf => exact ⟨es, contains_recycle hs hf⟩

/-- The handles `es` wait in the queue: what was added and has not been polled, in that order, one
for each fiber there. A `poll` finds the first one, or null just when there is none. -/
structure Waiting (fiber : E → F) (s : State N E Q F) (q : Q) (es : List E) : Prop where
  fifo : s.added q = s.polled q ++ es
  nodup : (es.map fiber).Nodup
  fibers : ∀ f, s.phase f = .queued q ↔ f ∈ es.map fiber
  null : s.made q = true → (s.node (s.head q)).next = none → es = []
  first : s.made q = true → ∀ n, (s.node (s.head q)).next = some n →
    (s.node n).value = es.head? ∧ es ≠ []

omit [DecidableEq N] [DecidableEq Q] [DecidableEq F] in
theorem Contains.waiting (hs : Contains fiber s es) (q : Q) : Waiting fiber s q (es q) where
  fifo := hs.fifo q
  nodup := by
    cases hq : s.made q with
    | false =>
      rw [hs.unmade q hq]
      exact List.nodup_nil
    | true =>
      refine List.Nodup.of_map s.packing ?_
      rw [List.map_map]
      exact (List.nodup_cons.mp (hs.chain q hq).nodup).2
  fibers f := by
    constructor
    · intro hf
      obtain ⟨e, he, rfl⟩ := hs.listed f q hf
      exact List.mem_map_of_mem he
    · intro hf
      obtain ⟨e, he, rfl⟩ := List.mem_map.mp hf
      exact (hs.queued q e he).1
  null hq hn := by
    cases hes : es q with
    | nil => rfl
    | cons e rest =>
      have hchain := hs.chain q hq
      rw [hes] at hchain
      have hsome : (s.node (s.head q)).next = some (s.packing (fiber e)) := hchain.1
      rw [hn] at hsome
      cases hsome
  first hq n hn := by
    obtain ⟨e, rest, hes, -, he⟩ := hs.first hq hn
    rw [hes, he]
    exact ⟨rfl, List.cons_ne_nil e rest⟩

/-- In every run each queue is polled in the order of its adds; each node belongs to one queue as
its dummy, to one fiber as its packing, or to one `poll` between its sections; and a fiber that is
out of the queues again finds its own handle in its packing. -/
theorem nodes_recycled (hs : Initial s) (h : Run (Step fiber) s as t) :
    (∀ q, ∃ es, Waiting fiber t q es) ∧
    (∀ n, t.allocated n = true → ∃! o, t.holds o = some n) ∧
    ∀ f e, t.phase f = .idle → t.own f = some e →
      fiber e = f ∧ (t.node (t.packing f)).value = some e := by
  obtain ⟨es, ht⟩ : ∃ es, Contains fiber t es := by
    refine h.invariant (I := fun s => ∃ es, Contains fiber s es) (fun s a t hI hst => ?_)
      ⟨_, contains_initial hs⟩
    obtain ⟨es, hI⟩ := hI
    exact contains_step hI hst
  refine ⟨fun q => ⟨es q, ht.waiting q⟩, fun n hn => ?_, fun f e hf hown => ?_⟩
  · exact ht.exclusive.existsUnique ((ht.allocated n).mp hn)
  · have hheld : t.holds (.packing f) = some (t.packing f) := by simp [State.holds, hf]
    exact ⟨ht.handle f e hown, ht.value f e _ hown hheld⟩

/-- No queue, no fiber, no node. -/
def nothing : State ℕ Unit Unit Unit where
  node _ := ⟨none, none⟩
  allocated _ := false
  made _ := false
  head _ := 0
  tail _ := 0
  packing _ := 0
  phase _ := .absent
  own _ := none
  added _ := []
  polled _ := []

theorem initial_nothing : Initial nothing :=
  ⟨fun _ => rfl, fun _ => rfl, fun _ => rfl, fun _ => rfl, fun _ => rfl, fun _ => rfl⟩

/-- One fiber, with packing 1, is added to one queue, with dummy 0, and half polled. -/
def halfPolled : State ℕ Unit Unit Unit :=
  ((((nothing.newQueue () 0).newFiber () 1).prepare () () ()).link () () 1 ()).take () () 1 ()

theorem run_halfPolled : Run (Step id) nothing
    [.newQueue () 0, .newFiber () 1, .prepare () (), .link (), .take ()] halfPolled :=
  .step (.newQueue rfl rfl) <| .step (.newFiber rfl rfl) <| .step (.prepare rfl rfl) <|
    .step (.link rfl) <| .step (.take rfl rfl rfl) .refl

theorem nodes_recycled_polled :
    ((halfPolled.recycle () 0 ()).node ((halfPolled.recycle () 0 ()).packing ())).value = some () ∧
    ∃! o, (halfPolled.recycle () 0 ()).holds o = some 0 := by
  have hrun : Run (Step id) nothing _ (halfPolled.recycle () 0 ()) :=
    run_halfPolled.append (.step (.recycle rfl) .refl)
  obtain ⟨-, howner, hvalue⟩ := nodes_recycled initial_nothing hrun
  exact ⟨(hvalue () () rfl rfl).2, howner 0 rfl⟩

/-- Between the two sections of a `poll` the old dummy belongs to no queue and no fiber, and the new
one still is the packing of the fiber. -/
theorem node_between_sections : Initial nothing ∧
    Run (Step id) nothing
      [.newQueue () 0, .newFiber () 1, .prepare () (), .link (), .take ()] halfPolled ∧
    halfPolled.allocated 0 = true ∧ (∀ q, halfPolled.head q ≠ 0) ∧
    (∀ f, halfPolled.packing f ≠ 0) ∧ halfPolled.head () = 1 ∧ halfPolled.packing () = 1 :=
  ⟨initial_nothing, run_halfPolled, rfl, fun _ => Nat.one_ne_zero, fun _ => Nat.one_ne_zero, rfl,
    rfl⟩

end CxxFiber.ConcurrentQueue
