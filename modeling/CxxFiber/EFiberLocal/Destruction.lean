import CxxFiber.EFiberLocal

/-! `~EFiber`: the callbacks for the values that a fiber leaves behind. -/
namespace CxxFiber.FiberLocal

variable {V : Type}

/-- `localValues`: with a value each entry keeps the key pointer of the `set` that made it, the
variable. -/
abbrev Entries (V : Type) := AList fun _ : List (BitVec 8) => V × Pointer

variable (var : V → EFiberLocal)

/-- `eso_hash_set`: an entry that is there keeps its key pointer. -/
def entrySet (h : Entries V) (v : V) (e : Pointer) : Entries V :=
  Keyed.write h (var v).key
    (if e = 0 then none else some (((h.lookup (var v).key).map Prod.fst).getD v, e))

def Op.exec (s : ℕ → Entries V) : Op V → ℕ → Entries V
  | .get _ _ | .set none _ _ | .remove none _ => s
  | .set (some f) v e => Function.update s f (entrySet var (s f) v e)
  | .remove (some f) v => Function.update s f (entrySet var (s f) v 0)
  | .destroy f => Function.update s f ∅

def localValues (ops : List (Op V)) : ℕ → Entries V := ops.foldl (Op.exec var) fun _ => ∅

/-- The loop of `~EFiber`: the callback that the key pointer leads to, with the value. The key
pointer is that of a variable and never null; the callback is not tested. -/
def destructorCalls (h : Entries V) : List (Pointer × Pointer) :=
  h.entries.map fun x => ((var x.2.1).callback, x.2.2)

variable [DecidableEq V]

/-- For each callback, the variable with it that was last set or removed in a fiber. -/
def Op.lastOnAfter (l : ℕ → Pointer → Option V) : Op V → ℕ → Pointer → Option V
  | .get _ _ | .set none _ _ | .remove none _ => l
  | .set (some f) v _ | .remove (some f) v =>
    Function.update l f (Function.update (l f) (var v).callback (some v))
  | .destroy f => Function.update l f fun _ => none

def lastOn (ops : List (Op V)) : ℕ → Pointer → Option V :=
  ops.foldl (Op.lastOnAfter var) fun _ _ => none

/-- In any order, one call for each value that is present and has a callback, and no other. -/
def CleansUp (ops : List (Op V)) (f : ℕ) : Prop :=
  ∃ vs : List V, vs.Nodup ∧
    (∀ v, v ∈ vs ↔ last ops f v ≠ 0 ∧ (var v).callback ≠ 0) ∧
    (destructorCalls var (localValues var ops f)).Perm
      (vs.map fun v => ((var v).callback, last ops f v))

/-- The last variable without a callback that was set or removed has no value, and each variable
with a callback and a value is the last that was set or removed among those with its callback. -/
structure Separate (ops : List (Op V)) (f : ℕ) : Prop where
  none_left : ∀ v, lastOn var ops f 0 = some v → last ops f v = 0
  own : ∀ v, (var v).callback ≠ 0 → last ops f v ≠ 0 → lastOn var ops f (var v).callback = some v

/-- What the entries hold, by the variable last set or removed for each callback. -/
structure Tracks (s : ℕ → Entries V) (l : ℕ → V → Pointer) (on : ℕ → Pointer → Option V) :
    Prop where
  lookup : ∀ f c, ((s f).lookup (bytes sizeofThis c)).map Prod.snd =
    (on f c).bind fun v => if l f v = 0 then none else some (l f v)
  keyed : ∀ f k w e, (s f).lookup k = some (w, e) → k = (var w).key
  owner : ∀ f c v, on f c = some v → (var v).callback = c

variable {var} {s : ℕ → Entries V} {l : ℕ → V → Pointer} {on : ℕ → Pointer → Option V}
  {h : Entries V} {v w : V} {e c : Pointer} {f : ℕ} {k : List (BitVec 8)} {ops : List (Op V)}

section

omit [DecidableEq V]

theorem entrySet_self : ((entrySet var h v e).lookup (var v).key).map Prod.snd =
    if e = 0 then none else some e := by
  rw [entrySet, Keyed.lookup_write_self]
  split <;> rfl

theorem entrySet_of_ne (hk : k ≠ (var v).key) : (entrySet var h v e).lookup k = h.lookup k :=
  Keyed.lookup_write_of_ne hk

/-- A new entry points to its own variable, an old one goes on pointing where it did. -/
theorem entrySet_keyed (hh : ∀ w e, h.lookup (var v).key = some (w, e) → (var v).key = (var w).key)
    {e' : Pointer} (hw : (entrySet var h v e).lookup (var v).key = some (w, e')) :
    (var v).key = (var w).key := by
  rw [entrySet, Keyed.lookup_write_self] at hw
  split at hw
  · cases hw
  · cases hl : h.lookup (var v).key with
    | none =>
      rw [hl] at hw
      cases hw
      rfl
    | some x =>
      rw [hl] at hw
      cases hw
      exact hh x.1 x.2 hl

end

theorem tracks_entrySet (ht : Tracks var s l on) :
    Tracks var (Function.update s f (entrySet var (s f) v e))
      (Function.update l f (Function.update (l f) v e))
      (Function.update on f (Function.update (on f) (var v).callback (some v))) := by
  refine ⟨fun g c => ?_, fun g k w e' hw => ?_, fun g c u hu => ?_⟩
  · by_cases hg : g = f
    · subst g
      simp only [Function.update_self]
      by_cases hc : c = (var v).callback
      · subst hc
        rw [Function.update_self, Option.bind_some, Function.update_self]
        exact entrySet_self
      · have hk : bytes sizeofThis c ≠ (var v).key := bytes_injective.ne hc
        rw [Function.update_of_ne hc, entrySet_of_ne hk, ht.lookup]
        cases hon : on f c with
        | none => rfl
        | some u =>
          -- a variable with another callback keeps its value
          have hne : u ≠ v := by
            intro heq
            subst heq
            exact hc (ht.owner f c u hon).symm
          simp [hne]
    · rw [Function.update_of_ne hg, Function.update_of_ne hg, Function.update_of_ne hg]
      exact ht.lookup g c
  · by_cases hg : g = f
    · subst g
      rw [Function.update_self] at hw
      by_cases hk : k = (var v).key
      · subst hk
        exact entrySet_keyed (fun w e => ht.keyed f _ w e) hw
      · rw [entrySet_of_ne hk] at hw
        exact ht.keyed f k w e' hw
    · rw [Function.update_of_ne hg] at hw
      exact ht.keyed g k w e' hw
  · by_cases hg : g = f
    · subst g
      rw [Function.update_self] at hu
      by_cases hc : c = (var v).callback
      · rw [hc, Function.update_self] at hu
        cases hu
        exact hc.symm
      · rw [Function.update_of_ne hc] at hu
        exact ht.owner f c u hu
    · rw [Function.update_of_ne hg] at hu
      exact ht.owner g c u hu

theorem tracks_step (ht : Tracks var s l on) (o : Op V) :
    Tracks var (o.exec var s) (o.lastAfter l) (o.lastOnAfter var on) := by
  cases o with
  | get => exact ht
  | set f v e =>
    cases f with
    | none => exact ht
    | some f => exact tracks_entrySet ht
  | remove f v =>
    cases f with
    | none => exact ht
    | some f => exact tracks_entrySet ht
  | destroy f =>
    simp only [Op.exec, Op.lastAfter, Op.lastOnAfter]
    refine ⟨fun g c => ?_, fun g k w e hw => ?_, fun g c u hu => ?_⟩ <;> by_cases hg : g = f
    · subst g
      simp
    · simpa only [Function.update_of_ne hg] using ht.lookup g c
    · subst g
      simp at hw
    · rw [Function.update_of_ne hg] at hw
      exact ht.keyed g k w e hw
    · subst g
      simp at hu
    · rw [Function.update_of_ne hg] at hu
      exact ht.owner g c u hu

theorem tracks_run (ops : List (Op V)) :
    Tracks var (localValues var ops) (last ops) (lastOn var ops) := by
  have hfold : ∀ (ops : List (Op V)) s l on, Tracks var s l on →
      Tracks var (ops.foldl (Op.exec var) s) (ops.foldl Op.lastAfter l)
        (ops.foldl (Op.lastOnAfter var) on) := by
    intro ops
    induction ops with
    | nil => exact fun _ _ _ ht => ht
    | cons o ops ih => exact fun s l on ht => ih _ _ _ (tracks_step ht o)
  apply hfold
  exact ⟨by simp, by simp, by simp⟩

section

omit [DecidableEq V]

/-- Without the key pointers these are the values that `get` reads. -/
theorem localValues_values (ops : List (Op V)) (f : ℕ) (k : List (BitVec 8)) :
    ((localValues var ops f).lookup k).map Prod.snd = (run var ops f).lookup k := by
  have hstep : ∀ (o : Op V) s t, (∀ f k, ((s f).lookup k).map Prod.snd = (t f).lookup k) →
      ∀ f k, ((o.exec var s f).lookup k).map Prod.snd = (o.run var t f).lookup k := by
    have hset : ∀ (s : ℕ → Entries V) (t : State) g v e,
        (∀ f k, ((s f).lookup k).map Prod.snd = (t f).lookup k) → ∀ f k,
        ((Function.update s g (entrySet var (s g) v e) f).lookup k).map Prod.snd =
          (Function.update t g (esoHashSet (t g) (var v).key e) f).lookup k := by
      intro s t g v e hst f k
      by_cases hf : f = g
      · subst f
        simp only [Function.update_self]
        by_cases hk : k = (var v).key
        · subst hk
          rw [entrySet_self, esoHashSet, Keyed.lookup_write_self]
        · rw [entrySet_of_ne hk, esoHashSet, Keyed.lookup_write_of_ne hk]
          exact hst g k
      · rw [Function.update_of_ne hf, Function.update_of_ne hf]
        exact hst f k
    intro o s t hst
    cases o with
    | get => exact hst
    | set g v e =>
      cases g with
      | none => exact hst
      | some g => exact hset s t g v e hst
    | remove g v =>
      cases g with
      | none => exact hst
      | some g => exact hset s t g v 0 hst
    | destroy g =>
      intro f k
      by_cases hf : f = g
      · subst f
        simp [Op.exec, Op.run, State.destroy]
      · simpa [Op.exec, Op.run, State.destroy, hf] using hst f k
  have hfold : ∀ (ops : List (Op V)) s t, (∀ f k, ((s f).lookup k).map Prod.snd = (t f).lookup k) →
      ∀ f k, ((ops.foldl (Op.exec var) s f).lookup k).map Prod.snd =
        (ops.foldl (Op.run var) t f).lookup k := by
    intro ops
    induction ops with
    | nil => exact fun _ _ hst => hst
    | cons o ops ih => exact fun s t hst => ih _ _ (hstep o s t hst)
  exact hfold ops _ _ (by simp) f k

end

/-- One entry for each callback: the call is for the variable last set with it. -/
theorem mem_destructorCalls : (c, e) ∈ destructorCalls var (localValues var ops f) ↔
    ∃ v, lastOn var ops f c = some v ∧ last ops f v = e ∧ e ≠ 0 := by
  have ht : Tracks var (localValues var ops) (last ops) (lastOn var ops) := tracks_run ops
  have hlookup := ht.lookup f c
  constructor
  · intro hmem
    obtain ⟨⟨k, w, e'⟩, hentry, hcall⟩ := List.mem_map.mp hmem
    cases hcall
    have hk : (localValues var ops f).lookup k = some (w, e') := AList.mem_lookup_iff.mpr hentry
    have hkey := ht.keyed f k w e' hk
    rw [hkey, EFiberLocal.key] at hk
    rw [hk] at hlookup
    cases hon : lastOn var ops f (var w).callback with
    | none =>
      rw [hon] at hlookup
      cases hlookup
    | some v =>
      rw [hon, Option.bind_some] at hlookup
      split at hlookup
      · cases hlookup
      · next hne =>
        cases hlookup
        exact ⟨v, rfl, rfl, hne⟩
  · rintro ⟨v, hon, rfl, hne⟩
    rw [hon, Option.bind_some, if_neg hne] at hlookup
    obtain ⟨⟨w, x⟩, hk, hx⟩ := Option.map_eq_some_iff.mp hlookup
    have hkey := bytes_injective (ht.keyed f _ w x hk)
    refine List.mem_map.mpr ⟨_, AList.mem_lookup_iff.mp hk, ?_⟩
    exact Prod.ext hkey.symm hx

theorem nodup_destructorCalls : (destructorCalls var (localValues var ops f)).Nodup := by
  have ht : Tracks var (localValues var ops) (last ops) (lastOn var ops) := tracks_run ops
  have hkeys : (localValues var ops f).entries.map Sigma.fst =
      ((destructorCalls var (localValues var ops f)).map Prod.fst).map (bytes sizeofThis) := by
    rw [destructorCalls, List.map_map, List.map_map]
    refine List.map_congr_left fun x hx => ?_
    exact ht.keyed f x.1 x.2.1 x.2.2 (AList.mem_lookup_iff.mpr hx)
  have hnodup : ((localValues var ops f).entries.map Sigma.fst).Nodup :=
    (localValues var ops f).nodupKeys
  rw [hkeys] at hnodup
  exact (hnodup.of_map _).of_map _

theorem separate_of_cleansUp (h : CleansUp var ops f) : Separate var ops f := by
  obtain ⟨vs, hnodup, hvs, hperm⟩ := h
  have ht : Tracks var (localValues var ops) (last ops) (lastOn var ops) := tracks_run ops
  refine ⟨fun v hon => ?_, fun v hc hv => ?_⟩
  · by_contra hne
    have hcall : (0, last ops f v) ∈ destructorCalls var (localValues var ops f) :=
      mem_destructorCalls.mpr ⟨v, hon, rfl, hne⟩
    obtain ⟨w, hw, heq⟩ := List.mem_map.mp (hperm.mem_iff.mp hcall)
    exact ((hvs w).mp hw).2 (Prod.ext_iff.mp heq).1
  · have hmem : v ∈ vs := (hvs v).mpr ⟨hv, hc⟩
    have hcall : ((var v).callback, last ops f v) ∈
        destructorCalls var (localValues var ops f) :=
      hperm.mem_iff.mpr (List.mem_map_of_mem hmem)
    obtain ⟨w, hon, hval, _⟩ := mem_destructorCalls.mp hcall
    have hcb := ht.owner f _ w hon
    have hw : w ∈ vs := (hvs w).mpr ⟨by rw [hval]; exact hv, by rw [hcb]; exact hc⟩
    -- two variables with one call would be called twice
    have hinj := List.inj_on_of_nodup_map (hperm.nodup_iff.mp nodup_destructorCalls)
    have heq : v = w := hinj hmem hw (by rw [hval, hcb])
    rw [hon, heq]

theorem cleansUp_of_separate (h : Separate var ops f) : CleansUp var ops f := by
  have ht : Tracks var (localValues var ops) (last ops) (lastOn var ops) := tracks_run ops
  let calls := destructorCalls var (localValues var ops f)
  -- the variable of each call
  have hcalls : ∀ x ∈ calls, ∃ v, lastOn var ops f x.1 = some v ∧ x.1 ≠ 0 ∧
      ((var v).callback, last ops f v) = x := by
    rintro ⟨c, e⟩ hx
    obtain ⟨v, hon, hval, hne⟩ := mem_destructorCalls.mp hx
    refine ⟨v, hon, fun hc => hne ?_, Prod.ext (ht.owner f c v hon) hval⟩
    rw [← hval]
    exact h.none_left v (by rw [← hc]; exact hon)
  let vs := calls.filterMap fun x => lastOn var ops f x.1
  have hmap : vs.map (fun v => ((var v).callback, last ops f v)) = calls := by
    have hall : ∀ xs : List (Pointer × Pointer), (∀ x ∈ xs, x ∈ calls) →
        (xs.filterMap fun x => lastOn var ops f x.1).map
          (fun v => ((var v).callback, last ops f v)) = xs := by
      intro xs
      induction xs with
      | nil => exact fun _ => rfl
      | cons x xs ih =>
        intro hxs
        obtain ⟨v, hon, _, heq⟩ := hcalls x (hxs x List.mem_cons_self)
        rw [List.filterMap_cons, hon, List.map_cons, heq,
          ih fun y hy => hxs y (List.mem_cons_of_mem x hy)]
    exact hall calls fun _ hx => hx
  refine ⟨vs, ?_, fun v => ⟨fun hv => ?_, fun hv => ?_⟩, ?_⟩
  · have hnodup : calls.Nodup := nodup_destructorCalls
    rw [← hmap] at hnodup
    exact hnodup.of_map _
  · obtain ⟨x, hx, hon⟩ := List.mem_filterMap.mp hv
    obtain ⟨w, hw, hc, heq⟩ := hcalls x hx
    rw [hw] at hon
    cases hon
    obtain ⟨u, _, hval, hne⟩ := mem_destructorCalls.mp (show (x.1, x.2) ∈ calls from hx)
    rw [← heq] at hc hne
    exact ⟨hne, hc⟩
  · have hon := h.own v hv.2 hv.1
    have hx : ((var v).callback, last ops f v) ∈ calls :=
      mem_destructorCalls.mpr ⟨v, hon, rfl, hv.1⟩
    exact List.mem_filterMap.mpr ⟨_, hx, hon⟩
  · rw [hmap]

/-- `~EFiber` makes the calls it should exactly when no value is left in a variable without a
callback and no two variables of one callback get in each other's way. -/
theorem cleansUp_iff (var : V → EFiberLocal) (ops : List (Op V)) (f : ℕ) :
    CleansUp var ops f ↔ Separate var ops f :=
  ⟨separate_of_cleansUp, cleansUp_of_separate⟩

/-- One variable without a callback, set and not removed: null is called. -/
theorem null_called : ∃ var : Unit → EFiberLocal, (var ()).callback = 0 ∧
    destructorCalls var (localValues var [.set (some 0) () 1] 0) = [(0, 1)] ∧
    ¬ CleansUp var [.set (some 0) () 1] 0 := by
  refine ⟨fun _ => ⟨0⟩, rfl, by decide, ?_⟩
  rintro ⟨vs, _, hvs, hperm⟩
  have hlen := hperm.length_eq
  have hempty : vs = [] := List.eq_nil_iff_forall_not_mem.mpr fun v hv => ((hvs v).mp hv).2 rfl
  rw [hempty] at hlen
  exact absurd hlen (by decide)

end CxxFiber.FiberLocal
