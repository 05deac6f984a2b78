import CxxFiber.ElfHook
import Mathlib.Data.List.Nodup

/-! Which slots `rebind_symbols_image` binds anew. -/
namespace CxxFiber.ElfHook

open ByteMemory

variable {o : Module} {rebindings : List Rebinding} {choice : ℕ → Option Rebinding} {e : Env}
  {s t : State} {b c : Option Rebinding} {r : Rebinding} {i j k n : ℕ} {m m' : Bytes 64}
  {a slot v : Address} {x : Saved}

theorem toNat_word : (word m a).toNat = read m a 8 := by
  rw [word, BitVec.toNat_ofNat]
  exact Nat.mod_eq_of_lt read_lt

@[simp] theorem word_store : word (store m a v) a = v := by
  apply BitVec.eq_of_toNat_eq
  rw [toNat_word, store, read_write (by decide)]
  exact Nat.mod_eq_of_lt v.isLt

theorem word_store_apart (h : Apart a 8 slot 8) : word (store m slot v) a = word m a := by
  rw [word, store, read_write_apart h, word]

/-- Storing what a slot holds already changes nothing. -/
theorem store_word : store m a (word m a) = m := by
  rw [store, toNat_word, write_read]

theorem word_congr (h : ∀ i < 8, m (a + .ofNat 64 i) = m' (a + .ofNat 64 i)) :
    word m a = word m' a := by
  rw [word, read_congr h, word]

theorem decode_congr (h : ∀ i < 16, m (a + .ofNat 64 i) = m' (a + .ofNat 64 i)) :
    Elf_Rel.decode m a = Elf_Rel.decode m' a := by
  have hoffset : word m a = word m' a := word_congr fun i hi => h i (by omega)
  have hinfo : read m (a + 8) 8 = read m' (a + 8) 8 := by
    refine read_congr fun i hi => ?_
    have hplace : a + 8 + BitVec.ofNat 64 i = a + .ofNat 64 (8 + i) := by
      rw [BitVec.add_assoc, BitVec.ofNat_add]
      rfl
    rw [hplace]
    exact h (8 + i) (by omega)
  rw [Elf_Rel.decode, Elf_Rel.decode, hoffset, hinfo]

/-! The choice of a rebinding -/

theorem pick_mem (h : pick rebindings m a = some r) : r ∈ rebindings ∧ strEq m a r.name := by
  unfold pick at h
  have hname := List.find?_some h
  exact ⟨List.mem_of_find?_eq_some h, hname⟩

/-- With distinct names the one that has the name is chosen. -/
theorem pick_of_mem (hd : (rebindings.map (·.name)).Nodup) (hr : r ∈ rebindings)
    (hn : strEq m a r.name) : pick rebindings m a = some r := by
  cases hp : pick rebindings m a with
  | none => exact absurd hn (List.find?_eq_none.mp hp r hr)
  | some q =>
    obtain ⟨hq, hqn⟩ := pick_mem hp
    have hname : q.name = r.name := strEq_unique hqn hn
    exact congrArg some (List.inj_on_of_nodup_map hd hq hr hname)

/-- A search that ends has looked at all the table. -/
theorem search_some (h : search rebindings m a = some b) : b = pick rebindings m a := by
  unfold search at h
  cases hp : pick (rebindings.take (2 ^ 32)) m a with
  | some q =>
    rw [hp] at h
    cases h
    have happ : pick (rebindings.take (2 ^ 32) ++ rebindings.drop (2 ^ 32)) m a = some q := by
      have hfirst := hp
      rw [pick] at hfirst ⊢
      rw [List.find?_append, hfirst, Option.some_or]
    rw [← happ, List.take_append_drop]
  | none =>
    rw [hp] at h
    split_ifs at h with hlt
    cases h
    rw [← hp, List.take_of_length_le hlt.le]

theorem search_of_lt (h : rebindings.length < 2 ^ 32) :
    search rebindings m a = some (pick rebindings m a) := by
  unfold search
  rw [List.take_of_length_le h.le]
  cases pick rebindings m a with
  | some q => rfl
  | none => exact if_pos h

/-! Slots that are bound one after the other -/

theorem rebind_mem (h : 8 ≤ (a - slot).toNat) : (s.rebind slot b).mem a = s.mem a := by
  cases b with
  | none => rfl
  | some r => exact write_of_le h

theorem rebind_word : word (s.rebind slot b).mem slot =
    b.elim (word s.mem slot) (·.replacement) := by
  cases b with
  | none => rfl
  | some r => exact word_store

theorem rebind_word_apart (h : Apart a 8 slot 8) :
    word (s.rebind slot b).mem a = word s.mem a := by
  cases b with
  | none => rfl
  | some r => exact word_store_apart h

theorem rebind_saved : x ∈ (s.rebind slot b).saved ↔
    x ∈ s.saved ∨ ∃ p ∈ b.bind (·.replaced), x = ⟨slot, p, word s.mem slot⟩ := by
  cases b with
  | none => simp [State.rebind]
  | some r => cases hp : r.replaced <;> simp [State.rebind, hp]

/-- Other bytes than those of the slots stay. -/
theorem bound_mem (h : ∀ i < n, 8 ≤ (a - o.slot i).toNat) : (o.bound choice n).mem a = o.mem a := by
  induction n with
  | zero => rfl
  | succ n ih =>
    rw [Module.bound, rebind_mem (h n n.lt_succ_self)]
    exact ih fun i hi => h i (Nat.lt_succ_of_lt hi)

/-- A slot is as before until its turn. -/
theorem bound_word_ahead (hi : i < o.count) (hn : n ≤ i) :
    word (o.bound choice n).mem (o.slot i) = o.old i := by
  induction n with
  | zero => rfl
  | succ n ih =>
    have hapart : Apart (o.slot i) 8 (o.slot n) 8 :=
      o.slots_apart i hi n (Nat.lt_trans hn hi) (Nat.ne_of_gt hn)
    rw [Module.bound, rebind_word_apart hapart]
    exact ih (Nat.le_of_succ_le hn)

/-- After its turn it is as it was chosen. -/
theorem bound_word (hi : i < n) (hn : n ≤ o.count) :
    word (o.bound choice n).mem (o.slot i) = (choice i).elim (o.old i) (·.replacement) := by
  induction n with
  | zero => exact absurd hi i.not_lt_zero
  | succ n ih =>
    rcases Nat.lt_succ_iff_lt_or_eq.mp hi with hlt | rfl
    · have hapart : Apart (o.slot i) 8 (o.slot n) 8 :=
        o.slots_apart i (hi.trans_le hn) n hn (Nat.ne_of_lt hlt)
      rw [Module.bound, rebind_word_apart hapart]
      exact ih hlt (Nat.le_of_succ_le hn)
    · rw [Module.bound, rebind_word, bound_word_ahead hn (le_refl i)]

theorem bound_saved (hn : n ≤ o.count) : x ∈ (o.bound choice n).saved ↔
    ∃ i < n, ∃ p ∈ (choice i).bind (·.replaced), x = ⟨o.slot i, p, o.old i⟩ := by
  induction n with
  | zero => simp [Module.bound]
  | succ n ih =>
    rw [Module.bound, rebind_saved, ih (Nat.le_of_succ_le hn), bound_word_ahead hn (le_refl n)]
    constructor
    · rintro (⟨i, hi, hx⟩ | hx)
      · exact ⟨i, Nat.lt_succ_of_lt hi, hx⟩
      · exact ⟨n, n.lt_succ_self, hx⟩
    · rintro ⟨i, hi, hx⟩
      rcases Nat.lt_succ_iff_lt_or_eq.mp hi with hlt | rfl
      · exact .inl ⟨i, hlt, hx⟩
      · exact .inr hx

/-- The entries of ".rela.plt" stay as they are. -/
theorem bound_rel (hn : n ≤ o.count) (hk : k < o.count) :
    Elf_Rel.decode (o.bound choice n).mem (entry (o.base + o.rel_plt.sh_addr) 24 k) = o.rel k :=
  decode_congr fun i hi => bound_mem fun j hj =>
    o.table_apart k hk j (hj.trans_le hn) i hi

theorem slot_injective (hi : i < o.count) (hj : j < o.count) (h : o.slot i = o.slot j) : i = j := by
  by_contra hne
  have hapart : Apart (o.slot i) 8 (o.slot j) 8 := o.slots_apart i hi j hj hne
  have hzero := hapart 0 (by omega)
  rw [h, toNat_offset (by omega)] at hzero
  omega

/-- What is saved of one slot. -/
theorem mem_bound_saved (hi : i < o.count) :
    ⟨o.slot i, a, o.old i⟩ ∈ (o.bound choice o.count).saved ↔ a ∈ (choice i).bind (·.replaced) := by
  rw [bound_saved (le_refl o.count)]
  constructor
  · rintro ⟨j, hj, p, hp, heq⟩
    obtain ⟨hslot, rfl, _⟩ := Saved.mk.inj heq
    obtain rfl := slot_injective hi hj hslot
    exact hp
  · exact fun ha => ⟨i, hi, a, ha, rfl⟩

theorem named_wanted (h : o.wanted rebindings i = some r) : r ∈ rebindings ∧ o.Named i r.name :=
  pick_mem h

theorem wanted_of_named (hd : (rebindings.map (·.name)).Nodup) (hr : r ∈ rebindings)
    (hn : o.Named i r.name) : o.wanted rebindings i = some r :=
  pick_of_mem hd hr hn

theorem wanted_none (h : ∀ r ∈ rebindings, ¬o.Named i r.name) : o.wanted rebindings i = none :=
  List.find?_eq_none.mpr h

/-- All is as it should be if and only if every choice does what the wanted one does. -/
theorem rebound_bound (hd : (rebindings.map (·.name)).Nodup) :
    o.Rebound rebindings (o.bound choice o.count) ↔
      ∀ i < o.count, o.SameFor i (choice i) (o.wanted rebindings i) := by
  constructor
  · intro h i hi
    constructor
    · rw [← bound_word hi (le_refl o.count)]
      cases hw : o.wanted rebindings i with
      | none =>
        refine h.unnamed i hi fun r hr hn => ?_
        rw [wanted_of_named hd hr hn] at hw
        cases hw
      | some r =>
        obtain ⟨hr, hn⟩ := named_wanted hw
        exact h.named i hi r hr hn
    · ext p
      rw [← Option.mem_def, ← Option.mem_def, ← mem_bound_saved hi, h.saved]
      constructor
      · rintro ⟨j, hj, r, hr, hn, q, hq, heq⟩
        obtain ⟨hslot, rfl, _⟩ := Saved.mk.inj heq
        obtain rfl := slot_injective hi hj hslot
        rw [wanted_of_named hd hr hn]
        exact hq
      · intro hp
        obtain ⟨r, hw, hr⟩ := Option.bind_eq_some_iff.mp hp
        obtain ⟨hmem, hn⟩ := named_wanted hw
        exact ⟨i, hi, r, hmem, hn, p, hr, rfl⟩
  · intro h
    refine ⟨fun i hi r hr hn => ?_, fun i hi hn => ?_, fun x => ?_, fun a ha => bound_mem ha⟩
    · rw [bound_word hi (le_refl o.count), (h i hi).1, wanted_of_named hd hr hn, Option.elim_some]
    · rw [bound_word hi (le_refl o.count), (h i hi).1, wanted_none hn, Option.elim_none]
    · rw [bound_saved (le_refl o.count)]
      constructor
      · rintro ⟨i, hi, p, hp, hx⟩
        rw [(h i hi).2] at hp
        obtain ⟨r, hw, hr⟩ := Option.bind_eq_some_iff.mp hp
        obtain ⟨hmem, hn⟩ := named_wanted hw
        exact ⟨i, hi, r, hmem, hn, p, hr, hx⟩
      · rintro ⟨i, hi, r, hr, hn, p, hp, hx⟩
        refine ⟨i, hi, p, ?_, hx⟩
        rw [(h i hi).2, wanted_of_named hd hr hn]
        exact hp

/-! The loop over ".rela.plt" -/

/-- The state after `n` turns, if every search ends. -/
def Module.ran (o : Module) (rebindings : List Rebinding) : ℕ → State
  | 0 => ⟨o.mem, []⟩
  | n + 1 => (o.ran rebindings n).rebind (o.slot n)
      (pick rebindings (o.ran rebindings n).mem (o.namePlace n))

/-- What the loop chooses for a relocation. -/
def Module.chosen (o : Module) (rebindings : List Rebinding) (i : ℕ) : Option Rebinding :=
  pick rebindings (o.ran rebindings i).mem (o.namePlace i)

theorem ran_bound : o.ran rebindings n = o.bound (o.chosen rebindings) n := by
  induction n with
  | zero => rfl
  | succ n ih => rw [Module.bound, ← ih, Module.ran, Module.chosen]

/-- The loop, with an address that is taken for the base. -/
def Module.loop (o : Module) (rebindings : List Rebinding) (module_address : Address) (n : ℕ) :
    Option State :=
  (List.range n).foldlM (relocate (symbols o.file o.dynsym) rebindings module_address
    (module_address + o.rel_plt.sh_addr)) ⟨o.mem, []⟩

theorem loop_succ : o.loop rebindings a (n + 1) = o.loop rebindings a n >>= fun s =>
    relocate (symbols o.file o.dynsym) rebindings a (a + o.rel_plt.sh_addr) s n := by
  rw [Module.loop, List.range_succ, List.foldlM_append]
  simp [Module.loop]

theorem relocate_ran (hn : n < o.count) :
    relocate (symbols o.file o.dynsym) rebindings o.base (o.base + o.rel_plt.sh_addr)
      (o.ran rebindings n) n =
    (search rebindings (o.ran rebindings n).mem (o.namePlace n)).map
      ((o.ran rebindings n).rebind (o.slot n)) := by
  have hrel : Elf_Rel.decode (o.ran rebindings n).mem
      (entry (o.base + o.rel_plt.sh_addr) 24 n) = o.rel n := by
    rw [ran_bound]
    exact bound_rel hn.le hn
  rw [relocate, hrel]
  rfl

theorem loop_some (hn : n ≤ o.count) (h : o.loop rebindings o.base n = some s) :
    s = o.ran rebindings n := by
  induction n generalizing s with
  | zero =>
    cases h
    rfl
  | succ n ih =>
    rw [loop_succ] at h
    obtain ⟨t, ht, hs⟩ := Option.bind_eq_some_iff.mp h
    rw [ih (Nat.le_of_succ_le hn) ht, relocate_ran hn] at hs
    obtain ⟨b, hb, rfl⟩ := Option.map_eq_some_iff.mp hs
    rw [search_some hb, Module.ran]

/-- With fewer than 2 ^ 32 rebindings the loop ends. -/
theorem loop_of_lt (hlt : rebindings.length < 2 ^ 32) (hn : n ≤ o.count) :
    o.loop rebindings o.base n = some (o.ran rebindings n) := by
  induction n with
  | zero => rfl
  | succ n ih =>
    rw [loop_succ, ih (Nat.le_of_succ_le hn), Option.bind_eq_bind, Option.bind_some,
      relocate_ran hn, search_of_lt hlt, Option.map_some, Module.ran]

/-- Choices that do the same to a slot lead to the same state. -/
theorem rebind_same (h : o.SameFor i b c) (ho : word s.mem (o.slot i) = o.old i) :
    s.rebind (o.slot i) b = s.rebind (o.slot i) c := by
  have hstate : ∀ d : Option Rebinding, s.rebind (o.slot i) d =
      ⟨store s.mem (o.slot i) (d.elim (o.old i) (·.replacement)),
        s.saved ++ ((d.bind (·.replaced)).map fun p => ⟨o.slot i, p, o.old i⟩).toList⟩ := by
    intro d
    cases d with
    | none =>
      have hstay : store s.mem (o.slot i) (o.old i) = s.mem := by rw [← ho, store_word]
      simp [State.rebind, hstay]
    | some r => simp [State.rebind, ho]
  rw [hstate, hstate, h.1, h.2]

/-- As long as the choices do what is wanted, the states are the expected ones. -/
theorem ran_expected (hn : n ≤ o.count)
    (h : ∀ i < n, o.SameFor i (o.chosen rebindings i) (o.wanted rebindings i)) :
    o.ran rebindings n = o.bound (o.wanted rebindings) n := by
  induction n with
  | zero => rfl
  | succ n ih =>
    have hsame := ih (Nat.le_of_succ_le hn) fun i hi => h i (Nat.lt_succ_of_lt hi)
    have hold : word (o.ran rebindings n).mem (o.slot n) = o.old n := by
      rw [hsame]
      exact bound_word_ahead hn (le_refl n)
    rw [Module.bound, ← hsame, ← rebind_same (h n n.lt_succ_self) hold, Module.ran, Module.chosen]

/-- What stands in the expected states decides what the loop does. -/
theorem chosen_iff_agrees (hn : n ≤ o.count) :
    (∀ i < n, o.SameFor i (o.chosen rebindings i) (o.wanted rebindings i)) ↔
      ∀ i < n, o.Agrees rebindings i := by
  induction n with
  | zero => exact ⟨fun _ i hi => absurd hi i.not_lt_zero, fun _ i hi => absurd hi i.not_lt_zero⟩
  | succ n ih =>
    have hn' := Nat.le_of_succ_le hn
    rw [Nat.forall_lt_succ_right, Nat.forall_lt_succ_right, ih hn']
    refine and_congr_right fun h => ?_
    rw [Module.Agrees, Module.chosen, ran_expected hn' ((ih hn').mpr h)]

/-! What comes before the loop -/

/-- A condition is met, or the function returns. -/
theorem check_bind {α : Type} {ret : ℤ} {p : Bool} {f : Unit → Except Stop α} :
    (Env.check ret p >>= f) = if p then f () else .error (.returns ret) := by
  cases p <;> rfl

theorem deref_bind {α β : Type} {p : α} {f : α → Except Stop β} :
    (Env.deref (some p) >>= f) = f p := rfl

theorem dynstr_bind {α : Type} {stop : Stop} {f : Elf_Shdr → Except Stop α} :
    ((section_by_index o.file o.dynsym.sh_link).elim (.error stop) .ok >>= f) = f o.dynstr := by
  rw [o.dynstr_eq]
  rfl

/-- A condition that is not met returns no zero, or what follows decides. -/
theorem check_cases {α : Type} {ret : ℤ} {p : Bool} {f : Unit → Except Stop α}
    {y : Except Stop α} {P : Prop} (hret : p = false → ret ≠ 0)
    (hf : p = true → (∃ r, r ≠ 0 ∧ f () = .error (.returns r)) ∨ P ∧ f () = y) :
    (∃ r, r ≠ 0 ∧ (Env.check ret p >>= f) = .error (.returns r)) ∨
      P ∧ (Env.check ret p >>= f) = y := by
  cases p with
  | false => exact .inl ⟨ret, hret rfl, rfl⟩
  | true => exact hf rfl

/-- With a module's file nothing but a failure stops the function, and a failure is not a zero. -/
theorem load_cases : (∃ ret, ret ≠ 0 ∧ e.load o.file = .error (.returns ret)) ∨
    e.module_address o.dynstr (found o.file o.dynsym) ≠ 0 ∧
      e.load o.file =
        .ok (e.module_address o.dynstr (found o.file o.dynsym), o.dynsym, o.rel_plt) := by
  have hneg : (-1 : ℤ) ≠ 0 := by omega
  have hstage : ∀ stage, (e.fails stage == 0) = false → e.fails stage ≠ 0 := by
    intro stage h
    simpa using h
  unfold Env.load Env.stage
  refine check_cases (fun _ => hneg) fun _ => check_cases (fun _ => hneg) fun _ =>
    check_cases (hstage .by_type) fun _ => ?_
  rw [o.dynsym_eq, deref_bind]
  refine check_cases (hstage .by_index) fun _ => ?_
  rw [dynstr_bind]
  refine check_cases (hstage .strings) fun _ => check_cases (hstage .symbols) fun _ =>
    check_cases (fun _ => hneg) fun hbase => check_cases (fun _ => hneg) fun _ =>
    check_cases (fun _ => hneg) fun _ => ?_
  rw [o.plt_eq, o.dyn_eq, deref_bind, deref_bind]
  exact .inr ⟨by simpa using hbase, rfl⟩

theorem module_address_base (hb : o.BaseFound e)
    (h : e.module_address o.dynstr (found o.file o.dynsym) ≠ 0) :
    e.module_address o.dynstr (found o.file o.dynsym) = o.base := by
  cases hf : found o.file o.dynsym with
  | none =>
    rw [hf] at h
    exact absurd rfl h
  | some sym =>
    rw [hf, Env.module_address] at h
    split_ifs at h with hzero
    · exact absurd rfl h
    · rw [Env.module_address, if_neg hzero, hb sym hf, BitVec.add_sub_cancel]

/-- When the function returns zero, the loop has run. -/
theorem loop_of_returns (h : rebind_symbols_image e o.file o.mem rebindings = .returns 0 s) :
    e.module_address o.dynstr (found o.file o.dynsym) ≠ 0 ∧
      o.loop rebindings (e.module_address o.dynstr (found o.file o.dynsym)) o.count = some s := by
  unfold rebind_symbols_image at h
  rcases load_cases (e := e) (o := o) with ⟨ret, hret, hload⟩ | ⟨hne, hload⟩
  · rw [hload] at h
    cases h
    exact absurd rfl hret
  · rw [hload] at h
    refine ⟨hne, ?_⟩
    change (o.loop rebindings _ o.count).elim .never (.returns 0) = Outcome.returns 0 s at h
    cases hl : o.loop rebindings (e.module_address o.dynstr (found o.file o.dynsym)) o.count with
    | none =>
      rw [hl] at h
      cases h
    | some t =>
      rw [hl] at h
      cases h
      rfl

theorem ran_of_returns (hb : o.BaseFound e)
    (h : rebind_symbols_image e o.file o.mem rebindings = .returns 0 s) :
    s = o.ran rebindings o.count := by
  obtain ⟨hne, hloop⟩ := loop_of_returns h
  rw [module_address_base hb hne] at hloop
  exact loop_some (le_refl o.count) hloop

/-! Another base -/

/-- The place where the code looks for a name when it takes `module_address` for the base. -/
def Module.placeFrom (o : Module) (module_address : Address) (i : ℕ) : Address :=
  let rel := Elf_Rel.decode o.mem (entry (module_address + o.rel_plt.sh_addr) 24 i)
  module_address + .ofNat 64
    (symbols o.file o.dynsym (ELF64_R_SYM rel.r_info % 2 ^ 16)).st_name

/-- A loop that finds no name changes nothing. -/
theorem loop_idle (hnone : ∀ i < n, pick rebindings o.mem (o.placeFrom a i) = none)
    (h : o.loop rebindings a n = some s) : s = ⟨o.mem, []⟩ := by
  induction n generalizing s with
  | zero =>
    cases h
    rfl
  | succ n ih =>
    rw [loop_succ] at h
    obtain ⟨t, ht, hs⟩ := Option.bind_eq_some_iff.mp h
    obtain rfl := ih (fun i hi => hnone i (Nat.lt_succ_of_lt hi)) ht
    obtain ⟨b, hb, rfl⟩ := Option.map_eq_some_iff.mp hs
    obtain rfl : b = none := (search_some hb).trans (hnone n n.lt_succ_self)
    rfl

theorem bound_none : o.bound (fun _ => none) n = ⟨o.mem, []⟩ := by
  induction n with
  | zero => rfl
  | succ n ih => rw [Module.bound, ih, State.rebind]

/-- At a base where the code finds no name, the slots are as they should be only if none was to be
bound. What lies past the symbol table is taken to be the file's. -/
theorem rebound_elsewhere (hd : (rebindings.map (·.name)).Nodup)
    (hnone : ∀ i < o.count, pick rebindings o.mem
      (o.placeFrom (e.module_address o.dynstr (found o.file o.dynsym)) i) = none)
    (h : rebind_symbols_image e o.file o.mem rebindings = .returns 0 s) :
    o.Rebound rebindings s ↔ ∀ i < o.count, o.SameFor i none (o.wanted rebindings i) := by
  obtain ⟨_, hloop⟩ := loop_of_returns h
  rw [loop_idle hnone hloop, ← bound_none (n := o.count), rebound_bound hd]

/-- A call in which nothing fails returns zero. -/
theorem returns_of_lt (hg : e.given) (ho : e.opens) (hf : ∀ stage, e.fails stage = 0)
    (hbase : e.module_address o.dynstr (found o.file o.dynsym) = o.base) (hne : o.base ≠ 0)
    (hlt : rebindings.length < 2 ^ 32) :
    rebind_symbols_image e o.file o.mem rebindings = .returns 0 (o.ran rebindings o.count) := by
  have hload : e.load o.file = .ok (o.base, o.dynsym, o.rel_plt) := by
    have hbne : (o.base != 0) = true := by simpa using hne
    simp only [Env.load, Env.stage, check_bind, hg, ho, hf, o.dynsym_eq, deref_bind, dynstr_bind,
      hbase, hbne, o.plt_eq, o.dyn_eq]
    rfl
  have hloop := loop_of_lt hlt (le_refl o.count)
  unfold Module.loop Module.count at hloop
  simp only [rebind_symbols_image, hload, hloop, Module.count, Option.elim_some]

/-- After a return of zero the slots are as they should be if and only if, for every relocation,
what stands at the base plus `st_name` of the entry that 16 bits of the index lead to does what the
symbol's name does. -/
theorem rebinds_iff (hd : (rebindings.map (·.name)).Nodup) (hb : o.BaseFound e)
    (h : rebind_symbols_image e o.file o.mem rebindings = .returns 0 s) :
    o.Rebound rebindings s ↔ ∀ i < o.count, o.Agrees rebindings i := by
  rw [ran_of_returns hb h, ran_bound, rebound_bound hd]
  exact chosen_iff_agrees (le_refl o.count)

/-- Bytes in pieces, each with its offset; the others are zero. -/
def pieces (l : List (ℕ × List ℕ)) : Bytes 64 := fun a =>
  .ofNat 8 ((l.findSome? fun (offset, bytes) =>
    if offset ≤ a.toNat then bytes[a.toNat - offset]? else none).getD 0)

/-- A file with one relocation, for `puts`; ".dynstr" is to be mapped at an offset of the base. -/
def libtest_file (dynstr : ℕ) : Bytes 64 := pieces
  [(0, [127, 69, 76, 70, 2, 1, 1]), (40, [0, 2]), (60, [6, 0, 5]),
    -- ".dynsym": `puts`, and `libtest` at 320
    (88, [1, 0, 0, 0, 18]), (112, [6, 0, 0, 0, 18, 0, 1, 0, 64, 1]),
    -- ".dynstr"
    (136, [0, 112, 117, 116, 115, 0, 108, 105, 98, 116, 101, 115, 116, 0]),
    -- ".rela.plt": a slot at 384
    (152, [128, 1, 0, 0, 0, 0, 0, 0, 7, 0, 0, 0, 1]),
    -- the names of the sections
    (176, [0, 46, 114, 101, 108, 97, 46, 112, 108, 116]),
    (187, [46, 114, 101, 108, 97, 46, 100, 121, 110]),
    (384, [54, 1]),
    -- the section table
    (580, [11]), (592, [64]), (600, [64]), (608, [72]), (616, [2]),
    (644, [3]), (656, [dynstr]), (664, [136]), (672, [14]),
    (704, [1]), (708, [4]), (720, [152]), (728, [152]), (736, [24]),
    (768, [11]), (772, [4]), (784, [176]), (792, [176]),
    (836, [3]), (848, [176]), (856, [176]), (864, [21])]

def libtest_base : Address := 65536

/-- The file in memory, with ".dynstr" at its place. -/
def libtest_mem (dynstr : ℕ) : Bytes 64 := fun a =>
  let offset := (a - libtest_base).toNat
  if dynstr ≤ offset ∧ offset < dynstr + 14 then
    libtest_file dynstr (.ofNat 64 (136 + offset - dynstr))
  else libtest_file dynstr (a - libtest_base)

/-- The module as linkers lay it out, the headers first. -/
def libtest : Module where
  file := libtest_file 136
  mem := libtest_mem 136
  base := libtest_base
  dynsym := ⟨0, 11, 64, 64, 72, 2⟩
  dynstr := ⟨0, 3, 136, 136, 14, 0⟩
  rel_plt := ⟨1, 4, 152, 152, 24, 0⟩
  rel_dyn := ⟨11, 4, 176, 176, 0, 0⟩
  dynsym_eq := by decide +kernel
  dynstr_eq := by decide +kernel
  plt_eq := by decide +kernel
  dyn_eq := by decide +kernel
  index_lt := by decide +kernel
  slots_apart := by decide +kernel
  table_apart := by decide +kernel

/-- The module with ".dynstr" at its base. -/
def libtest_strings_first : Module where
  file := libtest_file 0
  mem := libtest_mem 0
  base := libtest_base
  dynsym := ⟨0, 11, 64, 64, 72, 2⟩
  dynstr := ⟨0, 3, 0, 136, 14, 0⟩
  rel_plt := ⟨1, 4, 152, 152, 24, 0⟩
  rel_dyn := ⟨11, 4, 176, 176, 0, 0⟩
  dynsym_eq := by decide +kernel
  dynstr_eq := by decide +kernel
  plt_eq := by decide +kernel
  dyn_eq := by decide +kernel
  index_lt := by decide +kernel
  slots_apart := by decide +kernel
  table_apart := by decide +kernel

/-- A table that has `puts`. -/
def puts_table : List Rebinding :=
  [⟨⟨[112, 117, 116, 115], by decide⟩, 28672, some 36864⟩]

/-- Nothing fails, and `dlsym` finds `libtest`. -/
def quiet : Env := ⟨true, true, fun _ => 0, 0, fun p => if p = 142 then libtest_base + 320 else 0⟩

theorem quiet_found (hf : found o.file o.dynsym = some ⟨6, 18, 320⟩)
    (hs : o.dynstr.sh_offset = 136) (hb : o.base = libtest_base) : o.BaseFound quiet := by
  intro sym hsym
  rw [hf] at hsym
  cases hsym
  rw [hs, hb]
  rfl

theorem quiet_returns (hf : found o.file o.dynsym = some ⟨6, 18, 320⟩)
    (hs : o.dynstr.sh_offset = 136) (hb : o.base = libtest_base) :
    rebind_symbols_image quiet o.file o.mem puts_table = .returns 0 (o.ran puts_table o.count) := by
  have hne : o.base ≠ 0 := by
    rw [hb]
    decide
  have haddress : quiet.module_address o.dynstr (found o.file o.dynsym) = o.base := by
    rw [hf, Env.module_address, hs, hb]
    rfl
  exact returns_of_lt rfl rfl (fun _ => rfl) haddress hne (by decide)

/-- With ".dynstr" at the base the slot of `puts` is bound. -/
theorem strings_first_rebound : ∃ s,
    rebind_symbols_image quiet libtest_strings_first.file libtest_strings_first.mem puts_table =
      .returns 0 s ∧ libtest_strings_first.Rebound puts_table s := by
  have hf : found libtest_strings_first.file libtest_strings_first.dynsym = some ⟨6, 18, 320⟩ := by
    decide +kernel
  have hreturns := quiet_returns hf rfl rfl
  exact ⟨_, hreturns,
    (rebinds_iff (by decide) (quiet_found hf rfl rfl) hreturns).mpr (by decide +kernel)⟩

/-- With the headers at the base the name that is found is "ELF" and what follows, and the slot
stays as it was. -/
theorem puts_not_bound : libtest.BaseFound quiet ∧ ∃ s,
    rebind_symbols_image quiet libtest.file libtest.mem puts_table = .returns 0 s ∧
      ¬libtest.Rebound puts_table s := by
  have hf : found libtest.file libtest.dynsym = some ⟨6, 18, 320⟩ := by decide +kernel
  refine ⟨quiet_found hf rfl rfl, _, quiet_returns hf rfl rfl, fun h => ?_⟩
  have hslot : word (libtest.ran puts_table libtest.count).mem (libtest.slot 0) = 28672 :=
    h.named 0 (by decide +kernel) _ (List.mem_singleton.mpr rfl) (by decide +kernel)
  exact absurd hslot (by decide +kernel)

end CxxFiber.ElfHook
