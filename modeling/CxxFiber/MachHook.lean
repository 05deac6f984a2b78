import CxxFiber.Library.Patching
import Mathlib.Algebra.Order.Ring.Nat
import Mathlib.Data.Int.Notation

/-! `mach_hook.c` on 64 bits. The tables of an image are read by address and never written; the
pointers that are rewritten are a memory of their own. -/
namespace CxxFiber.MachHook

open Patching

abbrev Address := BitVec 64

/-- A C string without its end. -/
abbrev CString := List Char

/-- The loop over the pointers of a section counts with 32 bits. -/
structure Section where
  addr : Address
  size : ℕ
  flags : BitVec 32
  reserved1 : BitVec 32
  size_lt : size / 8 < 2 ^ 32

structure SegmentCommand where
  segname : CString
  vmaddr : Address
  fileoff : Address
  sections : List Section

structure SymtabCommand where
  symoff : BitVec 32
  stroff : BitVec 32
  deriving DecidableEq

structure DysymtabCommand where
  indirectsymoff : BitVec 32
  nindirectsyms : BitVec 32
  deriving DecidableEq

inductive LoadCommand
  | segment (c : SegmentCommand)
  | symtab (c : SymtabCommand)
  | dysymtab (c : DysymtabCommand)
  | other

/-- The load commands of an image, and what stands at an address of its `__LINKEDIT`: the `n_strx`
of a symbol, an index, a string. `known`: `dladdr` knows the header. -/
structure Image where
  known : Bool
  slide : Address
  commands : List LoadCommand
  n_strx : Address → BitVec 32
  index : Address → BitVec 32
  string : Address → CString

/-- `replaced` is the variable in which the old pointer is saved, if any. -/
structure Rebinding where
  name : CString
  replacement : Address
  replaced : Option Address
  deriving DecidableEq

def SEG_LINKEDIT : CString := ['_', '_', 'L', 'I', 'N', 'K', 'E', 'D', 'I', 'T']
def SEG_DATA : CString := ['_', '_', 'D', 'A', 'T', 'A']
def SEG_DATA_CONST : CString := ['_', '_', 'D', 'A', 'T', 'A', '_', 'C', 'O', 'N', 'S', 'T']

def INDIRECT_SYMBOL_LOCAL : BitVec 32 := 0x80000000#32
def INDIRECT_SYMBOL_ABS : BitVec 32 := 0x40000000#32
def SECTION_TYPE : BitVec 32 := 0xff#32
def S_NON_LAZY_SYMBOL_POINTERS : BitVec 32 := 6#32
def S_LAZY_SYMBOL_POINTERS : BitVec 32 := 7#32

/-- The pointers, and what has been saved in the variables of the caller. -/
abbrev Pointers := State Address Address Address

/-- The tables as `rebind_symbols_for_image` finds them. -/
structure Tables where
  symtab : Address
  strtab : Address
  indirect_symtab : Address
  deriving DecidableEq

namespace Image

/-- The last of the commands that `f` selects. -/
def last {α : Type} (img : Image) (f : LoadCommand → Option α) : Option α :=
  (img.commands.filterMap f).getLast?

/-- The first loop over the commands, and the addresses that follow from it. -/
def tables (img : Image) : Option Tables := do
  let linkedit ← img.last fun
    | .segment c => if c.segname = SEG_LINKEDIT then some c else none
    | _ => none
  let symtab ← img.last fun
    | .symtab c => some c
    | _ => none
  let dysymtab ← img.last fun
    | .dysymtab c => some c
    | _ => none
  guard (dysymtab.nindirectsyms ≠ 0)
  let base := img.slide + linkedit.vmaddr - linkedit.fileoff
  return ⟨base + symtab.symoff.setWidth 64, base + symtab.stroff.setWidth 64,
    base + dysymtab.indirectsymoff.setWidth 64⟩

/-- The name of the symbol of the `i`th pointer of a section; none if the pointer is to be left
alone. -/
def symbol_name (img : Image) (t : Tables) (sect : Section) (i : ℕ) : Option CString :=
  let indirect_symbol_indices := t.indirect_symtab + 4 * sect.reserved1.setWidth 64
  let symtab_index := img.index (indirect_symbol_indices + 4 * .ofNat 64 i)
  if symtab_index = INDIRECT_SYMBOL_ABS ∨ symtab_index = INDIRECT_SYMBOL_LOCAL ∨
      symtab_index = INDIRECT_SYMBOL_LOCAL ||| INDIRECT_SYMBOL_ABS then none
  else
    let strtab_offset := img.n_strx (t.symtab + 16 * symtab_index.setWidth 64)
    some (img.string (t.strtab + strtab_offset.setWidth 64))

end Image

/-- The loops over the entries of the list and over their rebindings. The first character of a name
is passed over, whatever it is. -/
def search (entries : List (List Rebinding)) (symbol_name : CString) : Option Rebinding :=
  let symbol_name_longer_than_1 := 1 < symbol_name.length
  entries.findSome? fun cur =>
    cur.find? fun b => symbol_name_longer_than_1 && symbol_name.tail = b.name

def slot (img : Image) (sect : Section) (i : ℕ) : Address :=
  img.slide + sect.addr + 8 * .ofNat 64 i

/-- What is done with one pointer. The old one is saved only if it is not the replacement. -/
def bind (s : Pointers) (slot : Address) (cur : Rebinding) : Pointers where
  mem := Function.update s.mem slot cur.replacement
  saved := match cur.replaced with
    | none => s.saved
    | some p => if s.mem slot ≠ cur.replacement then s.saved ++ [(p, s.mem slot)] else s.saved

def perform_rebinding_with_section (entries : List (List Rebinding)) (img : Image) (t : Tables)
    (sect : Section) (s : Pointers) : Pointers :=
  (List.range (sect.size / 8)).foldl (fun s i =>
    match (img.symbol_name t sect i).bind (search entries) with
    | none => s
    | some cur => bind s (slot img sect i) cur) s

/-- One turn of the loop over the sections of a segment. -/
def perform_rebinding (entries : List (List Rebinding)) (img : Image) (t : Tables) (s : Pointers)
    (sect : Section) : Pointers :=
  let s := if sect.flags &&& SECTION_TYPE = S_LAZY_SYMBOL_POINTERS then
    perform_rebinding_with_section entries img t sect s else s
  if sect.flags &&& SECTION_TYPE = S_NON_LAZY_SYMBOL_POINTERS then
    perform_rebinding_with_section entries img t sect s else s

/-- One turn of the second loop over the commands. -/
def rebind_segment (entries : List (List Rebinding)) (img : Image) (t : Tables) (s : Pointers) :
    LoadCommand → Pointers
  | .segment c =>
    if c.segname ≠ SEG_DATA ∧ c.segname ≠ SEG_DATA_CONST then s
    else c.sections.foldl (perform_rebinding entries img t) s
  | _ => s

def rebind_symbols_for_image (entries : List (List Rebinding)) (img : Image) (s : Pointers) :
    Pointers :=
  if !img.known then s
  else match img.tables with
    | none => s
    | some t => img.commands.foldl (rebind_segment entries img t) s

/-- `prepend_rebindings` to an empty list; `allocs`: no `malloc` fails. -/
def prepend_rebindings (allocs : Bool) (rebindings : List Rebinding) : ℤ × List (List Rebinding) :=
  if allocs then (0, [rebindings]) else (-1, [])

def rebind_symbols_image (allocs : Bool) (img : Image) (rebindings : List Rebinding)
    (s : Pointers) : ℤ × Pointers :=
  let head := prepend_rebindings allocs rebindings
  (head.1, rebind_symbols_for_image head.2 img s)

/-! The pointers of an image by their symbols -/

namespace Image

/-- The pointers of a section that are not left alone, with the names of their symbols. -/
def pointers (img : Image) (t : Tables) (sect : Section) : List (Address × CString) :=
  if sect.flags &&& SECTION_TYPE = S_LAZY_SYMBOL_POINTERS ∨
      sect.flags &&& SECTION_TYPE = S_NON_LAZY_SYMBOL_POINTERS then
    (List.range (sect.size / 8)).filterMap fun i =>
      (img.symbol_name t sect i).map fun name => (slot img sect i, name)
  else []

def segmentSlots (img : Image) (t : Tables) : LoadCommand → List (Address × CString)
  | .segment c =>
    if c.segname = SEG_DATA ∨ c.segname = SEG_DATA_CONST then c.sections.flatMap (img.pointers t)
    else []
  | _ => []

/-- The same for the image. -/
def slots (img : Image) : List (Address × CString) :=
  if img.known then img.tables.toList.flatMap fun t => img.commands.flatMap (img.segmentSlots t)
  else []

end Image

/-- What the table of rebindings makes of a slot. -/
def wanted (entries : List (List Rebinding)) (x : Address × CString) :
    Option (Entry Address Address Address) :=
  (search entries x.2).map fun b => ⟨x.1, b.replacement, b.replaced⟩

variable {entries : List (List Rebinding)} {img : Image} {t : Tables} {sect : Section}
  {s : Pointers} {a : Address} {cur : Rebinding} {rebindings : List Rebinding}

theorem bind_eq : bind s a cur = s.patch ⟨a, cur.replacement, cur.replaced⟩ := by
  unfold bind State.patch Entry.save
  cases hp : cur.replaced with
  | none => simp
  | some p => by_cases h : s.mem a = cur.replacement <;> simp [h]

theorem section_eq : perform_rebinding_with_section entries img t sect s = s.patchAll
    (((List.range (sect.size / 8)).filterMap fun i =>
      (img.symbol_name t sect i).map fun name => (slot img sect i, name)).filterMap
        (wanted entries)) := by
  unfold perform_rebinding_with_section
  generalize List.range (sect.size / 8) = l
  induction l generalizing s with
  | nil => rfl
  | cons i l ih =>
    rw [List.foldl_cons, ih]
    cases hn : img.symbol_name t sect i with
    | none => simp [hn]
    | some name =>
      cases hb : search entries name with
      | none => simp [hn, hb, wanted]
      | some b => simp [hn, hb, wanted, bind_eq, State.patchAll]

theorem perform_rebinding_eq : perform_rebinding entries img t s sect =
    s.patchAll ((img.pointers t sect).filterMap (wanted entries)) := by
  have hne : S_LAZY_SYMBOL_POINTERS ≠ S_NON_LAZY_SYMBOL_POINTERS := by decide
  unfold perform_rebinding Image.pointers
  by_cases hlazy : sect.flags &&& SECTION_TYPE = S_LAZY_SYMBOL_POINTERS
  · simp [hlazy, hne, section_eq]
  · by_cases hnon : sect.flags &&& SECTION_TYPE = S_NON_LAZY_SYMBOL_POINTERS
    · simp [hnon, hne.symm, section_eq]
    · simp [hlazy, hnon, State.patchAll]

/-- Turns that each patch some entries patch all of them. -/
theorem foldl_patchAll {α : Type} {f : Pointers → α → Pointers}
    {g : α → List (Address × CString)} (l : List α)
    (h : ∀ s x, f s x = s.patchAll ((g x).filterMap (wanted entries))) :
    l.foldl f s = s.patchAll ((l.flatMap g).filterMap (wanted entries)) := by
  induction l generalizing s with
  | nil => rfl
  | cons x l ih => rw [List.foldl_cons, h, ih, List.flatMap_cons, List.filterMap_append,
      patchAll_append]

theorem rebind_segment_eq {c : LoadCommand} : rebind_segment entries img t s c =
    s.patchAll ((img.segmentSlots t c).filterMap (wanted entries)) := by
  cases c with
  | segment c =>
    by_cases hseg : c.segname = SEG_DATA ∨ c.segname = SEG_DATA_CONST
    · have hn : ¬ (c.segname ≠ SEG_DATA ∧ c.segname ≠ SEG_DATA_CONST) := by tauto
      rw [rebind_segment, if_neg hn, Image.segmentSlots, if_pos hseg]
      exact foldl_patchAll _ fun s sect => perform_rebinding_eq
    · have hn : c.segname ≠ SEG_DATA ∧ c.segname ≠ SEG_DATA_CONST := by tauto
      rw [rebind_segment, if_pos hn, Image.segmentSlots, if_neg hseg]
      rfl
  | _ => rfl

theorem image_eq : rebind_symbols_for_image entries img s =
    s.patchAll (img.slots.filterMap (wanted entries)) := by
  unfold rebind_symbols_for_image Image.slots
  cases img.known with
  | false => rfl
  | true =>
    cases ht : img.tables with
    | none => rfl
    | some t =>
      rw [if_pos rfl, Option.toList_some, List.flatMap_singleton]
      exact foldl_patchAll _ fun s c => rebind_segment_eq

/-! Runs -/

/-- A call for an image, and whether its `malloc` succeeds. -/
abbrev Call := Bool × Image

/-- The pointers that a call rebinds. -/
def Call.slots (c : Call) : List (Address × CString) := if c.1 then c.2.slots else []

def calls (rebindings : List Rebinding) (s : Pointers) (cs : List Call) : Pointers :=
  cs.foldl (fun s c => (rebind_symbols_image c.1 c.2 rebindings s).2) s

/-- A pointer that is met twice is met for the same symbol. -/
def OneSymbol (l : List (Address × CString)) : Prop :=
  ∀ x ∈ l, ∀ y ∈ l, x.1 = y.1 → x = y

/-- Every pointer whose symbol is in the table is the replacement, the others are as before, and
what has been saved of a pointer is what it was at first, unless that was the replacement. -/
structure Rebound (rebindings : List Rebinding) (s : Pointers) (l : List (Address × CString))
    (t : Pointers) : Prop where
  named : ∀ x ∈ l, ∀ b, search [rebindings] x.2 = some b → t.mem x.1 = b.replacement
  unnamed : ∀ a, (∀ x ∈ l, x.1 = a → search [rebindings] x.2 = none) → t.mem a = s.mem a
  saved : ∀ p v, (p, v) ∈ t.saved ↔ (p, v) ∈ s.saved ∨ ∃ x ∈ l, ∃ b,
    search [rebindings] x.2 = some b ∧ b.replaced = some p ∧ s.mem x.1 = v ∧ v ≠ b.replacement

variable {l : List (Address × CString)} {cs : List Call} {c : Call}

theorem calls_eq : calls rebindings s cs =
    s.patchAll ((cs.flatMap Call.slots).filterMap (wanted [rebindings])) := by
  refine foldl_patchAll cs fun s c => ?_
  obtain ⟨allocs, img⟩ := c
  cases allocs with
  | true => exact image_eq
  | false =>
    -- the list is empty, and no symbol is found in it
    have hnil : img.slots.filterMap (wanted []) = [] :=
      List.filterMap_eq_nil_iff.mpr fun x _ => rfl
    exact image_eq.trans (congrArg s.patchAll hnil)

theorem consistent_wanted (h : OneSymbol l) : Consistent (l.filterMap (wanted entries)) := by
  intro e he e' he' hp
  obtain ⟨x, hx, hw⟩ := List.mem_filterMap.mp he
  obtain ⟨y, hy, hw'⟩ := List.mem_filterMap.mp he'
  obtain ⟨b, -, rfl⟩ := Option.map_eq_some_iff.mp hw
  obtain ⟨b', -, rfl⟩ := Option.map_eq_some_iff.mp hw'
  obtain rfl := h x hx y hy hp
  exact Option.some.inj (hw.symm.trans hw')

theorem rebound_of_patched {t : Pointers}
    (h : Patched s (l.filterMap (wanted [rebindings])) t) : Rebound rebindings s l t := by
  have hmem : ∀ x ∈ l, ∀ b, search [rebindings] x.2 = some b →
      ⟨x.1, b.replacement, b.replaced⟩ ∈ l.filterMap (wanted [rebindings]) := fun x hx b hb =>
    List.mem_filterMap.mpr ⟨x, hx, by rw [wanted, hb]; rfl⟩
  have hof : ∀ e ∈ l.filterMap (wanted [rebindings]), ∃ x ∈ l, ∃ b,
      search [rebindings] x.2 = some b ∧ e = ⟨x.1, b.replacement, b.replaced⟩ := by
    intro e he
    obtain ⟨x, hx, hw⟩ := List.mem_filterMap.mp he
    obtain ⟨b, hb, rfl⟩ := Option.map_eq_some_iff.mp hw
    exact ⟨x, hx, b, hb, rfl⟩
  constructor
  case named => exact fun x hx b hb => h.value _ (hmem x hx b hb)
  case unnamed =>
    intro a ha
    refine h.other a fun e he hp => ?_
    obtain ⟨x, hx, b, hb, rfl⟩ := hof e he
    rw [ha x hx hp] at hb
    cases hb
  case saved =>
    intro p v
    rw [h.saved]
    refine or_congr Iff.rfl ⟨?_, ?_⟩
    · rintro ⟨e, he, hx⟩
      obtain ⟨x, hxl, b, hb, rfl⟩ := hof e he
      exact ⟨x, hxl, b, hb, mem_save.mp hx⟩
    · rintro ⟨x, hxl, b, hb, hx⟩
      exact ⟨_, hmem x hxl b hb, mem_save.mpr hx⟩

/-- However often and in whatever order images are rebound. -/
theorem calls_rebound (h : OneSymbol (cs.flatMap Call.slots)) :
    Rebound rebindings s (cs.flatMap Call.slots) (calls rebindings s cs) := by
  rw [calls_eq]
  exact rebound_of_patched (patched (consistent_wanted h))

/-- An image whose two lazy pointers, at 4096 and 4104, are those of `sleep` and `puts`. -/
def library : Image where
  known := true
  slide := 4096
  commands := [.segment ⟨SEG_LINKEDIT, 0, 0, []⟩, .symtab ⟨0, 0⟩, .dysymtab ⟨0, 2⟩,
    .segment ⟨SEG_DATA, 0, 0, [⟨0, 16, S_LAZY_SYMBOL_POINTERS, 0, by decide⟩]⟩]
  n_strx a := if a = 4096 then 1 else 8
  index a := if a = 4096 then 0 else 1
  string a := if a = 4097 then ['_', 's', 'l', 'e', 'e', 'p'] else ['_', 'p', 'u', 't', 's']

def sleepTable : List Rebinding := [⟨['s', 'l', 'e', 'e', 'p'], 9000, some 100⟩]

def loaded : Pointers := ⟨fun a => if a = 4096 then 7000 else 7500, []⟩

/-- The calls of a process that loads it twice. -/
def twice : List Call := [(true, library), (true, library)]

theorem twice_slots : twice.flatMap Call.slots =
    [(4096, ['_', 's', 'l', 'e', 'e', 'p']), (4104, ['_', 'p', 'u', 't', 's']),
      (4096, ['_', 's', 'l', 'e', 'e', 'p']), (4104, ['_', 'p', 'u', 't', 's'])] := by
  decide +kernel

theorem twice_oneSymbol : OneSymbol (twice.flatMap Call.slots) := by
  rw [twice_slots]
  unfold OneSymbol
  decide

theorem calls_rebound_twice : (calls sleepTable loaded twice).mem 4096 = 9000 ∧
    (calls sleepTable loaded twice).mem 4104 = 7500 ∧
    (100, 7000) ∈ (calls sleepTable loaded twice).saved := by
  have h : Rebound sleepTable loaded _ (calls sleepTable loaded twice) :=
    calls_rebound twice_oneSymbol
  rw [twice_slots] at h
  refine ⟨h.named _ (List.mem_cons_self ..) _ rfl, (h.unnamed 4104 ?_).trans (by decide),
    (h.saved 100 7000).mpr (Or.inr ⟨_, List.mem_cons_self .., _, rfl, rfl, ?_, ?_⟩)⟩
  · decide
  · decide
  · decide

/-- To rebind an image that has been rebound changes nothing: no pointer, and nothing that has been
saved. -/
theorem rebound_again (h : OneSymbol (cs.flatMap Call.slots)) (hc : (true, img) ∈ cs)
    (allocs : Bool) :
    (rebind_symbols_image allocs img rebindings (calls rebindings s cs)).2 =
      calls rebindings s cs := by
  have hone : (rebind_symbols_image allocs img rebindings (calls rebindings s cs)).2 =
      calls rebindings (calls rebindings s cs) [(allocs, img)] := rfl
  have hsub : ([(allocs, img)] : List Call).flatMap Call.slots ⊆ cs.flatMap Call.slots := by
    intro x hx
    rw [List.flatMap_singleton] at hx
    refine List.mem_flatMap.mpr ⟨_, hc, ?_⟩
    cases allocs with
    | true => exact hx
    | false => cases hx
  rw [hone, calls_eq, calls_eq]
  exact patchAll_again (consistent_wanted h) (List.filterMap_subset _ hsub)

theorem rebound_again_library :
    (rebind_symbols_image true library sleepTable (calls sleepTable loaded twice)).2 =
      calls sleepTable loaded twice :=
  rebound_again twice_oneSymbol (List.mem_cons_self ..) true

end CxxFiber.MachHook
