import CxxFiber.Library.ByteMemory

/-! `elf_hook.c` on x86_64. A module's file is read by offset and its image in memory by address; a
`read` that does not fail reads all. -/
namespace CxxFiber.ElfHook

open ByteMemory

abbrev Address := BitVec 64

/-- The word at an address. -/
def word (m : Bytes 64) (a : Address) : Address := .ofNat 64 (read m a 8)

def store (m : Bytes 64) (a v : Address) : Bytes 64 := write m a 8 v.toNat

structure Elf_Shdr where
  sh_name : ℕ
  sh_type : ℕ
  sh_addr : Address
  sh_offset : Address
  sh_size : ℕ
  sh_link : ℕ
  deriving DecidableEq

structure Elf_Sym where
  st_name : ℕ
  st_info : ℕ
  st_value : Address
  deriving DecidableEq

structure Elf_Rel where
  r_offset : Address
  r_info : ℕ
  deriving DecidableEq

def Elf_Shdr.decode (m : Bytes 64) (a : Address) : Elf_Shdr :=
  ⟨read m a 4, read m (a + 4) 4, word m (a + 16), word m (a + 24), read m (a + 32) 8,
    read m (a + 40) 4⟩

def Elf_Sym.decode (m : Bytes 64) (a : Address) : Elf_Sym :=
  ⟨read m a 4, read m (a + 4) 1, word m (a + 8)⟩

def Elf_Rel.decode (m : Bytes 64) (a : Address) : Elf_Rel := ⟨word m a, read m (a + 8) 8⟩

/-- The `i`th entry of a table whose entries have `size` bytes. -/
def entry (table : Address) (size i : ℕ) : Address := table + .ofNat 64 (size * i)

def e_shoff (file : Bytes 64) : Address := word file 40
def e_shnum (file : Bytes 64) : ℕ := read file 60 2
def e_shstrndx (file : Bytes 64) : ℕ := read file 62 2

def ELF64_R_SYM (info : ℕ) : ℕ := info / 2 ^ 32
def ELF32_ST_BIND (info : ℕ) : ℕ := info / 2 ^ 4
def STB_GLOBAL : ℕ := 1
def STB_WEAK : ℕ := 2
def SHT_DYNSYM : ℕ := 11

def REL_PLT : CString :=
  ⟨['.', 'r', 'e', 'l', 'a', '.', 'p', 'l', 't'].map fun c => .ofNat 8 c.toNat, by decide⟩

def REL_DYN : CString :=
  ⟨['.', 'r', 'e', 'l', 'a', '.', 'd', 'y', 'n'].map fun c => .ofNat 8 c.toNat, by decide⟩

/-- An entry of the section table. -/
def sections (file : Bytes 64) (i : ℕ) : Elf_Shdr := .decode file (entry (e_shoff file) 64 i)

/-- The loop of the two functions that search: the first section, or NULL. -/
def first_section (file : Bytes 64) (p : Elf_Shdr → Bool) : Option Elf_Shdr :=
  ((List.range (e_shnum file)).map (sections file)).find? p

def section_by_type (file : Bytes 64) (section_type : ℕ) : Option Elf_Shdr :=
  first_section file fun s => section_type == s.sh_type

def section_by_name (file : Bytes 64) (section_name : CString) : Option Elf_Shdr :=
  let strings := (sections file (e_shstrndx file)).sh_offset
  first_section file fun s => strEq file (strings + .ofNat 64 s.sh_name) section_name

def section_by_index (file : Bytes 64) (index : ℕ) : Option Elf_Shdr :=
  if index < e_shnum file then some (sections file index) else none

/-- An entry of a symbol table. An index past the table reads what follows it in the file, where the
code reads past the memory that it has copied the table to. -/
def symbols (file : Bytes 64) (dynsym : Elf_Shdr) (i : ℕ) : Elf_Sym :=
  .decode file (entry dynsym.sh_offset 24 i)

def amount (s : Elf_Shdr) : ℕ := s.sh_size / 24

/-- The loop that searches for a symbol whose address `dlsym` will tell: `break` leaves the `switch`
only, and so it is the last. -/
def found (file : Bytes 64) (dynsym : Elf_Shdr) : Option Elf_Sym :=
  (List.range (amount dynsym)).foldl (fun found i =>
    let bind := ELF32_ST_BIND (symbols file dynsym i).st_info
    if bind = STB_GLOBAL ∨ bind = STB_WEAK then some (symbols file dynsym i) else found) none

/-- The helpers in which `malloc`, `lseek` or `read` can fail. -/
inductive Stage
  | by_type
  | by_index
  | strings
  | symbols
  | plt_by_name
  | dyn_by_name
  deriving DecidableEq, Repr

/-- What the function depends on besides the module and the rebindings. -/
structure Env where
  /-- No argument is NULL. -/
  given : Bool
  opens : Bool
  /-- The `errno` with which a stage fails, or zero. -/
  fails : Stage → ℤ
  /-- `errno` as it was before. -/
  errno : ℤ
  /-- The answer for the name at an offset of the file; zero is NULL. -/
  dlsym : Address → Address

/-- An early end: a return, or the use of a NULL pointer. -/
inductive Stop
  | returns (ret : ℤ)
  | undefined
  deriving DecidableEq, Repr

namespace Env

def module_address (e : Env) (strings_section : Elf_Shdr) : Option Elf_Sym → Address
  | none => 0
  | some found =>
    let sym := e.dlsym (strings_section.sh_offset + .ofNat 64 found.st_name)
    if sym = 0 then 0 else sym - found.st_value

/-- A condition without which the function returns `ret`. -/
def check (ret : ℤ) (p : Bool) : Except Stop Unit := if p then .ok () else .error (.returns ret)

/-- A stage whose `errno` is returned. -/
def stage (e : Env) (s : Stage) : Except Stop Unit := check (e.fails s) (e.fails s == 0)

/-- The use of a pointer. -/
def deref {α : Type} (p : Option α) : Except Stop α := p.elim (.error .undefined) .ok

/-- All that is done before the relocations: `module_address`, ".dynsym" and ".rela.plt". -/
def load (e : Env) (file : Bytes 64) : Except Stop (Address × Elf_Shdr × Elf_Shdr) := do
  check (-1) e.given
  check (-1) e.opens
  e.stage .by_type
  let dynsym ← deref (section_by_type file SHT_DYNSYM)
  e.stage .by_index
  -- an index that is too large does not set `errno`
  let strings_section ← (section_by_index file dynsym.sh_link).elim
    (.error (.returns e.errno)) .ok
  e.stage .strings
  e.stage .symbols
  let module_address := e.module_address strings_section (found file dynsym)
  check (-1) (module_address != 0)
  check (-1) (e.fails .plt_by_name == 0)
  check (-1) (e.fails .dyn_by_name == 0)
  let rel_plt ← deref (section_by_name file REL_PLT)
  let _ ← deref (section_by_name file REL_DYN)
  return (module_address, dynsym, rel_plt)

end Env

structure Rebinding where
  name : CString
  replacement : Address
  replaced : Option Address
  deriving DecidableEq

/-- The old content of a slot is stored through `replaced`. -/
structure Saved where
  slot : Address
  replaced : Address
  value : Address
  deriving DecidableEq

/-- The memory of the module, and what has been stored in the variables of the caller, which lie
outside of it. -/
structure State where
  mem : Bytes 64
  saved : List Saved

/-- What is done with a slot once its rebinding is found, or none is. -/
def State.rebind (s : State) (slot : Address) : Option Rebinding → State
  | none => s
  | some b =>
    ⟨store s.mem slot b.replacement,
      s.saved ++ (b.replaced.map fun p => ⟨slot, p, word s.mem slot⟩).toList⟩

def pick (rebindings : List Rebinding) (m : Bytes 64) (name : Address) : Option Rebinding :=
  rebindings.find? fun b => strEq m name b.name

/-- The loop over the rebindings. `j` has 32 bits: when there are more, it ends only if a name among
the first 2 ^ 32 is the one. -/
def search (rebindings : List Rebinding) (m : Bytes 64) (name : Address) :
    Option (Option Rebinding) :=
  match pick (rebindings.take (2 ^ 32)) m name with
  | some b => some (some b)
  | none => if rebindings.length < 2 ^ 32 then some none else none

/-- One turn of the loop over ".rela.plt"; `ndx` has 16 bits. -/
def relocate (symbols : ℕ → Elf_Sym) (rebindings : List Rebinding)
    (module_address rel_plt_table : Address) (s : State) (i : ℕ) : Option State :=
  let rel := Elf_Rel.decode s.mem (entry rel_plt_table 24 i)
  let ndx := ELF64_R_SYM rel.r_info % 2 ^ 16
  let name := module_address + .ofNat 64 (symbols ndx).st_name
  (search rebindings s.mem name).map (s.rebind (module_address + rel.r_offset))

inductive Outcome
  | returns (ret : ℤ) (s : State)
  | undefined
  | never

def rebind_symbols_image (e : Env) (file mem : Bytes 64) (rebindings : List Rebinding) : Outcome :=
  match e.load file with
  | .error (.returns ret) => .returns ret ⟨mem, []⟩
  | .error .undefined => .undefined
  | .ok (module_address, dynsym, rel_plt) =>
    let loop := (List.range (amount rel_plt)).foldlM (relocate (symbols file dynsym) rebindings
      module_address (module_address + rel_plt.sh_addr)) ⟨mem, []⟩
    loop.elim .never (.returns 0)

/-- A shared object mapped at `base`: it has the sections, the entries of ".rela.plt" name symbols
of ".dynsym", and their slots lie apart from each other and from the entries. -/
structure Module where
  file : Bytes 64
  mem : Bytes 64
  base : Address
  dynsym : Elf_Shdr
  dynstr : Elf_Shdr
  rel_plt : Elf_Shdr
  rel_dyn : Elf_Shdr
  dynsym_eq : section_by_type file SHT_DYNSYM = some dynsym
  dynstr_eq : section_by_index file dynsym.sh_link = some dynstr
  plt_eq : section_by_name file REL_PLT = some rel_plt
  dyn_eq : section_by_name file REL_DYN = some rel_dyn
  index_lt : ∀ i < amount rel_plt, ELF64_R_SYM
    (Elf_Rel.decode mem (entry (base + rel_plt.sh_addr) 24 i)).r_info < amount dynsym
  slots_apart : ∀ i < amount rel_plt, ∀ j < amount rel_plt, i ≠ j →
    Apart (base + (Elf_Rel.decode mem (entry (base + rel_plt.sh_addr) 24 i)).r_offset) 8
      (base + (Elf_Rel.decode mem (entry (base + rel_plt.sh_addr) 24 j)).r_offset) 8
  table_apart : ∀ i < amount rel_plt, ∀ j < amount rel_plt,
    Apart (entry (base + rel_plt.sh_addr) 24 i) 16
      (base + (Elf_Rel.decode mem (entry (base + rel_plt.sh_addr) 24 j)).r_offset) 8

namespace Module

variable (o : Module) (rebindings : List Rebinding)

/-- The number of relocations in ".rela.plt". -/
def count : ℕ := amount o.rel_plt

def rel (i : ℕ) : Elf_Rel := .decode o.mem (entry (o.base + o.rel_plt.sh_addr) 24 i)

def slot (i : ℕ) : Address := o.base + (o.rel i).r_offset

/-- What a slot holds before. -/
def old (i : ℕ) : Address := word o.mem (o.slot i)

/-- The offset in the file of the name of a relocation's symbol. -/
def nameOffset (i : ℕ) : Address :=
  o.dynstr.sh_offset + .ofNat 64 (symbols o.file o.dynsym (ELF64_R_SYM (o.rel i).r_info)).st_name

/-- The name of a relocation's symbol. -/
def Named (i : ℕ) (name : CString) : Prop := strEq o.file (o.nameOffset i) name

instance {i : ℕ} {name : CString} : Decidable (o.Named i name) :=
  inferInstanceAs (Decidable (strEq _ _ _ = true))

/-- Every slot whose symbol is in the table holds the replacement, its old content went through
`replaced`, and all else is as before. -/
structure Rebound (s : State) : Prop where
  named : ∀ i < o.count, ∀ b ∈ rebindings, o.Named i b.name → word s.mem (o.slot i) = b.replacement
  unnamed : ∀ i < o.count, (∀ b ∈ rebindings, ¬o.Named i b.name) →
    word s.mem (o.slot i) = o.old i
  saved : ∀ x, x ∈ s.saved ↔ ∃ i < o.count, ∃ b ∈ rebindings, o.Named i b.name ∧
    ∃ p ∈ b.replaced, x = ⟨o.slot i, p, o.old i⟩
  other : ∀ a, (∀ i < o.count, 8 ≤ (a - o.slot i).toNat) → s.mem a = o.mem a

/-- `dlsym` finds the last global or weak symbol in this object. -/
def BaseFound (e : Env) : Prop :=
  ∀ s ∈ found o.file o.dynsym,
    e.dlsym (o.dynstr.sh_offset + .ofNat 64 s.st_name) = o.base + s.st_value

/-- The rebinding for a relocation by the name of its symbol. -/
def wanted (i : ℕ) : Option Rebinding := pick rebindings o.file (o.nameOffset i)

/-- The state when each of the first `n` relocations is bound by a choice. -/
def bound (choice : ℕ → Option Rebinding) : ℕ → State
  | 0 => ⟨o.mem, []⟩
  | n + 1 => (bound choice n).rebind (o.slot n) (choice n)

/-- The place where the code looks for the name: from the base on, by 16 bits of the index. -/
def namePlace (i : ℕ) : Address :=
  o.base + .ofNat 64
    (symbols o.file o.dynsym (ELF64_R_SYM (o.rel i).r_info % 2 ^ 16)).st_name

/-- Two choices do the same to a slot: it holds the same, and the same is saved. -/
def SameFor (i : ℕ) (b c : Option Rebinding) : Prop :=
  b.elim (o.old i) (·.replacement) = c.elim (o.old i) (·.replacement) ∧
    b.bind (·.replaced) = c.bind (·.replaced)

/-- When the relocations before are bound by the names of their symbols, what stands where the code
looks for the name leads to what the symbol's name leads to. -/
def Agrees (i : ℕ) : Prop :=
  o.SameFor i (pick rebindings (o.bound (o.wanted rebindings) i).mem (o.namePlace i))
    (o.wanted rebindings i)

instance {i : ℕ} {b c : Option Rebinding} : Decidable (o.SameFor i b c) :=
  inferInstanceAs (Decidable (_ ∧ _))

instance {i : ℕ} : Decidable (o.Agrees rebindings i) :=
  inferInstanceAs (Decidable (o.SameFor i _ _))

end Module

end CxxFiber.ElfHook
