import CxxFiber.Library.ByteMemory

/-! `EContext` on x86_64: `SETJMP` and `LONGJMP`, one instruction at a time. -/
namespace CxxFiber.EContext

open ByteMemory

abbrev Word := BitVec 64

inductive Reg
  | rax | rbx | rcx | rdx | rsi | rdi | rbp | rsp | r12 | r13 | r14 | r15
  deriving DecidableEq, Repr

/-- The control words of the SSE and of the x87 unit, callee-saved like `rbx`. -/
structure Modes where
  mxcsr : BitVec 32
  fcw : BitVec 16
  deriving DecidableEq, Repr

/-- `rip` is looked at only when a block has ended. No instruction of a block touches `modes`. -/
structure Cpu where
  reg : Reg → Word
  rip : Word
  modes : Modes

def Cpu.set (c : Cpu) (r : Reg) (v : Word) : Cpu := { c with reg := Function.update c.reg r v }

structure Machine where
  cpu : Cpu
  mem : Bytes 64

/-- An address and a displacement in bytes. -/
def disp (a : Word) (d : ℕ) : Word := a + .ofNat 64 d

/-- Operands are in the order of the source: the destination comes last. `lea` loads the address of
the label at the end of the block. -/
inductive Instr
  | lea (dst : Reg)
  | xor (src dst : Reg)
  | mov (src dst : Reg)
  | store (src : Reg) (d : ℕ) (base : Reg)
  | load (d : ℕ) (base dst : Reg)
  | jmp (dst : Reg)

def Instr.exec (label : Word) (m : Machine) : Instr → Machine
  | lea dst => { m with cpu := m.cpu.set dst label }
  | xor src dst => { m with cpu := m.cpu.set dst (m.cpu.reg dst ^^^ m.cpu.reg src) }
  | mov src dst => { m with cpu := m.cpu.set dst (m.cpu.reg src) }
  | store src d base =>
    { m with mem := setQuad m.mem (disp (m.cpu.reg base) d) (m.cpu.reg src) }
  | load d base dst => { m with cpu := m.cpu.set dst (quad m.mem (disp (m.cpu.reg base) d)) }
  | jmp dst => { m with cpu := { m.cpu with rip := m.cpu.reg dst } }

open Reg Instr in
def SETJMP : List Instr :=
  [lea rcx,
   xor rax rax,
   store rbx 0 rdx,
   store rbp 8 rdx,
   store r12 16 rdx,
   store rsp 24 rdx,
   store r13 32 rdx,
   store r14 40 rdx,
   store r15 48 rdx,
   store rcx 56 rdx,
   store rdi 64 rdx,
   store rsi 72 rdx]

open Reg Instr in
def LONGJMP : List Instr :=
  [load 0 rax rbx,
   load 8 rax rbp,
   load 16 rax r12,
   load 24 rax rdx,
   load 32 rax r13,
   load 40 rax r14,
   mov rdx rsp,
   load 48 rax r15,
   load 56 rax rdx,
   load 64 rax rdi,
   load 72 rax rsi,
   jmp rdx]

/-- `SETJMP(ctx)`: the operand is in `rdx`, and the block runs into its label. -/
def setjmp (label ctx : Word) (m : Machine) : Machine :=
  let m := SETJMP.foldl (Instr.exec label) { m with cpu := m.cpu.set .rdx ctx }
  { m with cpu := { m.cpu with rip := label } }

/-- `LONGJMP(ctx)`: the operand is in `rax`. The block has no label. -/
def longjmp (ctx : Word) (m : Machine) : Machine :=
  LONGJMP.foldl (Instr.exec 0) { m with cpu := m.cpu.set .rax ctx }

/-- The value of `SETJMP`: an `int` that is `rax` at the label. -/
def ret (c : Cpu) : BitVec 32 := (c.reg .rax).setWidth 32

/-- What a piece of code keeps across a switch: the registers that a buffer has room for, and not
the modes. -/
@[ext]
structure Control where
  rbx : Word
  rbp : Word
  r12 : Word
  rsp : Word
  r13 : Word
  r14 : Word
  r15 : Word
  rip : Word
  rdi : Word
  rsi : Word
  deriving DecidableEq

def Cpu.control (c : Cpu) : Control :=
  ⟨c.reg .rbx, c.reg .rbp, c.reg .r12, c.reg .rsp, c.reg .r13, c.reg .r14, c.reg .r15, c.rip,
    c.reg .rdi, c.reg .rsi⟩

/-- The same place, but at a label. -/
def Control.goto (label : Word) (k : Control) : Control := { k with rip := label }

/-- What a buffer of ten words holds. -/
def frame (m : Bytes 64) (ctx : Word) : Control :=
  ⟨quad m (disp ctx 0), quad m (disp ctx 8), quad m (disp ctx 16), quad m (disp ctx 24),
    quad m (disp ctx 32), quad m (disp ctx 40), quad m (disp ctx 48), quad m (disp ctx 56),
    quad m (disp ctx 64), quad m (disp ctx 72)⟩

variable {m m' : Bytes 64} {s : Machine} {c : Cpu} {r r' : Reg} {v a b ctx label : Word} {d e : ℕ}

@[simp] theorem set_reg : (c.set r v).reg r = v := Function.update_self ..

theorem set_reg_ne (h : r' ≠ r) : (c.set r v).reg r' = c.reg r' := Function.update_of_ne h ..

@[simp] theorem quad_disp_self : quad (setQuad m (disp a d) v) (disp a d) = v := quad_setQuad

theorem quad_disp_apart (hd : d < 2 ^ 32) (he : e < 2 ^ 32) (h : d + 8 ≤ e ∨ e + 8 ≤ d) :
    quad (setQuad m (disp a e) v) (disp a d) = quad m (disp a d) :=
  quad_setQuad_apart (apart_offset hd he h)

/-- The buffer of `SETJMP` holds the place from which it was called, at the label. -/
theorem frame_setjmp : frame (setjmp label ctx s).mem ctx = s.cpu.control.goto label := by
  simp (disch := decide) [frame, setjmp, SETJMP, Instr.exec, quad_disp_apart, set_reg_ne,
    Cpu.control, Control.goto]

theorem frame_congr (h : ∀ i < 80, m (disp a i) = m' (disp a i)) : frame m a = frame m' a := by
  have hquad : ∀ d, d + 8 ≤ 80 → quad m (disp a d) = quad m' (disp a d) := by
    intro d hd
    refine quad_congr fun i hi => ?_
    have hplace : disp a d + .ofNat 64 i = disp a (d + i) := by
      rw [disp, disp, BitVec.ofNat_add, BitVec.add_assoc]
    rw [hplace]
    exact h (d + i) (by omega)
  simp (disch := decide) only [frame, hquad]

theorem setQuad_of_le (h : 80 ≤ (a - ctx).toNat) (hd : d + 8 ≤ 80) :
    setQuad m (disp ctx d) v a = m a := by
  refine write_of_le ?_
  have hsub : a - disp ctx d = a - ctx - .ofNat 64 d := by
    rw [disp]
    bv_omega
  rw [hsub, BitVec.toNat_sub, BitVec.toNat_ofNat]
  omega

/-- Bytes outside of the buffer stay. -/
theorem setjmp_mem (h : 80 ≤ (a - ctx).toNat) : (setjmp label ctx s).mem a = s.mem a := by
  simp (disch := first | exact h | decide) [setjmp, SETJMP, Instr.exec, set_reg_ne, setQuad_of_le]

/-- And so do the buffers of others. -/
theorem frame_setjmp_apart (h : Apart b 80 ctx 80) :
    frame (setjmp label ctx s).mem b = frame s.mem b :=
  frame_congr fun i hi => setjmp_mem (h i hi)

@[simp] theorem ret_setjmp : ret (setjmp label ctx s).cpu = 0 := by
  simp (disch := decide) [setjmp, SETJMP, Instr.exec, set_reg_ne, ret]

/-- `LONGJMP` goes to the place that the buffer holds. -/
theorem control_longjmp : (longjmp ctx s).cpu.control = frame s.mem ctx := by
  simp (disch := decide) [longjmp, LONGJMP, Instr.exec, set_reg_ne, Cpu.control, frame]

@[simp] theorem mem_longjmp : (longjmp ctx s).mem = s.mem := rfl

@[simp] theorem modes_setjmp : (setjmp label ctx s).cpu.modes = s.cpu.modes := rfl

@[simp] theorem modes_longjmp : (longjmp ctx s).cpu.modes = s.cpu.modes := rfl

@[simp] theorem rax_longjmp : (longjmp ctx s).cpu.reg .rax = ctx := by
  simp (disch := decide) [longjmp, LONGJMP, Instr.exec, set_reg_ne]

end CxxFiber.EContext
