import CxxFiber.EContext
import CxxFiber.Library.Runs

/-! Threads that switch between their own code and fibers: `swapIn`, `swapOut`, `fiber_worker` and
the buffers in which they leave what they need to come back. -/
namespace CxxFiber

open ByteMemory EContext

/-- `env` is the address of the buffer in the object. `context`, from which the fiber starts, is
freed by `fiber_worker`. -/
structure EContext where
  env : Word
  context : Option Cpu
  errno_ : ℤ

namespace EContext

/-- The labels in `swapIn` and in `swapOut`. -/
structure Labels where
  swapIn : Word
  swapOut : Word
  deriving DecidableEq, Repr

/-- A thread is in its own code or in that of a fiber, or it has jumped to the label in `swapIn` or
in `swapOut` of the fiber's context. -/
inductive Place (F : Type)
  | own
  | fiber (f : F)
  | inSwapIn (f : F)
  | inSwapOut (f : F)
  deriving DecidableEq, Repr

variable {T F : Type}

/-- The fiber whose context is being switched, from the call of `swapIn` to its return. -/
def Place.fiber? : Place F → Option F
  | .own => none
  | .fiber f | .inSwapIn f | .inSwapOut f => some f

/-- The fiber whose stack the thread is on. -/
def Place.running : Place F → Option F
  | .own | .inSwapIn _ => none
  | .fiber f | .inSwapOut f => some f

/-- `threadLocal` points to the buffer of a thread. -/
structure State (T F : Type) where
  cpu : T → Cpu
  errno : T → ℤ
  mem : Bytes 64
  threadLocal : T → Option Word
  context : F → Option EContext
  place : T → Place F

/-- No fiber has been made, and no thread has switched. -/
def initial (cpu : T → Cpu) (errno : T → ℤ) (mem : Bytes 64) : State T F :=
  ⟨cpu, errno, mem, fun _ => none, fun _ => none, fun _ => .own⟩

namespace State

/-- The buffers that have been allocated and not yet freed. -/
def buffer (s : State T F) : T ⊕ F → Option Word
  | .inl t => s.threadLocal t
  | .inr f => (s.context f).map (·.env)

/-- What `malloc` promises of a new buffer. -/
def Fresh (s : State T F) (a : Word) : Prop := ∀ x b, s.buffer x = some b → Apart a 80 b 80

/-- The result of `getOrignContext`. -/
def Orign (s : State T F) (t : T) (o : Word) : Prop :=
  s.threadLocal t = some o ∨ s.threadLocal t = none ∧ s.Fresh o

/-- `m` differs from the memory outside of the buffers only. -/
def KeepsBuffers (s : State T F) (m : Bytes 64) : Prop :=
  ∀ x b, s.buffer x = some b → ∀ i < 80, m (disp b i) = s.mem (disp b i)

/-- No thread is in a switch of `f`. -/
def Free (s : State T F) (f : F) : Prop := ∀ t, (s.place t).fiber? ≠ some f

variable [DecidableEq T] [DecidableEq F] (l : Labels)

@[simp] def setCpu (s : State T F) (t : T) (c : Cpu) : State T F :=
  { s with cpu := Function.update s.cpu t c }

@[simp] def setPlace (s : State T F) (t : T) (p : Place F) : State T F :=
  { s with place := Function.update s.place t p }

@[simp] def setContext (s : State T F) (f : F) (c : Option EContext) : State T F :=
  { s with context := Function.update s.context f c }

@[simp] def setThreadLocal (s : State T F) (t : T) (o : Option Word) : State T F :=
  { s with threadLocal := Function.update s.threadLocal t o }

@[simp] def setErrno (s : State T F) (t : T) (e : ℤ) : State T F :=
  { s with errno := Function.update s.errno t e }

/-- `SETJMP` on a thread. -/
def save (s : State T F) (t : T) (label ctx : Word) : State T F :=
  let m := setjmp label ctx ⟨s.cpu t, s.mem⟩
  { s.setCpu t m.cpu with mem := m.mem }

/-- `LONGJMP` on a thread. -/
def jump (s : State T F) (t : T) (ctx : Word) : State T F :=
  s.setCpu t (longjmp ctx ⟨s.cpu t, s.mem⟩).cpu

/-- The branch of `swapIn` that is taken when `SETJMP` gives zero. -/
def enter (s : State T F) (t : T) (f : F) (c : EContext) : State T F :=
  match c.context with
  | some start =>
    ((s.setCpu t start).setContext f (some { c with context := none })).setPlace t (.fiber f)
  | none => (s.jump t c.env).setPlace t (.inSwapOut f)

/-- The branch of `swapOut` that is taken when `SETJMP` gives zero. -/
def leave (s : State T F) (t : T) (f : F) (o : Word) : State T F :=
  (s.jump t o).setPlace t (.inSwapIn f)

/-- `EContext::swapIn`. -/
def swapIn (s : State T F) (t : T) (f : F) (c : EContext) (o : Word) : State T F :=
  (((s.setErrno t c.errno_).setThreadLocal t (some o)).save t l.swapIn o).enter t f c

/-- `EContext::swapOut`. -/
def swapOut (s : State T F) (t : T) (f : F) (c : EContext) (o : Word) : State T F :=
  (((s.setContext f (some { c with errno_ := s.errno t })).setThreadLocal t (some o)).save
    t l.swapOut c.env).leave t f o

end State

inductive Act (T F : Type)
  | compute (t : T)
  | create (f : F) (start : Cpu) (errno : ℤ)
  | destroy (f : F)
  | swapIn (t : T) (f : F) (o : Word)
  | swapOut (t : T) (o : Word)
  | land (t : T)
  | cleanOrignContext (t : T)

variable [DecidableEq T] [DecidableEq F]

open State in
/-- Code changes its registers and any memory but the buffers. `swapIn` is called for a fiber that
no thread is switching. -/
inductive Step (l : Labels) (s : State T F) : Act T F → State T F → Prop
  | compute {t c m e} : s.place t = .own ∨ (∃ f, s.place t = .fiber f) → s.KeepsBuffers m →
      Step l s (.compute t) { (s.setCpu t c).setErrno t e with mem := m }
  -- the object is aligned to 16 bytes, and `env` follows the pointer to its virtual functions;
  -- `errno_` is not initialised
  | create {f a d e} : s.context f = none → s.Fresh a → a.toNat % 16 = 8 →
      Step l s (.create f d e) (s.setContext f (some ⟨a, some d, e⟩))
  | destroy {f} : s.Free f → Step l s (.destroy f) (s.setContext f none)
  | swapIn {t f c o} : s.place t = .own → s.Free f → s.context f = some c → s.Orign t o →
      Step l s (.swapIn t f o) (s.swapIn l t f c o)
  | swapOut {t f c o} : s.place t = .fiber f → s.context f = some c → s.Orign t o →
      Step l s (.swapOut t o) (s.swapOut l t f c o)
  -- the test of what `SETJMP` gives, after a jump
  | returnIn {t f} : s.place t = .inSwapIn f → ret (s.cpu t) ≠ 0 →
      Step l s (.land t) (s.setPlace t .own)
  | enterAgain {t f c} : s.place t = .inSwapIn f → ret (s.cpu t) = 0 → s.context f = some c →
      Step l s (.land t) (s.enter t f c)
  | returnOut {t f} : s.place t = .inSwapOut f → ret (s.cpu t) ≠ 0 →
      Step l s (.land t) (s.setPlace t (.fiber f))
  | leaveAgain {t f o} : s.place t = .inSwapOut f → ret (s.cpu t) = 0 → s.Orign t o →
      Step l s (.land t) (s.leave t f o)
  | cleanOrignContext {t} : s.place t = .own →
      Step l s (.cleanOrignContext t) (s.setThreadLocal t none)

end EContext

end CxxFiber
