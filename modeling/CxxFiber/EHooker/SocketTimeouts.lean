import CxxFiber.EFileContext.Manager
import CxxFiber.EHooker.System

/-! `SO_RCVTIMEO` and `SO_SNDTIMEO` on their way to `poll`. -/
namespace CxxFiber.EHooker.SocketTimeouts

open Descriptors (Table)
open Manager MachineInt

inductive Optname
  | rcvtimeo
  | sndtimeo
  deriving DecidableEq, Repr

/-- What `setsockopt` does to the context before it calls the kernel's function. It is `hooked` in a
fiber, on a stream descriptor and outside of signal handlers. -/
def setsockopt (hooked : Bool) (optname : Optname) (optval : Timeval) (c : Context) : Context :=
  if hooked then
    match optname with
    | .rcvtimeo => { c with recvTimeout := optval.toMillis }
    | .sndtimeo => { c with sendTimeout := optval.toMillis }
  else c

/-- The timeout that `comm_io_on_fiber` passes to `poll`. -/
def commIoMillis (c : Context) (event : PollEvents) : ℤ :=
  CommIo.milliseconds ⟨c.fd, event, c.recvTimeout, c.sendTimeout⟩

/-- The one of `sendfile`. -/
def sendfileMillis (c : Context) : ℤ := if c.sendTimeout = 0 then -1 else c.sendTimeout

/-- The timeouts that the user has asked for last. -/
structure Asked where
  rcvtimeo : Timeval
  sndtimeo : Timeval
  deriving DecidableEq, Repr

def Asked.get (t : Asked) : Optname → Timeval
  | .rcvtimeo => t.rcvtimeo
  | .sndtimeo => t.sndtimeo

def Asked.set (t : Asked) : Optname → Timeval → Asked
  | .rcvtimeo, tv => { t with rcvtimeo := tv }
  | .sndtimeo, tv => { t with sndtimeo := tv }

/-- Only a wait for input alone has the timeout for receiving. -/
def optnameOf (event : PollEvents) : Optname :=
  if event = ⟨true, false⟩ then .rcvtimeo else .sndtimeo

/-- A timeval that the kernel takes. -/
def InRange (tv : Timeval) : Prop := 0 ≤ tv.tv_sec ∧ 0 ≤ tv.tv_usec ∧ tv.tv_usec < 1000000

/-- Infinite for zero, otherwise positive and within one millisecond, or the largest `int`. -/
structure Means (tv : Timeval) (timeout : ℤ) : Prop where
  infinite : timeout < 0 ↔ tv = ⟨0, 0⟩
  finite : tv ≠ ⟨0, 0⟩ → 0 < timeout ∧ (timeout = 2 ^ 31 - 1 ∨
    timeout * 1000 ≤ tv.tv_sec * 1000000 + tv.tv_usec + 1000 ∧
      tv.tv_sec * 1000000 + tv.tv_usec ≤ timeout * 1000 + 1000)

/-- The milliseconds, without the rest. -/
def wholeMillis (tv : Timeval) : ℤ := tv.tv_sec * 1000 + tv.tv_usec / 1000

/-- Zero, or from one millisecond to the largest `int`, or more with just these low bits. -/
def Kept (tv : Timeval) : Prop :=
  tv = ⟨0, 0⟩ ∨ 1 ≤ wholeMillis tv ∧ wholeMillis tv < 2 ^ 31 ∨
    wholeMillis tv % 2 ^ 32 = 2 ^ 31 - 1

variable {tv : Timeval} {c : Context} {t : Asked} {calls : List (Optname × Timeval)}

theorem toMillis_eq (h : InRange tv) : tv.toMillis =
    if wholeMillis tv % 2 ^ 32 < 2 ^ 31 then wholeMillis tv % 2 ^ 32
    else wholeMillis tv % 2 ^ 32 - 2 ^ 32 := by
  rw [Timeval.toMillis, Int.tdiv_eq_ediv_of_nonneg h.2.1]
  exact narrow_eq (by decide)

theorem eq_zero_iff (h : InRange tv) :
    tv = ⟨0, 0⟩ ↔ tv.tv_sec * 1000000 + tv.tv_usec = 0 := by
  obtain ⟨h0, h1, -⟩ := h
  constructor
  · rintro rfl
    rfl
  · intro hz
    cases tv with
    | mk sec usec =>
      simp only at h0 h1 hz
      obtain rfl : sec = 0 := by omega
      obtain rfl : usec = 0 := by omega
      rfl

theorem means_iff (h : InRange tv) :
    Means tv (if tv.toMillis = 0 then -1 else tv.toMillis) ↔ Kept tv := by
  have hval := toMillis_eq h
  have hzero := eq_zero_iff h
  obtain ⟨h0, h1, h2⟩ := h
  constructor
  · rintro ⟨hinf, hfin⟩
    by_cases hz : tv = ⟨0, 0⟩
    · exact .inl hz
    obtain ⟨hpos, hclose⟩ := hfin hz
    refine .inr ?_
    simp only [wholeMillis] at *
    split at hpos
    · omega
    · next hne =>
      rw [if_neg hne] at hclose
      omega
  · rintro (hz | hfit | hlow)
    · subst hz
      exact ⟨by decide, fun hne => absurd rfl hne⟩
    · have hm : tv.toMillis = wholeMillis tv := by omega
      have hne : tv.toMillis ≠ 0 := by omega
      rw [if_neg hne, hm, wholeMillis] at *
      exact ⟨by rw [hzero]; omega, fun _ => by omega⟩
    · have hm : tv.toMillis = 2 ^ 31 - 1 := by omega
      have hne : tv.toMillis ≠ 0 := by omega
      rw [if_neg hne, hm]
      refine ⟨?_, fun _ => ⟨by decide, .inl rfl⟩⟩
      rw [hzero]
      simp only [wholeMillis] at hlow
      omega

/-- A context holds what was asked for, in milliseconds. -/
def Holds (c : Context) (t : Asked) : Prop :=
  c.recvTimeout = t.rcvtimeo.toMillis ∧ c.sendTimeout = t.sndtimeo.toMillis

theorem holds_setsockopt (h : Holds c t) (o : Optname) (tv : Timeval) :
    Holds (setsockopt true o tv c) (t.set o tv) := by
  cases o with
  | rcvtimeo => exact ⟨rfl, h.2⟩
  | sndtimeo => exact ⟨h.1, rfl⟩

theorem holds_calls (h : Holds c t) (calls : List (Optname × Timeval)) :
    Holds (calls.foldl (fun c x => setsockopt true x.1 x.2 c) c)
      (calls.foldl (fun t x => t.set x.1 x.2) t) := by
  induction calls generalizing c t with
  | nil => exact h
  | cons x calls ih => exact ih (holds_setsockopt h x.1 x.2)

theorem get_set_self {o : Optname} : (t.set o tv).get o = tv := by cases o <;> rfl

theorem get_set_of_ne {o o' : Optname} (h : o' ≠ o) : (t.set o tv).get o' = t.get o' := by
  cases o <;> cases o' <;> first | rfl | exact absurd rfl h

theorem inRange_calls (ht : ∀ o, InRange (t.get o)) (hc : ∀ x ∈ calls, InRange x.2) (o : Optname) :
    InRange ((calls.foldl (fun t x => t.set x.1 x.2) t).get o) := by
  induction calls generalizing t with
  | nil => exact ht o
  | cons x calls ih =>
    refine ih (fun o' => ?_) fun y hy => hc y (List.mem_cons_of_mem x hy)
    have hx := hc x List.mem_cons_self
    by_cases ho : o' = x.1
    · rw [ho, get_set_self]
      exact hx
    · rw [get_set_of_ne ho]
      exact ht o'

theorem commIoMillis_eq (h : Holds c t) (event : PollEvents) : commIoMillis c event =
    if (t.get (optnameOf event)).toMillis = 0 then -1
    else (t.get (optnameOf event)).toMillis := by
  obtain ⟨hr, hs⟩ := h
  unfold commIoMillis CommIo.milliseconds optnameOf
  by_cases he : event = ⟨true, false⟩
  · simp only [he, if_true, Asked.get, hr]
  · simp only [he, if_false, Asked.get, hs]

section Constructor

variable {X : Type} [DecidableEq X] {k k' : Table X Flags} {number fd : ℕ} {a : Answers}
  {r s : Timeval}

theorem construct_holds (ha : a.isSocketFile = true) (hr : a.rcvtimeo = some r)
    (hs : a.sndtimeo = some s) (hc : construct k number fd a = (some c, k')) :
    Holds c ⟨r, s⟩ := by
  unfold construct at hc
  cases hflags : k.read fd with
  | none =>
    rw [hflags] at hc
    cases hc
  | some flags =>
    rw [hflags, ha, hr, hs] at hc
    cases hc
    exact ⟨rfl, rfl⟩

/-- After any calls of `setsockopt` on the socket of a new context, the timeouts of the waits mean
what was asked for exactly when that is kept on the way. -/
theorem timeouts_mean_iff (ha : a.isSocketFile = true) (hr : a.rcvtimeo = some r)
    (hs : a.sndtimeo = some s) (hc : construct k number fd a = (some c, k'))
    (hrr : InRange r) (hsr : InRange s) (calls : List (Optname × Timeval))
    (hcalls : ∀ x ∈ calls, InRange x.2) :
    let c' := calls.foldl (fun c x => setsockopt true x.1 x.2 c) c
    let asked := calls.foldl (fun t x => t.set x.1 x.2) (⟨r, s⟩ : Asked)
    (∀ event, Means (asked.get (optnameOf event)) (commIoMillis c' event) ↔
        Kept (asked.get (optnameOf event))) ∧
      (Means asked.sndtimeo (sendfileMillis c') ↔ Kept asked.sndtimeo) := by
  intro c' asked
  have hholds : Holds c' asked := holds_calls (construct_holds ha hr hs hc) calls
  have hrange : ∀ o, InRange (asked.get o) := by
    refine inRange_calls (fun o => ?_) hcalls
    cases o with
    | rcvtimeo => exact hrr
    | sndtimeo => exact hsr
  refine ⟨fun event => ?_, ?_⟩
  · rw [commIoMillis_eq hholds]
    exact means_iff (hrange _)
  · rw [sendfileMillis, hholds.2]
    exact means_iff (hrange .sndtimeo)

end Constructor

/-- Half a second for sending, found by the constructor, and five seconds for receiving, set
later. -/
theorem seconds_mean_iff :
    (∀ event, Means ((⟨⟨5, 0⟩, ⟨0, 500000⟩⟩ : Asked).get (optnameOf event))
        (commIoMillis ⟨⟨3, true⟩, false, 5000, 500, 0⟩ event) ↔
      Kept ((⟨⟨5, 0⟩, ⟨0, 500000⟩⟩ : Asked).get (optnameOf event))) ∧
      (Means ⟨0, 500000⟩ (sendfileMillis ⟨⟨3, true⟩, false, 5000, 500, 0⟩) ↔
        Kept ⟨0, 500000⟩) := by
  have hc : construct (⟨fun _ => some (), fun _ => ⟨true, 0⟩⟩ : Table Unit Flags) 0 3
      ⟨true, true, some ⟨0, 0⟩, some ⟨0, 500000⟩⟩ =
        (some ⟨⟨3, true⟩, false, 0, 500, 0⟩, _) := rfl
  exact timeouts_mean_iff rfl rfl rfl hc ⟨by decide, by decide, by decide⟩
    ⟨by decide, by decide, by decide⟩ [(.rcvtimeo, ⟨5, 0⟩)] fun x hx => by
      rw [List.mem_singleton.mp hx]
      exact ⟨by decide, by decide, by decide⟩

/-- 500 microseconds wait for ever, and so do 2147484 seconds. -/
theorem timeouts_infinite :
    sendfileMillis (setsockopt true .sndtimeo ⟨0, 500⟩ ⟨⟨3, false⟩, true, 0, 0, 0⟩) = -1 ∧
      commIoMillis (setsockopt true .rcvtimeo ⟨2147484, 0⟩ ⟨⟨3, false⟩, true, 0, 0, 0⟩)
        ⟨true, false⟩ = -2147483296 ∧
      ¬ Means ⟨0, 500⟩ (-1) ∧ ¬ Means ⟨2147484, 0⟩ (-2147483296) := by
  refine ⟨by decide, by decide, fun h => ?_, fun h => ?_⟩
  · exact absurd (h.infinite.mp (by decide)) (by decide)
  · exact absurd (h.infinite.mp (by decide)) (by decide)

end CxxFiber.EHooker.SocketTimeouts
