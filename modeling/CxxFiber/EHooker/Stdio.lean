import CxxFiber.EHooker.CommIo
import CxxFiber.Library.Turns

/-! `fread` and `fwrite` on a stream, in a fiber and on a blocking descriptor. -/
namespace CxxFiber.EHooker.Stdio

open CommIo Turns

section Waits

variable {S A R : Type} (ended : S → Bool) (fn : S → R) (add : S → A → S)

/-- One moment of a call: what has come in by then is added, and when the wait is over the stream's
function has its result. -/
def moment (s : S) (a : A) : S ⊕ R :=
  if ended (add s a) then .inr (fn (add s a)) else .inl (add s a)

/-- What has come in before the `n`th moment. -/
def seen (inputs : ℕ → A) (s : S) : ℕ → S
  | 0 => s
  | n + 1 => add (seen inputs s n) (inputs n)

/-- The call has the result at some moment. -/
def Returns (inputs : ℕ → A) (s : S) (r : R) : Prop :=
  ∃ n, after (moment ended fn add) inputs s n = .inr r

end Waits

/-- How a descriptor ends: everything is read, or an error other than `EAGAIN`. -/
inductive End
  | eof
  | fails (code : ℕ)
  deriving DecidableEq, Repr

/-- Why the function of a stream returns. -/
inductive Status
  | done
  | ended (e : End)
  | again
  deriving DecidableEq, Repr

/-- The bytes that have been transferred, with the reason. -/
structure Transfer (β : Type) where
  bytes : List β
  status : Status
  deriving DecidableEq, Repr

/-- What the function returns: the number of whole items, 0 if they are of size 0. -/
def Transfer.items {β : Type} (t : Transfer β) (size : ℕ) : ℕ := t.bytes.length / size

/-- The end of a descriptor. `pollin`: it comes with `EPOLLIN`; the end of a pipe whose last writer
closes is `EPOLLHUP` alone. -/
structure Ending where
  kind : End
  pollin : Bool
  deriving DecidableEq, Repr

/-- What has arrived at a descriptor, and whether this is all. -/
structure Arrived (β : Type) where
  bytes : List β
  ended : Option Ending
  deriving DecidableEq, Repr

/-- After the end nothing arrives. -/
def Arrived.add {β : Type} (s a : Arrived β) : Arrived β :=
  if s.ended.isSome then s else ⟨s.bytes ++ a.bytes, a.ended⟩

/-- `poll_f` finds input, the end or an error. -/
def Arrived.readable {β : Type} (s : Arrived β) : Bool := !s.bytes.isEmpty || s.ended.isSome

/-- A reader that is parked is resumed: `aeApiPoll` makes `EPOLLHUP` and `EPOLLERR` writable, and
that is no event of a slot that waits for input. -/
def Arrived.fired {β : Type} (s : Arrived β) : Bool :=
  !s.bytes.isEmpty || s.ended.any Ending.pollin

/-- A call of `fread` on a stream with bytes in its buffer. -/
structure Fread (β : Type) where
  buffer : List β
  size : ℕ
  nitems : ℕ
  deriving DecidableEq, Repr

/-- The room that has come up behind a descriptor, or the error of its writes. -/
structure Room where
  space : ℕ
  failed : Option ℕ
  deriving DecidableEq, Repr

def Room.add (s a : Room) : Room := if s.failed.isSome then s else ⟨s.space + a.space, a.failed⟩

/-- A call of `fwrite` on a stream with some room in its buffer. -/
structure Fwrite (β : Type) where
  ptr : List β
  size : ℕ
  nitems : ℕ
  room : ℕ
  length_ptr : ptr.length = size * nitems

variable {β : Type}

namespace Fread

def want (c : Fread β) : ℕ := c.size * c.nitems

/-- `fread_f`, that reads the descriptor until there is enough or nothing more. -/
def fread_f (c : Fread β) (s : Arrived β) : Transfer β :=
  let avail := c.buffer ++ s.bytes
  if c.want ≤ avail.length then ⟨avail.take c.want, .done⟩
  else ⟨avail, s.ended.elim .again fun e => .ended e.kind⟩

/-- On a blocking descriptor the reads wait until nothing is missing or nothing more comes. -/
def complete (c : Fread β) (s : Arrived β) : Bool :=
  decide (c.want ≤ (c.buffer ++ s.bytes).length) || s.ended.isSome

def Blocking (c : Fread β) (arrivals : ℕ → Arrived β) : Transfer β → Prop :=
  Returns c.complete c.fread_f Arrived.add arrivals ⟨[], none⟩

/-- The hook: `poll_f` once, if that finds nothing the fiber parks until input fires, then
`fread_f`, whose count is never -1. -/
def Hooked (c : Fread β) (arrivals : ℕ → Arrived β) (t : Transfer β) : Prop :=
  if (arrivals 0).readable then c.fread_f (arrivals 0) = t
  else Returns Arrived.fired c.fread_f Arrived.add (fun n => arrivals (n + 1)) (arrivals 0) t

/-- The same items with the same reason, and no wait for what is in the buffer. -/
structure KeepsBlocking (c : Fread β) (arrivals : ℕ → Arrived β) : Prop where
  same : ∀ t, c.Hooked arrivals t ↔ c.Blocking arrivals t
  at_once : c.want ≤ c.buffer.length → (arrivals 0).readable = true

/-- What arrives first brings all that the buffer lacks, or the end, which resumes the fiber if it
is parked; if the buffer lacks nothing, something is there when the call is made. -/
structure AllAtOnce (c : Fread β) (arrivals : ℕ → Arrived β) : Prop where
  first : ∀ n, (∀ m < n, (arrivals m).readable = false) → (arrivals n).readable = true →
    c.want ≤ c.buffer.length + (arrivals n).bytes.length ∨
      (arrivals n).ended ≠ none ∧ (n = 0 ∨ (arrivals n).fired = true)
  there : c.want ≤ c.buffer.length → (arrivals 0).readable = true

end Fread

namespace Fwrite

/-- `fwrite_f`: into the buffer and through it to the descriptor as far as there is room. -/
def fwrite_f (c : Fwrite β) (s : Room) : Transfer β :=
  if c.ptr.length ≤ c.room + s.space then ⟨c.ptr, .done⟩
  else ⟨c.ptr.take (c.room + s.space), s.failed.elim .again fun e => .ended (.fails e)⟩

def complete (c : Fwrite β) (s : Room) : Bool :=
  decide (c.ptr.length ≤ c.room + s.space) || s.failed.isSome

def Blocking (c : Fwrite β) (rooms : ℕ → Room) : Transfer β → Prop :=
  Returns c.complete c.fwrite_f Room.add rooms ⟨0, none⟩

/-- The hook: `fwrite_f` is tried once, and any count is a success. -/
def Hooked (c : Fwrite β) (rooms : ℕ → Room) : Transfer β → Prop :=
  Returns (fun _ => true) c.fwrite_f Room.add rooms ⟨0, none⟩

def KeepsBlocking (c : Fwrite β) (rooms : ℕ → Room) : Prop :=
  ∀ t, c.Hooked rooms t ↔ c.Blocking rooms t

end Fwrite

section Waits

variable {S A R : Type} {ended : S → Bool} {fn : S → R} {add : S → A → S} {inputs : ℕ → A} {s : S}
  {n : ℕ} {r : R}

theorem after_moment (h : ∀ m < n, ended (seen add inputs s (m + 1)) = false) :
    after (moment ended fn add) inputs s n = .inl (seen add inputs s n) := by
  induction n with
  | zero => rfl
  | succ n ih =>
    have hn := ih fun m hm => h m (Nat.lt_succ_of_lt hm)
    have hover := h n n.lt_succ_self
    rw [after_succ hn, moment]
    exact if_neg (by simpa [seen] using hover)

theorem over_of_after (h : ∃ t, after (moment ended fn add) inputs s n = .inl t) :
    ∀ m < n, ended (seen add inputs s (m + 1)) = false := by
  induction n with
  | zero => exact fun m hm => absurd hm (Nat.not_lt_zero m)
  | succ n ih =>
    obtain ⟨t, ht⟩ := h
    obtain ⟨u, hu, hturn⟩ := after_inl_succ ht
    have hbefore := ih ⟨u, hu⟩
    obtain rfl := Sum.inl.inj ((after_moment hbefore).symm.trans hu)
    intro m hm
    rcases Nat.lt_succ_iff_lt_or_eq.mp hm with hlt | rfl
    · exact hbefore m hlt
    · by_contra hover
      rw [Bool.not_eq_false, seen] at hover
      rw [moment, if_pos hover] at hturn
      cases hturn

/-- The result is that of the first moment at which the wait is over. -/
theorem returns_iff_first : Returns ended fn add inputs s r ↔
    ∃ n, (∀ m < n, ended (seen add inputs s (m + 1)) = false) ∧
      ended (seen add inputs s (n + 1)) = true ∧ fn (seen add inputs s (n + 1)) = r := by
  constructor
  · rintro ⟨n, hn⟩
    obtain ⟨m, t, _, hm, hturn⟩ := after_inr hn
    have hbefore := over_of_after ⟨t, hm⟩
    obtain rfl := Sum.inl.inj ((after_moment hbefore).symm.trans hm)
    rw [moment] at hturn
    split at hturn
    · next hover => exact ⟨m, hbefore, hover, Sum.inr.inj hturn⟩
    · cases hturn
  · rintro ⟨n, hbefore, hover, hr⟩
    refine ⟨n + 1, (after_succ (after_moment hbefore)).trans ?_⟩
    rw [moment, ← hr]
    exact if_pos hover

/-- A wait that is over at once has the result of the first moment. -/
theorem returns_at_once (h : ended (seen add inputs s 1) = true) :
    Returns ended fn add inputs s r ↔ fn (seen add inputs s 1) = r := by
  rw [returns_iff_first]
  constructor
  · rintro ⟨n, hbefore, _, hr⟩
    cases n with
    | zero => exact hr
    | succ n =>
      have hfirst := hbefore 0 n.succ_pos
      rw [h] at hfirst
      cases hfirst
  · exact fun hr => ⟨0, fun m hm => absurd hm (Nat.not_lt_zero m), h, hr⟩

theorem seen_succ_eq :
    seen add inputs s (n + 1) = seen add (fun m => inputs (m + 1)) (add s (inputs 0)) n := by
  induction n with
  | zero => rfl
  | succ n ih => rw [seen, ih, seen]

/-- Where two conditions agree as long as none has held, they hold first at the same moment. -/
theorem first_congr {p q : ℕ → Bool} (h : ∀ m, (∀ k < m, q k = false) → p m = q m) :
    (∀ m < n, p m = false) ∧ p n = true ↔ (∀ m < n, q m = false) ∧ q n = true := by
  have hsame : ∀ n, (∀ m < n, p m = false) ↔ ∀ m < n, q m = false := by
    intro n
    induction n with
    | zero => simp
    | succ n ih =>
      simp only [Nat.forall_lt_succ_right]
      refine (and_congr_left' ih).trans (and_congr_right fun hq => ?_)
      rw [h n hq]
  exact (and_congr_left' (hsame n)).trans (and_congr_right fun hq => by rw [h n hq])

end Waits

variable {s a : Arrived β} {arrivals : ℕ → Arrived β} {n : ℕ}

theorem add_nothing : Arrived.add ⟨[], none⟩ a = a := rfl

theorem readable_eq_false : s.readable = false ↔ s = ⟨[], none⟩ := by
  obtain ⟨bytes, ended⟩ := s
  cases bytes <;> cases ended <;> simp [Arrived.readable]

/-- Until something arrives nothing has. -/
theorem seen_nothing (h : ∀ m < n, (arrivals m).readable = false) :
    seen Arrived.add arrivals ⟨[], none⟩ n = ⟨[], none⟩ := by
  induction n with
  | zero => rfl
  | succ n ih =>
    rw [seen, ih fun m hm => h m (Nat.lt_succ_of_lt hm), add_nothing]
    exact readable_eq_false.mp (h n n.lt_succ_self)

theorem seen_first (h : ∀ m < n, (arrivals m).readable = false) :
    seen Arrived.add arrivals ⟨[], none⟩ (n + 1) = arrivals n := by
  rw [seen, seen_nothing h, add_nothing]

theorem readable_of_fired (h : s.fired = true) : s.readable = true := by
  by_contra hr
  rw [Bool.not_eq_true] at hr
  rw [readable_eq_false.mp hr] at h
  cases h

theorem fired_of_bytes (h : s.bytes ≠ []) : s.fired = true := by
  simp [Arrived.fired, h]

/-- After the end nothing more is seen. -/
theorem seen_ended {k : ℕ} (hk : n ≤ k)
    (h : (seen Arrived.add arrivals ⟨[], none⟩ n).ended ≠ none) :
    seen Arrived.add arrivals ⟨[], none⟩ k = seen Arrived.add arrivals ⟨[], none⟩ n := by
  induction k, hk using Nat.le_induction with
  | base => rfl
  | succ k _ ih =>
    rw [seen, ih, Arrived.add, if_pos (Option.isSome_iff_ne_none.mpr h)]

namespace Fread

variable {c : Fread β}

theorem complete_iff : c.complete s = true ↔
    c.want ≤ c.buffer.length + s.bytes.length ∨ s.ended ≠ none := by
  simp [complete, Option.isSome_iff_ne_none]

theorem status_complete (h : c.complete s = true) : (c.fread_f s).status ≠ .again := by
  unfold fread_f
  dsimp only
  split
  · exact fun he => nomatch he
  · next hlt =>
    cases he : s.ended with
    | none =>
      simp only [complete, he, Option.isSome_none, Bool.or_false, decide_eq_true_eq] at h
      exact absurd h hlt
    | some e => exact fun he => nomatch he

theorem status_incomplete (h : c.complete s = false) : (c.fread_f s).status = .again := by
  simp only [complete, Bool.or_eq_false_iff, decide_eq_false_iff_not,
    Option.isSome_eq_false_iff, Option.isNone_iff_eq_none] at h
  rw [fread_f, if_neg h.1, h.2]
  rfl

/-- With something missing in the buffer a call is complete only when something has arrived. -/
theorem readable_of_complete (h : c.complete s = true) (hb : ¬ c.want ≤ c.buffer.length) :
    s.readable = true := by
  by_contra hr
  rw [Bool.not_eq_true] at hr
  obtain rfl := readable_eq_false.mp hr
  simp [complete, hb] at h

theorem complete_of_buffer (hb : c.want ≤ c.buffer.length) : c.complete s = true :=
  complete_iff.mpr (.inl (Nat.le_add_right_of_le hb))

/-- `poll_f` at the moment of the call, the poll of the waiter afterwards. -/
def wakes (arrivals : ℕ → Arrived β) (n : ℕ) : Bool :=
  if n = 0 then (seen Arrived.add arrivals ⟨[], none⟩ (n + 1)).readable
  else (seen Arrived.add arrivals ⟨[], none⟩ (n + 1)).fired

theorem hooked_iff {t : Transfer β} : c.Hooked arrivals t ↔
    ∃ n, ((∀ m < n, wakes arrivals m = false) ∧ wakes arrivals n = true) ∧
      c.fread_f (seen Arrived.add arrivals ⟨[], none⟩ (n + 1)) = t := by
  have hzero : wakes arrivals 0 = (arrivals 0).readable := rfl
  unfold Hooked
  split
  · next hread =>
    constructor
    · exact fun h => ⟨0, ⟨fun m hm => absurd hm (Nat.not_lt_zero m), hread⟩, h⟩
    · rintro ⟨n, ⟨hbefore, _⟩, h⟩
      cases n with
      | zero => exact h
      | succ n =>
        have hfirst := hbefore 0 n.succ_pos
        rw [hzero, hread] at hfirst
        cases hfirst
  · next hread =>
    rw [Bool.not_eq_true] at hread
    have hlater : ∀ n, wakes arrivals (n + 1) =
        (seen Arrived.add (fun m => arrivals (m + 1)) (arrivals 0) (n + 1)).fired := by
      intro n
      rw [wakes, if_neg n.succ_ne_zero, seen_succ_eq, add_nothing]
    rw [returns_iff_first]
    constructor
    · rintro ⟨n, hbefore, hn, h⟩
      refine ⟨n + 1, ⟨fun m hm => ?_, (hlater n).trans hn⟩, by rwa [seen_succ_eq, add_nothing]⟩
      cases m with
      | zero => exact hread
      | succ m => exact (hlater m).trans (hbefore m (Nat.lt_of_succ_lt_succ hm))
    · rintro ⟨n, ⟨hbefore, hn⟩, h⟩
      cases n with
      | zero =>
        rw [hzero, hread] at hn
        cases hn
      | succ n =>
        rw [seen_succ_eq, add_nothing] at h
        exact ⟨n, fun m hm => (hlater m).symm.trans (hbefore (m + 1) (Nat.succ_lt_succ hm)),
          (hlater n).symm.trans hn, h⟩

theorem readable_of_wakes (h : wakes arrivals n = true) :
    (seen Arrived.add arrivals ⟨[], none⟩ (n + 1)).readable = true := by
  unfold wakes at h
  split at h
  · exact h
  · exact readable_of_fired h

/-- What arrives first wakes the fiber and completes the call. -/
theorem first_arrival (h : c.AllAtOnce arrivals) (hb : ¬ c.want ≤ c.buffer.length)
    (harr : ∀ m < n, (arrivals m).readable = false) :
    wakes arrivals n = (arrivals n).readable ∧
      c.complete (seen Arrived.add arrivals ⟨[], none⟩ (n + 1)) = (arrivals n).readable := by
  have hseen := seen_first harr
  cases hread : (arrivals n).readable with
  | false =>
    constructor
    · by_contra hw
      have hr := readable_of_wakes (Bool.eq_true_of_not_eq_false hw)
      rw [hseen, hread] at hr
      cases hr
    · by_contra hc
      have hr := readable_of_complete (Bool.eq_true_of_not_eq_false hc) hb
      rw [hseen, hread] at hr
      cases hr
  | true =>
    rw [wakes, hseen, complete_iff]
    rcases h.first n harr hread with hle | ⟨hend, hwake⟩
    · have hbytes : (arrivals n).bytes ≠ [] := by
        intro hnil
        rw [hnil] at hle
        exact hb hle
      refine ⟨?_, .inl hle⟩
      split
      · exact hread
      · exact fired_of_bytes hbytes
    · refine ⟨?_, .inr hend⟩
      split
      · exact hread
      · next hn => exact hwake.resolve_left hn

/-- The two waits end at the same moment. -/
theorem moments_agree (h : c.AllAtOnce arrivals) (n : ℕ) :
    (∀ m < n, wakes arrivals m = false) ∧ wakes arrivals n = true ↔
    (∀ m < n, c.complete (seen Arrived.add arrivals ⟨[], none⟩ (m + 1)) = false) ∧
      c.complete (seen Arrived.add arrivals ⟨[], none⟩ (n + 1)) = true := by
  by_cases hb : c.want ≤ c.buffer.length
  · have hall : ∀ s : Arrived β, c.complete s = true := fun s => complete_of_buffer hb
    have hfirst : wakes arrivals 0 = true := h.there hb
    refine first_congr fun m hm => ?_
    cases m with
    | zero => rw [hfirst, hall]
    | succ m =>
      have hzero := hm 0 m.succ_pos
      rw [hall] at hzero
      cases hzero
  · exact (first_congr fun m hm => (first_arrival h hb hm).1).trans
      (first_congr fun m hm => (first_arrival h hb hm).2).symm

/-- A fiber that has parked sleeps through an end without `EPOLLIN`. -/
theorem not_hooked_of_end (harr : ∀ m < n, (arrivals m).readable = false) (hn : n ≠ 0)
    (hend : (arrivals n).ended ≠ none) (hfired : (arrivals n).fired = false) (t : Transfer β) :
    ¬ c.Hooked arrivals t := by
  have hseen := seen_first harr
  intro h
  obtain ⟨k, ⟨_, hk⟩, _⟩ := hooked_iff.mp h
  rcases Nat.lt_or_ge k n with hlt | hge
  · have hr := readable_of_wakes hk
    rw [seen_first fun m hm => harr m (hm.trans hlt), harr k hlt] at hr
    cases hr
  · rw [wakes, if_neg (by omega), seen_ended (Nat.succ_le_succ hge) (by rwa [hseen]), hseen,
      hfired] at hk
    cases hk

theorem allAtOnce_of_keepsBlocking (h : c.KeepsBlocking arrivals) : c.AllAtOnce arrivals := by
  refine ⟨fun n harr hn => ?_, h.at_once⟩
  have hseen := seen_first harr
  have hnone : ∀ m < n, seen Arrived.add arrivals ⟨[], none⟩ (m + 1) = ⟨[], none⟩ :=
    fun m hm => seen_nothing fun k hk => harr k (hk.trans_le hm)
  by_cases hwake : n = 0 ∨ (arrivals n).fired = true
  · -- the hook returns what has arrived first, and so has the blocking call
    have hhooked : c.Hooked arrivals (c.fread_f (arrivals n)) := by
      refine hooked_iff.mpr ⟨n, ⟨fun m hm => ?_, ?_⟩, by rw [hseen]⟩
      · unfold wakes
        rw [hnone m hm]
        split <;> rfl
      · rw [wakes, hseen]
        split
        · exact hn
        · next hne => exact hwake.resolve_left hne
    obtain ⟨m, _, hcomplete, heq⟩ := returns_iff_first.mp ((h.same _).mp hhooked)
    have hstatus := status_complete hcomplete
    rw [heq] at hstatus
    by_cases hc : c.complete (arrivals n) = true
    · exact (complete_iff.mp hc).imp_right fun hend => ⟨hend, hwake⟩
    · exact absurd (status_incomplete (Bool.eq_false_of_not_eq_true hc)) hstatus
  · rw [not_or, Bool.not_eq_true] at hwake
    have hbytes : (arrivals n).bytes = [] := by
      by_contra hne
      rw [fired_of_bytes hne] at hwake
      exact Bool.noConfusion hwake.2
    have hend : (arrivals n).ended ≠ none := by
      intro hnone'
      simp [Arrived.readable, hbytes, hnone'] at hn
    by_contra hnot
    rw [not_or] at hnot
    have hblocking : c.Blocking arrivals (c.fread_f (arrivals n)) := by
      refine returns_iff_first.mpr ⟨n, fun m hm => ?_, ?_, by rw [hseen]⟩
      · rw [hnone m hm]
        have hlt : ¬ c.want ≤ c.buffer.length := fun hle => hnot.1 (by omega)
        simp [complete, hlt]
      · rw [hseen]
        exact complete_iff.mpr (.inr hend)
    exact not_hooked_of_end harr hwake.1 hend hwake.2 _ ((h.same _).mpr hblocking)

theorem keepsBlocking_of_allAtOnce (h : c.AllAtOnce arrivals) : c.KeepsBlocking arrivals := by
  refine ⟨fun t => ?_, h.there⟩
  rw [hooked_iff, Blocking, returns_iff_first]
  refine exists_congr fun n => ?_
  rw [moments_agree h n, and_assoc]

end Fread

namespace Fwrite

variable {c : Fwrite β} {rooms : ℕ → Room} {s : Room}

theorem status_complete (h : c.complete s = true) : (c.fwrite_f s).status ≠ .again := by
  unfold fwrite_f
  split
  · exact fun he => nomatch he
  · next hlt =>
    cases he : s.failed with
    | none =>
      simp only [complete, he, Option.isSome_none, Bool.or_false, decide_eq_true_eq] at h
      exact absurd h hlt
    | some e => exact fun he => nomatch he

theorem status_incomplete (h : c.complete s = false) : (c.fwrite_f s).status = .again := by
  simp only [complete, Bool.or_eq_false_iff, decide_eq_false_iff_not,
    Option.isSome_eq_false_iff, Option.isNone_iff_eq_none] at h
  rw [fwrite_f, if_neg h.1, h.2]
  rfl

/-- The room behind the descriptor at the time of the call. -/
theorem seen_one : seen Room.add rooms ⟨0, none⟩ 1 = rooms 0 := by
  simp [seen, Room.add]

theorem complete_iff : c.complete s = true ↔
    c.ptr.length ≤ c.room + s.space ∨ s.failed ≠ none := by
  simp [complete, Option.isSome_iff_ne_none]

theorem keepsBlocking_iff : c.KeepsBlocking rooms ↔ c.complete (rooms 0) = true := by
  have hhooked : ∀ t, c.Hooked rooms t ↔ c.fwrite_f (rooms 0) = t := by
    intro t
    rw [Hooked, returns_at_once rfl, seen_one]
  constructor
  · intro h
    by_contra hc
    rw [Bool.not_eq_true] at hc
    obtain ⟨n, _, hcomplete, heq⟩ := returns_iff_first.mp ((h _).mp ((hhooked _).mpr rfl))
    have hstatus := status_complete hcomplete
    rw [heq] at hstatus
    exact hstatus (status_incomplete hc)
  · intro hc t
    have hcomplete : c.complete (seen Room.add rooms ⟨0, none⟩ 1) = true := by rwa [seen_one]
    rw [hhooked, Blocking, returns_at_once hcomplete, seen_one]

end Fwrite

/-- The ways of the hooks through `comm_io_on_fiber`, which takes a count for a success. -/
theorem exec_readable {io : CommIo} (h : io.event.pollout = false) (parks : Bool)
    (t : Transfer β) (size : ℕ) :
    io.exec ((if parks then [.park, .resumed true] else [.polled true]) ++
      [.fn (.value (t.items size))]) = some (.returned (.value (t.items size))) := by
  cases parks <;> simp [exec, enter, h, Pc.next, Result.again]

theorem exec_writable {io : CommIo} (h : io.event.pollout = true) (t : Transfer β) (size : ℕ) :
    io.exec [.fn (.value (t.items size))] = some (.returned (.value (t.items size))) := by
  simp [exec, enter, h, Pc.next]

/-- The hooks do what blocking calls do exactly when the first input brings all that is missing or
an end that resumes the fiber (and something is there at once if nothing is missing), or there is
room for all at once. -/
theorem stdio_keepsBlocking_iff (β : Type) :
    (∀ (c : Fread β) (arrivals : ℕ → Arrived β),
      c.KeepsBlocking arrivals ↔ c.AllAtOnce arrivals) ∧
    ∀ (c : Fwrite β) (rooms : ℕ → Room), c.KeepsBlocking rooms ↔
      c.ptr.length ≤ c.room + (rooms 0).space ∨ (rooms 0).failed ≠ none :=
  ⟨fun _ _ => ⟨Fread.allAtOnce_of_keepsBlocking, Fread.keepsBlocking_of_allAtOnce⟩,
    fun _ _ => Fwrite.keepsBlocking_iff.trans Fwrite.complete_iff⟩

/-- Two bytes that arrive one by one are a short count; two that are in the buffer are waited for;
a pipe that is closed while the fiber is parked does not end the wait; and a write without room is a
short count. -/
theorem short_counts :
    (¬ (⟨[], 1, 2⟩ : Fread ℕ).KeepsBlocking fun n => ⟨[n], none⟩) ∧
      (∀ t, ¬ (⟨[1, 2], 1, 2⟩ : Fread ℕ).Hooked (fun _ => ⟨[], none⟩) t) ∧
      ((⟨[], 1, 2⟩ : Fread ℕ).Blocking (fun n => ⟨[], if n = 0 then none else some ⟨.eof, false⟩⟩)
        ⟨[], .ended .eof⟩ ∧
        ∀ t, ¬ (⟨[], 1, 2⟩ : Fread ℕ).Hooked
          (fun n => ⟨[], if n = 0 then none else some ⟨.eof, false⟩⟩) t) ∧
      ¬ (⟨[1], 1, 1, 0, rfl⟩ : Fwrite ℕ).KeepsBlocking fun n => ⟨n, none⟩ := by
  refine ⟨fun h => ?_, fun t ht => ?_, ⟨?_, ?_⟩, fun h => ?_⟩
  · have hall := Fread.allAtOnce_of_keepsBlocking h
    rcases hall.first 0 (fun m hm => absurd hm (Nat.not_lt_zero m)) rfl with hle | hend
    · exact absurd hle (by decide)
    · exact hend.1 rfl
  · obtain ⟨n, ⟨_, hwake⟩, _⟩ := Fread.hooked_iff.mp ht
    have hread := Fread.readable_of_wakes hwake
    rw [seen_nothing fun m _ => rfl] at hread
    cases hread
  · exact ⟨2, rfl⟩
  · exact Fread.not_hooked_of_end (n := 1) (by decide) (by decide) (by decide) rfl
  · exact absurd (Fwrite.keepsBlocking_iff.mp h) (by decide)

end CxxFiber.EHooker.Stdio
