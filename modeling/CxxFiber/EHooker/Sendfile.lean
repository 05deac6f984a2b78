import CxxFiber.EHooker.CommIo
import CxxFiber.Library.Turns

/-! The `sendfile` hook of Linux: its loop of `poll` and `sendfile_f`. -/
namespace CxxFiber.EHooker.Sendfile

open CommIo Turns

/-- `in_fd` with its own position, and what `out_fd` has been given. -/
structure Files (β : Type) where
  bytes : List β
  position : ℕ
  sent : List β
  deriving DecidableEq, Repr

/-- How `out_fd` takes a call of `sendfile_f`: it has room, it has none, or the call fails. -/
inductive Socket
  | accepts (room : ℕ)
  | again
  | fails (errno : Errno)
  deriving DecidableEq, Repr

/-- What is left at `*offset` by a call, with its result. -/
structure Outcome (β : Type) where
  ret : Result
  offset : Option ℕ
  files : Files β
  deriving DecidableEq, Repr

/-- The call of the kernel. Without an offset the position is read and moved. -/
def sendfile_f {β : Type} (files : Files β) (offset : Option ℕ) (count : ℕ) : Socket → Outcome β
  | .accepts room =>
    let start := offset.getD files.position
    let n := min room (min count (files.bytes.length - start))
    let sent := files.sent ++ (files.bytes.drop start).take n
    match offset with
    | some _ => ⟨.value n, some (start + n), { files with sent }⟩
    | none => ⟨.value n, none, { files with position := start + n, sent }⟩
  | .again => ⟨if count = 0 then .value 0 else .error .eagain, offset, files⟩
  | .fails e => ⟨.error e, offset, files⟩

/-- What one turn meets: `poll` returns 1 and `sendfile_f` is called, or 0, or -1. -/
inductive Answer
  | polled (socket : Socket)
  | timeout
  | pollError (errno : Errno)
  deriving DecidableEq, Repr

structure Call (β : Type) where
  files : Files β
  offset : Option ℕ
  count : ℕ
  deriving DecidableEq, Repr

/-- The variables of the loop. -/
structure Vars (β : Type) where
  offset_ : ℕ
  count : ℕ
  files : Files β
  deriving DecidableEq, Repr

/-- What is taken off `count`. -/
def bytesSent : Result → ℕ
  | .value n => n
  | .error _ => 0

/-- Both tests in front of the jump back. -/
def retries (ret : Result) (count : ℕ) : Bool :=
  (match ret with
    | .value _ => decide (0 < count)
    | .error _ => ret.again) && decide (0 < count)

variable {β : Type}

/-- Behind the loop. -/
def Vars.leave (v : Vars β) (offset : Option ℕ) (ret : Result) : Outcome β :=
  ⟨ret, offset.map fun _ => v.offset_, v.files⟩

/-- One turn, from `RETRY` on. -/
def turn (offset : Option ℕ) (v : Vars β) : Answer → Vars β ⊕ Outcome β
  | .polled socket =>
    let o := sendfile_f v.files (some v.offset_) v.count socket
    let v : Vars β := ⟨o.offset.getD v.offset_, v.count - bytesSent o.ret, o.files⟩
    if retries o.ret v.count then .inl v else .inr (v.leave offset o.ret)
  | .timeout => .inr (v.leave offset (.error .etimedout))
  | .pollError e => .inr (v.leave offset (.error e))

namespace Call

/-- The hook outside of fibers, on other files and in user-non-blocking mode. -/
def direct (c : Call β) (socket : Socket) : Outcome β := sendfile_f c.files c.offset c.count socket

/-- In front of the loop: a null offset becomes 0. -/
def enter (c : Call β) : Vars β := ⟨c.offset.getD 0, c.count, c.files⟩

/-- The hook on a descriptor in user-blocking mode, after `n` turns. -/
def exec (c : Call β) (answers : ℕ → Answer) (n : ℕ) : Vars β ⊕ Outcome β :=
  after (turn c.offset) answers c.enter n

/-- Where the caller asks to read from. -/
def start (c : Call β) : ℕ := c.offset.getD c.files.position

/-- What a blocking call leaves when all bytes are there. -/
structure Whole (c : Call β) (o : Outcome β) : Prop where
  returns : o.ret = .value c.count
  sent : o.files.sent = c.files.sent ++ (c.files.bytes.drop c.start).take c.count
  offset : ∀ s, c.offset = some s →
    o.offset = some (s + c.count) ∧ o.files.position = c.files.position
  position : c.offset = none →
    o.offset = none ∧ o.files.position = c.files.position + c.count

/-- What the calls have sent, from the first byte they read on. -/
structure Progress (c : Call β) (v : Vars β) : Prop where
  from_first : c.enter.offset_ ≤ v.offset_
  left : v.offset_ + v.count = c.enter.offset_ + c.count
  bytes : v.files.bytes = c.files.bytes
  position : v.files.position = c.files.position
  sent : v.files.sent =
    c.files.sent ++ (c.files.bytes.drop c.enter.offset_).take (v.offset_ - c.enter.offset_)

end Call

/-- The socket is writable and takes at least one byte. -/
def Answer.Takes (a : Answer) : Prop := ∃ room, 0 < room ∧ a = .polled (.accepts room)

/-- Every `poll` returns 1 in the end, and `sendfile_f` then finds room, again and again. -/
structure Writable (answers : ℕ → Answer) : Prop where
  polled : ∀ n, answers n = .polled .again ∨ (answers n).Takes
  takes : ∀ n, ∃ m, n ≤ m ∧ answers m ≠ .polled .again

/-- The first call that finds room finds it for `count` bytes. -/
def TakesAll (answers : ℕ → Answer) (count : ℕ) : Prop :=
  ∃ n room, (∀ m < n, answers m = .polled .again) ∧ answers n = .polled (.accepts room) ∧
    count ≤ room

/-- The hook returns, and with the number of bytes sent when it has sent fewer than `count`. -/
def Ends (c : Call β) (answers : ℕ → Answer) : Prop :=
  ∃ n o, c.exec answers n = .inr o ∧ (o.files.sent.length < c.files.sent.length + c.count →
    o.ret = .value (o.files.sent.length - c.files.sent.length))

variable {c : Call β} {v v' : Vars β} {o : Outcome β} {offset : Option ℕ} {answers : ℕ → Answer}
  {room n m : ℕ} {a : Answer}

/-- The call of the hook leaves what the kernel's blocking call leaves. -/
theorem direct_whole (h : c.start + c.count ≤ c.files.bytes.length) :
    c.Whole (c.direct (.accepts c.count)) := by
  have hn : c.count ≤ c.files.bytes.length - c.start := by omega
  obtain ⟨files, offset, count⟩ := c
  cases offset with
  | some s => constructor <;> simp_all [Call.direct, sendfile_f, Call.start]
  | none => constructor <;> simp_all [Call.direct, sendfile_f, Call.start]

/-- How many bytes a call sends. -/
def Vars.piece (v : Vars β) (room : ℕ) : ℕ :=
  min room (min v.count (v.files.bytes.length - v.offset_))

def Vars.send (v : Vars β) (n : ℕ) : Vars β :=
  ⟨v.offset_ + n, v.count - n,
    { v.files with sent := v.files.sent ++ (v.files.bytes.drop v.offset_).take n }⟩

@[simp] theorem retries_value : retries (.value n) m = decide (0 < m) := by
  simp [retries]

theorem turn_accepts : turn offset v (.polled (.accepts room)) =
    if 0 < v.count - v.piece room then .inl (v.send (v.piece room))
    else .inr ((v.send (v.piece room)).leave offset (.value (v.piece room))) := by
  change (if retries (.value (v.piece room)) (v.count - v.piece room) = true then
    Sum.inl (v.send (v.piece room)) else _) = _
  simp only [retries_value, decide_eq_true_eq]
  rfl

theorem turn_again (h : 0 < v.count) : turn offset v (.polled .again) = .inl v := by
  have hne : v.count ≠ 0 := Nat.pos_iff_ne_zero.mp h
  simp [turn, sendfile_f, hne, retries, Result.again, bytesSent]

@[simp] theorem Vars.send_zero : v.send 0 = v := by
  simp [Vars.send]

/-- The last turn sends all that is left, and its result is the result of the hook. -/
theorem turn_inr (ha : a = .polled .again ∨ a.Takes) (h : turn offset v a = .inr o) :
    o = (v.send v.count).leave offset (.value v.count) := by
  rcases ha with rfl | ⟨room, _, rfl⟩
  · by_cases hc : 0 < v.count
    · rw [turn_again hc] at h
      exact nomatch h
    · have hz : v.count = 0 := by omega
      have hturn : turn offset v (.polled .again) =
          .inr ((⟨v.offset_, v.count - 0, v.files⟩ : Vars β).leave offset (.value 0)) := by
        simp [turn, sendfile_f, hz, retries_value, bytesSent]
      rw [hturn] at h
      rw [hz, Vars.send_zero, ← Sum.inr.inj h]
      rfl
  · rw [turn_accepts] at h
    split at h
    · exact nomatch h
    · have hp : v.piece room = v.count := by
        have hle : v.piece room ≤ v.count := by
          unfold Vars.piece
          omega
        omega
      rw [← Sum.inr.inj h, hp]

/-- A turn that goes on has sent a piece of what is left, and not nothing if the socket takes some
and the file has some. -/
theorem turn_inl (ha : a = .polled .again ∨ a.Takes) (h : turn offset v a = .inl v') :
    ∃ n, v' = v.send n ∧ n ≤ v.files.bytes.length - v.offset_ ∧ n < v.count ∧
      (a.Takes → v.offset_ < v.files.bytes.length → 0 < n) := by
  rcases ha with rfl | ⟨room, hroom, rfl⟩
  · by_cases hc : 0 < v.count
    · rw [turn_again hc] at h
      refine ⟨0, by rw [Vars.send_zero, Sum.inl.inj h], Nat.zero_le _, hc, ?_⟩
      rintro ⟨_, _, h⟩
      exact nomatch h
    · simp_all [turn, sendfile_f, bytesSent]
  · rw [turn_accepts] at h
    split at h
    · refine ⟨v.piece room, (Sum.inl.inj h).symm, ?_, by omega, fun _ hlt => ?_⟩
      · unfold Vars.piece
        omega
      · unfold Vars.piece
        omega
    · exact nomatch h

theorem Writable.fair (h : Writable answers) (n : ℕ) : ∃ m, n ≤ m ∧ (answers m).Takes := by
  obtain ⟨m, hle, hm⟩ := h.takes n
  exact ⟨m, hle, (h.polled m).resolve_left hm⟩

theorem progress_enter : c.Progress c.enter where
  from_first := le_refl _
  left := rfl
  bytes := rfl
  position := rfl
  sent := by simp [Call.enter]

theorem Call.Progress.send (h : c.Progress v) (hn : n ≤ v.count) : c.Progress (v.send n) where
  from_first := h.from_first.trans (Nat.le_add_right _ _)
  left := by
    have hl := h.left
    change v.offset_ + n + (v.count - n) = _
    omega
  bytes := h.bytes
  position := h.position
  sent := by
    have hf := h.from_first
    have hlen : v.offset_ + n - c.enter.offset_ = v.offset_ - c.enter.offset_ + n := by omega
    have hdrop : c.enter.offset_ + (v.offset_ - c.enter.offset_) = v.offset_ := by omega
    change v.files.sent ++ (v.files.bytes.drop v.offset_).take n =
      c.files.sent ++ (c.files.bytes.drop c.enter.offset_).take (v.offset_ + n - c.enter.offset_)
    rw [h.sent, h.bytes, hlen, List.take_add, List.drop_drop, hdrop, List.append_assoc]

theorem progress_turn (ha : a = .polled .again ∨ a.Takes) (h : c.Progress v)
    (hturn : turn offset v a = .inl v') : c.Progress v' := by
  obtain ⟨n, rfl, _, hlt, _⟩ := turn_inl ha hturn
  exact h.send hlt.le

theorem progress_after (hw : Writable answers) (h : c.exec answers n = .inl v) : c.Progress v :=
  after_invariant (fun n _ _ hv hturn => progress_turn (hw.polled n) hv hturn)
    (n := 0) rfl progress_enter n.zero_le h

/-- The hook returns what its last call sent, which is all that was left before it. -/
theorem outcome_of_exec (hw : Writable answers) (h : c.exec answers n = .inr o) :
    ∃ m v, m < n ∧ c.exec answers m = .inl v ∧ turn c.offset v (answers m) = .inr o ∧
      c.Progress v ∧ o = (v.send v.count).leave c.offset (.value v.count) := by
  obtain ⟨m, v, hm, hv, hturn⟩ := after_inr h
  exact ⟨m, v, hm, hv, hturn, progress_after hw hv, turn_inr (hw.polled m) hturn⟩

/-- With all bytes in the file the loop ends. -/
theorem exec_ends (hw : Writable answers) (h : c.count ≤ c.files.bytes.length - c.enter.offset_) :
    ∃ n o, c.exec answers n = .inr o := by
  apply after_ends (μ := Vars.count) hw.fair (I := c.Progress)
  · exact fun n v v' hv hturn => progress_turn (hw.polled n) hv hturn
  · intro n v v' _ hturn
    obtain ⟨k, rfl, _⟩ := turn_inl (hw.polled n) hturn
    exact Nat.sub_le _ _
  · intro n v v' hv htakes hturn
    obtain ⟨k, rfl, _, hlt, hpos⟩ := turn_inl (hw.polled n) hturn
    have hf := hv.from_first
    have hl := hv.left
    have hk := hpos htakes (by rw [hv.bytes]; omega)
    change v.count - k < v.count
    omega
  · exact progress_enter

/-- With more asked for than there is, the result 0 at the end of the file is taken for no space. -/
theorem exec_forever (hw : Writable answers)
    (h : c.files.bytes.length - c.enter.offset_ < c.count) (n : ℕ) :
    ∃ v, c.exec answers n = .inl v := by
  have hI : ∀ n (v : Vars β), v.files.bytes.length - v.offset_ < v.count →
      ∃ v', turn c.offset v (answers n) = .inl v' ∧
        v'.files.bytes.length - v'.offset_ < v'.count := by
    intro n v hv
    rcases hw.polled n with ha | ⟨room, _, ha⟩
    · exact ⟨v, by rw [ha, turn_again (by omega)], hv⟩
    · have hp : v.piece room ≤ v.files.bytes.length - v.offset_ := by
        unfold Vars.piece
        omega
      refine ⟨v.send (v.piece room), by rw [ha, turn_accepts, if_pos (by omega)], ?_⟩
      change v.files.bytes.length - (v.offset_ + v.piece room) < v.count - v.piece room
      omega
  obtain ⟨v, hv, _⟩ := after_forever hI (s := c.enter) h n
  exact ⟨v, hv⟩

/-- After its last call the hook has sent `count` bytes from the first one it read. -/
theorem Call.Progress.sent_all (h : c.Progress v) : (v.send v.count).files.sent =
    c.files.sent ++ (c.files.bytes.drop c.enter.offset_).take c.count := by
  have hl := h.left
  have hlen : (v.send v.count).offset_ - c.enter.offset_ = c.count := by
    change v.offset_ + v.count - _ = _
    omega
  rw [(h.send (le_refl v.count)).sent, hlen]

/-- The loop ends exactly when the file has `count` bytes from where it reads. -/
theorem ends_iff (hw : Writable answers) :
    Ends c answers ↔ c.count ≤ c.files.bytes.length - c.offset.getD 0 := by
  constructor
  · rintro ⟨n, o, ho, -⟩
    by_contra h
    obtain ⟨v, hv⟩ := exec_forever (c := c) hw (Nat.lt_of_not_le h) n
    exact nomatch ho.symm.trans hv
  · intro h
    obtain ⟨n, o, ho⟩ := exec_ends (c := c) hw h
    refine ⟨n, o, ho, fun hlt => ?_⟩
    obtain ⟨_, v, _, _, _, hv, rfl⟩ := outcome_of_exec hw ho
    have hlen : (v.send v.count).files.sent.length = c.files.sent.length + c.count := by
      have hall : c.count ≤ c.files.bytes.length - c.enter.offset_ := h
      rw [hv.sent_all, List.length_append, List.length_take, List.length_drop, min_eq_left hall]
    have hlt : (v.send v.count).files.sent.length < c.files.sent.length + c.count := hlt
    omega

theorem writable_accepts (h : 0 < room) :
    Writable fun _ => .polled (.accepts room) where
  polled _ := Or.inr ⟨room, h, rfl⟩
  takes n := ⟨n, le_refl n, nofun⟩

theorem ends_three : Ends (⟨⟨[10, 20, 30], 0, []⟩, some 0, 3⟩ : Call UInt8)
    fun _ => .polled (.accepts 2) :=
  (ends_iff (writable_accepts (by decide))).mpr (by decide)

/-- One byte more than the file has. -/
theorem end_of_file_retried :
    (∀ n, ∃ v, (⟨⟨[10, 20, 30], 0, []⟩, some 0, 4⟩ : Call UInt8).exec
      (fun _ => .polled (.accepts 8)) n = .inl v) ∧
    ¬ Ends (⟨⟨[10, 20, 30], 0, []⟩, some 0, 4⟩ : Call UInt8) fun _ => .polled (.accepts 8) := by
  have hall := exec_forever (c := (⟨⟨[10, 20, 30], 0, []⟩, some 0, 4⟩ : Call UInt8))
    (writable_accepts (show 0 < 8 by decide)) (by decide)
  refine ⟨hall, ?_⟩
  rintro ⟨n, o, ho, -⟩
  obtain ⟨v, hv⟩ := hall n
  exact nomatch ho.symm.trans hv

theorem whole_of_takesAll (hlen : c.start + c.count ≤ c.files.bytes.length)
    (hc : 0 < c.count) {s : ℕ} (hs : c.offset = some s) (h : TakesAll answers c.count) :
    ∃ n o, c.exec answers n = .inr o ∧ c.Whole o := by
  obtain ⟨n, room, hagain, htakes, hroom⟩ := h
  have hexec : ∀ m ≤ n, c.exec answers m = .inl c.enter := by
    intro m hm
    induction m with
    | zero => rfl
    | succ m ih => rw [Call.exec, after_succ (ih (by omega)), hagain m hm, turn_again hc]
  have henter : c.enter.offset_ = c.start := by simp [Call.enter, Call.start, hs]
  have hpiece : c.enter.piece room = c.count := by
    have hle : c.start + c.count ≤ c.enter.files.bytes.length := hlen
    have hcount : c.enter.count = c.count := rfl
    unfold Vars.piece
    omega
  refine ⟨n + 1, (c.enter.send c.count).leave c.offset (.value c.count), ?_, ?_⟩
  · rw [Call.exec, after_succ (hexec n (le_refl n)), htakes, turn_accepts, hpiece,
      if_neg (by simp [Call.enter])]
  · constructor
    · rfl
    · rw [← henter]
      exact progress_enter.sent_all
    · intro s' hs'
      refine ⟨?_, rfl⟩
      change c.offset.map (fun _ => c.enter.offset_ + c.count) = _
      rw [hs', henter, Call.start, hs']
      rfl
    · exact fun hn => nomatch hs.symm.trans hn

/-- When the last call sends `count` bytes, no call before it has sent any. -/
theorem takesAll_of_count (hw : Writable answers)
    (hlen : c.enter.offset_ + c.count ≤ c.files.bytes.length) (hc : 0 < c.count)
    (hv : c.exec answers n = .inl v) (hturn : turn c.offset v (answers n) = .inr o)
    (hcount : v.count = c.count) : TakesAll answers c.count := by
  have hagain : ∀ m < n, answers m = .polled .again := by
    intro m hm
    obtain ⟨u, hu⟩ := after_inl_of_le hv (show m + 1 ≤ n from hm)
    obtain ⟨u', hu', hturn'⟩ := after_inl_succ hu
    refine (hw.polled m).resolve_right fun htakes => ?_
    have hle : v.count ≤ u.count := by
      refine after_invariant (I := fun w => w.count ≤ u.count) (fun k w w' hw' h => ?_)
        hu (le_refl _) hm hv
      obtain ⟨j, rfl, _⟩ := turn_inl (hw.polled k) h
      exact (Nat.sub_le _ _).trans hw'
    obtain ⟨k, rfl, _, hlt, hpos⟩ := turn_inl (hw.polled m) hturn'
    have hp := progress_after hw hu'
    have hf := hp.from_first
    have hl := hp.left
    have hk := hpos htakes (by rw [hp.bytes]; omega)
    change v.count ≤ u'.count - k at hle
    omega
  rcases hw.polled n with ha | ⟨room, _, ha⟩
  · rw [ha, turn_again (by omega)] at hturn
    exact nomatch hturn
  · refine ⟨n, room, hagain, ha, ?_⟩
    rw [ha, turn_accepts] at hturn
    split at hturn
    · exact nomatch hturn
    · next hp =>
      unfold Vars.piece at hp
      omega

/-- With nothing asked for, the first call sends nothing and is the last one. -/
theorem whole_of_zero (hw : Writable answers) (hz : c.count = 0) :
    ∃ n o, c.exec answers n = .inr o ∧ c.Whole o := by
  have hcount : c.enter.count = 0 := hz
  cases hturn : turn c.offset c.enter (answers 0) with
  | inl v =>
    obtain ⟨k, _, _, hlt, _⟩ := turn_inl (hw.polled 0) hturn
    omega
  | inr o =>
    refine ⟨1, o, hturn, ?_⟩
    have ho := turn_inr (hw.polled 0) hturn
    rw [hcount, Vars.send_zero] at ho
    subst ho
    constructor
    case returns =>
      rw [hz]
      rfl
    case sent => simp [hz, Vars.leave, Call.enter]
    case offset =>
      intro s hs
      simp [hz, hs, Vars.leave, Call.enter]
    case position =>
      intro hs
      simp [hz, hs, Vars.leave, Call.enter]

/-- The loop does what one blocking call does exactly when nothing is asked for, or an offset is
given and the first piece is all. -/
theorem whole_iff (hw : Writable answers) (hlen : c.start + c.count ≤ c.files.bytes.length) :
    (∃ n o, c.exec answers n = .inr o ∧ c.Whole o) ↔
      c.count = 0 ∨ c.offset.isSome ∧ TakesAll answers c.count := by
  constructor
  · rintro ⟨n, o, ho, hwhole⟩
    obtain ⟨m, v, _, hv, hturn, hp, rfl⟩ := outcome_of_exec hw ho
    have hcount : v.count = c.count := Result.value.inj hwhole.returns
    by_cases hc : c.count = 0
    · exact Or.inl hc
    · right
      cases hs : c.offset with
      | none =>
        have hpos : v.files.position = c.files.position + c.count := (hwhole.position hs).2
        rw [hp.position] at hpos
        omega
      | some s =>
        have henter : c.enter.offset_ = c.start := by simp [Call.enter, Call.start, hs]
        refine ⟨rfl, takesAll_of_count hw ?_ (by omega) hv hturn hcount⟩
        rwa [henter]
  · intro h
    by_cases hc : c.count = 0
    · exact whole_of_zero hw hc
    · obtain ⟨hsome, htakes⟩ := h.resolve_left hc
      obtain ⟨s, hs⟩ := Option.isSome_iff_exists.mp hsome
      exact whole_of_takesAll hlen (by omega) hs htakes

/-- Two bytes of three, in one piece. -/
theorem whole_two : ∃ n o, (⟨⟨[10, 20, 30], 0, []⟩, some 1, 2⟩ : Call UInt8).exec
    (fun _ => .polled (.accepts 8)) n = .inr o ∧ Call.Whole ⟨⟨[10, 20, 30], 0, []⟩, some 1, 2⟩ o :=
  (whole_iff (writable_accepts (by decide)) (by decide)).mpr
    (Or.inr ⟨rfl, 0, 8, fun m h => absurd h m.not_lt_zero, rfl, by decide⟩)

/-- Three bytes in two pieces return 1. With a null offset the hook reads from the beginning of the
file and leaves its position. -/
theorem last_piece_returned :
    (⟨⟨[10, 20, 30], 0, []⟩, some 0, 3⟩ : Call UInt8).exec (fun _ => .polled (.accepts 2)) 2 =
      .inr ⟨.value 1, some 3, ⟨[10, 20, 30], 0, [10, 20, 30]⟩⟩ ∧
    (⟨⟨[10, 20, 30], 1, []⟩, none, 2⟩ : Call UInt8).exec (fun _ => .polled (.accepts 8)) 1 =
      .inr ⟨.value 2, none, ⟨[10, 20, 30], 1, [10, 20]⟩⟩ ∧
    (¬ ∃ n o, (⟨⟨[10, 20, 30], 0, []⟩, some 0, 3⟩ : Call UInt8).exec
      (fun _ => .polled (.accepts 2)) n = .inr o ∧
      Call.Whole ⟨⟨[10, 20, 30], 0, []⟩, some 0, 3⟩ o) ∧
    ¬ ∃ n o, (⟨⟨[10, 20, 30], 1, []⟩, none, 2⟩ : Call UInt8).exec
      (fun _ => .polled (.accepts 8)) n = .inr o ∧
      Call.Whole ⟨⟨[10, 20, 30], 1, []⟩, none, 2⟩ o := by
  refine ⟨by decide, by decide, ?_, ?_⟩
  · rintro ⟨n, o, ho, h⟩
    have h2 : (⟨⟨[10, 20, 30], 0, []⟩, some 0, 3⟩ : Call UInt8).exec
      (fun _ => .polled (.accepts 2)) 2 =
        .inr ⟨.value 1, some 3, ⟨[10, 20, 30], 0, [10, 20, 30]⟩⟩ := by decide
    obtain rfl := after_unique h2 ho
    exact absurd h.returns (by decide)
  · rintro ⟨n, o, ho, h⟩
    have h1 : (⟨⟨[10, 20, 30], 1, []⟩, none, 2⟩ : Call UInt8).exec
      (fun _ => .polled (.accepts 8)) 1 = .inr ⟨.value 2, none, ⟨[10, 20, 30], 1, [10, 20]⟩⟩ := by
      decide
    obtain rfl := after_unique h1 ho
    exact absurd h.sent (by decide)

end CxxFiber.EHooker.Sendfile
