import CxxFiber.EHooker.Sendfile

/-! The `sendfile` hook of macOS, with header and trailer vectors. Bytes are told apart by where
they come from. -/
namespace CxxFiber.EHooker.SendfileMac

open CommIo Turns
open Sendfile (Answer Socket)

/-- A byte of the headers, of the file or of the trailers, by its index there. -/
inductive Source
  | header (i : ℕ)
  | file (i : ℕ)
  | trailer (i : ℕ)
  deriving DecidableEq, Repr

/-- A call: `fileLen` bytes in the file, `headers` and `trailers` bytes in `hdtr`. -/
structure Call where
  fileLen : ℕ
  offset : ℕ
  len : ℕ
  headers : ℕ
  trailers : ℕ
  deriving DecidableEq, Repr

/-- The variables of the loop, with what the socket has been given. -/
structure Vars where
  offset : ℕ
  inlen : ℤ
  sent : List Source
  deriving DecidableEq, Repr

/-- What the hook leaves: its result, `*len` and what the socket has been given. -/
structure Outcome where
  ret : Result
  len : ℤ
  sent : List Source
  deriving DecidableEq, Repr

namespace Call

def body (c : Call) (offset : ℕ) : List Source :=
  (List.range c.headers).map .header ++ (List.range' offset (c.fileLen - offset)).map .file

/-- What the kernel is asked to send: the length bounds headers and file together, 0 is no bound,
and all trailers follow. -/
def message (c : Call) (offset : ℕ) (len : ℤ) : List Source :=
  (if len = 0 then c.body offset else (c.body offset).take len.toNat) ++
    (List.range c.trailers).map .trailer

/-- The kernel's function with a length: the result, the length it leaves, which counts headers and
trailers, and the bytes that the socket takes. -/
def sendfile_f (c : Call) (offset : ℕ) (len : ℤ) : Socket → Result × ℕ × List Source
  | .accepts room =>
    let m := c.message offset len
    if m.length ≤ room then (.value 0, m.length, m) else (.error .eagain, room, m.take room)
  | .again => (.error .eagain, 0, [])
  | .fails e => (.error e, 0, [])

/-- One turn, from `RETRY` on; `*len` is not written. -/
def turn (c : Call) (v : Vars) : Answer → Vars ⊕ Outcome
  | .polled socket =>
    let r := c.sendfile_f v.offset v.inlen socket
    if r.1.again then
      let v : Vars := ⟨v.offset + r.2.1, v.inlen - r.2.1, v.sent ++ r.2.2⟩
      if v.inlen > 0 then .inl v else .inr ⟨r.1, c.len, v.sent⟩
    else .inr ⟨r.1, c.len, v.sent ++ r.2.2⟩
  | .timeout => .inr ⟨.error .etimedout, c.len, v.sent⟩
  | .pollError e => .inr ⟨.error e, c.len, v.sent⟩

def enter (c : Call) : Vars := ⟨c.offset, c.len, []⟩

/-- The hook on a socket in user-blocking mode, after `n` turns. -/
def exec (c : Call) (answers : ℕ → Answer) (n : ℕ) : Vars ⊕ Outcome :=
  after c.turn answers c.enter n

/-- The bytes of headers and file that the caller asks for. -/
def size (c : Call) : ℕ := min c.len (c.headers + (c.fileLen - c.offset))

def total (c : Call) : ℕ := c.size + c.trailers

/-- What a blocking call sends. -/
def expected (c : Call) : List Source := c.message c.offset c.len

/-- Each byte once and in order, and their number in `*len`. -/
structure Right (c : Call) (o : Outcome) : Prop where
  sent : o.sent = c.expected
  len : o.len = c.total

/-- How far the socket may get before the last call: nowhere with headers, else to the end of the
file's bytes. -/
def resumable (c : Call) : ℕ := if c.headers = 0 then c.size else 0

end Call

/-- What the socket takes in a turn, at most. -/
def room : Answer → ℕ
  | .polled (.accepts room) => room
  | _ => 0

/-- What it has taken before the `n`th turn. -/
def taken (answers : ℕ → Answer) : ℕ → ℕ
  | 0 => 0
  | n + 1 => taken answers n + room (answers n)

/-- `*len` is the number of all bytes already, and no call but the last stops where the hook cannot
go on from. -/
structure Fits (c : Call) (answers : ℕ → Answer) : Prop where
  len : c.len = c.total
  pieces : ∀ n, taken answers n < c.total → taken answers n ≤ c.resumable

variable {c : Call} {v v' : Vars} {o : Outcome} {answers : ℕ → Answer} {n m k offset : ℕ} {len : ℤ}
  {a : Answer}

theorem length_body : (c.body offset).length = c.headers + (c.fileLen - offset) := by
  simp [Call.body]

theorem message_of_pos (h : 0 < len) : c.message offset len =
    (c.body offset).take len.toNat ++ (List.range c.trailers).map .trailer := by
  rw [Call.message, if_neg h.ne']

theorem expected_eq (hlen : 0 < c.len) : c.expected =
    (c.body c.offset).take c.len ++ (List.range c.trailers).map .trailer :=
  message_of_pos (Int.natCast_pos.mpr hlen)

theorem length_expected (hlen : 0 < c.len) : c.expected.length = c.total := by
  rw [expected_eq hlen]
  simp [length_body, Call.total, Call.size]

theorem nodup_expected (hlen : 0 < c.len) : c.expected.Nodup := by
  have hh : ((List.range c.headers).map Source.header).Nodup :=
    List.nodup_range.map fun _ _ h => Source.header.inj h
  have hf : ((List.range' c.offset (c.fileLen - c.offset)).map Source.file).Nodup :=
    List.Nodup.map (fun _ _ h => Source.file.inj h) List.nodup_range'
  have ht : ((List.range c.trailers).map Source.trailer).Nodup :=
    List.nodup_range.map fun _ _ h => Source.trailer.inj h
  have hbody : (c.body c.offset).Nodup := by
    refine List.nodup_append.mpr ⟨hh, hf, ?_⟩
    rintro a ha b hb rfl
    obtain ⟨i, _, rfl⟩ := List.mem_map.mp ha
    obtain ⟨j, _, hj⟩ := List.mem_map.mp hb
    cases hj
  rw [expected_eq hlen]
  refine List.nodup_append.mpr ⟨(List.take_sublist ..).nodup hbody, ht, ?_⟩
  rintro a ha b hb rfl
  obtain ⟨i, _, rfl⟩ := List.mem_map.mp hb
  rcases List.mem_append.mp (List.mem_of_mem_take ha) with ha | ha <;>
    obtain ⟨j, _, hj⟩ := List.mem_map.mp ha <;> cases hj

/-- What is left after the first `k` bytes, if the hook can go on there. -/
theorem message_resume (hk : k ≤ c.resumable) (hpos : 0 < (c.len : ℤ) - k) :
    c.message (c.offset + k) (c.len - k) = c.expected.drop k := by
  have hlen : 0 < c.len := by omega
  have hsub : ((c.len : ℤ) - k).toNat = c.len - k := by omega
  rw [message_of_pos hpos, expected_eq hlen, hsub]
  unfold Call.resumable at hk
  split at hk
  · next hh =>
    have hsize : k ≤ ((c.body c.offset).take c.len).length := by
      rw [List.length_take, length_body]
      exact hk
    have hbody : c.body (c.offset + k) = (c.body c.offset).drop k := by
      have hrest : c.fileLen - (c.offset + k) = c.fileLen - c.offset - k := by omega
      simp [Call.body, hh, ← List.map_drop, List.drop_range', hrest]
    rw [List.drop_append_of_le_length hsize, List.drop_take, hbody]
  · obtain rfl : k = 0 := by omega
    rfl

/-- The state when `k` bytes are sent, each once and in order. -/
def Call.regular (c : Call) (k : ℕ) : Vars := ⟨c.offset + k, c.len - k, c.expected.take k⟩

/-- What any turn that goes on does: the socket has been given more, and some length is left. -/
theorem turn_inl (h : c.turn v a = .inl v') : v.sent <+: v'.sent ∧ 0 < v'.inlen := by
  cases a with
  | polled socket =>
    simp only [Call.turn] at h
    split at h
    · split at h
      · next hleft =>
        cases h
        exact ⟨List.prefix_append _ _, hleft⟩
      · cases h
    · cases h
  | timeout => cases h
  | pollError e => cases h

/-- What any turn that succeeds does: all of a message is sent. -/
theorem turn_value (h : c.turn v a = .inr o) (hs : o.ret = .value 0) :
    o.sent = v.sent ++ c.message v.offset v.inlen ∧ o.len = c.len := by
  cases a with
  | polled socket =>
    simp only [Call.turn] at h
    split at h
    · next hagain =>
      split at h
      · cases h
      · cases h
        have hret : (c.sendfile_f v.offset v.inlen socket).1 = .value 0 := hs
        rw [hret] at hagain
        cases hagain
    · cases h
      cases socket with
      | accepts r =>
        simp only [Call.sendfile_f] at hs ⊢
        split at hs
        · next hr =>
          rw [if_pos hr]
          exact ⟨rfl, trivial⟩
        · cases hs
      | again => cases hs
      | fails e => cases hs
  | timeout =>
    cases h
    cases hs
  | pollError e =>
    cases h
    cases hs

/-- A turn from a regular state: all that is left, or a piece and the state behind it. -/
theorem turn_regular (hk : k ≤ c.resumable) (hpos : 0 < (c.len : ℤ) - k) (r : ℕ) :
    c.turn (c.regular k) (.polled (.accepts r)) =
      if c.total - k ≤ r then .inr ⟨.value 0, c.len, c.expected⟩
      else if 0 < (c.len : ℤ) - (k + r : ℕ) then .inl (c.regular (k + r))
      else .inr ⟨.error .eagain, c.len, c.expected.take (k + r)⟩ := by
  have hmsg : c.message (c.regular k).offset (c.regular k).inlen = c.expected.drop k :=
    message_resume hk hpos
  have hlen : (c.expected.drop k).length = c.total - k := by
    rw [List.length_drop, length_expected (by omega)]
  simp only [Call.turn, Call.sendfile_f, hmsg, hlen]
  by_cases hr : c.total - k ≤ r
  · rw [if_pos hr, if_pos hr]
    simp [Result.again, Call.regular]
  · rw [if_neg hr, if_neg hr]
    have hsub : (c.len : ℤ) - k - r = c.len - (k + r : ℕ) := by omega
    simp [Result.again, Call.regular, List.take_add, Nat.add_assoc, hsub]

/-- A turn in which the socket takes nothing is for nothing or fails. -/
theorem turn_idle (hr : ∀ r, a ≠ .polled (.accepts r)) :
    room a = 0 ∧ (c.turn v a = .inl v ∨ ∃ e, c.turn v a = .inr ⟨.error e, c.len, v.sent⟩) := by
  have hpolled : ∀ (socket : Socket) (e : Errno),
      c.sendfile_f v.offset v.inlen socket = (.error e, 0, []) →
      c.turn v (.polled socket) = .inl v ∨
        c.turn v (.polled socket) = .inr ⟨.error e, c.len, v.sent⟩ := by
    intro socket e he
    cases hagain : (Result.error e).again <;> by_cases hpos : v.inlen > 0 <;>
      simp [Call.turn, he, hagain, hpos]
  cases a with
  | polled socket =>
    cases socket with
    | accepts r => exact absurd rfl (hr r)
    | again => exact ⟨rfl, (hpolled .again .eagain rfl).imp_right fun h => ⟨_, h⟩⟩
    | fails e => exact ⟨rfl, (hpolled (.fails e) e rfl).imp_right fun h => ⟨_, h⟩⟩
  | timeout => exact ⟨rfl, .inr ⟨_, rfl⟩⟩
  | pollError e => exact ⟨rfl, .inr ⟨_, rfl⟩⟩

/-- A turn that goes on from a regular state ends in one. -/
theorem regular_inl (hk : k ≤ c.resumable) (hpos : 0 < (c.len : ℤ) - k)
    (h : c.turn (c.regular k) a = .inl v) : v = c.regular (k + room a) ∧
      0 < (c.len : ℤ) - (k + room a : ℕ) ∧ (0 < room a → k + room a < c.total) := by
  by_cases hr : ∃ r, a = .polled (.accepts r)
  · obtain ⟨r, rfl⟩ := hr
    rw [turn_regular hk hpos] at h
    split at h
    · cases h
    · next hlt =>
      split at h
      · next hleft =>
        cases h
        have hroom : room (.polled (.accepts r)) = r := rfl
        rw [hroom]
        exact ⟨rfl, hleft, fun _ => by omega⟩
      · cases h
  · obtain ⟨hzero, hstay | ⟨e, herr⟩⟩ :=
      turn_idle (c := c) (v := c.regular k) fun r he => hr ⟨r, he⟩
    · obtain rfl := Sum.inl.inj (hstay.symm.trans h)
      rw [hzero]
      exact ⟨rfl, hpos, fun hlt => absurd hlt (Nat.lt_irrefl 0)⟩
    · rw [herr] at h
      cases h

/-- A turn that succeeds from a regular state has sent everything once. -/
theorem regular_inr (hk : k ≤ c.resumable) (hpos : 0 < (c.len : ℤ) - k)
    (h : c.turn (c.regular k) a = .inr o) (hs : o.ret = .value 0) :
    c.total - k ≤ room a ∧ o = ⟨.value 0, c.len, c.expected⟩ := by
  by_cases hr : ∃ r, a = .polled (.accepts r)
  · obtain ⟨r, rfl⟩ := hr
    rw [turn_regular hk hpos] at h
    split at h
    · next hle =>
      cases h
      exact ⟨hle, rfl⟩
    · split at h
      · cases h
      · cases h
        cases hs
  · obtain ⟨_, hstay | ⟨e, herr⟩⟩ :=
      turn_idle (c := c) (v := c.regular k) fun r he => hr ⟨r, he⟩
    · rw [hstay] at h
      cases h
    · rw [herr] at h
      cases h
      cases hs

theorem taken_mono (hle : m ≤ n) : taken answers m ≤ taken answers n := by
  induction n, hle using Nat.le_induction with
  | base => exact le_refl _
  | succ n _ ih => exact ih.trans (Nat.le_add_right _ _)

theorem enter_regular : c.enter = c.regular 0 := by simp [Call.enter, Call.regular]

/-- As long as the socket stops only where the hook can go on, the states are regular. -/
theorem exec_regular (hlen : 0 < c.len) (h : c.exec answers n = .inl v)
    (hp : ∀ m < n, taken answers m ≤ c.resumable) :
    v = c.regular (taken answers n) ∧ 0 < (c.len : ℤ) - taken answers n ∧
      (0 < taken answers n → taken answers n < c.total) := by
  induction n generalizing v with
  | zero =>
    obtain rfl := Sum.inl.inj h
    refine ⟨enter_regular, ?_, fun hlt => absurd hlt (Nat.lt_irrefl 0)⟩
    simpa [taken] using hlen
  | succ n ih =>
    obtain ⟨u, hu, hturn⟩ := after_inl_succ h
    obtain ⟨rfl, hpos, hlt⟩ := ih hu fun m hm => hp m (Nat.lt_succ_of_lt hm)
    obtain ⟨rfl, hpos', hlt'⟩ := regular_inl (hp n n.lt_succ_self) hpos hturn
    refine ⟨rfl, hpos', fun hsome => ?_⟩
    rcases Nat.eq_zero_or_pos (room (answers n)) with hzero | hroom
    · have hsame : taken answers (n + 1) = taken answers n := by rw [taken, hzero, Nat.add_zero]
      rw [hsame] at hsome ⊢
      exact hlt hsome
    · exact hlt' hroom

/-- Every state in which the loop goes on has some length left. -/
theorem inlen_pos (hlen : 0 < c.len) (h : c.exec answers n = .inl v) : 0 < v.inlen := by
  cases n with
  | zero =>
    obtain rfl := Sum.inl.inj h
    exact Int.natCast_pos.mpr hlen
  | succ n =>
    obtain ⟨u, _, hturn⟩ := after_inl_succ h
    exact (turn_inl hturn).2

/-- Behind the place where the hook can go on, something has been sent that each message has. -/
theorem marker (hlen : 0 < c.len) (hk : c.resumable < k) (ht : k < c.total) :
    ∃ x, x ∈ c.expected.take k ∧ ∀ offset len, 0 < len → x ∈ c.message offset len := by
  unfold Call.resumable at hk
  unfold Call.total at ht
  split at hk
  · have hlt : 0 < c.trailers := by omega
    have hmem : Source.trailer 0 ∈ (List.range c.trailers).map Source.trailer :=
      List.mem_map_of_mem (List.mem_range.mpr hlt)
    refine ⟨.trailer 0, ?_, fun offset len _ => List.mem_append_right _ hmem⟩
    have hsize : ((c.body c.offset).take c.len).length = c.size := by
      rw [List.length_take, length_body, Call.size]
    have hget : c.expected[c.size]? = some (.trailer 0) := by
      rw [expected_eq hlen, List.getElem?_append_right hsize.le, hsize, Nat.sub_self]
      simp [hlt]
    have htake : (c.expected.take k)[c.size]? = some (.trailer 0) := by
      rw [List.getElem?_take_of_lt hk, hget]
    exact List.mem_of_getElem? htake
  · next hh =>
    have hlt : 0 < c.headers := Nat.pos_of_ne_zero hh
    have hget : ∀ offset len, 0 < len → (c.message offset len)[0]? = some (.header 0) := by
      intro offset len hpos
      have hbody : (c.body offset)[0]? = some (.header 0) := by simp [Call.body, hlt]
      have htake : ((c.body offset).take len.toNat)[0]? = some (.header 0) := by
        rw [List.getElem?_take_of_lt (by omega), hbody]
      obtain ⟨hbound, _⟩ := List.getElem?_eq_some_iff.mp htake
      rw [message_of_pos hpos, List.getElem?_append_left hbound, htake]
    refine ⟨.header 0, ?_, fun offset len hpos => List.mem_of_getElem? (hget offset len hpos)⟩
    have htake : (c.expected.take k)[0]? = some (.header 0) := by
      rw [List.getElem?_take_of_lt (Nat.zero_lt_of_lt hk)]
      exact hget _ _ (Int.natCast_pos.mpr hlen)
    exact List.mem_of_getElem? htake

/-- Under the condition all states are regular. -/
theorem exec_fits (hlen : 0 < c.len) (hf : Fits c answers) (h : c.exec answers n = .inl v) :
    taken answers n ≤ c.resumable ∧ v = c.regular (taken answers n) ∧
      0 < (c.len : ℤ) - taken answers n := by
  have hall : ∀ k v, c.exec answers k = .inl v → ∀ j ≤ k, taken answers j ≤ c.resumable := by
    intro k
    induction k with
    | zero =>
      intro v _ j hj
      obtain rfl : j = 0 := Nat.le_zero.mp hj
      exact Nat.zero_le _
    | succ k ih =>
      intro v hv j hj
      obtain ⟨u, hu, hgo⟩ := after_inl_succ hv
      have hbefore := ih u hu
      rcases Nat.le_succ_iff.mp hj with hle | rfl
      · exact hbefore j hle
      · obtain ⟨_, _, hlt⟩ := exec_regular hlen hv fun m hm => hbefore m (Nat.le_of_lt_succ hm)
        rcases Nat.eq_zero_or_pos (taken answers (k + 1)) with hzero | hsome
        · rw [hzero]
          exact Nat.zero_le _
        · exact hf.pieces _ (hlt hsome)
  have hpieces := hall n v h
  obtain ⟨hv, hpos, _⟩ := exec_regular hlen h fun j hj => hpieces j (Nat.le_of_lt hj)
  exact ⟨hpieces n (le_refl n), hv, hpos⟩

theorem right_of_fits (hlen : 0 < c.len) (h : c.exec answers n = .inr o) (hs : o.ret = .value 0)
    (hf : Fits c answers) : c.Right o := by
  obtain ⟨m, v, _, hm, hturn⟩ := after_inr h
  have hfits := hf.len
  obtain ⟨hle, rfl, hpos⟩ := exec_fits hlen hf hm
  obtain ⟨_, rfl⟩ := regular_inr hle hpos hturn hs
  exact ⟨rfl, congrArg Nat.cast hfits⟩

/-- Under the condition the hook succeeds on a socket that takes some bytes again and again. -/
theorem succeeds_of_fits (hlen : 0 < c.len) (hw : Sendfile.Writable answers)
    (hf : Fits c answers) : ∃ n o, c.exec answers n = .inr o ∧ o.ret = .value 0 := by
  have hgrows : ∀ k, ∃ n, k ≤ taken answers n := by
    intro k
    induction k with
    | zero => exact ⟨0, Nat.zero_le _⟩
    | succ k ih =>
      obtain ⟨n, hn⟩ := ih
      obtain ⟨m, hnm, r, hr, hm⟩ := hw.fair n
      have hroom : room (answers m) = r := by rw [hm, room]
      have hmono : taken answers n ≤ taken answers m := taken_mono hnm
      exact ⟨m + 1, by rw [taken, hroom]; omega⟩
  obtain ⟨n, hn⟩ := hgrows c.len
  cases hexec : c.exec answers n with
  | inl v =>
    obtain ⟨_, _, hpos⟩ := exec_fits hlen hf hexec
    omega
  | inr o =>
    refine ⟨n, o, hexec, ?_⟩
    obtain ⟨m, v, _, hm, hturn⟩ := after_inr hexec
    obtain ⟨hle, rfl, hpos⟩ := exec_fits hlen hf hm
    rcases hw.polled m with ha | ⟨r, _, ha⟩
    · have hinlen : (c.regular (taken answers m)).inlen > 0 := hpos
      rw [ha] at hturn
      simp [Call.turn, Call.sendfile_f, Result.again, hinlen] at hturn
    · rw [ha, turn_regular hle hpos] at hturn
      have hfits := hf.len
      split at hturn
      · cases hturn
        rfl
      · split at hturn
        · cases hturn
        · omega

theorem fits_of_right (hlen : 0 < c.len) (h : c.exec answers n = .inr o) (hs : o.ret = .value 0)
    (hr : c.Right o) : Fits c answers := by
  obtain ⟨m, v, _, hm, hturn⟩ := after_inr h
  obtain ⟨hsent, hback⟩ := turn_value hturn hs
  have hfits : c.len = c.total := Nat.cast_inj.mp (hback.symm.trans hr.len)
  have hpieces : ∀ j ≤ m, taken answers j ≤ c.resumable := by
    intro j
    induction j using Nat.strong_induction_on with
    | h j ih =>
      intro hj
      cases j with
      | zero => exact Nat.zero_le _
      | succ i =>
        by_contra hover
        obtain ⟨u, hu⟩ := after_inl_of_le hm hj
        have hbefore : ∀ k < i + 1, taken answers k ≤ c.resumable := fun k hk =>
          ih k hk ((Nat.le_of_lt hk).trans hj)
        obtain ⟨rfl, _, hlt⟩ := exec_regular hlen hu hbefore
        have hmore : c.resumable < taken answers (i + 1) := Nat.lt_of_not_le hover
        obtain ⟨x, hx, hmsg⟩ := marker hlen hmore (hlt (Nat.lt_of_le_of_lt (Nat.zero_le _) hmore))
        -- what has been sent stays sent, and is sent again with the last message
        have hbegins : (c.regular (taken answers (i + 1))).sent <+: v.sent :=
          after_invariant (I := fun s : Vars => (c.regular (taken answers (i + 1))).sent <+: s.sent)
            (fun _ _ _ hpre hgo => hpre.trans (turn_inl hgo).1) hu (List.prefix_refl _) hj hm
        have hnodup : (v.sent ++ c.message v.offset v.inlen).Nodup := by
          rw [← hsent, hr.sent]
          exact nodup_expected hlen
        have hagain : x ∈ c.message v.offset v.inlen := hmsg _ _ (inlen_pos hlen hm)
        exact (List.nodup_append.mp hnodup).2.2 x (hbegins.subset hx) x hagain rfl
  refine ⟨hfits, fun j hj => ?_⟩
  by_cases hle : j ≤ m
  · exact hpieces j hle
  · -- the last call takes all that is left
    obtain ⟨rfl, hpos, _⟩ := exec_regular hlen hm fun j hj => hpieces j (Nat.le_of_lt hj)
    obtain ⟨hall, _⟩ := regular_inr (hpieces m (le_refl m)) hpos hturn hs
    have hmono : taken answers (m + 1) ≤ taken answers j := taken_mono (by omega)
    rw [taken] at hmono
    omega

/-- A success of the hook is that of a blocking call exactly when `*len` happens to be the number of
all bytes and the socket stops only where the hook can go on from. -/
theorem success_right_iff (c : Call) (hlen : 0 < c.len) (answers : ℕ → Answer) (n : ℕ)
    (o : Outcome) (h : c.exec answers n = .inr o) (hs : o.ret = .value 0) :
    c.Right o ↔ Fits c answers :=
  ⟨fits_of_right hlen h hs, right_of_fits hlen h hs⟩

/-- Four bytes of a file without headers, of which the socket first takes one. -/
theorem pieces_right_iff : (⟨10, 2, 4, 0, 0⟩ : Call).Right
      ⟨.value 0, 4, [.file 2, .file 3, .file 4, .file 5]⟩ ↔
    Fits ⟨10, 2, 4, 0, 0⟩ fun n => .polled (.accepts (if n = 0 then 1 else 9)) :=
  success_right_iff ⟨10, 2, 4, 0, 0⟩ (by decide)
    (fun n => .polled (.accepts (if n = 0 then 1 else 9))) 2 _ rfl rfl

/-- Two bytes of headers and two of a file, of which the socket first takes one: the headers are
sent again from the start, and file byte 2 is left out. -/
theorem header_repeated : (⟨10, 2, 4, 2, 0⟩ : Call).exec
      (fun n => .polled (.accepts (if n = 0 then 1 else 9))) 2 =
        .inr ⟨.value 0, 4, [.header 0, .header 0, .header 1, .file 3]⟩ ∧
    (⟨10, 2, 4, 2, 0⟩ : Call).expected = [.header 0, .header 1, .file 2, .file 3] ∧
    ¬ (⟨10, 2, 4, 2, 0⟩ : Call).Right
      ⟨.value 0, 4, [.header 0, .header 0, .header 1, .file 3]⟩ := by
  refine ⟨rfl, rfl, fun h => ?_⟩
  exact absurd h.sent (by decide)

end CxxFiber.EHooker.SendfileMac
