import NetPool.Lib.Transfer
import NetPool.Recv.Writer

namespace NetPool
namespace Sock

def eintr : Nat := 4
def ebadf : Nat := 9
def eagain : Nat := 11
def ewouldblock : Nat := 11

-- What happens in a round of `sock_read_timeout` and of `sock_write_timeout`: `select` fails, times
-- out or reports another descriptor, or it reports this one, and then `recv` or `send` fails, or
-- gives a result.
inductive Outcome (α : Type)
  | selectError (errno : Nat)
  | timeout
  | unset
  | error (errno : Nat)
  | done (a : α)
  deriving DecidableEq

-- What `sock_readable` and `sock_writeable` return when `select` fails, unless they call it again.
def selectRet (errno : Nat) : Option Int :=
  if errno = ebadf then some (-1)
  else if errno = eintr then none
  else if errno = ewouldblock ∨ errno = eagain then none
  else some 0

namespace Outcome

variable {α : Type}

-- The errors after which the loops go on are those with three values at once.
def kind (done : α → Kind) : Outcome α → Kind
  | .selectError errno => if (selectRet errno).isSome then .stop else .again
  | .timeout | .unset  => .stop
  | .error errno       =>
    if errno = eintr ∧ errno = ewouldblock ∧ errno = eagain then .again else .fail
  | .done a            => done a

def sent : Outcome Nat → Nat
  | .done n => n
  | .selectError _ | .timeout | .unset | .error _ => 0

def received : Outcome (List UInt8) → List UInt8
  | .done bytes => bytes
  | .selectError _ | .timeout | .unset | .error _ => []

end Outcome

-- `send` takes bytes from the place on that `buf` points to.
def writeChannel (buf : List UInt8) : Channel (Outcome Nat) UInt8 where
  len         := buf.length
  kind        := Outcome.kind fun _ => .data
  size o      := o.sent
  bytes pos o := (buf.drop pos).take o.sent
  length      := by simp

-- `recv` gives no more bytes than it is asked for, and none when the peer has closed.
def readChannel (len : Nat) : Channel (Outcome (List UInt8)) UInt8 where
  len         := len
  kind        := Outcome.kind fun bytes => if bytes.length = 0 then .fail else .data
  size o      := o.received.length
  bytes pos o := o.received.take (len - pos)
  length      := by simp [Nat.min_comm]

def writeTimeout (buf : List UInt8) (os : List (Outcome Nat)) : Transferred (Outcome Nat) UInt8 :=
  if buf.length = 0 then ⟨0, [], os⟩ else (writeChannel buf).run os

def readTimeout (len : Nat) (os : List (Outcome (List UInt8))) :
    Transferred (Outcome (List UInt8)) UInt8 :=
  (readChannel len).run os

variable {α : Type} {buf : List UInt8} {os pre : List (Outcome α)}

theorem writeTimeout_result (buf : List UInt8) (os : List (Outcome Nat)) :
    (writeTimeout buf os).result = ((writeChannel buf).run os).result := by
  unfold writeTimeout
  split
  case isTrue h  => exact (Channel.run_of_len_eq_zero h os).symm
  case isFalse h => rfl

theorem kind_error (done : α → Kind) (errno : Nat) : (Outcome.error errno).kind done = .fail := by
  refine if_neg fun h => ?_
  have : eintr = ewouldblock := h.1.symm.trans h.2.1
  cases this

-- Only a result transfers bytes.
theorem done_of_kind_data {done : α → Kind} {o : Outcome α} (h : o.kind done = .data) :
    ∃ a, o = .done a ∧ done a = .data := by
  cases o
  case done a      => exact ⟨a, rfl, h⟩
  case error errno => rw [kind_error] at h; cases h
  case timeout     => cases h
  case unset       => cases h
  case selectError errno =>
    rw [Outcome.kind] at h
    split at h <;> cases h

theorem writeChannel_error (buf : List UInt8) (errno : Nat) :
    (writeChannel buf).kind (.error errno) = .fail :=
  kind_error (fun _ : Nat => .data) errno

theorem readChannel_error (len errno : Nat) : (readChannel len).kind (.error errno) = .fail :=
  kind_error (fun bytes : List UInt8 => if bytes.length = 0 then .fail else .data) errno

section Rounds

-- The rounds in which `select` is not called again.
def rounds (os : List (Outcome Nat)) : List Round :=
  os.filterMap fun
    | .selectError errno => if (selectRet errno).isSome then some .notReady else none
    | .timeout | .unset  => some .notReady
    | .error _           => some .error
    | .done n            => some (.sent n)

theorem sockWriteLoop_cons {len : Nat} (hl : 0 < len) (r : Round) (rs : List Round) :
    sockWriteLoop (r :: rs) len = match r with
    | .notReady => (0, false)
    | .error    => (0, true)
    | .sent n   =>
      let (sent, failed) := sockWriteLoop rs (len - min n len)
      (min n len + sent, failed) := by
  obtain ⟨left, rfl⟩ := Nat.exists_eq_succ_of_ne_zero (Nat.ne_of_gt hl)
  cases r <;> rfl

theorem transfer_rounds {pos : Nat} (hp : pos < buf.length) (os : List (Outcome Nat)) :
    ((writeChannel buf).transfer (buf.take pos) os).result =
      let (sent, failed) := sockWriteLoop (rounds os) (buf.length - pos)
      (if failed then 0 else pos + sent, buf.take (pos + sent)) := by
  have loop {pos : Nat} (hp : pos < buf.length) := @sockWriteLoop_cons _ (Nat.sub_pos_of_lt hp)
  have pre {pos : Nat} (hp : pos < buf.length) : (buf.take pos).length = pos := by simp; omega
  induction os generalizing pos
  case nil =>
    obtain ⟨left, hl⟩ := Nat.exists_eq_succ_of_ne_zero (Nat.ne_of_gt (Nat.sub_pos_of_lt hp))
    simp [Channel.transfer, Transferred.result, rounds, sockWriteLoop, hl, pre hp]
  case cons o os ih =>
    have stop (hk : (writeChannel buf).kind o = .stop)
        (hr : rounds (o :: os) = .notReady :: rounds os) :
        ((writeChannel buf).transfer (buf.take pos) (o :: os)).result =
          let (sent, failed) := sockWriteLoop (rounds (o :: os)) (buf.length - pos)
          (if failed then 0 else pos + sent, buf.take (pos + sent)) := by
      rw [Channel.transfer_stop hk, hr, loop hp]
      simp [Transferred.result, pre hp]
    cases o
    case timeout => exact stop rfl rfl
    case unset   => exact stop rfl rfl
    case selectError errno =>
      cases hs : selectRet errno
      case some r => exact stop (by simp [writeChannel, Outcome.kind, hs]) (by simp [rounds, hs])
      case none =>
        have hk : (writeChannel buf).kind (.selectError errno) = .again := by
          simp [writeChannel, Outcome.kind, hs]
        have hr : rounds (.selectError errno :: os) = rounds os := by simp [rounds, hs]
        rw [Channel.transfer_again hk, hr, ih hp]
    case error errno =>
      have hr : rounds (.error errno :: os) = .error :: rounds os := rfl
      rw [Channel.transfer_fail (writeChannel_error buf errno), hr, loop hp]
      simp [Transferred.result]
    case done n =>
      have hk : (writeChannel buf).kind (.done n) = .data := rfl
      have hr : rounds (.done n :: os) = .sent n :: rounds os := rfl
      have next : buf.take pos ++ (writeChannel buf).bytes (buf.take pos).length (.done n) =
          buf.take (pos + n) := by
        rw [pre hp, List.take_add]
        rfl
      rw [hr, loop hp]
      by_cases hn : pos + n < buf.length
      case pos =>
        have less : (buf.take pos).length + n < buf.length := by rwa [pre hp]
        have taken : min n (buf.length - pos) = n := by omega
        have rest : buf.length - pos - n = buf.length - (pos + n) := by omega
        rw [(Channel.transfer_part hk less os).1, next, ih hn]
        simp only [taken, rest, Nat.add_assoc]
      case neg =>
        have less : (buf.take pos).length < buf.length := by rwa [pre hp]
        have full : buf.length ≤ (buf.take pos).length + n := by rw [pre hp]; omega
        have taken : min n (buf.length - pos) = buf.length - pos := by omega
        have all : pos + (buf.length - pos) = buf.length := by omega
        rw [Channel.transfer_full hk less full, next]
        simp only [taken, Nat.sub_self, sockWriteLoop, Nat.add_zero, all, Transferred.result]
        rw [List.take_of_length_le (by omega), List.take_length]
        rfl

-- Seen from the queue of a connection, a call is the loop over its rounds.
theorem writeTimeout_rounds (buf : List UInt8) (os : List (Outcome Nat)) :
    (writeTimeout buf os).result = (sockWriteTimeout (rounds os) buf).swap := by
  rw [sockWriteTimeout]
  by_cases hb : buf.length = 0
  case pos => simp [writeTimeout, hb, Transferred.result, sockWriteLoop]
  case neg =>
    have all := transfer_rounds (Nat.pos_of_ne_zero hb) os
    rw [writeTimeout, if_neg hb, Channel.run]
    simpa using all

end Rounds

-- The errors that a caller of `send` or `recv` is to try again after.
inductive Transient
  | eintr
  | eagain
  | ewouldblock

def Transient.errno : Transient → Nat
  | eintr       => Sock.eintr
  | eagain      => Sock.eagain
  | ewouldblock => Sock.ewouldblock

-- Outcomes, with transient errors that are put in between.
abbrev Mixed (α : Type) := List (Outcome α ⊕ Transient)

namespace Mixed

def original (m : Mixed α) : List (Outcome α) :=
  m.filterMap Sum.getLeft?

def extended (m : Mixed α) : List (Outcome α) :=
  m.map (Sum.elim id fun e => .error e.errno)

end Mixed

-- The loop is left before the first error that is put in, or transfers nothing more from there on
-- and returns 0. The outcomes in front of that error are `pre` and those of the list.
def Harmless (c : Channel (Outcome α) UInt8) (pre : List (Outcome α)) : Mixed α → Prop
  | []          => True
  | .inl o :: m => Harmless c (pre ++ [o]) m
  | .inr _ :: m => c.Ended pre ∨ c.Fruitless (c.total pre) (Mixed.original m)

theorem run_extended_iff {c : Channel (Outcome α) UInt8}
    (fail : ∀ errno, c.kind (.error errno) = .fail) (pre : List (Outcome α)) (m : Mixed α) :
    (c.run (pre ++ m.extended)).result = (c.run (pre ++ m.original)).result ↔
      Harmless c pre m := by
  induction m generalizing pre
  case nil => exact ⟨fun _ => trivial, fun _ => rfl⟩
  case cons x m ih =>
    cases x
    case inl o => simpa [Harmless, Mixed.extended, Mixed.original] using ih (pre ++ [o])
    case inr e => exact Channel.run_insert_iff (fail e.errno) pre _ _

theorem transient_errors (buf : List UInt8) (m : Mixed Nat) (len : Nat) (m' : Mixed (List UInt8)) :
    ((writeTimeout buf m.extended).result = (writeTimeout buf m.original).result ↔
      Harmless (writeChannel buf) [] m) ∧
    ((readTimeout len m'.extended).result = (readTimeout len m'.original).result ↔
      Harmless (readChannel len) [] m') := by
  refine ⟨?_, run_extended_iff (readChannel_error len) [] m'⟩
  rw [writeTimeout_result, writeTimeout_result]
  exact run_extended_iff (writeChannel_error buf) [] m

-- Two bytes in two parts, and a signal in between.
theorem not_transient_errors :
    let m : Mixed Nat := [.inl (.done 1), .inr .eintr, .inl (.done 1)]
    (writeTimeout [97, 98] m.original).result = (2, [97, 98]) ∧
      (writeTimeout [97, 98] m.extended).result = (0, [97]) := by
  decide

end Sock
end NetPool
