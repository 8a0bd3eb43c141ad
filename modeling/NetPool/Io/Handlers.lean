import NetPool.Lib.Pump
import NetPool.Io.Job

namespace NetPool

inductive Os
  | linux
  | windows
  deriving DecidableEq

-- What `recv` and `recvfrom` return: the bytes they have put into the buffer, or -1 with an error.
inductive RecvOut
  | ret (chunk : List UInt8)
  | intr
  | wouldBlock
  | error
  deriving DecidableEq

-- What `accept` returns. `error` stands for every error but `EINTR`, `EAGAIN` and `EWOULDBLOCK`.
inductive AcceptOut
  | conn (connFd : Nat)
  | intr
  | wouldBlock
  | error
  deriving DecidableEq

-- The calls of `m_read_func` of a TCP and of a UDP job, and of `m_accept_func`.
structure ReadCall where
  func   : Hdl
  fd     : Fd
  param1 : Nat
  buf    : List UInt8
  len    : Nat
  deriving DecidableEq

structure UdpReadCall extends ReadCall where
  cliAddr : List UInt8
  deriving DecidableEq

structure AcceptCall where
  func   : Hdl
  connFd : Nat
  param1 : Nat
  deriving DecidableEq

-- The bytes that a read callback is given.
def ReadCall.content (c : ReadCall) : List UInt8 :=
  c.buf.take c.len

-- One round of the two loops that read: `intr` is what they do after an interrupted call, and
-- `call` the callback for what has been received.
def recvRound (intr : Verdict β) (call : List UInt8 → β) : RecvOut → Verdict β
  | .ret []             => .last (call [])
  | .ret (byte :: rest) => .hand (call (byte :: rest))
  | .intr               => intr
  | .wouldBlock         => .stop
  | .error              => .last (call [])

namespace IoJob

-- `m_cache_buf` after the `memset` and a call that has received `chunk`.
def cacheBuf (j : IoJob) (chunk : List UInt8) : List UInt8 :=
  chunk ++ List.replicate (j.cacheLen - chunk.length) 0

def readCall (j : IoJob) (chunk : List UInt8) : ReadCall where
  func   := j.readFunc
  fd     := j.fd
  param1 := j.param1
  buf    := j.cacheBuf chunk
  len    := chunk.length

def tcpRound (os : Os) (j : IoJob) : RecvOut → Verdict ReadCall :=
  recvRound (match os with | .linux => .again | .windows => .stop) j.readCall

-- `recvfrom` leaves `cliAddr` in `cliAddrTmp`. An interrupted call ends the loop on both systems.
def udpRound (j : IoJob) : RecvOut × List UInt8 → Verdict UdpReadCall
  | (out, cliAddr) => recvRound .stop (⟨j.readCall ·, cliAddr⟩) out

def acceptRound (os : Os) (j : IoJob) : AcceptOut → Verdict AcceptCall
  | .conn 0           => .stop
  | .conn (connFd + 1) => .hand ⟨j.readFunc, connFd + 1, j.param1⟩
  | .intr             => match os with | .linux => .again | .windows => .stop
  | .wouldBlock       => .stop
  | .error            => .stop

-- The three overrides of `read_evt_handle`. An answer of the system comes with what the callback
-- does to the job if it is called. The loop of a listening job does not test whether the job is
-- deleted.
def tcpReadEvtHandle (os : Os) : IoJob → List (RecvOut × (IoJob → IoJob)) →
    Pumped IoJob RecvOut ReadCall :=
  pump (·.isWantDelete) (tcpRound os)

def udpReadEvtHandle : IoJob → List ((RecvOut × List UInt8) × (IoJob → IoJob)) →
    Pumped IoJob (RecvOut × List UInt8) UdpReadCall :=
  pump (·.isWantDelete) udpRound

def acceptReadEvtHandle (os : Os) : IoJob → List (AcceptOut × (IoJob → IoJob)) →
    Pumped IoJob AcceptOut AcceptCall :=
  pump (fun _ => false) (acceptRound os)

end IoJob

section Tcp

-- What `recv` returns to the handler as data, and what it returns at the end of the stream.
def RecvOut.chunk? : RecvOut → Option (List UInt8)
  | ret []                    => none
  | ret (byte :: rest)        => some (byte :: rest)
  | intr | wouldBlock | error => none

def RecvOut.closes : RecvOut → Bool
  | ret []                    => true
  | ret (_ :: _)              => false
  | error                     => true
  | intr | wouldBlock         => false

variable {j : IoJob} {out : RecvOut} {c : ReadCall}

theorem IoJob.content_readCall (chunk : List UInt8) : (j.readCall chunk).content = chunk := by
  simp [ReadCall.content, IoJob.readCall, IoJob.cacheBuf]

-- A chunk, an interrupted call and a chunk, and a peer that has closed; a callback that deletes the
-- job.
example : let p := (IoJob.new .tcp 5 0).tcpReadEvtHandle .linux [(.ret [1, 2], id), (.intr, id),
      (.ret [3], id), (.ret [], id), (.ret [4], id)]
    p.calls.map (·.content) = [[1, 2], [3], []] ∧ p.exit = some .handed := by
  decide

end Tcp

section Udp

-- What the handler of a UDP job hands on: a datagram, and an error as an empty one.
def RecvOut.passed? : RecvOut → Option (List UInt8)
  | ret chunk         => some chunk
  | error             => some []
  | intr | wouldBlock => none

def RecvOut.exhausted (out : RecvOut) : Prop :=
  out = .wouldBlock ∨ out = .error

-- What a call of the handler of a UDP job should do.
structure UdpDrained (p : Pumped IoJob (RecvOut × List UInt8) UdpReadCall) : Prop where
  passed  : p.calls.map (fun c => (c.content, c.cliAddr)) =
    p.received.filterMap fun out => out.1.passed?.map (·, out.2)
  returns : p.exit.isSome → ∃ out ∈ p.received.getLast?, out.1.exhausted

variable {j : IoJob} {out : RecvOut × List UInt8}

theorem udpRound_goesOn : (j.udpRound out).goesOn = out.1.chunk?.isSome := by
  obtain ⟨out, cliAddr⟩ := out
  cases out
  case ret chunk => cases chunk <;> rfl
  all_goals rfl

theorem udpRound_passed? : (j.udpRound out).call?.map (fun c => (c.content, c.cliAddr)) =
    out.1.passed?.map (·, out.2) := by
  obtain ⟨out, cliAddr⟩ := out
  cases out
  case ret chunk =>
    have := j.content_readCall chunk
    cases chunk <;> simpa [IoJob.udpRound, recvRound, RecvOut.passed?] using this
  case error =>
    have := j.content_readCall []
    simpa [IoJob.udpRound, recvRound, RecvOut.passed?] using this
  all_goals rfl

-- An interrupted call and an empty datagram end the loop too, while datagrams are left.
theorem udp_drained_iff {answers : List ((RecvOut × List UInt8) × (IoJob → IoJob))}
    (hk : ∀ a ∈ answers, ∀ j, (a.2 j).isWantDelete = j.isWantDelete) :
    UdpDrained (j.udpReadEvtHandle answers) ↔ j.isWantDelete = false ∧
      ∀ out ∈ (answers.map (·.1)).find? (!·.1.chunk?.isSome), out.1.exhausted := by
  have spec : (j.udpReadEvtHandle answers).Spec (·.isWantDelete) IoJob.udpRound j answers :=
    pump_spec j answers
  cases hj : j.isWantDelete
  case true =>
    have hp : j.udpReadEvtHandle answers = ⟨[], [], j, some .halted⟩ := by
      unfold IoJob.udpReadEvtHandle pump
      simp [hj]
    refine iff_of_false (fun h => ?_) (by simp)
    obtain ⟨_, hm, _⟩ := h.returns (by rw [hp]; rfl)
    simp [hp, Pumped.received] at hm
  case false =>
    have hh : (j.udpReadEvtHandle answers).exit ≠ some .halted := Pumped.pump_not_halted hk hj
    generalize j.udpReadEvtHandle answers = p at spec hh
    rw [spec.find? (fun _ _ => udpRound_goesOn) hh]
    have passed : p.calls.map (fun c => (c.content, c.cliAddr)) =
        p.received.filterMap fun out => out.1.passed?.map (·, out.2) := by
      rw [spec.calls, List.map_filterMap, Pumped.received, List.filterMap_map]
      exact List.filterMap_congr fun t _ => udpRound_passed?
    constructor
    case mp =>
      refine fun h => ⟨rfl, fun out ho => ?_⟩
      split at ho
      case isFalse   => cases ho
      case isTrue he =>
        obtain ⟨out', hm, hx⟩ := h.returns he
        cases hm.symm.trans ho
        exact hx
    case mpr =>
      rintro ⟨_, h⟩
      refine ⟨passed, fun he => ?_⟩
      rw [if_pos he] at h
      obtain ⟨t, ht⟩ := spec.exists_last he hh
      have ho : t.2 ∈ p.received.getLast? := by simp [Pumped.received, Option.mem_def.mp ht]
      exact ⟨t.2, ho, h t.2 ho⟩

theorem udp_drained_iff_sample :
    UdpDrained ((IoJob.new .udp 5 0).udpReadEvtHandle
        [((.ret [1], []), id), ((.wouldBlock, []), (·.setReadCallback .null))]) ↔
      (IoJob.new .udp 5 0).isWantDelete = false ∧
        ∀ out ∈ [(RecvOut.ret [1], ([] : List UInt8)), (.wouldBlock, [])].find? (!·.1.chunk?.isSome),
          out.1.exhausted :=
  udp_drained_iff (by simp [IoJob.setReadCallback])

-- A datagram behind an empty one, and one behind an interrupted call.
theorem not_udp_drained :
    ¬UdpDrained ((IoJob.new .udp 5 0).udpReadEvtHandle
      [((.ret [], []), id), ((.ret [1], []), id), ((.wouldBlock, []), id)]) ∧
    ¬UdpDrained ((IoJob.new .udp 5 0).udpReadEvtHandle
      [((.intr, []), id), ((.ret [1], []), id), ((.wouldBlock, []), id)]) := by
  constructor
  case left =>
    intro h
    have ⟨_, ho, hx⟩ := h.returns rfl
    cases ho
    simp [RecvOut.exhausted] at hx
  case right =>
    intro h
    have ⟨_, ho, hx⟩ := h.returns rfl
    cases ho
    simp [RecvOut.exhausted] at hx

end Udp

section Accept

def AcceptOut.conn? : AcceptOut → Option Nat
  | conn connFd               => some connFd
  | intr | wouldBlock | error => none

-- The results of `accept` after which the handler goes on.
def AcceptOut.goesOn : AcceptOut → Bool
  | conn connFd        => connFd ≠ 0
  | intr               => true
  | wouldBlock | error => false

-- What a call of the handler of a listening job should do.
structure AcceptDrained (p : Pumped IoJob AcceptOut AcceptCall) : Prop where
  passed  : p.calls.map (·.connFd) = p.received.filterMap AcceptOut.conn?
  returns : p.exit.isSome → p.received.getLast? = some .wouldBlock

variable {j : IoJob} {out : AcceptOut}

theorem acceptRound_goesOn : (j.acceptRound .linux out).goesOn = out.goesOn := by
  cases out
  case conn connFd => cases connFd <;> rfl
  all_goals rfl

theorem acceptRound_conn? (h : out ≠ .conn 0) :
    (j.acceptRound .linux out).call?.map (·.connFd) = out.conn? := by
  cases out
  case conn connFd =>
    cases connFd
    case zero => exact absurd rfl h
    case succ => rfl
  all_goals rfl

-- An error that concerns one connection and the descriptor 0 end the loop too, while connections
-- are left in the backlog.
theorem accept_drained_iff (answers : List (AcceptOut × (IoJob → IoJob))) :
    AcceptDrained (j.acceptReadEvtHandle .linux answers) ↔
      ∀ out ∈ (answers.map (·.1)).find? (!·.goesOn), out = .wouldBlock := by
  have spec : (j.acceptReadEvtHandle .linux answers).Spec (fun _ => false) (IoJob.acceptRound .linux) j
    answers := pump_spec j answers
  have hh : (j.acceptReadEvtHandle .linux answers).exit ≠ some .halted :=
    Pumped.pump_not_halted (fun _ _ _ => rfl) rfl
  generalize j.acceptReadEvtHandle .linux answers = p at spec hh
  rw [spec.find? (fun _ _ => acceptRound_goesOn) hh]
  constructor
  case mp =>
    intro h out ho
    split at ho
    case isFalse   => cases ho
    case isTrue he =>
      rw [h.returns he] at ho
      exact (Option.some.inj ho).symm
  case mpr =>
    intro h
    have returns (he : p.exit.isSome) : p.received.getLast? = some .wouldBlock := by
      rw [if_pos he] at h
      have ⟨t, ht⟩ := spec.exists_last he hh
      have ho : p.received.getLast? = some t.2 := by simp [Pumped.received, ht]
      rw [ho, h t.2 ho]
    refine ⟨?_, returns⟩
    rw [spec.calls, List.map_filterMap, Pumped.received, List.filterMap_map]
    refine List.filterMap_congr fun t ht => acceptRound_conn? fun hz => ?_
    -- The descriptor 0 is the last result, and the last one is `wouldBlock`.
    have hg : (t.1.acceptRound .linux t.2).goesOn = false := by rw [acceptRound_goesOn, hz]; rfl
    have hl := spec.getLast? ht hg
    have he : p.exit.isSome := by
      have left := spec.left
      cases hx : p.exit <;> rw [hx] at left
      case none   => rw [left.1 t ht] at hg; cases hg
      case some e => rfl
    have := returns he
    simp [Pumped.received, Option.mem_def.mp hl, hz] at this

-- A connection behind one that was aborted, and a connection that gets the descriptor 0.
theorem not_accept_drained :
    ¬AcceptDrained ((IoJob.new .listen 3 0).acceptReadEvtHandle .linux
      [(.error, id), (.conn 7, id), (.wouldBlock, id)]) ∧
    ¬AcceptDrained ((IoJob.new .listen 3 0).acceptReadEvtHandle .linux
      [(.conn 0, id), (.wouldBlock, id)]) := by
  constructor
  case left  => exact fun h => by cases h.returns rfl
  case right => exact fun h => by cases h.returns rfl

end Accept
end NetPool
