import NetPool.Io.Handlers
import NetPool.Lib.Conduit
import NetPool.Recv.Stream

namespace NetPool

-- The job of a TCP descriptor that is registered for reading, with the loop of its
-- `read_evt_handle`: whether the worker is in it, and the calls of the read callback so far.
structure Reader where
  job    : IoJob
  inLoop : Bool
  calls  : List ReadCall

-- What a read callback does to its own job: it may delete it.
def deleteIf (del : Bool) (j : IoJob) : IoJob :=
  if del then j.setDeletingFlag else j

namespace Reader

-- One round of the loop: the test, `recv` and the callback. `recv` is only called if the job is not
-- deleted.
def round (r : Reader) (out : RecvOut) (del : Bool) : Reader :=
  if r.job.isWantDelete then { r with inLoop := false }
  else
    match r.job.tcpRound .linux out with
    | .again  => r
    | .stop   => { r with inLoop := false }
    | .hand c => { r with
      job   := deleteIf del r.job
      calls := r.calls ++ [c] }
    | .last c => ⟨deleteIf del r.job, false, r.calls ++ [c]⟩

-- The rounds up to the one that leaves the loop.
def pass (r : Reader) : List (RecvOut × Bool) → Reader
  | []                    => r
  | (out, del) :: rounds => if r.inLoop then (r.round out del).pass rounds else r

-- The bytes that the read callback has been given.
def content (r : Reader) : List UInt8 :=
  r.calls.flatMap (·.content)

-- The read callback has been told that the stream has ended.
def Ended (r : Reader) : Prop :=
  ∃ c ∈ r.calls, c.len = 0

variable {r : Reader} {out : RecvOut} {del : Bool}

theorem pass_of_left (h : r.inLoop = false) (rounds : List (RecvOut × Bool)) :
    r.pass rounds = r := by
  cases rounds <;> simp [pass, h]

-- The rounds of a pass are those of the handler. The test of the loop is also made once after them.
theorem pass_eq (j : IoJob) (calls : List ReadCall) (rounds : List (RecvOut × Bool)) :
    let p := j.tcpReadEvtHandle .linux (rounds.map fun (out, del) => (out, deleteIf del))
    (⟨j, true, calls⟩ : Reader).pass (rounds ++ [(.intr, false)]) =
      ⟨p.final, p.exit.isNone, calls ++ p.calls⟩ := by
  induction rounds generalizing j calls
  case nil =>
    unfold IoJob.tcpReadEvtHandle pump
    cases hd : j.isWantDelete <;> simp [pass, round, hd, IoJob.tcpRound, recvRound]
  case cons head rounds hi =>
    obtain ⟨out, del⟩ := head
    unfold IoJob.tcpReadEvtHandle at hi ⊢
    rw [List.map_cons, pump]
    cases hd : j.isWantDelete
    case true => simp [pass, round, hd, pass_of_left]
    case false =>
      cases hj : j.tcpRound .linux out
      case again  => simpa [pass, round, hd, hj] using hi j calls
      case stop   => simp [pass, round, hd, hj, pass_of_left]
      case hand c => simpa [pass, round, hd, hj] using hi (deleteIf del j) (calls ++ [c])
      case last c => simp [pass, round, hd, hj, pass_of_left]

-- What a round with `recv` can do to the reader.
inductive Rounded (r r' : Reader) (out : RecvOut) : Prop
  | again (out : out = .intr) (eq : r' = r)
  | stop  (out : out = .wouldBlock) (eq : r' = { r with inLoop := false })
  | hand  (chunk : out.chunk? = some l) (loop : r'.inLoop = r.inLoop)
      (calls : r'.calls = r.calls ++ [r.job.readCall l])
  | last  (closes : out.closes) (loop : r'.inLoop = false)
      (calls : r'.calls = r.calls ++ [r.job.readCall []])

theorem round_rounded (live : r.job.isWantDelete = false) : Rounded r (r.round out del) out := by
  cases out <;> simp only [round, live, IoJob.tcpRound, recvRound, Bool.false_eq_true, reduceIte]
  case ret chunk =>
    cases chunk
    case nil            => exact .last rfl rfl rfl
    case cons byte rest => exact .hand rfl rfl rfl
  case intr       => exact .again rfl rfl
  case wouldBlock => exact .stop rfl rfl
  case error      => exact .last rfl rfl rfl

end Reader
namespace Writer

variable {w w' : Writer} {a : Act}

-- What the socket has been given: by the worker, and then by the synchronous calls.
def stream (w : Writer) : List UInt8 :=
  w.wire ++ w.direct

theorem step_direct (h : w.step a = some w') :
    w'.direct = w.direct ∨ w'.wire = w.wire ∧ w.direct <+: w'.direct := by
  cases a
  case direct i round =>
    obtain ⟨buf, _, h⟩ := Option.map_eq_some_iff.mp h
    subst h
    cases round
    case sent n           => exact .inr ⟨rfl, List.prefix_append _ _⟩
    case notReady | error => exact .inl rfl
  case enter news buf =>
    simp only [step, enter] at h
    split at h
    case isTrue  =>
      obtain ⟨_, h⟩ := Option.ite_none_right_eq_some.mp h
      cases h
      exact .inl rfl
    case isFalse =>
      cases h
      exact .inl rfl
  case start =>
    obtain ⟨_, h⟩ := Option.ite_none_right_eq_some.mp h
    cases h
    unfold start
    split <;> exact .inl rfl
  case deq =>
    obtain ⟨_, h⟩ := Option.ite_none_right_eq_some.mp h
    cases h
    unfold deq
    split <;> exact .inl rfl
  case send out =>
    simp only [step] at h
    split at h
    case h_2 => contradiction
    case h_1 =>
      obtain ⟨_, h⟩ := Option.ite_none_right_eq_some.mp h
      cases h
      cases out <;> exact .inl rfl
  case finish =>
    simp only [step] at h
    split at h
    case h_2 => contradiction
    case h_1 =>
      obtain ⟨_, h⟩ := Option.ite_none_right_eq_some.mp h
      cases h
      unfold finish
      split <;> exact .inl rfl
  case register =>
    obtain ⟨_, h⟩ := Option.ite_none_right_eq_some.mp h
    cases h
    exact .inl rfl
  case free rounds =>
    obtain ⟨_, h⟩ := Option.ite_none_right_eq_some.mp h
    cases h
    unfold freeAsyncWriteResource
    split <;> exact .inl rfl

-- The worker writes only while no synchronous call does.
theorem step_stream (wf : w.Wf) (h : w.step a = some w') : w.stream <+: w'.stream := by
  unfold stream
  obtain hd | ⟨hw, hd⟩ := step_direct h
  case inr => rwa [hw, List.prefix_append_right_inj]
  case inl =>
    have quiet (hw : w'.wire = w.wire) : w.wire ++ w.direct <+: w'.wire ++ w'.direct := by
      rw [hw, hd]
    have more {l} (ha : w.isAsyncWrite = true) (hw : w'.wire = w.wire ++ l) :
        w.wire ++ w.direct <+: w'.wire ++ w'.direct := by
      rw [hw, hd, (wf.direct ha).1, List.append_nil, List.append_nil]
      exact List.prefix_append _ _
    cases (step_effect wf h).2
    case quiet wire _ _ _ _             => exact quiet wire
    case fill wire _ _ _ _              => exact quiet wire
    case release wire _ _ _ _           => exact quiet wire
    case send wire _ _ async _          => exact more async wire
    case flush wire _ _ _ _ _ async _   => exact more async wire

end Writer

-- Two ends of a connection: the writer of one peer, and the TCP job of the other one.
structure Link where
  writer  : Writer
  conduit : Conduit UInt8
  reader  : Reader

namespace Link

-- `event` is the worker taking the event of the descriptor out of the batch, `leave` the test that
-- leaves the loop, and `delete` a deletion of the job by another thread.
inductive Act
  | write (a : Writer.Act)
  | close
  | arrive (n : Nat)
  | finish
  | reset
  | notice
  | event
  | leave
  | recv (out : RecvOut) (del : Bool)
  | delete

-- What `recv` may return.
def answers (c : Conduit UInt8) : RecvOut → Bool
  | .ret []         => c.waiting = [] ∧ (c.fin ∨ c.broken)
  | .ret (b :: bs)  => c.broken = false ∧ (b :: bs).isPrefixOf c.waiting
  | .intr           => true
  | .wouldBlock     => c.waiting = [] ∧ c.fin = false ∧ c.broken = false
  | .error          => c.broken

def onConduit (s : Link) (a : Conduit.Act UInt8) : Option Link :=
  (s.conduit.step a).map ({ s with conduit := · })

def step (s : Link) : Act → Option Link
  | .write a  => do
    let w ← s.writer.step a
    let c ← s.conduit.step (.put (w.stream.drop s.writer.stream.length))
    some { s with writer := w, conduit := c }
  | .close    => if s.writer.pc = .freed then s.onConduit .close else none
  | .arrive n => s.onConduit (.arrive n)
  | .finish   => s.onConduit .finish
  | .reset    => s.onConduit .reset
  | .notice   => s.onConduit .notice
  | .event    =>
    if s.reader.inLoop then none
    else (s.onConduit .pick).map fun s => { s with reader := { s.reader with inLoop := true } }
  | .leave    =>
    if s.reader.inLoop ∧ s.reader.job.isWantDelete then
      some { s with reader := s.reader.round .intr false }
    else none
  | .recv out del =>
    if s.reader.inLoop ∧ s.reader.job.isWantDelete = false ∧ answers s.conduit out then
      match out.chunk? with
      | none       => some { s with reader := s.reader.round out del }
      | some chunk => (s.onConduit (.recv chunk.length)).map fun t =>
        { t with reader := s.reader.round out del }
    else none
  | .delete   => some { s with reader := { s.reader with job := s.reader.job.setDeletingFlag } }

end Link

-- The writer from `init_async_write_resource` on, and a job that has been registered for reading
-- before anything arrives.
def link : System Link Link.Act where
  init s := s.writer = Writer.new.initAsyncWriteResource ∧ s.conduit = .empty ∧
    s.reader.inLoop = false ∧ s.reader.calls = []
  step   := Link.step

namespace Link

variable {s s' : Link}

-- What the reader knows: it has been told of everything that has arrived, or it is deleted, or the
-- stream has ended.
structure Wf (s : Link) : Prop where
  writer   : NetPool.writer.Reachable s.writer
  conduit  : (NetPool.conduit UInt8).Reachable s.conduit
  sent     : s.conduit.sent = s.writer.stream
  received : s.reader.content = s.conduit.received
  closed   : s.conduit.closed = true → s.writer.pc = .freed
  told     : s.conduit.edge = false → s.reader.inLoop = false →
    s.conduit.Dry ∨ s.reader.job.isWantDelete ∨ s.reader.Ended
  ended    : s.reader.Ended → s.conduit.Over

theorem Wf.onConduit {a : Conduit.Act UInt8} (wf : s.Wf) (ha : a.quiet)
    (hc : a = .close → s.writer.pc = .freed) (h : s.onConduit a = some s') : s'.Wf := by
  obtain ⟨c, hs, rfl⟩ := Option.map_eq_some_iff.mp h
  obtain ⟨sent, received, told, closed, ended⟩ := (Conduit.Wf.of_reachable wf.conduit).quiet ha hs
  refine ⟨wf.writer, Conduit.reachable_step wf.conduit hs, sent.trans wf.sent,
    wf.received.trans received.symm, ?_, fun he hl => ?_, fun h => ended (wf.ended h)⟩
  case refine_1 => exact fun hcl => (closed hcl).elim wf.closed hc
  case refine_2 =>
    obtain ht | ⟨hs, hd⟩ := told
    case inl => simp [ht] at he
    case inr => exact (wf.told (hs ▸ he) hl).imp_left hd

theorem Wf.write {a : Writer.Act} (wf : s.Wf) (h : s.step (.write a) = some s') : s'.Wf := by
  obtain ⟨w, hw, h⟩ := Option.bind_eq_some_iff.mp h
  obtain ⟨c, hc, h⟩ := Option.bind_eq_some_iff.mp h
  cases h
  have pre := Writer.step_stream (.of_reachable wf.writer) hw
  have reach := Conduit.reachable_step wf.conduit hc
  obtain ⟨hl, hc⟩ := Option.ite_none_left_eq_some.mp hc
  cases hc
  refine ⟨.step wf.writer trivial hw, reach, ?_, wf.received, fun h => absurd h hl, wf.told,
    wf.ended⟩
  rw [wf.sent, List.prefix_iff_eq_append.mp pre]

theorem Wf.event (wf : s.Wf) (h : s.step .event = some s') : s'.Wf := by
  obtain ⟨hl, h⟩ := Option.ite_none_left_eq_some.mp h
  obtain ⟨t, ht, rfl⟩ := Option.map_eq_some_iff.mp h
  obtain ⟨c, hc, rfl⟩ := Option.map_eq_some_iff.mp ht
  have reach := Conduit.reachable_step wf.conduit hc
  obtain ⟨_, hc⟩ := Option.ite_none_right_eq_some.mp hc
  cases hc
  exact ⟨wf.writer, reach, wf.sent, wf.received, wf.closed, nofun, wf.ended⟩

theorem Wf.leave (wf : s.Wf) (h : s.step .leave = some s') : s'.Wf := by
  obtain ⟨⟨hl, hd⟩, h⟩ := Option.ite_none_right_eq_some.mp h
  cases h
  have hr : s.reader.round .intr false = { s.reader with inLoop := false } := by
    simp [Reader.round, hd]
  rw [hr]
  exact ⟨wf.writer, wf.conduit, wf.sent, wf.received, wf.closed, fun _ _ => .inr (.inl hd),
    wf.ended⟩

theorem content_concat {r r' : Reader} {l : List UInt8}
    (h : r'.calls = r.calls ++ [r.job.readCall l]) : r'.content = r.content ++ l := by
  simp [Reader.content, h, IoJob.content_readCall]

theorem over_of_closes {c : Conduit UInt8} {out : RecvOut} (ans : answers c out) (h : out.closes) :
    out.chunk? = none ∧ c.Over := by
  cases out
  case ret chunk =>
    cases chunk
    case cons => cases h
    case nil  =>
      obtain ⟨hw, hf | hb⟩ : c.waiting = [] ∧ (c.fin ∨ c.broken) := of_decide_eq_true ans
      case inl => exact ⟨rfl, .inr ⟨hf, hw⟩⟩
      case inr => exact ⟨rfl, .inl hb⟩
  case error => exact ⟨rfl, .inl ans⟩
  all_goals cases h

theorem prefix_of_chunk {c : Conduit UInt8} {out : RecvOut} {l : List UInt8} (ans : answers c out)
    (h : out.chunk? = some l) : l ≠ [] ∧ l <+: c.waiting := by
  cases out
  case ret chunk =>
    cases chunk <;> cases h
    case cons =>
      rw [answers, Bool.decide_and, Bool.and_eq_true, decide_eq_true_iff] at ans
      exact ⟨nofun, List.isPrefixOf_iff_prefix.mp (of_decide_eq_true ans.2)⟩
  all_goals cases h

theorem Wf.recv {out : RecvOut} {del : Bool} (wf : s.Wf) (h : s.step (.recv out del) = some s') :
    s'.Wf := by
  obtain ⟨⟨hl, live, ans⟩, h⟩ := Option.ite_none_right_eq_some.mp h
  have r : s.reader.Rounded (s.reader.round out del) out := Reader.round_rounded live
  cases r
  case again ho eq =>
    subst ho
    cases h
    rw [eq]
    exact wf
  case stop ho eq =>
    subst ho
    cases h
    rw [eq]
    refine ⟨wf.writer, wf.conduit, wf.sent, wf.received, wf.closed, fun _ _ => .inl ?_, wf.ended⟩
    simpa [answers, Conduit.Dry] using ans
  case last closes loop calls =>
    obtain ⟨hn, ended⟩ := over_of_closes ans closes
    simp only [hn, Option.some.injEq] at h
    subst h
    refine ⟨wf.writer, wf.conduit, wf.sent, ?_, wf.closed, fun _ _ => .inr (.inr ?_),
      fun _ => ended⟩
    case refine_1 => simpa [content_concat calls] using wf.received
    case refine_2 => exact ⟨s.reader.job.readCall [], by simp [calls], rfl⟩
  case hand l chunk loop calls =>
    simp only [chunk] at h
    obtain ⟨t, ht, rfl⟩ := Option.map_eq_some_iff.mp h
    obtain ⟨c, hc, rfl⟩ := Option.map_eq_some_iff.mp ht
    have reach := Conduit.reachable_step wf.conduit hc
    obtain ⟨hb, hc⟩ := Option.ite_none_left_eq_some.mp hc
    cases hc
    obtain ⟨hne, pre⟩ := prefix_of_chunk ans chunk
    have ht : s.conduit.waiting.take l.length = l := (List.prefix_iff_eq_take.mp pre).symm
    refine ⟨wf.writer, reach, wf.sent, ?_, wf.closed, fun _ h => ?_, fun h => ?_⟩
    case refine_1 => simp [content_concat calls, wf.received, ht]
    case refine_2 => simp [loop, hl] at h
    case refine_3 =>
      -- After the end nothing is received.
      have he : s.reader.Ended := by
        obtain ⟨c, hc, hz⟩ := h
        rw [calls, List.mem_append, List.mem_singleton] at hc
        obtain hc | rfl := hc
        case inl => exact ⟨c, hc, hz⟩
        case inr => exact absurd (List.eq_nil_of_length_eq_zero hz) hne
      obtain h | ⟨_, hw⟩ := wf.ended he
      case inl => exact absurd h hb
      case inr => exact absurd (List.prefix_nil.mp (hw ▸ pre)) hne

theorem Wf.step {a : Act} (wf : s.Wf) (h : s.step a = some s') : s'.Wf := by
  cases a
  case write a        => exact wf.write h
  case event          => exact wf.event h
  case leave          => exact wf.leave h
  case recv out del   => exact wf.recv h
  case arrive n       => exact wf.onConduit (a := .arrive n) rfl nofun h
  case finish         => exact wf.onConduit (a := .finish) rfl nofun h
  case reset          => exact wf.onConduit (a := .reset) rfl nofun h
  case notice         => exact wf.onConduit (a := .notice) rfl nofun h
  case close          =>
    obtain ⟨hp, h⟩ := Option.ite_none_right_eq_some.mp h
    exact wf.onConduit (a := .close) rfl (fun _ => hp) h
  case delete         =>
    cases h
    exact ⟨wf.writer, wf.conduit, wf.sent, wf.received, wf.closed,
      fun he hl => .inr (.inl rfl), wf.ended⟩

theorem Wf.of_reachable (h : link.Reachable s) : s.Wf := by
  apply h.invariant
  case hs => exact fun _ _ _ wf _ hs => wf.step hs
  case h₀ =>
    rintro s ⟨hw, hc, hl, hr⟩
    refine ⟨.init hw, .init hc, ?_, ?_, ?_, fun _ _ => .inl ?_, ?_⟩
    case refine_4 => simp [hc, Conduit.empty, Conduit.Dry]
    case refine_5 => simp [Reader.Ended, hr]
    all_goals simp [hw, hc, hr, Conduit.empty, Writer.stream, Writer.initAsyncWriteResource,
      Writer.new, Reader.content]

-- The worker has no event of the descriptor left, and the job goes on.
structure Idle (s : Link) : Prop where
  edge  : s.conduit.edge = false
  left  : s.reader.inLoop = false
  live  : s.reader.job.isWantDelete = false
  goes  : ¬s.reader.Ended

-- The bytes that `send_data` has taken at one end against those that the read callback has been
-- given at the other one.
structure Delivered (s : Link) : Prop where
  inOrder  : s.reader.content <+: s.writer.stream
  taken    : s.writer.wire <+: s.writer.accepted
  accepted : s.writer.isAsyncWrite = true ∨ s.writer.direct = [] →
    s.reader.content <+: s.writer.accepted
  told     : s.Idle → s.conduit.waiting = []
  all      : s.Idle → s.conduit.flight = [] → s.reader.content = s.writer.stream
  complete : s.Idle → s.conduit.flight = [] → s.writer.isAsyncWrite = true →
    unsentOf s.writer.nodes = [] → s.reader.content = s.writer.accepted
  ended    : s.reader.Ended → s.conduit.broken = false →
    s.reader.content = s.writer.stream ∧ s.writer.pc = .freed
  flushed  : s.reader.Ended → s.conduit.broken = false → s.writer.isWriteFailed = false →
    s.writer.flushFailed = false → s.reader.content = s.writer.accepted ++ s.writer.direct

theorem delivered (h : link.Reachable s) : s.Delivered := by
  have wf := Wf.of_reachable h
  have c := Conduit.Wf.of_reachable wf.conduit
  have w := Writer.Wf.of_reachable wf.writer
  have async (ha : s.writer.isAsyncWrite = true) :
      s.writer.stream ++ unsentOf s.writer.nodes = s.writer.accepted := by
    obtain ⟨_, he⟩ := Pipe.given_waiting_prefix (Writer.pipe_reachable wf.writer)
    simpa [Writer.pipe, ha, Writer.stream, (w.direct ha).1] using he
  have inOrder : s.reader.content <+: s.writer.stream := by
    rw [wf.received, ← wf.sent]
    exact c.pre
  have dry (hi : s.Idle) : s.conduit.Dry :=
    (wf.told hi.edge hi.left).resolve_right (by simp [hi.live, hi.goes])
  have all (hi : s.Idle) (hf : s.conduit.flight = []) : s.reader.content = s.writer.stream := by
    obtain ⟨hw, _, hb⟩ := dry hi
    simpa [wf.received, ← wf.sent, hw, hf] using c.whole hb
  have ended (he : s.reader.Ended) (hb : s.conduit.broken = false) :
      s.reader.content = s.writer.stream ∧ s.writer.pc = .freed := by
    obtain ⟨hf, hw⟩ := (wf.ended he).resolve_left (by simp [hb])
    obtain ⟨hc, hfl⟩ := c.fin hf
    refine ⟨?_, wf.closed hc⟩
    simpa [wf.received, ← wf.sent, hw, hfl hb] using c.whole hb
  have taken : s.writer.wire <+: s.writer.accepted :=
    (List.prefix_append _ _).trans (Pipe.given_waiting_prefix (Writer.pipe_reachable wf.writer)).1
  refine ⟨inOrder, taken, fun hd => ?_, fun hi => (dry hi).1, all, fun hi hf ha hu => ?_, ended,
    fun he hb hw hf => ?_⟩
  case refine_1 =>
    have direct : s.writer.direct = [] := hd.elim (fun ha => (w.direct ha).1) id
    refine inOrder.trans ?_
    rwa [Writer.stream, direct, List.append_nil]
  case refine_2 => rw [all hi hf, ← async ha, hu, List.append_nil]
  case refine_3 =>
    obtain ⟨hs, hp⟩ := ended he hb
    rw [hs, Writer.stream, Writer.complete_of_reachable wf.writer (w.freed.mp hp) hw hf]

-- Two sends, the second of which is taken by the socket after the first has arrived, and the end.
theorem delivered_all : ∃ s, link.Reachable s ∧ s.Delivered ∧ s.reader.Ended ∧
    s.conduit.broken = false ∧ s.reader.content = [1, 2, 3] := by
  have run : ∃ s, link.Reachable s ∧ (∃ c ∈ s.reader.calls, c.len = 0) ∧ s.conduit.broken = false ∧
      s.reader.content = [1, 2, 3] :=
    System.exists_of_run [.write (.enter [⟨0, fun _ => 0⟩] [1, 2]), .write .start, .write .deq,
      .write (.send (.sent 2)), .arrive 1, .event, .recv (.ret [1]) false,
      .write (.enter [⟨1, fun _ => 0⟩] [3]), .arrive 1, .recv (.ret [2]) false,
      .recv .wouldBlock false, .write .finish, .write .deq, .write (.send (.sent 1)),
      .write .finish, .write .deq, .write (.free []), .close, .arrive 1, .finish, .event,
      .recv .intr false, .recv (.ret [3]) false, .recv (.ret []) true] _
      (s := ⟨Writer.new.initAsyncWriteResource, .empty, ⟨.new .tcp 5 0, false, []⟩⟩)
      ⟨rfl, rfl, rfl, rfl⟩ (by decide)
  obtain ⟨s, hr, he, hb, hc⟩ := run
  exact ⟨s, hr, delivered hr, he, hb, hc⟩

end Link
end NetPool
