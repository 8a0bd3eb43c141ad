import NetPool.Lib.System
import NetPool.Pool.ThreadPool

namespace NetPool

-- The mutexes and spin locks on Linux: of the timers, the workers of a pool, a CNetRecv, the
-- I/O jobs, one job, the nodes of a CNetRecv, the loops, the tasks of a pool, its condition, and of
-- the logger.
inductive Lock
  | timer
  | pool (p : Nat)
  | register (r : Nat)
  | ioJobs
  | job (i : Nat)
  | queue (r : Nat)
  | poll
  | tasks (p : Nat)
  | notify (p : Nat)
  | logQueue
  | logNotify
  deriving DecidableEq

namespace Lock

-- The constructor of CIoJobMgr asks for a recursive mutex.
def recursive : Lock → Bool
  | .ioJobs => true
  | .timer | .pool _ | .register _ | .job _ | .queue _ | .poll | .tasks _ | .notify _ | .logQueue
  | .logNotify => false

end Lock

namespace Locking

-- The lock of a job. A listening job has none and logs that it is asked for it.
inductive IoLock
  | spin (i : Nat)
  | listen

-- What a thread has still to do, as far as it concerns locks and threads. `callback` is code of the
-- application. The loops are those of loop_handle, over its events, of time_job_walk, of
-- _poll_timer_callback, and the two loops of aged_worker and TellAllWorkerExit: one that tells
-- workers to exit and collects them in `trash`, one that joins them.
inductive Op
  | lock (l : Lock)
  | unlock (l : Lock)
  | log
  | callback
  | loop (index : Nat)
  | events
  | run (index : Nat)
  | walk
  | ageing
  | age (p : Nat) (trash : List Nat)
  | tell (p : Nat) (trash : List Nat)
  | stop (w : Nat)
  | drop (p w : Nat)
  | join (trash : List Nat)
  | grow (p : Nat)
  | insert (p : Nat)
  | create (w : Nat)
  | mark (w : Nat)
  | publish (p : Nat)
  | erase (p : Nat)
  | start
  | work (p : Nat)
  | got (p : Nat)
  | finish
  | exit
  deriving DecidableEq

-- `running` is the flag of the thread that Join waits for.
structure Thread where
  todo    : List Op := []
  held    : List Lock := []
  live    : Bool := false
  running : Bool := false
  isBusy  : Bool := false
  status  : ThreadPool.Status := .init

-- The functions that the application calls. What find_io_job finds and whether epoll_ctl accepts is
-- left open, and so is which lock a new job has. Those that take no lock are `other`: np_init,
-- np_free, np_let_stop and the two that set the functions of the threads.
inductive Fn
  | other
  | initWorkerThrds (maxThrdCnt : Nat)
  | initEvtThrds (maxThrdCnt : Nat)
  | freeEvtThrds (p : Nat)
  | evtJobsCnt (p : Nat)
  | addListenJob (found accepted : Bool)
  | delListenJob
  | addReadJob (found : Option IoLock) (i : Nat) (accepted : Bool)
  | delReadJob (found : Option IoLock)
  | addWriteJob (found : Option IoLock) (i : Nat) (accepted : Bool)
  | delWriteJob (found : Option IoLock)
  | addEvtJob (p : Nat)
  | addTimeJob
  | delTimeJob
  | start
  | waitStop
  | sendData (r : Nat) (queued : Bool) (write : Option (Option IoLock × Nat × Bool))
  | sendHandle (r nodes : Nat) (write : Option (Option IoLock × Nat × Bool))
  | freeAsyncWriteResource (r : Nat)
  | free (r : Nat) (read write : Option (Option IoLock))

-- What decides where a thread goes on: `leave` ends a loop or skips a branch.
inductive Choice
  | next
  | leave
  | call (f : Fn)
  | write (i : Nat)
  | ageing
  | pool (p : Nat)
  | worker (w : Nat)
  | task (index : Option Nat)

inductive Act
  | spawn
  | go (t : Nat) (c : Choice)

end Locking

open Locking in
-- Threads and pools are numbered as they are made. `workers` is m_ThreadPool of each pool.
structure Locking where
  thread     : Nat → Thread
  count      : Nat
  holder     : Lock → Option Nat
  pools      : Nat
  workers    : Nat → List Nat
  evtPools   : List Nat
  workerPool : Option (Nat × Nat)

namespace Locking

-- logger_write, when the level is logged and the logger is asynchronous.
def logWrite : List Op :=
  [.lock .logQueue, .unlock .logQueue, .lock .logNotify, .unlock .logNotify]

def IoLock.lock : IoLock → List Op
  | .spin i => [.lock (.job i)]
  | .listen => [.log]

def IoLock.unlock : IoLock → List Op
  | .spin i => [.unlock (.job i)]
  | .listen => [.log]

def addIoJob : List Op :=
  [.lock .ioJobs, .unlock .ioJobs]

def addListenJob (found accepted : Bool) : List Op :=
  if found then
    [.lock .ioJobs, .unlock .ioJobs, .log]
  else if accepted then
    [.lock .ioJobs] ++ addIoJob ++ [.unlock .ioJobs, .log]
  else
    [.lock .ioJobs, .unlock .ioJobs, .log]

def delListenJob : List Op :=
  [.lock .ioJobs, .unlock .ioJobs, .log]

def addReadJob (found : Option IoLock) (i : Nat) (accepted : Bool) : List Op :=
  match found, accepted with
  | none, true      => [.lock .ioJobs, .lock (.job i), .unlock (.job i)] ++ addIoJob ++
                       [.log, .unlock .ioJobs]
  | none, false     => [.lock .ioJobs, .lock (.job i), .unlock (.job i), .unlock .ioJobs, .log]
  | some job, true  => [.lock .ioJobs] ++ job.lock ++ [.log, .log] ++ job.unlock ++
                       [.unlock .ioJobs]
  | some job, false => [.lock .ioJobs] ++ job.lock ++ job.unlock ++ [.unlock .ioJobs, .log]

def delReadJob : Option IoLock → List Op
  | none     => [.lock .ioJobs, .unlock .ioJobs, .log]
  | some job => [.lock .ioJobs] ++ job.lock ++ [.log, .log] ++ job.unlock ++ [.unlock .ioJobs]

-- It sets the callback before it locks the job.
def addWriteJob (found : Option IoLock) (i : Nat) (accepted : Bool) : List Op :=
  match found, accepted with
  | none, true      => [.lock .ioJobs, .lock (.job i), .unlock (.job i)] ++ addIoJob ++
                       [.log, .unlock .ioJobs]
  | none, false     => [.lock .ioJobs, .lock (.job i), .unlock (.job i), .unlock .ioJobs, .log]
  | some job, true  => [.lock .ioJobs, .log] ++ job.lock ++ [.log] ++ job.unlock ++
                       [.unlock .ioJobs]
  | some job, false => [.lock .ioJobs, .log] ++ job.lock ++ [.log] ++ job.unlock ++
                       [.unlock .ioJobs, .log]

def delWriteJob : Option IoLock → List Op
  | none     => [.lock .ioJobs, .unlock .ioJobs]
  | some job => [.lock .ioJobs] ++ job.lock ++ [.log, .log] ++ job.unlock ++ [.unlock .ioJobs]

def writeEvtHandle (i : Nat) : List Op :=
  [.log, .lock (.job i), .log, .unlock (.job i), .callback]

-- The free callbacks are called behind the lock.
def handleDelingJob : List Op :=
  [.lock .ioJobs, .unlock .ioJobs, .callback]

def loopHandle (index : Nat) : List Op :=
  [.log, .lock .poll, .unlock .poll, .loop index]

def timeJobWalk : List Op :=
  [.lock .timer, .walk, .unlock .timer]

def delTimeJob : List Op :=
  [.lock .timer, .log, .unlock .timer, .log]

def agedWorker (p : Nat) : List Op :=
  [.lock (.pool p), .age p [], .unlock (.pool p), .log]

-- TellExit of a worker of the pool, and its removal from the set.
def tellExit (p w : Nat) : List Op :=
  [.stop w, .lock (.notify p), .unlock (.notify p), .drop p w]

def getTaskSize (p : Nat) : List Op :=
  [.lock (.tasks p), .unlock (.tasks p)]

def execute (p : Nat) : List Op :=
  getTaskSize p ++ [.grow p, .lock (.tasks p), .unlock (.tasks p), .lock (.notify p),
    .unlock (.notify p)]

-- A worker is put in the pool under the lock and started behind it.
def addWorker (p : Nat) : List Op :=
  [.lock (.pool p), .insert p]

-- Terminate, and the destructor that calls it again.
def freeEvtThrds (p : Nat) : List Op :=
  [.tell p [], .log, .erase p, .tell p [], .log]

def registerWrite : Option IoLock × Nat × Bool → List Op
  | (found, i, accepted) => addWriteJob found i accepted

-- The queue is looked at and changed under its lock. send_handle does so for each node.
def queueNode (r : Nat) : List Op :=
  [.lock (.queue r), .unlock (.queue r)]

-- What is put in the queue is registered, unless free has been called before.
def sendData (r : Nat) (queued : Bool) (write : Option (Option IoLock × Nat × Bool)) : List Op :=
  queueNode r ++ if queued then
      [.lock (.register r)] ++ (write.map registerWrite).getD [] ++ [.unlock (.register r)]
    else
      [.log]

def sendHandle (r nodes : Nat) (write : Option (Option IoLock × Nat × Bool)) : List Op :=
  [.log] ++ (List.replicate nodes (queueNode r ++ [.log])).flatten ++ [.log] ++
    (write.map registerWrite).getD [] ++ [.log]

def freeAsyncWriteResource (r : Nat) : List Op :=
  [.lock (.queue r), .log, .log, .unlock (.queue r)]

def free (r : Nat) (read write : Option (Option IoLock)) : List Op :=
  [.lock (.register r)] ++ (read.map delReadJob).getD [] ++ (write.map delWriteJob).getD [] ++
    [.unlock (.register r)]

variable (s : Locking)

-- Without worker threads the loop runs in the thread that calls np_start.
def npStart : List Op :=
  .log :: match s.workerPool with
    | some (p, cnt) => (List.replicate cnt (execute p)).flatten
    | none          => loopHandle 0

def body : Fn → List Op
  | .other                        => []
  | .initWorkerThrds n            => if n = 0 then [.log] else addWorker s.pools ++ [.log]
  | .initEvtThrds n               =>
    if n = 0 then [.log] else addWorker s.pools ++ [.publish s.pools]
  | .freeEvtThrds p               => freeEvtThrds p
  | .evtJobsCnt p                 => getTaskSize p
  | .addListenJob found accepted  => addListenJob found accepted
  | .delListenJob                 => delListenJob
  | .addReadJob found i accepted  => addReadJob found i accepted
  | .delReadJob found             => delReadJob found
  | .addWriteJob found i accepted => addWriteJob found i accepted
  | .delWriteJob found            => delWriteJob found
  | .addEvtJob p                  => execute p
  | .addTimeJob                   => [.log]
  | .delTimeJob                   => delTimeJob
  | .start                        => s.npStart
  | .waitStop                     => [.log]
  | .sendData r queued write      => sendData r queued write
  | .sendHandle r nodes write     => sendHandle r nodes write
  | .freeAsyncWriteResource r     => freeAsyncWriteResource r
  | .free r read write            => free r read write

-- The pool that is made by a call.
def enter : Fn → Locking
  | .initWorkerThrds n =>
    if n = 0 then s else { s with
      pools      := s.pools + 1
      workerPool := some (s.pools, n) }
  | .initEvtThrds n => if n = 0 then s else { s with pools := s.pools + 1 }
  | _ => s

-- A handle comes from np_init_evt_thrds.
def Fn.pool? : Fn → Option Nat
  | .freeEvtThrds p | .evtJobsCnt p | .addEvtJob p => some p
  | _ => none

-- What thread `t` does in place of the operation.
def expand (t : Nat) : Op → Choice → Option (List Op)
  | .lock l, .next          =>
    if s.holder l = none ∨ s.holder l = some t ∧ l.recursive then some [] else none
  | .unlock _, .next        => some []
  | .log, .next             => some logWrite
  | .log, .leave            => some []
  | .callback, .call f      =>
    if ∀ p ∈ f.pool?, p < s.pools then some (s.body f ++ [.callback]) else none
  | .callback, .leave       => some []
  | .loop i, .next          => some (handleDelingJob ++ [.events, .run i, .log, .loop i])
  | .loop _, .leave         => some (handleDelingJob ++ [.lock .poll, .unlock .poll, .log])
  | .events, .next          => some [.log, .callback, .events]
  | .events, .write i       => some (writeEvtHandle i ++ [.events])
  | .events, .leave         => some []
  | .run i, .next           => if i = 0 then some timeJobWalk else none
  | .run _, .leave          => some []
  | .walk, .next            => some [.callback, .log, .walk]
  | .walk, .ageing          => some [.ageing, .walk]
  | .walk, .leave           => some []
  | .ageing, .pool p        => if p ∈ s.evtPools then some (agedWorker p ++ [.ageing]) else none
  | .ageing, .leave         => some []
  -- Both sets of workers are in one order, so the one that is told first is joined first.
  | .age p trash, .worker w =>
    if w ∈ s.workers p ∧ ¬(s.thread w).isBusy then
      some (.log :: tellExit p w ++ [.age p (trash ++ [w])])
    else none
  | .age _ trash, .leave    => some [.join trash]
  | .tell p trash, .worker w =>
    if w ∈ s.workers p then some (tellExit p w ++ [.tell p (trash ++ [w])]) else none
  | .tell _ trash, .leave   => some [.join trash]
  | .stop _, .next          => some []
  | .drop _ _, .next        => some []
  | .join [], .next         => some []
  | .join (w :: ws), .next  => if (s.thread w).running then none else some [.join ws]
  | .grow p, .next          => some (addWorker p)
  | .grow _, .leave         => some []
  | .insert p, .next        => some [.unlock (.pool p), .create s.count, .mark s.count, .log]
  | .create _, .next        => some []
  | .mark _, .next          => some []
  | .publish _, .next       => some []
  | .erase _, .next         => some []
  | .start, .next           => some []
  | .work p, .next          =>
    some (if (s.thread t).status = .started then getTaskSize p ++ [.got p, .work p] else [.log])
  | .got p, .leave          =>
    some [.lock (.notify p), .unlock (.notify p), .lock (.notify p), .unlock (.notify p)]
  | .got _, .task none      => some [.callback, .finish]
  | .got _, .task (some i)  => some (loopHandle i ++ [.finish])
  | .finish, .next          => some []
  | .exit, .next            => some []
  | _, _                    => none

def modify (t : Nat) (f : Thread → Thread) : Locking :=
  { s with thread := Function.update s.thread t (f (s.thread t)) }

-- What the operation changes besides.
def effect (t : Nat) : Op → Choice → Locking
  | .lock l, _ =>
    { s.modify t fun x => { x with held := l :: x.held } with
      holder := Function.update s.holder l (some t) }
  | .unlock l, _ =>
    { s.modify t fun x => { x with held := x.held.erase l } with
      holder :=
        if l ∈ (s.thread t).held.erase l then s.holder else Function.update s.holder l none }
  | .callback, .call f => s.enter f
  | .stop w, _         => s.modify w fun x => { x with status := .stopping }
  | .drop p w, _       =>
    { s with workers := Function.update s.workers p ((s.workers p).erase w) }
  | .insert p, _       =>
    { s.modify s.count fun _ => { todo := [.start, .work p, .exit] } with
      count   := s.count + 1
      workers := Function.update s.workers p (s.count :: s.workers p) }
  | .create w, _       => s.modify w fun x => { x with live := true }
  | .mark w, _         => s.modify w fun x => { x with running := true }
  | .publish p, _      => { s with evtPools := s.evtPools ++ [p] }
  | .erase p, _        => { s with evtPools := s.evtPools.erase p }
  | .start, _          => s.modify t fun x => { x with status := .started }
  | .got _, .task _    => s.modify t fun x => { x with isBusy := true }
  | .finish, _         => s.modify t fun x => { x with isBusy := false }
  | .exit, _           => s.modify t fun x => { x with running := false }
  | _, _               => s

-- A thread of the application. As it never is a worker of a pool, it counts as busy.
def spawn : Locking :=
  { s.modify s.count fun _ => { todo := [.callback], live := true, isBusy := true } with
    count := s.count + 1 }

def go (t : Nat) (c : Choice) : Option Locking :=
  match (s.thread t).live, (s.thread t).todo with
  | true, op :: ops =>
    (s.expand t op c).map fun e => (s.effect t op c).modify t fun x => { x with todo := e ++ ops }
  | _, _ => none

def step (s : Locking) : Act → Option Locking
  | .spawn  => some s.spawn
  | .go t c => s.go t c

-- Thread `t` waits for a lock that `u` holds, or in Join for the end of `u`.
def Waits (t u : Nat) : Prop :=
  match (s.thread t).todo with
  | .lock l :: _       => s.holder l = some u ∧ (u = t → ¬l.recursive)
  | .join (w :: _) :: _ => u = w ∧ (s.thread w).running
  | _                  => False

end Locking

-- Nothing has been started.
def Locking.initial : Locking where
  thread _   := {}
  count      := 0
  holder _   := none
  pools      := 0
  workers _  := []
  evtPools   := []
  workerPool := none

def locking : System Locking Locking.Act where
  init s := s = .initial
  step   := Locking.step

end NetPool
