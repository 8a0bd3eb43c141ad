import NetPool.Io.Job

namespace NetPool

-- The bits of `events` that are ever asked for.
structure EpollEvents where
  epollin  : Bool
  epollout : Bool
  epollet  : Bool
  deriving DecidableEq

structure EpollEntry where
  events : EpollEvents
  ptr    : JobId
  deriving DecidableEq

-- The interest list of one epoll instance.
abbrev EpollSet := Fd → Option EpollEntry

inductive EpollOp
  | add (ev : EpollEntry)
  | mod (ev : EpollEntry)
  | del

-- Whether the kernel refuses a call for a reason of its own, such as `ENOMEM` or `ENOSPC`.
structure Kernel where
  refuseAdd : Bool
  refuseMod : Bool
  refuseDel : Bool
  deriving DecidableEq

namespace Kernel

-- The kernel that refuses only `EPOLL_CTL_ADD` of a present entry and the other two of an absent
-- one.
def plain : Kernel :=
  ⟨false, false, false⟩

-- `epoll_ctl`: the interest list after a call that returned 0, and nothing after one that failed.
def epollCtl (k : Kernel) (op : EpollOp) (fd : Fd) (set : EpollSet) : Option EpollSet :=
  match op, set fd with
  | .add ev, none   => if k.refuseAdd then none else some (Function.update set fd (some ev))
  | .add _,  some _ => none
  | .mod ev, some _ => if k.refuseMod then none else some (Function.update set fd (some ev))
  | .mod _,  none   => none
  | .del,    some _ => if k.refuseDel then none else some (Function.update set fd none)
  | .del,    none   => none

end Kernel
end NetPool
