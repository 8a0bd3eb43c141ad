import NetPool.Lib.Ledger
import NetPool.Util.IpRange

namespace NetPool
namespace Sock

def einprogress : Nat := 115
def oRdwr : BitVec 32 := 2
def oNonblock : BitVec 32 := 2048
def inaddrAny : BitVec 32 := 0

def htons (e : Endian) (w : BitVec 16) : BitVec 16 :=
  match e with
  | .big    => w
  | .little => w.extractLsb' 0 8 ++ w.extractLsb' 8 8

-- A `struct sockaddr_in`. The address is `none` as long as nothing has been assigned to it.
structure SockaddrIn where
  sinPort : BitVec 16
  sinAddr : Option (BitVec 32)
  deriving DecidableEq

inductive SockCall
  | connect (sa : SockaddrIn)
  | bind (sa : SockaddrIn)
  | listen (backlog : Nat)
  deriving DecidableEq

-- The sockets that a helper has opened and closed, the flags of the one that it has opened last, and
-- the calls for it that have to do with addresses.
structure Sockets where
  ledger : Ledger Int
  flags  : BitVec 32
  calls  : List SockCall

namespace Sockets

def empty : Sockets :=
  ⟨.empty, 0, []⟩

def open' (s : Sockets) (fd : Int) : Sockets :=
  { s with ledger := s.ledger.obtain' [fd], flags := oRdwr }

def close (s : Sockets) (fd : Int) : Sockets :=
  { s with ledger := s.ledger.release [fd] }

def call (s : Sockets) (c : SockCall) : Sockets :=
  { s with calls := s.calls ++ [c] }

end Sockets

-- Whether `fcntl` gets the flags, and whether it sets them.
structure Fcntl where
  getfl : Bool
  setfl : Bool
  deriving DecidableEq

-- The flags are set to what they are changed to, or to what -1 is.
def Fcntl.change (f : Fcntl) (change : BitVec 32 → BitVec 32) (flags : BitVec 32) : BitVec 32 :=
  let got := if f.getfl then flags else -1
  if f.setfl then change got else flags

def sockSetBlock (s : Sockets) (f : Fcntl) : Bool × Sockets :=
  (true, { s with flags := f.change (· &&& ~~~oNonblock) s.flags })

def sockSetUnblock (s : Sockets) (f : Fcntl) : Bool × Sockets :=
  (true, { s with flags := f.change (· ||| oNonblock) s.flags })

-- `engine_str_to_ipv4` assigns the address only when it returns 0.
def engineStrToIpv4 (pton : InetPton) (ipstr : List Char) (ip : Option (BitVec 32)) :
    Int × Option (BitVec 32) :=
  match pton.v4 ipstr with
  | some addr => (0, some addr)
  | none      => (-1, ip)

inductive SelectAnswer
  | error
  | timeout
  | ready (isset : Bool)
  deriving DecidableEq

-- What the calls of `sock_connect` answer, if it comes to them. The answer of `connect` is the
-- `errno`, unless it succeeds, and that of `getsockopt` is the `err` that it stores, if it succeeds.
structure ConnectAnswers where
  socket     : Option Nat
  unblock    : Fcntl
  connect    : Option Nat
  select     : SelectAnswer
  getsockopt : Option Int
  block      : Fcntl

-- `sock_connect`, from where it has an address on.
def sockConnectTo (sa : SockaddrIn) (a : ConnectAnswers) (fd : Int) (s : Sockets) : Int × Sockets :=
  let s := (sockSetUnblock s a.unblock).2
  let s := s.call (.connect sa)
  match a.connect with
  | none => (fd, (sockSetBlock s a.block).2)
  | some errno =>
    if errno ≠ einprogress then (-1, s.close fd)
    else match a.select with
      | .error       => (-1, s.close fd)
      | .timeout     => (-1, s.close fd)
      | .ready isset =>
        if isset then
          match a.getsockopt with
          | none    => (-1, s.close fd)
          | some err => if err ≠ 0 then (-1, s.close fd) else (fd, (sockSetBlock s a.block).2)
        else (-1, s.close fd)

section Resolver

variable (e : Endian) (pton : InetPton) (gethostbyname : List Char → Option (BitVec 32))

def sockConnect (addr : List Char) (port : BitVec 16) (a : ConnectAnswers) : Int × Sockets :=
  match a.socket with
  | none   => (-1, .empty)
  | some fd =>
    let s := Sockets.empty.open' fd
    let sa : SockaddrIn := ⟨htons e port, .none⟩
    let (ret, sinAddr) := engineStrToIpv4 pton addr sa.sinAddr
    let sa := { sa with sinAddr }
    if ret = 0 then
      match gethostbyname addr with
      | none   => (-1, s.close fd)
      | some he => sockConnectTo { sa with sinAddr := some he } a fd s
    else sockConnectTo sa a fd s

structure ServerAnswers where
  socket     : Option Nat
  unblock    : Fcntl
  setsockopt : Bool
  bind       : Bool

-- The address that `_bind_server` binds a socket to.
def bindServer (serverIp : Option (List Char)) (serverPort : BitVec 16) : SockaddrIn :=
  match serverIp with
  | some ip => ⟨htons e serverPort, (engineStrToIpv4 pton ip (some 0)).2⟩
  | none   => ⟨htons e serverPort, some (ntohl e inaddrAny)⟩

def sockCreateServer (port : BitVec 16) (a : ServerAnswers) : Int × Sockets :=
  match a.socket with
  | none   => (-1, .empty)
  | some fd =>
    let s := Sockets.empty.open' fd
    let (ret, s) := sockSetUnblock s a.unblock
    if (ret.toNat : Int) < 0 then (-1, s)
    else if !a.setsockopt then (-1, s)
    else
      let s := s.call (.bind (bindServer e pton none port))
      if !a.bind then (-1, s) else (fd, s.call (.listen 100))

end Resolver

-- A helper has closed each socket that it has opened exactly once, and returns -1, or all but one,
-- which is open, and returns that one.
def Tidy (r : Int × Sockets) : Prop :=
  r.2.ledger.Owns (if r.1 = -1 then [] else [r.1])

def SockCall.Assigned : SockCall → Prop
  | .connect sa         => sa.sinAddr.isSome
  | .bind _ | .listen _ => True

-- What `sock_connect` is to do for a port of the address `denoted`.
structure Connects (port : BitVec 16) (denoted : Option (BitVec 32)) (r : Int × Sockets) : Prop where
  tidy     : Tidy r
  assigned : ∀ c ∈ r.2.calls, c.Assigned
  peer     : r.1 ≠ -1 → ∃ ip, denoted = some ip ∧ r.2.calls = [.connect ⟨port, some ip⟩]
  blocking : r.1 ≠ -1 → r.2.flags &&& oNonblock = 0

namespace ConnectAnswers

-- The connection comes into being, at once or within the wait for it.
def Established (a : ConnectAnswers) : Prop :=
  a.connect = none ∨
    a.connect = some einprogress ∧ a.select = .ready true ∧ a.getsockopt = some 0
  deriving Decidable

-- The socket has never left the blocking mode, or gets back to it.
def Blocks (a : ConnectAnswers) : Prop :=
  a.unblock.setfl = false ∨ a.block.setfl = true
  deriving Decidable

end ConnectAnswers

variable {s : Sockets} {sa : SockaddrIn} {a : ConnectAnswers} {fd : Nat} {port : BitVec 16}

theorem sockConnectTo_eq (sa : SockaddrIn) (a : ConnectAnswers) (fd : Int) (s : Sockets) :
    sockConnectTo sa a fd s =
      let s := (sockSetUnblock s a.unblock).2.call (.connect sa)
      if a.Established then (fd, (sockSetBlock s a.block).2) else (-1, s.close fd) := by
  obtain ⟨socket, unblock, connect, select, getsockopt, block⟩ := a
  unfold sockConnectTo ConnectAnswers.Established
  cases connect
  case none => simp
  case some errno =>
    by_cases he : errno = einprogress
    case neg => simp [he]
    case pos =>
      cases select
      case error       => simp [he]
      case timeout     => simp [he]
      case ready isset =>
        cases isset <;> cases getsockopt
        case true.some err => by_cases hr : err = 0 <;> simp [he, hr]
        all_goals simp [he]

theorem change_blocking_iff (f f' : Fcntl) :
    f'.change (· &&& ~~~oNonblock) (f.change (· ||| oNonblock) oRdwr) &&& oNonblock = 0 ↔
      f.setfl = false ∨ f'.setfl = true := by
  obtain ⟨getfl, setfl⟩ := f
  obtain ⟨getfl', setfl'⟩ := f'
  cases getfl <;> cases setfl <;> cases getfl' <;> cases setfl' <;> decide

theorem opened_owns (fd : Nat) : (Sockets.empty.open' fd).ledger.Owns [(fd : Int)] :=
  Ledger.Owns.empty.obtain' ⟨List.nodup_singleton _, by simp [Ledger.empty]⟩

theorem natCast_ne (fd : Nat) : (fd : Int) ≠ -1 := by
  omega

theorem tidy_of_returned (owns : s.ledger.Owns [(fd : Int)]) : Tidy (fd, s) := by
  rwa [Tidy, if_neg (natCast_ne fd)]

theorem sockConnectTo_calls : (sockConnectTo sa a fd s).2.calls = s.calls ++ [.connect sa] := by
  rw [sockConnectTo_eq]
  dsimp only
  split <;> rfl

theorem sockConnectTo_tidy (owns : s.ledger.Owns [(fd : Int)]) : Tidy (sockConnectTo sa a fd s) := by
  rw [sockConnectTo_eq]
  dsimp only
  split
  case isTrue  => exact tidy_of_returned owns
  case isFalse => exact Ledger.Owns.release owns

theorem sockConnectTo_ret : (sockConnectTo sa a fd s).1 ≠ -1 ↔ a.Established := by
  rw [sockConnectTo_eq]
  dsimp only
  split
  case isTrue h  => exact iff_of_true (natCast_ne fd) h
  case isFalse h => exact iff_of_false (fun hn => hn rfl) h

theorem sockConnectTo_blocking (h : a.Established) :
    (sockConnectTo sa a fd (Sockets.empty.open' fd)).2.flags &&& oNonblock = 0 ↔ a.Blocks := by
  rw [sockConnectTo_eq]
  dsimp only
  rw [if_pos h]
  exact change_blocking_iff a.unblock a.block

theorem connects_of_error {denoted : Option (BitVec 32)} (owns : s.ledger.Owns [])
    (calls : s.calls = []) : Connects port denoted (-1, s) where
  tidy     := owns
  assigned := by simp [calls]
  peer     := fun h => absurd rfl h
  blocking := fun h => absurd rfl h

-- With an address that has been assigned.
theorem connects_sockConnectTo_iff {ip he : BitVec 32} :
    Connects port (some ip) (sockConnectTo ⟨port, some he⟩ a fd (Sockets.empty.open' fd)) ↔
      ¬a.Established ∨ he = ip ∧ a.Blocks := by
  have calls : (sockConnectTo ⟨port, some he⟩ a fd (Sockets.empty.open' fd)).2.calls =
      [.connect ⟨port, some he⟩] := sockConnectTo_calls
  constructor
  case mp =>
    refine fun h => or_iff_not_imp_left.mpr fun est => ?_
    have est := Decidable.of_not_not est
    have returned := @sockConnectTo_ret (Sockets.empty.open' fd) ⟨port, some he⟩ a fd |>.mpr est
    obtain ⟨ip', denoted, one⟩ := h.peer returned
    refine ⟨?_, (sockConnectTo_blocking est).mp <| h.blocking returned⟩
    obtain rfl : ip = ip' := Option.some.inj denoted
    simpa [calls] using one
  case mpr =>
    intro h
    refine ⟨sockConnectTo_tidy (opened_owns fd), ?_, ?_, ?_⟩
    case refine_1 => simp [calls, SockCall.Assigned]
    case refine_2 =>
      intro returned
      obtain ⟨rfl, -⟩ := h.resolve_left (not_not_intro <| sockConnectTo_ret.mp returned)
      exact ⟨he, rfl, calls⟩
    case refine_3 =>
      intro returned
      have est := sockConnectTo_ret.mp returned
      exact (sockConnectTo_blocking est).mpr (h.resolve_left (not_not_intro est)).2

theorem connects_iff (e : Endian) (pton : InetPton)
    (gethostbyname : List Char → Option (BitVec 32)) (addr : List Char) (port : BitVec 16)
    (a : ConnectAnswers) :
    Connects (htons e port) (pton.v4 addr <|> gethostbyname addr)
      (sockConnect e pton gethostbyname addr port a) ↔
    a.socket = none ∨ ∃ ip, pton.v4 addr = some ip ∧
      (gethostbyname addr = none ∨ ¬a.Established ∨ gethostbyname addr = some ip ∧ a.Blocks) := by
  unfold sockConnect
  cases a.socket
  case none => exact iff_of_true (connects_of_error .empty rfl) (.inl rfl)
  case some fd =>
    cases hp : pton.v4 addr
    case none =>
      -- A host name is not resolved, and its address has never been assigned.
      simp only [engineStrToIpv4, hp]
      refine iff_of_false (fun h => ?_) (by simp)
      have unassigned := h.assigned (.connect ⟨htons e port, none⟩)
      simp [sockConnectTo_calls, SockCall.Assigned] at unassigned
    case some ip =>
      simp only [engineStrToIpv4, hp]
      cases gethostbyname addr
      case none =>
        have closed : ((Sockets.empty.open' fd).close fd).ledger.Owns [] := .release (opened_owns fd)
        exact iff_of_true (connects_of_error closed rfl) (.inr ⟨ip, rfl, .inl rfl⟩)
      case some he => simpa using connects_sockConnectTo_iff

theorem tidy_sockCreateServer_iff (e : Endian) (pton : InetPton) (port : BitVec 16)
    (a : ServerAnswers) : Tidy (sockCreateServer e pton port a) ↔
      a.socket = none ∨ a.setsockopt = true ∧ a.bind = true := by
  have kept {l : Ledger Int} {fd : Int} (owns : l.Owns [fd]) : ¬l.Owns [] := fun h => by
    have := owns.length
    have := h.length
    simp at *
    omega
  unfold sockCreateServer
  cases a.socket
  case none => exact iff_of_true .empty (.inl rfl)
  case some fd =>
    have owns := opened_owns fd
    cases a.setsockopt
    case false => exact iff_of_false (kept owns) (by simp)
    case true =>
      cases a.bind
      case false => exact iff_of_false (kept owns) (by simp)
      case true =>
        exact iff_of_true (tidy_of_returned owns) (.inr ⟨rfl, rfl⟩)

theorem setup_iff (e : Endian) (pton : InetPton)
    (gethostbyname : List Char → Option (BitVec 32)) (addr : List Char) (port : BitVec 16)
    (a : ConnectAnswers) (a' : ServerAnswers) :
    (Connects (htons e port) (pton.v4 addr <|> gethostbyname addr)
        (sockConnect e pton gethostbyname addr port a) ↔
      a.socket = none ∨ ∃ ip, pton.v4 addr = some ip ∧
        (gethostbyname addr = none ∨ ¬a.Established ∨ gethostbyname addr = some ip ∧ a.Blocks)) ∧
    (Tidy (sockCreateServer e pton port a') ↔
      a'.socket = none ∨ a'.setsockopt = true ∧ a'.bind = true) :=
  ⟨connects_iff e pton gethostbyname addr port a, tidy_sockCreateServer_iff e pton port a'⟩

-- A host name for which there is an address, and a port that is in use.
theorem not_setup :
    let pton : InetPton := ⟨fun _ => none, fun _ => none⟩
    let gethostbyname : List Char → Option (BitVec 32) := fun _ => some 0x0100007f
    let fcntl : Fcntl := ⟨true, true⟩
    ¬Connects (htons .little 80) (pton.v4 "localhost".toList <|> gethostbyname "localhost".toList)
      (sockConnect .little pton gethostbyname "localhost".toList 80
        ⟨some 3, fcntl, some 111, .timeout, none, fcntl⟩) ∧
    ¬Tidy (sockCreateServer .little pton 80 ⟨some 3, fcntl, true, false⟩) := by
  constructor
  case left =>
    intro h
    have unassigned := h.assigned (.connect ⟨htons .little 80, none⟩) (by decide)
    simp [SockCall.Assigned] at unassigned
  case right => exact fun h => absurd h.length (by decide)

end Sock
end NetPool
