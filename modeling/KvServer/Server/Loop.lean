import KvServer.Server.Conn

/-!
# The event loop

Each iteration of the loop in `main` builds the poll set from `fd2conn`, waits in `poll()`,
accepts one connection when the listening socket is ready, and serves each ready connection.
Serving a connection touches its idle timer, calls `handle_read` on `POLLIN` and
`handle_write` on `POLLOUT`, and calls `conn_destroy` on `POLLERR` or `want_close`. The
iteration then runs `process_timers`.

The model identifies a `Conn` object by its address, as it does the entries of the store.
`fd2conn` is a list of addresses indexed by descriptor. The idle list is the list of
addresses from `idle_list.next` on. `dlist.h` is not part of the sources: the loop uses
`dlist_insert_before(&g_data.idle_list, node)` to put a node at the end of the list, and
`dlist_detach` to take it out.

The environment decides what the system calls return (`Tick`, `ConnEvents`). `poll()` reports
the events a descriptor asked for that are ready, and `POLLERR` and `POLLHUP` whatever was
asked (`PollFd.revents`). What it returns does not depend on its timeout in the model, so the
timeout `next_timer_ms` computes (`Loop.pollTimeout`) is a function of the state that the
iteration does not use. `EINTR` starts the iteration over, and another error of
`poll()` ends the process; neither changes the state. An iteration ends in the next state, or
stops (`Stop`) at a failed `assert` or on undefined behaviour, which includes the handlers'.

Results:
1. `conn_intents_consistent`: on every run, each live connection that is not closing wants
   exactly one of reading and writing, and wants to write exactly when it has output. No
   iteration stops at the `assert`s on them; it stops only at the one of `handle_accept`, or
   on undefined behaviour.
2. `loop_conns_follow_runs`: each live connection is where a run of one connection
   (`Conn.Run`) took it, so the law of `Server.Conn` holds of every connection of the loop.
Both rest on `loopIter_spec`, which composes one lemma for each step of an iteration.
-/

namespace KvServer

/-- `k_idle_timeout_ms`. -/
def kIdleTimeoutMs : Nat := 5 * 1000

/-- A live `Conn` object: its descriptor, `last_active_ms`, and the fields the handlers use.
Its `idle_node` is its place in `Loop.idle`. -/
structure Live where
  fd : Nat
  lastActiveMs : Nat
  conn : Conn

/-- How an iteration of the event loop ends when it does not come back to `poll()`. -/
inductive Stop
  /-- `assert(!g_data.fd2conn[conn->fd])` in `handle_accept` fails. -/
  | acceptAssert
  /-- `assert(conn->want_read)` fails. -/
  | readAssert
  /-- `assert(conn->want_write)` fails. -/
  | writeAssert
  /-- `assert(conn->outgoing.size() > 0)` in `handle_write` fails. -/
  | outgoingAssert
  /-- Undefined behaviour: a null or dangling pointer, or a handler that the model leaves
  undefined. -/
  | undefined
  deriving DecidableEq, Repr

/-- An operation that the model leaves undefined when it is `none`. -/
def orUndefined {α : Type} : Option α → Except Stop α
  | some a => .ok a
  | none => .error .undefined

/-- `std::vector::resize(n)`, new elements `d`. -/
def vectorResize {α : Type} (v : List α) (n : Nat) (d : α) : List α :=
  v.take n ++ List.replicate (n - v.length) d

/-- `if (g_data.fd2conn.size() <= (size_t)fd) g_data.fd2conn.resize(fd + 1);` -/
def growFor (slots : List (Option Nat)) (fd : Nat) : List (Option Nat) :=
  if slots.length ≤ fd then vectorResize slots (fd + 1) none else slots

/-- The event-loop part of `g_data`, with the store and the AOF. -/
structure Loop where
  server : Server
  /-- The live `Conn` objects, by address. -/
  conns : Nat → Option Live
  /-- The address the next `new Conn()` returns. -/
  nextAddr : Nat
  /-- `g_data.fd2conn`: for each descriptor, the address of its `Conn`, `none` for null. -/
  fd2conn : List (Option Nat)
  /-- `g_data.idle_list`, from `idle_list.next` to `idle_list.prev`. -/
  idle : List Nat

/-- A `struct pollfd` of a connection: its descriptor, and whether `POLLIN` and `POLLOUT` are
asked for; `POLLERR` always is. -/
structure PollFd where
  fd : Nat
  pollIn : Bool
  pollOut : Bool

/-- What a connection socket is ready for when `poll()` returns, whatever was asked for. -/
structure Readiness where
  readable : Bool
  writable : Bool
  error : Bool
  hangup : Bool

/-- The `revents` bits the loop tests, and whether another one (`POLLHUP`) is set. -/
structure Revents where
  pollIn : Bool
  pollOut : Bool
  pollErr : Bool
  pollHup : Bool

/-- `revents` of `p`: the readiness asked for, and `POLLERR` and `POLLHUP` always. -/
def PollFd.revents (p : PollFd) (r : Readiness) : Revents :=
  ⟨p.pollIn && r.readable, p.pollOut && r.writable, r.error, r.hangup⟩

/-- `ready == 0`. -/
def Revents.isZero (r : Revents) : Bool := !(r.pollIn || r.pollOut || r.pollErr || r.pollHup)

/-- What the system calls return while the loop serves one entry of the poll set. -/
structure ConnEvents where
  ready : Readiness
  /-- `get_monotonic_msec()` when the connection is touched. -/
  now : Nat
  /-- The outcomes of the system calls of the `do_request`s of `handle_read`. -/
  env : Nat → Env
  /-- `read()` in `handle_read`. -/
  read : ReadResult
  /-- `write()` in the `handle_write` that `handle_read` ends with. -/
  readWrite : WriteResult
  /-- `write()` in `handle_write`. -/
  write : WriteResult

/-- What the system calls return in one iteration of the event loop. -/
structure Tick where
  /-- `poll_args[0].revents` is not 0. -/
  listen : Bool
  /-- `accept()`: the new descriptor, `none` for an error. -/
  accept : Option Nat
  /-- `get_monotonic_msec()` in `handle_accept`. -/
  acceptNow : Nat
  /-- For the connection entries of the poll set, in order. -/
  conns : List ConnEvents
  /-- `get_monotonic_msec()` in `process_timers`. -/
  timerNow : Nat

/-- `handle_write(conn)` as the loop calls it: its `assert` aborts. -/
def handleWriteAt (c : Conn) (w : WriteResult) : Except Stop (Conn × List UInt8) :=
  if c.outgoing.size = 0 then .error .outgoingAssert else orUndefined (handleWrite c w)

/-- Handle IO of a ready connection: `handle_read` on `POLLIN`, then `handle_write` on
`POLLOUT`, each after its `assert`. -/
def serveReady (H : HeapUpdate) (s : Server) (c : Conn) (ready : Revents) (ev : ConnEvents) :
    Except Stop (Server × Conn) := do
  let (s, c) ← if ready.pollIn then
      if c.wantRead then do
        let (s, c, _, _) ← orUndefined (handleRead H ev.env s c ev.read ev.readWrite)
        pure (s, c)
      else .error .readAssert
    else pure (s, c)
  if ready.pollOut then
    if c.wantWrite then do
      let (c, _) ← handleWriteAt c ev.write
      pure (s, c)
    else .error .writeAssert
  else pure (s, c)

/-- A `uint32_t` converted to `int32_t`: the same 32 bits, read in two's complement. -/
def toInt32 (n : Nat) : Int :=
  if n % 2 ^ 32 < 2 ^ 31 then (n % 2 ^ 32 : Nat) else ((n % 2 ^ 32 : Nat) : Int) - 2 ^ 32

namespace Loop

/-- `main` enters the loop with the state `aof_init` left and no connection. -/
def init (s : Server) : Loop := ⟨s, fun _ => none, 0, [], []⟩

/-- Overwrite the `Conn` at `a`. -/
def setConn (l : Loop) (a : Nat) (x : Live) : Loop :=
  { l with conns := fun b => if b = a then some x else l.conns b }

/-- Store `x` at `a` and move `a` to the end of the idle list: `dlist_detach` and
`dlist_insert_before(&g_data.idle_list, ...)`. -/
def touch (l : Loop) (a : Nat) (x : Live) : Loop :=
  { l.setConn a x with idle := l.idle.erase a ++ [a] }

/-- `conn_destroy(conn)` of the `Conn` `x` at `a`: `fd2conn[conn->fd] = NULL`,
`dlist_detach(&conn->idle_node)`, `delete conn`. -/
def connDestroy (l : Loop) (a : Nat) (x : Live) : Loop :=
  { l with
    conns := fun b => if b = a then none else l.conns b
    fd2conn := l.fd2conn.set x.fd none
    idle := l.idle.erase a }

/-- `new Conn()` for the descriptor `fd` at clock reading `now`: it wants to read, and goes to
the end of the idle list. -/
def newConn (l : Loop) (fd now : Nat) : Loop :=
  { l with
    conns := fun b => if b = l.nextAddr then some ⟨fd, now, Conn.fresh⟩ else l.conns b
    nextAddr := l.nextAddr + 1
    idle := l.idle ++ [l.nextAddr] }

/-- `handle_accept(fd)` with the descriptor `accept()` returned (`none` for an error) and the
clock reading `now`. -/
def handleAccept (l : Loop) (accepted : Option Nat) (now : Nat) : Except Stop Loop :=
  match accepted with
  | none => pure l
  | some connfd =>
    let a := l.nextAddr
    let l := l.newConn connfd now
    -- put it into the map
    let fd2conn := growFor l.fd2conn connfd
    if (fd2conn.getD connfd none).isSome then .error .acceptAssert
    else pure { l with fd2conn := fd2conn.set connfd (some a) }

/-- The connection entries of `poll_args` for the `fd2conn` slots `slots`: for each non-null
one, `{conn->fd, POLLERR}` with `POLLIN` if `want_read` and `POLLOUT` if `want_write`. -/
def pollArgsOf (l : Loop) : List (Option Nat) → Except Stop (List PollFd)
  | [] => pure []
  | none :: slots => l.pollArgsOf slots
  | some a :: slots => do
    let x ← orUndefined (l.conns a)
    let ps ← l.pollArgsOf slots
    pure (⟨x.fd, x.conn.wantRead, x.conn.wantWrite⟩ :: ps)

/-- The connection entries of `poll_args`. -/
def pollArgs (l : Loop) : Except Stop (List PollFd) := l.pollArgsOf l.fd2conn

/-- The body of the loop over the connection entries of the poll set, for the entry `p`. -/
def handleEntry (H : HeapUpdate) (l : Loop) (p : PollFd) (ev : ConnEvents) :
    Except Stop Loop := do
  let ready := p.revents ev.ready
  if ready.isZero then pure l
  else
    let a ← orUndefined (l.fd2conn.getD p.fd none)
    let x ← orUndefined (l.conns a)
    -- update the idle timer by moving conn to the end of the list
    let x := { x with lastActiveMs := ev.now }
    let l := l.touch a x
    let (server, conn) ← serveReady H l.server x.conn ready ev
    let x := { x with conn }
    let l := { l.setConn a x with server }
    -- close the socket from socket error or application logic
    pure (if ready.pollErr || conn.wantClose then l.connDestroy a x else l)

/-- The loop over the connection entries of the poll set, each with what its system calls
return. -/
def handleEntries (H : HeapUpdate) : Loop → List PollFd → List ConnEvents → Except Stop Loop
  | l, p :: ps, ev :: evs => do
    let l ← l.handleEntry H p ev
    handleEntries H l ps evs
  | l, _, _ => pure l

/-- `next_timer_ms()` at clock reading `nowMs`, as the `uint32_t` it returns. `next_ms`, a
`uint64_t`, is the idle timer of the connection at the front of the idle list, then `heap[0]`
if that is earlier. With no timer it returns `-1`, that is `2^32 - 1`, and 0 for a deadline
already reached. Otherwise `(int32_t)(next_ms - now_ms)`, returned as a `uint32_t`, keeps the
low 32 bits of the difference. -/
def nextTimerMs (l : Loop) (nowMs : Nat) : Except Stop Nat := do
  -- idle timers using a linked list
  let nextMs ← match l.idle with
    | [] => pure (2 ^ 64 - 1)
    | a :: _ => do
      let x ← orUndefined (l.conns a)
      pure ((x.lastActiveMs + kIdleTimeoutMs) % 2 ^ 64)
  -- TTL timers using a heap
  let nextMs := match l.server.db.heap with
    | top :: _ => if top.val < nextMs then top.val else nextMs
    | [] => nextMs
  -- timeout value
  if nextMs = 2 ^ 64 - 1 then pure (2 ^ 32 - 1)
  else if nextMs ≤ nowMs then pure 0
  else pure ((nextMs - nowMs) % 2 ^ 32)

/-- `int32_t timeout_ms = next_timer_ms();` in `main`: the timeout `poll()` gets. -/
def pollTimeout (l : Loop) (nowMs : Nat) : Except Stop Int := toInt32 <$> l.nextTimerMs nowMs

/-- The idle-timer loop of `process_timers` at clock reading `now`, at most `fuel`
iterations: destroy the connection at the front of the idle list while
`last_active_ms + k_idle_timeout_ms`, a `uint64_t`, is below `now`. -/
def processIdle (now : Nat) : Nat → Loop → Except Stop Loop
  | 0, l => pure l
  | fuel + 1, l =>
    match l.idle with
    | [] => pure l
    | a :: _ => do
      let x ← orUndefined (l.conns a)
      if (x.lastActiveMs + kIdleTimeoutMs) % 2 ^ 64 ≥ now then pure l
      else processIdle now fuel (l.connDestroy a x)

/-- `process_timers()` at clock reading `now`. Every pass of the idle loop destroys the
connection at the front of the list, so as many passes as the list is long reach its end. -/
def processTimers (H : HeapUpdate) (now : Nat) (l : Loop) : Except Stop Loop := do
  let l ← processIdle now l.idle.length l
  let server ← orUndefined (Server.processTtl H now l.server)
  pure { l with server }

end Loop

/-- An iteration of the event loop up to `process_timers`: the poll set is built, then
`handle_accept` runs when the listening socket is ready, then each ready connection is
served. -/
def serveIter (H : HeapUpdate) (l : Loop) (t : Tick) : Except Stop Loop := do
  let args ← l.pollArgs
  let l ← if t.listen then l.handleAccept t.accept t.acceptNow else pure l
  l.handleEntries H args t.conns

/-- One iteration of the event loop that comes back to `poll()`. -/
def loopIter (H : HeapUpdate) (l : Loop) (t : Tick) : Except Stop Loop := do
  let l ← serveIter H l t
  l.processTimers H t.timerNow

/-- The states at the top of the event loop: `main` enters it with no connection, and each
iteration that comes back to `poll()` leads to the next, whatever the system calls
return. -/
inductive Loop.Reachable (H : HeapUpdate) : Loop → Prop
  | init (s : Server) : Reachable H (Loop.init s)
  | iter {l l' : Loop} (t : Tick) : Reachable H l → loopIter H l t = .ok l' → Reachable H l'


/-! ## Reasoning about `Except Stop` -/

theorem bind_eq_ok {α β : Type} {x : Except Stop α} {f : α → Except Stop β} {b : β} :
    x >>= f = .ok b ↔ ∃ a, x = .ok a ∧ f a = .ok b := by
  cases x <;> simp [bind, Except.bind]

theorem bind_eq_error {α β : Type} {x : Except Stop α} {f : α → Except Stop β} {e : Stop} :
    x >>= f = .error e ↔ x = .error e ∨ ∃ a, x = .ok a ∧ f a = .error e := by
  cases x <;> simp [bind, Except.bind]

@[simp] theorem ok_bind {α β : Type} (a : α) (f : α → Except Stop β) :
    (Except.ok a : Except Stop α) >>= f = f a := rfl

theorem orUndefined_eq_ok {α : Type} {o : Option α} {a : α} :
    orUndefined o = .ok a ↔ o = some a := by
  cases o <;> simp [orUndefined]

theorem orUndefined_eq_error {α : Type} {o : Option α} {e : Stop}
    (h : orUndefined o = .error e) : e = .undefined := by
  cases o <;> cases h
  rfl

/-! ## `fd2conn` -/

section Slots

variable {slots : List (Option Nat)} {i j a : Nat} {v : Option Nat}

theorem getD_set_ne (h : i ≠ j) : (slots.set i v).getD j none = slots.getD j none := by
  simp [List.getD_eq_getElem?_getD, List.getElem?_set, h]

theorem getD_set_self (h : i < slots.length) : (slots.set i v).getD i none = v := by
  simp [List.getD_eq_getElem?_getD, List.getElem?_set, h]

theorem lt_length_of_getD (h : slots.getD j none = some a) : j < slots.length := by
  by_contra hj
  rw [List.getD_eq_default slots none (by omega)] at h
  cases h

/-- Growing `fd2conn` to hold `fd` adds null slots only. -/
theorem growFor_spec (fd : Nat) :
    (∀ j, (growFor slots fd).getD j none = slots.getD j none) ∧ fd < (growFor slots fd).length := by
  unfold growFor
  split
  · rw [vectorResize, List.take_of_length_le (by omega)]
    refine ⟨fun j => ?_, by simp; omega⟩
    by_cases hj : j < slots.length
    · exact List.getD_append _ _ _ _ hj
    · rw [List.getD_append_right _ _ _ _ (by omega), List.getD_eq_default slots none (by omega)]
      simp only [List.getD_eq_getElem?_getD, List.getElem?_replicate]
      split <;> rfl
  · exact ⟨fun _ => rfl, by omega⟩

end Slots

namespace Loop

@[simp] theorem setConn_conns (l : Loop) (a : Nat) (x : Live) (b : Nat) :
    (l.setConn a x).conns b = if b = a then some x else l.conns b := rfl

@[simp] theorem touch_conns (l : Loop) (a : Nat) (x : Live) (b : Nat) :
    (l.touch a x).conns b = if b = a then some x else l.conns b := rfl

@[simp] theorem touch_fd2conn (l : Loop) (a : Nat) (x : Live) :
    (l.touch a x).fd2conn = l.fd2conn := rfl

@[simp] theorem touch_idle (l : Loop) (a : Nat) (x : Live) :
    (l.touch a x).idle = l.idle.erase a ++ [a] := rfl

@[simp] theorem touch_nextAddr (l : Loop) (a : Nat) (x : Live) :
    (l.touch a x).nextAddr = l.nextAddr := rfl

@[simp] theorem connDestroy_conns (l : Loop) (a : Nat) (x : Live) (b : Nat) :
    (l.connDestroy a x).conns b = if b = a then none else l.conns b := rfl

@[simp] theorem connDestroy_fd2conn (l : Loop) (a : Nat) (x : Live) :
    (l.connDestroy a x).fd2conn = l.fd2conn.set x.fd none := rfl

@[simp] theorem connDestroy_idle (l : Loop) (a : Nat) (x : Live) :
    (l.connDestroy a x).idle = l.idle.erase a := rfl

@[simp] theorem connDestroy_nextAddr (l : Loop) (a : Nat) (x : Live) :
    (l.connDestroy a x).nextAddr = l.nextAddr := rfl

@[simp] theorem connDestroy_server (l : Loop) (a : Nat) (x : Live) :
    (l.connDestroy a x).server = l.server := rfl

theorem conns_of_connDestroy {l : Loop} {a b : Nat} {x y : Live}
    (h : (l.connDestroy a x).conns b = some y) : l.conns b = some y := by
  rw [connDestroy_conns] at h
  split at h
  · cases h
  · exact h

@[simp] theorem newConn_conns (l : Loop) (fd now b : Nat) :
    (l.newConn fd now).conns b =
      if b = l.nextAddr then some ⟨fd, now, Conn.fresh⟩ else l.conns b := rfl

@[simp] theorem newConn_fd2conn (l : Loop) (fd now : Nat) :
    (l.newConn fd now).fd2conn = l.fd2conn := rfl

@[simp] theorem newConn_nextAddr (l : Loop) (fd now : Nat) :
    (l.newConn fd now).nextAddr = l.nextAddr + 1 := rfl

@[simp] theorem newConn_idle (l : Loop) (fd now : Nat) :
    (l.newConn fd now).idle = l.idle ++ [l.nextAddr] := rfl

theorem setConn_touch (l : Loop) (a : Nat) (x y : Live) :
    (l.touch a x).setConn a y = l.touch a y := by
  simp only [touch, setConn, Loop.mk.injEq, and_true, true_and]
  funext b
  split <;> rfl

/-! ## What each step does -/

theorem handleEntry_cases {H : HeapUpdate} {l l' : Loop} {p : PollFd} {ev : ConnEvents}
    (h : l.handleEntry H p ev = .ok l') :
    l' = l ∨ ∃ a x s c, l.fd2conn.getD p.fd none = some a ∧ l.conns a = some x ∧
      serveReady H l.server x.conn (p.revents ev.ready) ev = .ok (s, c) ∧
      l' = if (p.revents ev.ready).pollErr || c.wantClose
        then { l.touch a ⟨x.fd, ev.now, c⟩ with server := s }.connDestroy a ⟨x.fd, ev.now, c⟩
        else { l.touch a ⟨x.fd, ev.now, c⟩ with server := s } := by
  unfold handleEntry at h
  dsimp only at h
  split at h
  · exact .inl (Except.ok.inj h).symm
  obtain ⟨a, ha, h⟩ := bind_eq_ok.mp h
  obtain ⟨x, hx, h⟩ := bind_eq_ok.mp h
  obtain ⟨⟨s, c⟩, hs, h⟩ := bind_eq_ok.mp h
  refine .inr ⟨a, x, s, c, orUndefined_eq_ok.mp ha, orUndefined_eq_ok.mp hx, hs, ?_⟩
  cases h
  simp only [setConn_touch]

theorem handleAccept_cases {l l' : Loop} {acc : Option Nat} {now : Nat}
    (h : l.handleAccept acc now = .ok l') :
    l' = l ∨ ∃ fd, acc = some fd ∧ l.fd2conn.getD fd none = none ∧
      l' = { l.newConn fd now with fd2conn := (growFor l.fd2conn fd).set fd (some l.nextAddr) } := by
  cases acc with
  | none => exact .inl (Except.ok.inj h).symm
  | some fd =>
    simp only [handleAccept, newConn_fd2conn, newConn_nextAddr] at h
    split at h
    · cases h
    rename_i hnull
    refine .inr ⟨fd, rfl, ?_, (Except.ok.inj h).symm⟩
    rw [← (growFor_spec fd).1]
    simpa using hnull

theorem handleAccept_error {l : Loop} {acc : Option Nat} {now : Nat} {e : Stop}
    (h : l.handleAccept acc now = .error e) :
    e = .acceptAssert ∧ ∃ fd a, acc = some fd ∧ l.fd2conn.getD fd none = some a := by
  cases acc with
  | none => cases h
  | some fd =>
    simp only [handleAccept, newConn_fd2conn] at h
    split at h
    · rename_i hsome
      cases h
      rw [(growFor_spec fd).1] at hsome
      obtain ⟨a, ha⟩ := Option.isSome_iff_exists.mp hsome
      exact ⟨rfl, fd, a, rfl, ha⟩
    · cases h

/-! ## The bookkeeping of the live connections -/

/-- What `g_data` keeps of its connections:
* `fd2conn[fd]` is the address of the live `Conn` whose descriptor is `fd`, and null when there
  is none;
* the idle list holds each live connection once;
* `new Conn()` returns an address that no live connection has. -/
structure Inv (l : Loop) : Prop where
  fd2conn : ∀ fd a, l.fd2conn.getD fd none = some a ↔ ∃ x, l.conns a = some x ∧ x.fd = fd
  idle_nodup : l.idle.Nodup
  idle : ∀ a, a ∈ l.idle ↔ (l.conns a).isSome
  fresh : ∀ a, l.nextAddr ≤ a → l.conns a = none

section Inv

variable {l : Loop} {a b : Nat} {x y : Live}

theorem Inv.init (s : Server) : (Loop.init s).Inv :=
  ⟨fun _ _ => by simp [Loop.init], List.nodup_nil, fun _ => by simp [Loop.init], fun _ _ => rfl⟩

theorem Inv.slot (hl : l.Inv) (hx : l.conns a = some x) : l.fd2conn.getD x.fd none = some a :=
  (hl.fd2conn _ _).2 ⟨x, hx, rfl⟩

/-- The connection in the slot `fd` has the descriptor `fd`. -/
theorem Inv.fd_eq (hl : l.Inv) (ha : l.fd2conn.getD fd none = some a) (hx : l.conns a = some x) :
    x.fd = fd := by
  obtain ⟨y, hy, rfl⟩ := (hl.fd2conn _ _).1 ha
  rw [hx] at hy
  cases hy
  rfl

theorem Inv.lt_nextAddr (hl : l.Inv) (hx : l.conns a = some x) : a < l.nextAddr :=
  Nat.lt_of_not_le fun h => by rw [hl.fresh a h] at hx; cases hx

theorem Inv.mem_idle (hl : l.Inv) (hx : l.conns a = some x) : a ∈ l.idle :=
  (hl.idle a).2 (by simp [hx])

theorem Inv.withServer (hl : l.Inv) (s : Server) : { l with server := s }.Inv :=
  ⟨hl.1, hl.2, hl.3, hl.4⟩

theorem Inv.touch (hl : l.Inv) (hx : l.conns a = some x) (hfd : y.fd = x.fd) :
    (l.touch a y).Inv where
  fd2conn fd b := by
    rw [touch_fd2conn, hl.fd2conn]
    by_cases hb : b = a
    · subst hb
      simp [hx, hfd]
    · simp [hb]
  idle_nodup := (hl.idle_nodup.erase a).append (List.nodup_singleton a)
    (List.disjoint_singleton.2 hl.idle_nodup.not_mem_erase)
  idle b := by
    by_cases hb : b = a
    · subst hb
      simp
    · simp [hb, hl.idle_nodup.mem_erase_iff, hl.idle]
  fresh b hb := by
    have hne : b ≠ a := fun h => by
      subst h
      exact absurd (hl.lt_nextAddr hx) (by simpa using hb)
    simpa [hne] using hl.fresh b hb

theorem Inv.destroy (hl : l.Inv) (hx : l.conns a = some x) : (l.connDestroy a x).Inv where
  fd2conn fd b := by
    rw [connDestroy_fd2conn, connDestroy_conns]
    by_cases hfd : x.fd = fd
    · subst hfd
      rw [getD_set_self (lt_length_of_getD (hl.slot hx))]
      simp only [reduceCtorEq, false_iff, not_exists, not_and]
      intro y hy hyfd
      split at hy
      · cases hy
      · rename_i hb
        have hs := hl.slot hy
        rw [hyfd, hl.slot hx] at hs
        exact hb (Option.some.inj hs).symm
    · rw [getD_set_ne hfd, hl.fd2conn]
      by_cases hb : b = a
      · subst hb
        simp [hx, hfd]
      · simp [hb]
  idle_nodup := hl.idle_nodup.erase a
  idle b := by
    by_cases hb : b = a
    · subst hb
      simp [hl.idle_nodup.not_mem_erase]
    · simp [hb, hl.idle_nodup.mem_erase_iff, hl.idle]
  fresh b hb := by simp [hl.fresh b hb]

/-- `handle_accept` of a descriptor whose slot is null. -/
theorem Inv.accept (hl : l.Inv) (hnull : l.fd2conn.getD fd none = none) (now : Nat) :
    { l.newConn fd now with fd2conn := (growFor l.fd2conn fd).set fd (some l.nextAddr) }.Inv where
  fd2conn j b := by
    have hfresh := hl.fresh l.nextAddr le_rfl
    simp only [newConn_conns]
    by_cases hj : fd = j
    · subst hj
      rw [getD_set_self (growFor_spec fd).2]
      constructor
      · rintro ⟨⟩
        exact ⟨_, if_pos rfl, rfl⟩
      · rintro ⟨y, hy, rfl⟩
        split at hy
        · rw [‹b = l.nextAddr›]
        · rw [hl.slot hy] at hnull
          cases hnull
    · rw [getD_set_ne hj, (growFor_spec fd).1, hl.fd2conn]
      by_cases hb : b = l.nextAddr
      · subst hb
        simp [hfresh, hj]
      · simp [hb]
  idle_nodup := hl.idle_nodup.append (List.nodup_singleton _)
    (List.disjoint_singleton.2 fun h => by simpa [hl.fresh _ le_rfl] using (hl.idle _).1 h)
  idle b := by
    by_cases hb : b = l.nextAddr
    · subst hb
      simp
    · simp [hb, hl.idle]
  fresh b hb := by
    have hb' : l.nextAddr + 1 ≤ b := hb
    simp [show b ≠ l.nextAddr by omega, hl.fresh b (by omega)]

end Inv

/-- Every live connection is open, and is where a run of its handlers took it. -/
def ConnsOk (H : HeapUpdate) (l : Loop) : Prop :=
  ∀ a x, l.conns a = some x → x.conn.wantClose = false ∧ ∃ S D W, x.conn.Run H S D W

/-- The entries `ps` of the poll set wait to be served in `l`: their descriptors are distinct,
and each is the descriptor of a live connection whose intentions it asks for. -/
structure Pending (l : Loop) (ps : List PollFd) : Prop where
  distinct : ps.Pairwise fun p q => p.fd ≠ q.fd
  asked : ∀ p ∈ ps, ∃ a x, l.fd2conn.getD p.fd none = some a ∧ l.conns a = some x ∧
    x.conn.wantRead = p.pollIn ∧ x.conn.wantWrite = p.pollOut

/-- The poll set of the slots from `i` on: defined, pending, and of descriptors from `i` on. -/
theorem pollArgsOf_spec {l : Loop} (hl : l.Inv) : ∀ (slots : List (Option Nat)) (i : Nat),
    (∀ j, slots.getD j none = l.fd2conn.getD (i + j) none) →
    ∃ ps, l.pollArgsOf slots = .ok ps ∧ l.Pending ps ∧ ∀ p ∈ ps, i ≤ p.fd
  | [], _, _ => ⟨[], rfl, ⟨.nil, by simp⟩, by simp⟩
  | none :: slots, i, hs => by
    obtain ⟨ps, hps, hp, hi⟩ := pollArgsOf_spec hl slots (i + 1) fun j => by
      rw [show i + 1 + j = i + (j + 1) by omega, ← hs (j + 1)]
      rfl
    exact ⟨ps, hps, hp, fun p h => by have := hi p h; omega⟩
  | some a :: slots, i, hs => by
    have ha : l.fd2conn.getD i none = some a := by simpa using (hs 0).symm
    obtain ⟨x, hx, hfd⟩ := (hl.fd2conn _ _).1 ha
    obtain ⟨ps, hps, hp, hi⟩ := pollArgsOf_spec hl slots (i + 1) fun j => by
      rw [show i + 1 + j = i + (j + 1) by omega, ← hs (j + 1)]
      rfl
    refine ⟨⟨x.fd, x.conn.wantRead, x.conn.wantWrite⟩ :: ps, ?_, ⟨?_, ?_⟩, ?_⟩
    · simp [pollArgsOf, hx, hps, orUndefined]
    · exact List.Pairwise.cons (fun q hq => by have := hi q hq; dsimp only; omega) hp.distinct
    · rintro q (_ | ⟨_, hq⟩)
      · exact ⟨a, x, hfd ▸ ha, hx, rfl, rfl⟩
      · exact hp.asked q hq
    · rintro q (_ | ⟨_, hq⟩)
      · exact hfd.ge
      · have := hi q hq
        omega

theorem pollArgs_spec {l : Loop} (hl : l.Inv) : ∃ ps, l.pollArgs = .ok ps ∧ l.Pending ps := by
  obtain ⟨ps, hps, hp, -⟩ := pollArgsOf_spec hl l.fd2conn 0 fun j => by rw [Nat.zero_add]
  exact ⟨ps, hps, hp⟩

end Loop

/-- Handle IO of an open connection that came where it is by a run of its handlers, on the
`revents` of an entry that asks for what the connection wants: it stops only on undefined
behaviour, and a run also takes the connection where it leaves it. -/
theorem serveReady_spec (H : HeapUpdate) {s : Server} {c : Conn} {p : PollFd}
    {ev : ConnEvents} {S : List UInt8} {D : List Cmd} {W : List UInt8}
    (hr : c.Run H S D W) (hc : c.wantClose = false)
    (hin : c.wantRead = p.pollIn) (hout : c.wantWrite = p.pollOut) :
    (∀ e, serveReady H s c (p.revents ev.ready) ev = .error e → e = .undefined) ∧
    ∀ s' c', serveReady H s c (p.revents ev.ready) ev = .ok (s', c') →
      ∃ S D W, c'.Run H S D W := by
  have hw := hr.wants hc
  by_cases hi : (p.revents ev.ready).pollIn = true
  · have hrd : c.wantRead = true := by
      simp only [PollFd.revents, Bool.and_eq_true] at hi
      rw [hin, hi.1]
    have hno : (p.revents ev.ready).pollOut = false := by
      have : c.wantWrite = false := by simpa [hrd] using hw.one.symm
      simp [PollFd.revents, ← hout, this]
    cases hh : handleRead H ev.env s c ev.read ev.readWrite with
    | none =>
      have he : serveReady H s c (p.revents ev.ready) ev = .error .undefined := by
        simp [serveReady, hi, hrd, hh, hno, orUndefined, bind, Except.bind]
      rw [he]
      exact ⟨fun e h => (Except.error.inj h).symm, fun _ _ h => by cases h⟩
    | some r =>
      obtain ⟨s₁, c₁, cmds, wr⟩ := r
      have he : serveReady H s c (p.revents ev.ready) ev = .ok (s₁, c₁) := by
        simp [serveReady, hi, hrd, hh, hno, orUndefined, bind, Except.bind, pure, Except.pure]
      rw [he]
      exact ⟨fun _ h => (by cases h), fun s' c' h => by cases h; exact ⟨_, _, _, .read hr hc hrd hh⟩⟩
  · have hi' : (p.revents ev.ready).pollIn = false := by simpa using hi
    by_cases ho : (p.revents ev.ready).pollOut = true
    · have hww : c.wantWrite = true := by
        simp only [PollFd.revents, Bool.and_eq_true] at ho
        rw [hout, ho.1]
      have hsz : c.outgoing.size ≠ 0 := by
        have := hw.write hww
        omega
      cases hh : handleWrite c ev.write with
      | none =>
        have he : serveReady H s c (p.revents ev.ready) ev = .error .undefined := by
          simp [serveReady, hi', ho, hww, handleWriteAt, hsz, hh, orUndefined, bind, Except.bind,
            pure, Except.pure]
        rw [he]
        exact ⟨fun e h => (Except.error.inj h).symm, fun _ _ h => by cases h⟩
      | some r =>
        obtain ⟨c₁, wr⟩ := r
        have he : serveReady H s c (p.revents ev.ready) ev = .ok (s, c₁) := by
          simp [serveReady, hi', ho, hww, handleWriteAt, hsz, hh, orUndefined, bind, Except.bind,
            pure, Except.pure]
        rw [he]
        exact ⟨fun _ h => (by cases h), fun s' c' h => by cases h; exact ⟨_, _, _, .write hr hc hww hh⟩⟩
    · have he : serveReady H s c (p.revents ev.ready) ev = .ok (s, c) := by
        simp [serveReady, hi', ho, pure, Except.pure]
      rw [he]
      exact ⟨fun _ h => (by cases h), fun s' c' h => by cases h; exact ⟨_, _, _, hr⟩⟩

namespace Loop

section Steps

variable {H : HeapUpdate} {l l' : Loop} {p : PollFd} {ps : List PollFd} {ev : ConnEvents}

theorem Pending.head (hp : l.Pending (p :: ps)) :
    ∃ a x, l.fd2conn.getD p.fd none = some a ∧ l.conns a = some x ∧
      x.conn.wantRead = p.pollIn ∧ x.conn.wantWrite = p.pollOut :=
  hp.asked p (List.mem_cons_self _ _)

/-- `handle_accept` keeps the bookkeeping, and the entries of the poll set pending. -/
theorem handleAccept_spec {acc : Option Nat} {now : Nat} (hl : l.Inv) (hok : l.ConnsOk H)
    (hp : l.Pending ps) (h : l.handleAccept acc now = .ok l') :
    l'.Inv ∧ l'.ConnsOk H ∧ l'.Pending ps := by
  obtain rfl | ⟨fd, -, hnull, rfl⟩ := handleAccept_cases h
  · exact ⟨hl, hok, hp⟩
  refine ⟨hl.accept hnull now, fun b y hy => ?_, hp.distinct, fun q hq => ?_⟩
  · simp only [newConn_conns] at hy
    split at hy
    · cases hy
      exact ⟨rfl, _, _, _, .accept⟩
    · exact hok b y hy
  · obtain ⟨b, y, hb, hy, hin, hout⟩ := hp.asked q hq
    have hq : fd ≠ q.fd := by
      rintro rfl
      rw [hb] at hnull
      cases hnull
    refine ⟨b, y, ?_, ?_, hin, hout⟩
    · rw [getD_set_ne hq, (growFor_spec fd).1, hb]
    · simp [(hl.lt_nextAddr hy).ne, hy]

theorem handleEntry_error (hok : l.ConnsOk H) (hp : l.Pending (p :: ps))
    {e : Stop} (h : l.handleEntry H p ev = .error e) : e = .undefined := by
  obtain ⟨a, x, ha, hx, hin, hout⟩ := hp.head
  obtain ⟨hc, S, D, W, hr⟩ := hok a x hx
  unfold handleEntry at h
  dsimp only at h
  split at h
  · cases h
  rw [ha] at h
  simp only [orUndefined, ok_bind] at h
  rw [hx] at h
  simp only [orUndefined, ok_bind] at h
  obtain h | ⟨⟨s, c⟩, -, h⟩ := bind_eq_error.mp h
  · exact (serveReady_spec H hr hc hin hout).1 e h
  · cases h

theorem Inv.handleEntry (hl : l.Inv) (h : l.handleEntry H p ev = .ok l') : l'.Inv := by
  obtain rfl | ⟨a, x, s, c, -, hx, -, rfl⟩ := handleEntry_cases h
  · exact hl
  have ht := (hl.touch hx (y := ⟨x.fd, ev.now, c⟩) rfl).withServer s
  split
  · exact ht.destroy (by simp)
  · exact ht

theorem ConnsOk.handleEntry (hok : l.ConnsOk H) (hp : l.Pending (p :: ps))
    (h : l.handleEntry H p ev = .ok l') : l'.ConnsOk H := by
  obtain rfl | ⟨a, x, s, c, ha, hx, hs, rfl⟩ := handleEntry_cases h
  · exact hok
  obtain ⟨a', x', ha', hx', hin, hout⟩ := hp.head
  obtain rfl : a = a' := Option.some.inj (ha.symm.trans ha')
  obtain rfl : x = x' := Option.some.inj (hx.symm.trans hx')
  obtain ⟨hc, S, D, W, hr⟩ := hok a x hx
  have hrun := (serveReady_spec H hr hc hin hout).2 s c hs
  intro b y hy
  by_cases hb : b = a
  · subst hb
    split at hy
    · simp at hy
    · simp only [touch_conns, if_true, Option.some.injEq] at hy
      subst hy
      have hnc := ‹¬_›
      simp only [Bool.or_eq_true, not_or, Bool.not_eq_true] at hnc
      exact ⟨hnc.2, hrun⟩
  · split at hy <;> simp [hb] at hy <;> exact hok b y hy

theorem Pending.handleEntry (hl : l.Inv) (hp : l.Pending (p :: ps))
    (h : l.handleEntry H p ev = .ok l') : l'.Pending ps := by
  have hd := List.pairwise_cons.mp hp.distinct
  have htail := fun q (hq : q ∈ ps) => hp.asked q (List.mem_cons_of_mem _ hq)
  obtain rfl | ⟨a, x, s, c, ha, hx, -, rfl⟩ := handleEntry_cases h
  · exact ⟨hd.2, htail⟩
  refine ⟨hd.2, fun q hq => ?_⟩
  obtain ⟨b, y, hb, hy, hin, hout⟩ := htail q hq
  have hqp : p.fd ≠ q.fd := hd.1 q hq
  have hba : b ≠ a := by
    rintro rfl
    exact hqp ((hl.fd_eq ha hx).symm.trans (hl.fd_eq hb hx))
  refine ⟨b, y, ?_, ?_, hin, hout⟩
  · split
    · exact (getD_set_ne (by rwa [hl.fd_eq ha hx])).trans hb
    · exact hb
  · split <;> simp [hba, hy]

/-- The loop over the entries of a pending poll set keeps the bookkeeping and every live
connection open and run by its handlers, and stops only on undefined behaviour. -/
theorem handleEntries_spec (H : HeapUpdate) : ∀ (l : Loop) (ps : List PollFd)
    (evs : List ConnEvents), l.Inv → l.ConnsOk H → l.Pending ps →
    (∀ e, l.handleEntries H ps evs = .error e → e = .undefined) ∧
    ∀ l', l.handleEntries H ps evs = .ok l' → l'.Inv ∧ l'.ConnsOk H
  | l, p :: ps, ev :: evs, hl, hok, hp => by
    simp only [handleEntries]
    refine ⟨fun e h => ?_, fun l' h => ?_⟩
    · obtain h | ⟨l₁, h₁, h⟩ := bind_eq_error.mp h
      · exact handleEntry_error hok hp h
      · exact (handleEntries_spec H l₁ ps evs (hl.handleEntry h₁) (hok.handleEntry hp h₁)
          (hp.handleEntry hl h₁)).1 e h
    · obtain ⟨l₁, h₁, h⟩ := bind_eq_ok.mp h
      exact (handleEntries_spec H l₁ ps evs (hl.handleEntry h₁) (hok.handleEntry hp h₁)
        (hp.handleEntry hl h₁)).2 l' h
  | l, [], _, hl, hok, _ => ⟨fun _ h => (by cases h), fun _ h => by cases h; exact ⟨hl, hok⟩⟩
  | l, _ :: _, [], hl, hok, _ =>
    ⟨fun _ h => (by cases h), fun _ h => by cases h; exact ⟨hl, hok⟩⟩

end Steps

/-! ## `process_timers` -/

/-- `l'` is `l` after the idle loop of `process_timers` at clock reading `now`: the connections
at the front of the idle list were destroyed, each with its timer, the `uint64_t`
`last_active_ms + k_idle_timeout_ms`, below `now`, and the connection left at the front, if
any, has its timer at `now` or later. -/
structure Swept (now : Nat) (l l' : Loop) : Prop where
  inv : l'.Inv
  server : l'.server = l.server
  idle : ∃ k, l'.idle = l.idle.drop k
  kept : ∀ a x, l'.conns a = some x → l.conns a = some x
  expired : ∀ a x, l.conns a = some x → l'.conns a = none →
    (x.lastActiveMs + kIdleTimeoutMs) % 2 ^ 64 < now
  stopped : ∀ a x, l'.idle.head? = some a → l'.conns a = some x →
    now ≤ (x.lastActiveMs + kIdleTimeoutMs) % 2 ^ 64

/-- The idle loop stops where it is. -/
theorem Swept.stop {now : Nat} {l : Loop} (hl : l.Inv)
    (h : ∀ a x, l.idle.head? = some a → l.conns a = some x →
      now ≤ (x.lastActiveMs + kIdleTimeoutMs) % 2 ^ 64) : Swept now l l :=
  ⟨hl, rfl, ⟨0, rfl⟩, fun _ _ h => h, fun _ _ h h' => (by rw [h] at h'; cases h'), h⟩

/-- One pass of the idle loop, the connection `x` at the front of the list. -/
theorem processIdle_cons (now fuel : Nat) {l : Loop} {a : Nat} {rest : List Nat} {x : Live}
    (hidle : l.idle = a :: rest) (hx : l.conns a = some x) :
    processIdle now (fuel + 1) l =
      if now ≤ (x.lastActiveMs + kIdleTimeoutMs) % 2 ^ 64 then .ok l
      else processIdle now fuel (l.connDestroy a x) := by
  rw [processIdle, hidle]
  dsimp only
  rw [hx]
  rfl

/-- The idle loop, given as many passes as the idle list is long, sweeps it. -/
theorem processIdle_spec (now : Nat) : ∀ (fuel : Nat) (l : Loop), l.Inv → l.idle.length ≤ fuel →
    ∃ l', processIdle now fuel l = .ok l' ∧ Swept now l l'
  | 0, l, hl, hlen => ⟨l, rfl, .stop hl fun a _ h => by
      rw [List.eq_nil_of_length_eq_zero (Nat.le_zero.mp hlen)] at h
      cases h⟩
  | fuel + 1, l, hl, hlen => by
    cases hidle : l.idle with
    | nil => exact ⟨l, by simp [processIdle, hidle, pure, Except.pure],
      .stop hl fun a _ h => by simp [hidle] at h⟩
    | cons a rest =>
      obtain ⟨x, hx⟩ := Option.isSome_iff_exists.mp ((hl.idle a).1 (by simp [hidle]))
      by_cases hn : now ≤ (x.lastActiveMs + kIdleTimeoutMs) % 2 ^ 64
      · refine ⟨l, by rw [processIdle_cons now fuel hidle hx, if_pos hn], .stop hl fun b y hb hy => ?_⟩
        simp only [hidle, List.head?_cons, Option.some.injEq] at hb
        subst hb
        rw [hx] at hy
        cases hy
        exact hn
      · have hidle₁ : (l.connDestroy a x).idle = rest := by simp [hidle]
        obtain ⟨l', h', hsw⟩ := processIdle_spec now fuel _ (hl.destroy hx)
          (by rw [hidle₁]; simp [hidle] at hlen; omega)
        refine ⟨l', by rw [processIdle_cons now fuel hidle hx, if_neg hn, h'],
          ⟨hsw.inv, hsw.server, ?_, fun b y hy => ?_, fun b y hb hy => ?_, hsw.stopped⟩⟩
        · obtain ⟨k, hk⟩ := hsw.idle
          exact ⟨k + 1, by rw [hk, hidle₁, hidle, List.drop_succ_cons]⟩
        · have := hsw.kept b y hy
          simp only [connDestroy_conns] at this
          split at this
          · cases this
          · exact this
        · by_cases hba : b = a
          · subst hba
            rw [hx] at hb
            cases hb
            omega
          · exact hsw.expired b y (by simp [hba, hb]) hy

theorem processTimers_cases {H : HeapUpdate} {now : Nat} {l l' : Loop} (hl : l.Inv)
    (h : l.processTimers H now = .ok l') : ∃ l₂ s, Swept now l l₂ ∧ l' = { l₂ with server := s } := by
  obtain ⟨l₂, h₂, hsw⟩ := processIdle_spec now _ l hl le_rfl
  simp only [processTimers, h₂, ok_bind] at h
  obtain ⟨s, -, h⟩ := bind_eq_ok.mp h
  exact ⟨l₂, s, hsw, (Except.ok.inj h).symm⟩

theorem processTimers_error {H : HeapUpdate} {now : Nat} {l : Loop} {e : Stop} (hl : l.Inv)
    (h : l.processTimers H now = .error e) : e = .undefined := by
  obtain ⟨l₂, h₂, -⟩ := processIdle_spec now _ l hl le_rfl
  simp only [processTimers, h₂, ok_bind] at h
  obtain h | ⟨s, -, h⟩ := bind_eq_error.mp h
  · exact orUndefined_eq_error h
  · cases h

end Loop

/-! ## Every iteration -/

section Iteration

variable (H : HeapUpdate) {l : Loop}

/-- Up to `process_timers`, an iteration keeps the bookkeeping and every live connection open
and run by its handlers. It stops only on undefined behaviour, or at the `assert` of
`handle_accept` when `accept()` returned the descriptor of a live connection. -/
theorem serveIter_spec (hl : l.Inv) (hok : l.ConnsOk H) (t : Tick) :
    (∀ e, serveIter H l t = .error e → e = .undefined ∨ e = .acceptAssert ∧
      ∃ fd a x, t.accept = some fd ∧ l.conns a = some x ∧ x.fd = fd) ∧
    ∀ l', serveIter H l t = .ok l' → l'.Inv ∧ l'.ConnsOk H := by
  obtain ⟨ps, hps, hp⟩ := Loop.pollArgs_spec hl
  simp only [serveIter, hps, ok_bind, pure_bind]
  split
  · refine ⟨fun e h => ?_, fun l' h => ?_⟩
    · obtain h | ⟨l₁, h₁, h⟩ := bind_eq_error.mp h
      · obtain ⟨rfl, fd, a, hfd, ha⟩ := Loop.handleAccept_error h
        obtain ⟨x, hx, hxfd⟩ := (hl.fd2conn _ _).1 ha
        exact .inr ⟨rfl, fd, a, x, hfd, hx, hxfd⟩
      · obtain ⟨hl₁, hok₁, hp₁⟩ := Loop.handleAccept_spec hl hok hp h₁
        exact .inl ((Loop.handleEntries_spec H l₁ ps t.conns hl₁ hok₁ hp₁).1 e h)
    · obtain ⟨l₁, h₁, h⟩ := bind_eq_ok.mp h
      obtain ⟨hl₁, hok₁, hp₁⟩ := Loop.handleAccept_spec hl hok hp h₁
      exact (Loop.handleEntries_spec H l₁ ps t.conns hl₁ hok₁ hp₁).2 l' h
  · have hs := Loop.handleEntries_spec H l ps t.conns hl hok hp
    exact ⟨fun e h => .inl (hs.1 e h), hs.2⟩

/-- A whole iteration keeps the bookkeeping and every live connection open and run by its
handlers. It stops only on undefined behaviour, or at the `assert` of `handle_accept` when
`accept()` returned the descriptor of a live connection. -/
theorem loopIter_spec (hl : l.Inv) (hok : l.ConnsOk H) (t : Tick) :
    (∀ e, loopIter H l t = .error e → e = .undefined ∨ e = .acceptAssert ∧
      ∃ fd a x, t.accept = some fd ∧ l.conns a = some x ∧ x.fd = fd) ∧
    ∀ l', loopIter H l t = .ok l' → l'.Inv ∧ l'.ConnsOk H := by
  have hs := serveIter_spec H hl hok t
  refine ⟨fun e h => ?_, fun l' h => ?_⟩
  · obtain h | ⟨l₁, h₁, h⟩ := bind_eq_error.mp h
    · exact hs.1 e h
    · exact .inl (Loop.processTimers_error (hs.2 l₁ h₁).1 h)
  · obtain ⟨l₁, h₁, h⟩ := bind_eq_ok.mp h
    obtain ⟨hl₁, hok₁⟩ := hs.2 l₁ h₁
    obtain ⟨l₂, s, hsw, rfl⟩ := Loop.processTimers_cases hl₁ h
    exact ⟨hsw.inv.withServer s, fun a x hx => hok₁ a x (hsw.kept a x hx)⟩

theorem Loop.Reachable.inv {H : HeapUpdate} (hr : l.Reachable H) : l.Inv ∧ l.ConnsOk H := by
  induction hr with
  | init s => exact ⟨.init s, fun _ _ h => by cases h⟩
  | iter t _ h ih => exact (loopIter_spec H ih.1 ih.2 t).2 _ h

end Iteration

/-! ## The intentions of the connections -/

/-- On every run of the event loop, at the top of the loop, every live connection that is not
closing wants exactly one of reading and writing, writing exactly when `outgoing` holds
bytes; and the next iteration, whatever its system calls return, stops at none of the
`assert`s on them (`want_read` and `want_write` in the loop, `outgoing.size() > 0` in
`handle_write`), only at the `assert` of `handle_accept` or on undefined behaviour. -/
theorem conn_intents_consistent {H : HeapUpdate} {l : Loop} (hl : l.Reachable H) :
    (∀ a x, l.conns a = some x → x.conn.wantClose = false →
      x.conn.wantRead = !x.conn.wantWrite ∧ (x.conn.wantWrite → 0 < x.conn.outgoing.size) ∧
        (x.conn.wantRead → x.conn.outgoing.size = 0)) ∧
    ∀ t e, loopIter H l t = .error e → e = .acceptAssert ∨ e = .undefined := by
  obtain ⟨hi, hok⟩ := hl.inv
  refine ⟨fun a x hx hc => ?_, fun t e h => ((loopIter_spec H hi hok t).1 e h).symm.imp_left And.left⟩
  obtain ⟨-, S, D, W, hr⟩ := hok a x hx
  have hw := hr.wants hc
  exact ⟨hw.one, hw.write, hw.read⟩

/-- Two iterations from the start, the AOF off, each coming back to `poll()`: the listening
socket is ready and `accept()` returns the descriptor 4; then the connection is readable at
1 ms, `read()` returns the frame of `set k v`, which `do_request` serves, and the reply is
written whole. The store then holds one key, and the connection was last active at 1 ms. -/
theorem loopIter_accept_set :
    ∃ l₁ l₂, loopIter HeapUpdate.sorted
        (Loop.init ⟨Db.empty, ⟨false, false, 0, Buffer.new 1024, false, []⟩⟩)
        ⟨true, some 4, 0, [], 0⟩ = .ok l₁ ∧
      loopIter HeapUpdate.sorted l₁ ⟨false, none, 0, [⟨⟨true, false, false, false⟩, 1,
        fun _ => ⟨1, some, true, true, true⟩, .data (reqFrame [ascii "set", ascii "k", ascii "v"]),
        .wrote 65536, .again⟩], 1⟩ = .ok l₂ ∧
      l₂.server.db.table.length = 1 ∧ (l₂.conns 0).map (fun x => x.lastActiveMs) = some 1 :=
  ⟨_, _, rfl, rfl, rfl, rfl⟩

/-- The run of `loopIter_accept_set`: after the connection's `set k v` is served. -/
theorem conn_intents_consistent_set :
    ∃ l : Loop, l.Reachable HeapUpdate.sorted ∧ l.server.db.table.length = 1 ∧
      (l.conns 0).map (fun x => x.lastActiveMs) = some 1 ∧
      (∀ a x, l.conns a = some x → x.conn.wantClose = false →
        x.conn.wantRead = !x.conn.wantWrite ∧ (x.conn.wantWrite → 0 < x.conn.outgoing.size) ∧
          (x.conn.wantRead → x.conn.outgoing.size = 0)) ∧
      ∀ t e, loopIter HeapUpdate.sorted l t = .error e → e = .acceptAssert ∨ e = .undefined := by
  obtain ⟨l₁, l₂, h₁, h₂, hdb, hc⟩ := loopIter_accept_set
  have hr := Loop.Reachable.iter _ (.iter _ (.init _) h₁) h₂
  exact ⟨l₂, hr, hdb, hc, conn_intents_consistent hr⟩

end KvServer
