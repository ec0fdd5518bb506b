import KvServer.Server.Loop

/-!
# The event loop runs whole requests, one at a time

The event loop serves many connections from one thread. Within an iteration it accepts a
connection, serves each ready connection in the order of the poll set, and runs
`process_timers`. Serving a connection may hand several pipelined requests to `do_request`.
Nothing but `do_request` and the TTL part of `process_timers` writes the store or the AOF
state. Accepting, touching and destroying connections, `handle_write`, and the idle timers
write only the connection bookkeeping.

So the server state at the top of the loop is always where whole `do_request` calls, one after
the other, and TTL passes take the state at the start (`Server.Exec`, which lists every
request with its reply, where `Server.Run` lists the logged commands). Every result about
`Server.Run` therefore holds of the running program, whatever the system calls return and
however the connections interleave. That includes the invariant of the server
(`Server.Run.inv`) and the AOF trace of `Server.Request`.

More holds. The requests of all connections form one history, each tagged with the address of
the connection that sent it and with the reply `do_request` made to it (`Loop.History`). The
store follows the whole history in its order. Each live connection's handlers ran on its own
requests of it (`requestsOf`), in their order, and the bytes it was sent, followed by what
waits in `outgoing`, are the response frames of their replies. The law of one connection
(`conn_serves_requests_in_order`) says these requests are the frames it sent. So the server is
serializable: each connection's requests run once, in the order sent, at one place each in a
single global order, and each reply is the one made at that place.

Results:
1. `serveReady_cases`: what serving a ready connection can do.
2. `tryOneRequest_exec`, `serveLoop_exec`, `handleRead_exec`, `serveReady_run`,
   `processTimers_frame`: one lemma per step of an iteration.
3. `loopIter_exec` and `loop_refines_server_run`: every run of the event loop refines a run of
   the server.
4. `Loop.History.loopIter` and `loop_serializes_requests`: every run of the event loop from
   the start serializes the requests of its connections.
-/

namespace KvServer

/-- `do_request` calls, one after the other, each on the command of an entry of `R` and making
the reply of that entry, each with its own outcomes of the system calls and a clock reading
that satisfies `P`, and TTL passes of `process_timers` in between. -/
inductive Server.Exec (H : HeapUpdate) (P : Nat → Prop) :
    Server → List (Cmd × List Out) → Server → Prop
  | nil (s : Server) : Server.Exec H P s [] s
  | request {s s₁ s₂ : Server} {env : Env} {cmd : Cmd} {outs : List Out} {w : List UInt8}
      {R : List (Cmd × List Out)} : P env.now → doRequest H env s cmd = some (s₁, outs, w) →
      Server.Exec H P s₁ R s₂ → Server.Exec H P s ((cmd, outs) :: R) s₂
  | timers {s s₁ s₂ : Server} {now : Nat} {R : List (Cmd × List Out)} :
      s.processTtl H now = some s₁ → Server.Exec H P s₁ R s₂ → Server.Exec H P s R s₂

/-- The response frames of the replies of `R`, in order. -/
def responses (R : List (Cmd × List Out)) : List UInt8 := R.flatMap fun e => respFrame e.2

@[simp] theorem responses_nil : responses [] = [] := rfl

@[simp] theorem responses_append (R₁ R₂ : List (Cmd × List Out)) :
    responses (R₁ ++ R₂) = responses R₁ ++ responses R₂ :=
  List.flatMap_append _ _ _

namespace Server.Exec

variable {H : HeapUpdate} {P : Nat → Prop} {s s₁ s₂ : Server} {R₁ R₂ : List (Cmd × List Out)}

theorem trans (h₁ : Server.Exec H P s R₁ s₁) (h₂ : Server.Exec H P s₁ R₂ s₂) :
    Server.Exec H P s (R₁ ++ R₂) s₂ := by
  induction h₁ with
  | nil => exact h₂
  | request hP h _ ih => exact .request hP h (ih h₂)
  | timers h _ ih => exact .timers h (ih h₂)

/-- The same calls make a run of the server, indexed by what they logged. -/
theorem run (h : Server.Exec H P s R₁ s₁) : ∃ L W, s.Run H L W s₁ := by
  induction h with
  | nil s => exact ⟨[], [], .nil s⟩
  | request _ h _ ih =>
    obtain ⟨L, W, r⟩ := ih
    exact ⟨_, _, .request h r⟩
  | timers h _ ih =>
    obtain ⟨L, W, r⟩ := ih
    exact ⟨L, W, .timers h r⟩

end Server.Exec

/-! ## The steps of an iteration -/

section Steps

variable {H : HeapUpdate} {P : Nat → Prop}

/-- `try_one_request` writes the server only through its `do_request`, on the command it
returns; the response frame of the reply goes to the end of `outgoing`. -/
theorem tryOneRequest_exec {env : Env} {s s' : Server} {c c' : Conn} {r : Option Cmd}
    (hP : P env.now) (h : tryOneRequest H env s c = some (r, s', c')) :
    ∃ R, Server.Exec H P s R s' ∧ R.map Prod.fst = r.toList ∧ (c.outgoing.Inv →
      c'.outgoing.Inv ∧ c'.outgoing.content = c.outgoing.content ++ responses R) := by
  unfold tryOneRequest at h
  split at h
  · cases h; exact ⟨[], .nil s, rfl, fun ho => ⟨ho, (List.append_nil _).symm⟩⟩
  obtain ⟨len, -, h⟩ := Option.bind_eq_some.mp h
  split at h
  · cases h; exact ⟨[], .nil s, rfl, fun ho => ⟨ho, (List.append_nil _).symm⟩⟩
  split at h
  · cases h; exact ⟨[], .nil s, rfl, fun ho => ⟨ho, (List.append_nil _).symm⟩⟩
  obtain ⟨request, -, h⟩ := Option.bind_eq_some.mp h
  split at h
  · cases h; exact ⟨[], .nil s, rfl, fun ho => ⟨ho, (List.append_nil _).symm⟩⟩
  obtain ⟨⟨s₁, outs, w⟩, hd, h⟩ := Option.bind_eq_some.mp h
  obtain ⟨outgoing, hr, h⟩ := Option.bind_eq_some.mp h
  cases h
  refine ⟨[(_, outs)], .request hP hd (.nil _), rfl, fun ho => ?_⟩
  obtain ⟨hi, hc, -⟩ := respond_spec ho (doRequest_shaped H _ hd) hr
  exact ⟨hi, by simpa [responses] using hc⟩

/-- The loop of `handle_read`: its requests one after the other, their response frames
appended to `outgoing` in the same order. -/
theorem serveLoop_exec {env : Nat → Env} (hP : ∀ i, P (env i).now) :
    ∀ {fuel i : Nat} {s s' : Server} {c c' : Conn} {cmds : List Cmd},
      serveLoop H env fuel i s c = some (s', c', cmds) →
      ∃ R, Server.Exec H P s R s' ∧ R.map Prod.fst = cmds ∧ (c.outgoing.Inv →
        c'.outgoing.Inv ∧ c'.outgoing.content = c.outgoing.content ++ responses R)
  | 0, _, s, _, _, _, _, h => by
    cases h
    exact ⟨[], .nil s, rfl, fun ho => ⟨ho, (List.append_nil _).symm⟩⟩
  | _ + 1, _, s, _, _, _, _, h => by
    rw [serveLoop, Option.bind_eq_bind] at h
    obtain ⟨⟨r, s₁, c₁⟩, ht, h⟩ := Option.bind_eq_some.mp h
    obtain ⟨R₁, e₁, hR₁, ho₁⟩ := tryOneRequest_exec (hP _) ht
    cases r with
    | none => cases h; exact ⟨R₁, e₁, hR₁, ho₁⟩
    | some cmd =>
      obtain ⟨⟨s₂, c₂, cmds₂⟩, hl, h⟩ := Option.bind_eq_some.mp h
      cases h
      obtain ⟨R₂, e₂, hR₂, ho₂⟩ := serveLoop_exec hP hl
      refine ⟨R₁ ++ R₂, e₁.trans e₂, by rw [List.map_append, hR₁, hR₂]; rfl, fun ho => ?_⟩
      obtain ⟨hi₁, hc₁⟩ := ho₁ ho
      obtain ⟨hi₂, hc₂⟩ := ho₂ hi₁
      exact ⟨hi₂, by rw [hc₂, hc₁, responses_append, List.append_assoc]⟩

/-- `handle_read`: the requests of its loop, and the bytes it writes followed by `outgoing` are
what `outgoing` held followed by their response frames. -/
theorem handleRead_exec {env : Nat → Env} {s s' : Server} {c c' : Conn} {r : ReadResult}
    {w : WriteResult} {cmds : List Cmd} {written : List UInt8} (hP : ∀ i, P (env i).now)
    (h : handleRead H env s c r w = some (s', c', cmds, written)) :
    ∃ R, Server.Exec H P s R s' ∧ R.map Prod.fst = cmds ∧ (c.outgoing.Inv →
      written ++ c'.outgoing.content = c.outgoing.content ++ responses R) := by
  cases r with
  | again | error | eof => cases h; exact ⟨[], .nil s, rfl, fun _ => (List.append_nil _).symm⟩
  | data bytes =>
    obtain ⟨inc, -, h⟩ := Option.bind_eq_some.mp h
    obtain ⟨⟨s₁, c₁, cmds₁⟩, hl, h⟩ := Option.bind_eq_some.mp h
    obtain ⟨R, e, hR, ho⟩ := serveLoop_exec hP hl
    dsimp only at h
    split at h
    · obtain ⟨⟨c₂, wr⟩, hw, h⟩ := Option.bind_eq_some.mp h
      cases h
      refine ⟨R, e, hR, fun hi => ?_⟩
      obtain ⟨hi₁, hc₁⟩ := ho hi
      rw [(handleWrite_spec (c := { c₁ with wantRead := false, wantWrite := true }) hi₁ hw).content]
      exact hc₁
    · cases h
      exact ⟨R, e, hR, fun hi => (ho hi).2⟩

/-- What serving a ready connection can do: `handle_read` on `POLLIN`, the connection wanting to
read, then `handle_write` on `POLLOUT`, the connection then wanting to write. Only
`handle_read` writes the server. -/
theorem serveReady_cases {s s' : Server} {c c' : Conn} {ready : Revents} {ev : ConnEvents}
    (h : serveReady H s c ready ev = .ok (s', c')) :
    ∃ c₁, ((s', c₁) = (s, c) ∨ ready.pollIn ∧ c.wantRead ∧
        ∃ cmds wr, handleRead H ev.env s c ev.read ev.readWrite = some (s', c₁, cmds, wr)) ∧
      (c' = c₁ ∨ ready.pollOut ∧ c₁.wantWrite ∧ ∃ wr, handleWrite c₁ ev.write = some (c', wr)) := by
  -- the `handle_write` part returns the server `handle_read` left
  have hw : ∀ {s₁ : Server} {c₁ : Conn}, (if ready.pollOut then
      if c₁.wantWrite then (do let r ← handleWriteAt c₁ ev.write; pure (s₁, r.1))
      else .error .writeAssert else pure (s₁, c₁)) = Except.ok (s', c') →
      s₁ = s' ∧ (c' = c₁ ∨ ready.pollOut ∧ c₁.wantWrite ∧
        ∃ wr, handleWrite c₁ ev.write = some (c', wr)) := by
    intro s₁ c₁ h
    split at h
    · split at h
      · obtain ⟨⟨c₂, wr⟩, hwr, h⟩ := bind_eq_ok.mp h
        cases h
        unfold handleWriteAt at hwr
        split at hwr
        · cases hwr
        · exact ⟨rfl, .inr ⟨‹_›, ‹_›, wr, orUndefined_eq_ok.mp hwr⟩⟩
      · cases h
    · cases h
      exact ⟨rfl, .inl rfl⟩
  unfold serveReady at h
  dsimp only at h
  split at h
  · split at h
    · obtain ⟨⟨s₂, c₂, cmds, wr⟩, hr, h⟩ := bind_eq_ok.mp h
      rw [pure_bind] at h
      obtain ⟨rfl, hc'⟩ := hw h
      exact ⟨c₂, .inr ⟨‹_›, ‹_›, cmds, wr, orUndefined_eq_ok.mp hr⟩, hc'⟩
    · cases h
  · rw [pure_bind] at h
    obtain ⟨rfl, hc'⟩ := hw h
    exact ⟨c, .inl rfl, hc'⟩

/-- Serving a ready connection runs the requests its `handle_read` hands to `do_request`. -/
theorem serveReady_exec {s s' : Server} {c c' : Conn} {ready : Revents} {ev : ConnEvents}
    (hP : ∀ i, P (ev.env i).now) (h : serveReady H s c ready ev = .ok (s', c')) :
    ∃ R, Server.Exec H P s R s' := by
  obtain ⟨c₁, he | ⟨-, -, cmds, wr, hh⟩, -⟩ := serveReady_cases h
  · obtain ⟨rfl, -⟩ := Prod.mk.inj he
    exact ⟨[], .nil _⟩
  · obtain ⟨R, e, -⟩ := handleRead_exec hP hh
    exact ⟨R, e⟩

/-- Serving a ready connection that a run of its handlers took where it is, on an entry that
asks for what it wants: the server runs the requests `handle_read` hands to `do_request`, the
run of the connection goes on with them, and their response frames follow what the connection
was sent and had waiting in `outgoing`. -/
theorem serveReady_run {s s' : Server} {c c' : Conn} {p : PollFd} {ev : ConnEvents}
    {S : List UInt8} {D : List Cmd} {W F : List UInt8} (hr : c.Run H S D W)
    (hc : c.wantClose = false) (hout : c.wantWrite = p.pollOut)
    (hF : W ++ c.outgoing.content = F) (hP : ∀ i, P (ev.env i).now)
    (h : serveReady H s c (p.revents ev.ready) ev = .ok (s', c')) :
    ∃ R S' W', Server.Exec H P s R s' ∧ c'.Run H S' (D ++ R.map Prod.fst) W' ∧
      W' ++ c'.outgoing.content = F ++ responses R := by
  have ho := hr.law.outgoing
  obtain ⟨c₁, hread, hwrite⟩ := serveReady_cases h
  rcases hread with he | ⟨-, hrd, cmds, wr, hh⟩
  · obtain ⟨rfl, rfl⟩ := Prod.mk.inj he
    rw [← List.append_nil D] at hr
    rw [← List.append_nil F] at hF
    rcases hwrite with rfl | ⟨-, hww, wr, hh⟩
    · exact ⟨[], S, W, .nil _, hr, hF⟩
    · refine ⟨[], S, _, .nil _, .write hr hc hww hh, ?_⟩
      rw [List.append_assoc, (handleWrite_spec ho hh).content, hF, responses_nil]
  · -- a connection that wants to read does not want to write, so `POLLOUT` is not set
    have hno : (p.revents ev.ready).pollOut = false := by
      have : c.wantWrite = false := by simpa [hrd] using (hr.wants hc).one.symm
      simp [PollFd.revents, ← hout, this]
    rcases hwrite with rfl | ⟨ho', -⟩
    · obtain ⟨R, e, rfl, hw⟩ := handleRead_exec hP hh
      refine ⟨R, _, _, e, .read hr hc hrd hh, ?_⟩
      rw [List.append_assoc, hw ho, ← List.append_assoc, hF]
    · rw [hno] at ho'
      cases ho'

namespace Loop

variable {l l' : Loop}

/-- Serving one entry of the poll set: the touch and `conn_destroy` leave the server alone. -/
theorem handleEntry_exec {p : PollFd} {ev : ConnEvents} (hP : ∀ i, P (ev.env i).now)
    (h : l.handleEntry H p ev = .ok l') : ∃ R, Server.Exec H P l.server R l'.server := by
  obtain rfl | ⟨a, x, s, c, -, -, hs, rfl⟩ := handleEntry_cases h
  · exact ⟨[], .nil _⟩
  have h₁ := serveReady_exec hP hs
  split <;> exact h₁

theorem handleEntries_exec :
    ∀ {l l' : Loop} {ps : List PollFd} {evs : List ConnEvents},
      (∀ ev ∈ evs, ∀ i, P (ev.env i).now) → l.handleEntries H ps evs = .ok l' →
      ∃ R, Server.Exec H P l.server R l'.server
  | l, _, p :: ps, ev :: evs, hP, h => by
    obtain ⟨l₁, h₁, h⟩ := bind_eq_ok.mp h
    obtain ⟨R₁, e₁⟩ := handleEntry_exec (hP ev (List.mem_cons_self _ _)) h₁
    obtain ⟨R₂, e₂⟩ := handleEntries_exec (fun ev' h' => hP ev' (List.mem_cons_of_mem _ h')) h
    exact ⟨_, e₁.trans e₂⟩
  | l, _, [], _, _, h | l, _, _ :: _, [], _, h => by cases h; exact ⟨[], .nil _⟩

/-- `handle_accept` leaves the server alone. -/
theorem handleAccept_server {acc : Option Nat} {now : Nat} (h : l.handleAccept acc now = .ok l') :
    l'.server = l.server := by
  obtain rfl | ⟨fd, -, -, rfl⟩ := handleAccept_cases h <;> rfl

/-- The idle loop of `process_timers` leaves the server alone, hands out no address, and only
destroys connections. -/
theorem processIdle_frame (now : Nat) :
    ∀ {fuel : Nat} {l l' : Loop}, processIdle now fuel l = .ok l' →
      l'.server = l.server ∧ l'.nextAddr = l.nextAddr ∧
        ∀ a x, l'.conns a = some x → l.conns a = some x
  | 0, _, _, h => by cases h; exact ⟨rfl, rfl, fun _ _ => id⟩
  | _ + 1, l, _, h => by
    unfold processIdle at h
    split at h
    · cases h; exact ⟨rfl, rfl, fun _ _ => id⟩
    · obtain ⟨x, -, h⟩ := bind_eq_ok.mp h
      split at h
      · cases h; exact ⟨rfl, rfl, fun _ _ => id⟩
      · obtain ⟨hs, hn, hk⟩ := processIdle_frame now h
        exact ⟨hs, hn, fun b y hy => conns_of_connDestroy (hk b y hy)⟩

/-- `process_timers`: the idle loop destroys connections, then one TTL pass. -/
theorem processTimers_frame {now : Nat} (h : l.processTimers H now = .ok l') :
    Server.Exec H P l.server [] l'.server ∧ l'.nextAddr = l.nextAddr ∧
      ∀ a x, l'.conns a = some x → l.conns a = some x := by
  obtain ⟨l₁, h₁, h⟩ := bind_eq_ok.mp h
  obtain ⟨s, hs, h⟩ := bind_eq_ok.mp h
  cases h
  obtain ⟨hsrv, hn, hk⟩ := processIdle_frame now h₁
  rw [hsrv] at hs
  exact ⟨.timers (orUndefined_eq_ok.mp hs) (.nil _), hn, hk⟩

end Loop

/-- One iteration of the event loop. -/
theorem loopIter_exec {l l' : Loop} {t : Tick} (hP : ∀ ev ∈ t.conns, ∀ i, P (ev.env i).now)
    (h : loopIter H l t = .ok l') : ∃ R, Server.Exec H P l.server R l'.server := by
  obtain ⟨l₁, h₁, h⟩ := bind_eq_ok.mp h
  obtain ⟨R, e₁⟩ : ∃ R, Server.Exec H P l.server R l₁.server := by
    obtain ⟨args, -, h₁⟩ := bind_eq_ok.mp h₁
    dsimp only at h₁
    split at h₁
    · obtain ⟨l₂, h₂, h₁⟩ := bind_eq_ok.mp h₁
      rw [← Loop.handleAccept_server h₂]
      exact Loop.handleEntries_exec hP h₁
    · rw [pure_bind] at h₁
      exact Loop.handleEntries_exec hP h₁
  exact ⟨_, e₁.trans (Loop.processTimers_frame h).1⟩

end Steps

/-! ## Every run of the event loop -/

/-- One iteration of the event loop that comes back to `poll()`, whatever its system calls
return. -/
def Loop.Step (H : HeapUpdate) (l l' : Loop) : Prop := ∃ t, loopIter H l t = .ok l'

/-- **The event loop runs whole requests, one at a time.** Over every run of the event loop,
whatever the system calls return and however the reads, writes, accepts, destroys and idle
timeouts of the connections interleave, the server state at the top of the loop is where a
run of the server (`Server.Run`) takes the state at the start: whole `do_request` calls, one
after the other, and TTL passes of `process_timers`. -/
theorem loop_refines_server_run {H : HeapUpdate} {l l' : Loop}
    (h : Relation.ReflTransGen (Loop.Step H) l l') : ∃ L W, l.server.Run H L W l'.server := by
  suffices ∃ R, Server.Exec H (fun _ => True) l.server R l'.server from this.elim fun _ e => e.run
  induction h with
  | refl => exact ⟨[], .nil _⟩
  | tail _ step ih =>
    obtain ⟨t, ht⟩ := step
    obtain ⟨R₁, e₁⟩ := ih
    obtain ⟨R₂, e₂⟩ := loopIter_exec (P := fun _ => True) (fun _ _ _ => trivial) ht
    exact ⟨_, e₁.trans e₂⟩

/-- The run of `loopIter_accept_set`, which serves the `set k v` of a connection. -/
theorem loop_refines_server_run_set :
    ∃ l, Relation.ReflTransGen (Loop.Step HeapUpdate.sorted)
        (Loop.init ⟨Db.empty, ⟨false, false, 0, Buffer.new 1024, false, []⟩⟩) l ∧
      l.server.db.table.length = 1 ∧
      ∃ L W, Server.Run HeapUpdate.sorted ⟨Db.empty, ⟨false, false, 0, Buffer.new 1024, false, []⟩⟩
        L W l.server := by
  obtain ⟨l₁, l₂, h₁, h₂, hdb, -⟩ := loopIter_accept_set
  have hr : Relation.ReflTransGen (Loop.Step HeapUpdate.sorted) _ l₂ :=
    .tail (.single ⟨_, h₁⟩) ⟨_, h₂⟩
  exact ⟨_, hr, hdb, loop_refines_server_run hr⟩

/-! ## One global order of the requests of all connections -/

/-- An iteration of the event loop that comes back to `poll()`, in which every `do_request`
reads the clock at a value that satisfies `P`. -/
def Loop.StepIn (H : HeapUpdate) (P : Nat → Prop) (l l' : Loop) : Prop :=
  ∃ t : Tick, (∀ ev ∈ t.conns, ∀ i, P (ev.env i).now) ∧ loopIter H l t = .ok l'

/-- The requests of the connection at address `a` in a history of tagged requests, each with
its reply, in order. -/
def requestsOf (G : List (Nat × Cmd × List Out)) (a : Nat) : List (Cmd × List Out) :=
  (G.filter fun q => q.1 == a).map Prod.snd

@[simp] theorem requestsOf_append (G₁ G₂ : List (Nat × Cmd × List Out)) (a : Nat) :
    requestsOf (G₁ ++ G₂) a = requestsOf G₁ a ++ requestsOf G₂ a := by
  simp [requestsOf]

/-- Requests all from the connection at `a`. -/
theorem requestsOf_tag (R : List (Cmd × List Out)) (a b : Nat) :
    requestsOf (R.map ((a, ·))) b = if a = b then R else [] := by
  unfold requestsOf
  split <;> simp [List.filter_map, Function.comp_def, *]

theorem requestsOf_eq_nil {G : List (Nat × Cmd × List Out)} {a : Nat}
    (h : ∀ q ∈ G, q.1 ≠ a) : requestsOf G a = [] := by
  rw [requestsOf, List.filter_eq_nil_iff.mpr fun q hq => by simpa using h q hq, List.map_nil]

/-- `G` is a history of the run of the event loop from `s₀` that reached `l`: the requests
handed to `do_request` so far, each tagged with the address of the connection that sent it
and with the reply `do_request` made. The server is where they take `s₀`, in their order, at
clock readings that satisfy `P`, and with TTL passes in between; every address in it was
handed out; and each live connection is where a run of its handlers on its own requests of
`G`, in their order, took it, the bytes that run wrote followed by `outgoing` being the
response frames of their replies. -/
structure Loop.History (H : HeapUpdate) (P : Nat → Prop) (s₀ : Server)
    (G : List (Nat × Cmd × List Out)) (l : Loop) : Prop where
  exec : Server.Exec H P s₀ (G.map Prod.snd) l.server
  addrs : ∀ q ∈ G, q.1 < l.nextAddr
  conns : ∀ a x, l.conns a = some x → ∃ S W,
    x.conn.Run H S ((requestsOf G a).map Prod.fst) W ∧
      W ++ x.conn.outgoing.content = responses (requestsOf G a)

namespace Loop.History

variable {H : HeapUpdate} {P : Nat → Prop} {s₀ : Server} {G : List (Nat × Cmd × List Out)}
  {l l' : Loop}

theorem init (s₀ : Server) : (Loop.init s₀).History H P s₀ [] :=
  ⟨.nil s₀, fun _ h => (by cases h), fun _ _ h => by cases h⟩

/-- `conn_destroy` keeps a history. -/
theorem connDestroy (hh : l.History H P s₀ G) (a : Nat) (x : Live) :
    (l.connDestroy a x).History H P s₀ G :=
  ⟨hh.exec, hh.addrs, fun b y hy => hh.conns b y (conns_of_connDestroy hy)⟩

/-- `handle_accept` keeps a history: the new connection's address was never handed out, so it
sent no request of it. -/
theorem handleAccept {acc : Option Nat} {now : Nat} (hh : l.History H P s₀ G)
    (h : l.handleAccept acc now = .ok l') : l'.History H P s₀ G := by
  obtain rfl | ⟨fd, -, -, rfl⟩ := handleAccept_cases h
  · exact hh
  refine ⟨hh.exec, fun q hq => Nat.lt_succ_of_lt (hh.addrs q hq), fun b y hy => ?_⟩
  simp only [newConn_conns] at hy
  split at hy
  · rename_i hb
    subst hb
    cases hy
    rw [requestsOf_eq_nil fun q hq => (hh.addrs q hq).ne]
    exact ⟨[], [], .accept, rfl⟩
  · exact hh.conns b y hy

/-- Serving one entry of a pending poll set extends a history by the requests of the served
connection, with their replies, in the order `handle_read` handed them to `do_request`. -/
theorem handleEntry {p : PollFd} {ps : List PollFd} {ev : ConnEvents} (hl : l.Inv)
    (hok : l.ConnsOk H) (hp : l.Pending (p :: ps)) (hh : l.History H P s₀ G)
    (hP : ∀ i, P (ev.env i).now) (h : l.handleEntry H p ev = .ok l') :
    ∃ G', l'.History H P s₀ G' := by
  obtain rfl | ⟨a, x, s, c, ha, hx, hs, rfl⟩ := handleEntry_cases h
  · exact ⟨G, hh⟩
  obtain ⟨a', x', ha', hx', -, hout⟩ := hp.head
  obtain rfl : a = a' := Option.some.inj (ha.symm.trans ha')
  obtain rfl : x = x' := Option.some.inj (hx.symm.trans hx')
  obtain ⟨S, W, hr, hF⟩ := hh.conns a x hx
  obtain ⟨R, S', W', he, hr', hF'⟩ := serveReady_run hr (hok a x hx).1 hout hF hP hs
  have hserved : { l.touch a ⟨x.fd, ev.now, c⟩ with server := s }.History H P s₀
      (G ++ R.map ((a, ·))) := by
    refine ⟨?_, fun q hq => ?_, fun b y hy => ?_⟩
    · simpa [Function.comp_def] using hh.exec.trans he
    · obtain hq | ⟨e, -, rfl⟩ := List.mem_append.mp hq |>.imp_right List.mem_map.mp
      · exact hh.addrs q hq
      · exact hl.lt_nextAddr hx
    · simp only [touch_conns] at hy
      rw [requestsOf_append, requestsOf_tag]
      split at hy
      · rename_i hb
        subst hb
        cases hy
        rw [if_pos rfl, List.map_append, responses_append]
        exact ⟨S', W', hr', hF'⟩
      · rename_i hb
        rw [if_neg (Ne.symm hb), List.append_nil]
        exact hh.conns b y hy
  split
  · exact ⟨_, hserved.connDestroy a _⟩
  · exact ⟨_, hserved⟩

theorem handleEntries : ∀ {l l' : Loop} {ps : List PollFd} {evs : List ConnEvents}
    {G : List (Nat × Cmd × List Out)}, l.Inv → l.ConnsOk H → l.Pending ps →
    l.History H P s₀ G → (∀ ev ∈ evs, ∀ i, P (ev.env i).now) →
    l.handleEntries H ps evs = .ok l' → ∃ G', l'.History H P s₀ G'
  | l, _, p :: ps, ev :: evs, _, hl, hok, hp, hh, hP, h => by
    obtain ⟨l₁, h₁, h⟩ := bind_eq_ok.mp h
    obtain ⟨G₁, hh₁⟩ := hh.handleEntry hl hok hp (hP ev (List.mem_cons_self _ _)) h₁
    exact handleEntries (hl.handleEntry h₁) (hok.handleEntry hp h₁) (hp.handleEntry hl h₁) hh₁
      (fun ev' h' => hP ev' (List.mem_cons_of_mem _ h')) h
  | l, _, [], _, G, _, _, _, hh, _, h | l, _, _ :: _, [], G, _, _, _, hh, _, h => by
    cases h
    exact ⟨G, hh⟩

/-- `process_timers` keeps a history: its idle loop only destroys connections, and its TTL
pass goes into the run of the server. -/
theorem processTimers {now : Nat} (hh : l.History H P s₀ G)
    (h : l.processTimers H now = .ok l') : l'.History H P s₀ G := by
  obtain ⟨he, hn, hk⟩ := Loop.processTimers_frame h
  exact ⟨by simpa using hh.exec.trans he, fun q hq => hn ▸ hh.addrs q hq,
    fun a x hx => hh.conns a x (hk a x hx)⟩

/-- One iteration of the event loop extends a history. -/
theorem loopIter (hl : l.Inv) (hok : l.ConnsOk H) (hh : l.History H P s₀ G) {t : Tick}
    (hP : ∀ ev ∈ t.conns, ∀ i, P (ev.env i).now) (h : KvServer.loopIter H l t = .ok l') :
    ∃ G', l'.History H P s₀ G' := by
  obtain ⟨l₁, h₁, h⟩ := bind_eq_ok.mp h
  obtain ⟨ps, hps, hp⟩ := pollArgs_spec hl
  obtain ⟨G₁, hh₁⟩ : ∃ G₁, l₁.History H P s₀ G₁ := by
    simp only [serveIter, hps, ok_bind] at h₁
    split at h₁
    · obtain ⟨l₂, h₂, h₁⟩ := bind_eq_ok.mp h₁
      obtain ⟨hl₂, hok₂, hp₂⟩ := handleAccept_spec hl hok hp h₂
      exact (hh.handleAccept h₂).handleEntries hl₂ hok₂ hp₂ hP h₁
    · rw [pure_bind] at h₁
      exact hh.handleEntries hl hok hp hP h₁
  exact ⟨G₁, hh₁.processTimers h⟩

/-- Every run of the event loop from the start has a history. -/
theorem of_run (h : Relation.ReflTransGen (Loop.StepIn H P) (Loop.init s₀) l) :
    ∃ G, l.History H P s₀ G := by
  obtain ⟨-, hh⟩ : l.Reachable H ∧ ∃ G, l.History H P s₀ G := by
    induction h with
    | refl => exact ⟨.init s₀, [], .init s₀⟩
    | tail _ step ih =>
      obtain ⟨t, hP, ht⟩ := step
      obtain ⟨hr, G, hh⟩ := ih
      obtain ⟨hl, hok⟩ := hr.inv
      exact ⟨.iter t hr ht, hh.loopIter hl hok hP ht⟩
  exact hh

end Loop.History

/-- **The event loop serializes the requests of its connections.** Over every run of the event
loop from the start, whatever the system calls return and however the connections interleave,
there is one history of requests, each tagged with the address of the connection that sent it
and with a reply, such that the server state is where whole `do_request` calls on the
history's requests, in its order and each making the reply it is paired with, with TTL passes
in between, take the state at the start; and every live connection is where a run of its
handlers on its own requests of the history, in their order, took it, the bytes that run wrote
to the socket followed by what waits in `outgoing` being the response frames of their
replies. The clock readings of the `do_request` calls are those of the loop's iterations: when
all of these satisfy `P`, so do those of the history (with `P` true of every reading, this
covers every run). -/
theorem loop_serializes_requests {H : HeapUpdate} {P : Nat → Prop} {s₀ : Server} {l : Loop}
    (h : Relation.ReflTransGen (Loop.StepIn H P) (Loop.init s₀) l) :
    ∃ G : List (Nat × Cmd × List Out), Server.Exec H P s₀ (G.map Prod.snd) l.server ∧
      ∀ a x, l.conns a = some x → ∃ S W,
        x.conn.Run H S ((requestsOf G a).map Prod.fst) W ∧
          W ++ x.conn.outgoing.content = responses (requestsOf G a) := by
  obtain ⟨G, hh⟩ := Loop.History.of_run h
  exact ⟨G, hh.exec, hh.conns⟩

/-- The run of `loopIter_accept_set`: the history holds the connection's `set k v`. -/
theorem loop_serializes_requests_set :
    ∃ l, Relation.ReflTransGen (Loop.StepIn HeapUpdate.sorted fun _ => True)
        (Loop.init ⟨Db.empty, ⟨false, false, 0, Buffer.new 1024, false, []⟩⟩) l ∧
      l.server.db.table.length = 1 ∧
      ∃ G : List (Nat × Cmd × List Out), Server.Exec HeapUpdate.sorted (fun _ => True)
          ⟨Db.empty, ⟨false, false, 0, Buffer.new 1024, false, []⟩⟩ (G.map Prod.snd) l.server ∧
        ∀ a x, l.conns a = some x → ∃ S W,
          x.conn.Run HeapUpdate.sorted S ((requestsOf G a).map Prod.fst) W ∧
            W ++ x.conn.outgoing.content = responses (requestsOf G a) := by
  obtain ⟨l₁, l₂, h₁, h₂, hdb, -⟩ := loopIter_accept_set
  have hr : Relation.ReflTransGen (Loop.StepIn HeapUpdate.sorted fun _ => True) _ l₂ :=
    .tail (.single ⟨_, fun _ _ _ => trivial, h₁⟩) ⟨_, fun _ _ _ => trivial, h₂⟩
  exact ⟨_, hr, hdb, loop_serializes_requests hr⟩

end KvServer
