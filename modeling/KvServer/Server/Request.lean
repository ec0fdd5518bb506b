import KvServer.Aof.Log

/-!
# `do_request` with the log, and runs of the server

`do_request` runs the handler of a command's branch; in the branches of the mutating commands
(`set`, `del`, `pexpire`, `zadd`, `zrem`) it first appends the command's frame to `aof_buf`
when the AOF is on, and after the handler flushes the buffer. A run of the server is a
sequence of `do_request` calls, each with its own system-call outcomes, and of the TTL part of
`process_timers`; a run is indexed by the commands it logged and by the bytes `write()` took
on `aof_fd`, in order.

Results:
1. `doRequest_spec`: `do_request` is defined on every store that keeps `Db.WF`, changes the
   store as `exec` does, and the bytes `write()` took followed by `aof_buf` are `aof_buf`
   before followed by the frame of the command if it was logged.
2. `aof_log_trace`: over every run, what `write()` took on `aof_fd`, followed by `aof_buf`,
   is `aof_buf` at the start followed by the frames of the logged commands, in order.
-/

namespace KvServer

/-- The part of `g_data` that requests and timers change, with the log file. -/
structure Server where
  db : Db
  aof : Aof

namespace Server

/-- The command `do_request` logs: the command of a mutating branch when `aof_enabled`. -/
def logged (s : Server) (cmd : Cmd) : List Cmd :=
  if (route cmd).logged && s.aof.enabled then [cmd] else []

/-- The TTL part of `process_timers` at clock reading `now`. -/
def processTtl (H : HeapUpdate) (now : Nat) (s : Server) : Option Server :=
  (s.db.processTtl H now).map fun db => { s with db }

end Server

/-- `do_request(cmd, out)` with the outcomes `env` of its system calls: the new state, the
reply, and the bytes `write()` took on `aof_fd`. -/
def doRequest (H : HeapUpdate) (env : Env) (s : Server) (cmd : Cmd) :
    Option (Server × List Out × List UInt8) :=
  match route cmd with
  | .bgrewriteaof => do
    let (aof, outs, w) ← doAofRewrite env s.db s.aof
    pure ({ s with aof }, outs, w)
  | r =>
    if r.logged && s.aof.enabled then do
      let buf ← aofWriteCommand s.aof.buf cmd
      let (db, outs) := exec H env.now s.db cmd
      let (aof, w) ← flushAndSync env { s.aof with buf }
      pure (⟨db, aof⟩, outs, w)
    else
      let (db, outs) := exec H env.now s.db cmd
      some (⟨db, s.aof⟩, outs, [])

/-- A logged branch needs at least two strings. -/
theorem ne_nil_of_logged {cmd : Cmd} (h : (route cmd).logged) : cmd ≠ [] := by
  rintro rfl
  exact absurd h (by decide)

/-! ## The branches of `do_request` -/

section Branches

variable (H : HeapUpdate) (env : Env) {s : Server} {cmd : Cmd}

/-- A mutating branch with the AOF on: the frame is appended to `aof_buf`, the handler runs,
and the buffer is flushed. -/
theorem doRequest_logged (hl : (route cmd).logged) (hen : s.aof.enabled) {buf : Buffer}
    (hb : aofWriteCommand s.aof.buf cmd = some buf) :
    doRequest H env s cmd = (flushAndSync env { s.aof with buf }).map fun r =>
      (⟨(exec H env.now s.db cmd).1, r.1⟩, (exec H env.now s.db cmd).2, r.2) := by
  unfold doRequest
  split
  · rename_i hr
    rw [hr] at hl
    exact absurd hl (by decide)
  · rw [if_pos (by simp [hl, hen]), hb]
    simp only [Option.bind_eq_bind, Option.some_bind]
    rcases flushAndSync env { s.aof with buf } with _ | ⟨aof, w⟩ <;> rfl

/-- Any other branch but `bgrewriteaof` runs the handler only. -/
theorem doRequest_unlogged (hr : route cmd ≠ .bgrewriteaof) (hn : s.logged cmd = []) :
    doRequest H env s cmd =
      some (⟨(exec H env.now s.db cmd).1, s.aof⟩, (exec H env.now s.db cmd).2, []) := by
  unfold doRequest
  split
  · contradiction
  · unfold Server.logged at hn
    rw [if_neg (by intro h; simp [h] at hn)]

/-- `bgrewriteaof` runs `do_aof_rewrite`. -/
theorem doRequest_rewrite (hr : route cmd = .bgrewriteaof) :
    doRequest H env s cmd = (doAofRewrite env s.db s.aof).map fun r =>
      ({ s with aof := r.1 }, r.2.1, r.2.2) := by
  unfold doRequest
  rw [hr]
  rcases doAofRewrite env s.db s.aof with _ | ⟨aof, outs, w⟩ <;> rfl

/-- Every reply `do_request` makes is plain calls or one array. -/
theorem doRequest_shaped {s' : Server} {outs : List Out} {w : List UInt8}
    (h : doRequest H env s cmd = some (s', outs, w)) : Out.Shaped outs := by
  unfold doRequest at h
  split at h
  · obtain ⟨⟨a, outs', w'⟩, ha, h⟩ := Option.bind_eq_some.mp h
    cases h
    exact doAofRewrite_shaped ha
  · split at h
    · obtain ⟨buf, -, h⟩ := Option.bind_eq_some.mp h
      obtain ⟨⟨aof, w'⟩, -, h⟩ := Option.bind_eq_some.mp h
      cases h
      exact exec_shaped H env.now s.db cmd
    · cases h
      exact exec_shaped H env.now s.db cmd

end Branches

/-- `do_request` on a store that keeps `Db.WF` is defined and changes the store as `exec`
does. What `write()` took on `aof_fd`, followed by `aof_buf`, is `aof_buf` before followed by
the frame of the command when it was logged. `aof_fd` stays open while the AOF is on. -/
theorem doRequest_spec (H : HeapUpdate) (env : Env) {s : Server} (hwf : s.db.WF)
    (hb : s.aof.buf.Inv) (cmd : Cmd) :
    ∃ s' outs w, doRequest H env s cmd = some (s', outs, w) ∧
      s'.db = (exec H env.now s.db cmd).1 ∧ s'.aof.buf.Inv ∧
      w ++ s'.aof.buf.content = s.aof.buf.content ++ (s.logged cmd).flatMap reqBody ∧
      ((s.aof.enabled → s.aof.fdOpen) → s'.aof.enabled → s'.aof.fdOpen) := by
  by_cases hr : route cmd = .bgrewriteaof
  · obtain ⟨a', outs, w, hd, hi, hw, hfl⟩ := doAofRewrite_spec env hwf hb
    rw [doRequest_rewrite H env hr, hd]
    refine ⟨_, _, _, rfl, by simp [exec, hr], hi, ?_, hfl⟩
    simpa [Server.logged, hr, Route.logged] using hw
  by_cases hl : (route cmd).logged ∧ s.aof.enabled
  · obtain ⟨b, hab, hbi, hbc⟩ := aofWriteCommand_spec hb (ne_nil_of_logged hl.1)
    obtain ⟨a', k, hf, hi, hc, -, hen, hfd, -⟩ :=
      flushAndSync_spec env (a := { s.aof with buf := b }) hbi
    rw [doRequest_logged H env hl.1 hl.2 hab, hf]
    refine ⟨_, _, _, rfl, rfl, hi, ?_, fun h => by rw [hen, hfd]; exact h⟩
    rw [hc, List.take_append_drop, hbc, Server.logged, if_pos (by simp [hl])]
    simp
  · have hn : s.logged cmd = [] := by
      unfold Server.logged
      rw [if_neg (by simpa using hl)]
    rw [doRequest_unlogged H env hr hn]
    exact ⟨_, _, _, rfl, rfl, hb, by simp [hn], id⟩

/-- The store after a call of `do_request` is the one `exec` gives. -/
theorem doRequest_db {H : HeapUpdate} {env : Env} {s s' : Server} {cmd : Cmd} {outs : List Out}
    {w : List UInt8} (hwf : s.db.WF) (hb : s.aof.buf.Inv)
    (h : doRequest H env s cmd = some (s', outs, w)) : s'.db = (exec H env.now s.db cmd).1 := by
  obtain ⟨_, _, _, h', hdb, -⟩ := doRequest_spec H env hwf hb cmd
  obtain ⟨rfl, -, -⟩ := Prod.mk.inj_iff.mp (Option.some.inj (h.symm.trans h'))
  exact hdb

/-! ## Runs -/

/-- A run of the server from `s` to `s'`: `do_request` calls, each with its own outcomes of the
system calls, and TTL passes of `process_timers`. `L` is the commands logged, in order; `W`
is the bytes `write()` took on `aof_fd`, in order, across every reopen. -/
inductive Server.Run (H : HeapUpdate) : Server → List Cmd → List UInt8 → Server → Prop
  | nil (s : Server) : Server.Run H s [] [] s
  | request {s s₁ s₂ : Server} {env : Env} {cmd : Cmd} {outs : List Out} {w : List UInt8}
      {L : List Cmd} {W : List UInt8} :
      doRequest H env s cmd = some (s₁, outs, w) → Server.Run H s₁ L W s₂ →
      Server.Run H s (s.logged cmd ++ L) (w ++ W) s₂
  | timers {s s₁ s₂ : Server} {now : Nat} {L : List Cmd} {W : List UInt8} :
      s.processTtl H now = some s₁ → Server.Run H s₁ L W s₂ → Server.Run H s L W s₂

/-- A TTL pass keeps the invariant of the store and leaves the log alone. -/
theorem Server.processTtl_spec (H : HeapUpdate) (now : Nat) {s : Server} (hwf : s.db.WF) :
    ∃ s', s.processTtl H now = some s' ∧ s'.db.WF ∧ s'.aof = s.aof := by
  obtain ⟨db', h, hw⟩ := processTtl_wf H now hwf
  exact ⟨{ s with db := db' }, by rw [Server.processTtl, h]; rfl, hw, rfl⟩

/-- The invariant of the server: the store's, `aof_buf`'s, and `aof_fd` open while the AOF is
on. -/
structure Server.Inv (s : Server) : Prop where
  db : s.db.WF
  buf : s.aof.buf.Inv
  fd : s.aof.enabled → s.aof.fdOpen

theorem Server.Inv.request {H : HeapUpdate} {env : Env} {s s' : Server} {cmd : Cmd}
    {outs : List Out} {w : List UInt8} (hs : s.Inv) (h : doRequest H env s cmd = some (s', outs, w)) :
    s'.Inv := by
  obtain ⟨_, _, _, h', -, hi, -, hfd⟩ := doRequest_spec H env hs.db hs.buf cmd
  obtain ⟨rfl, -, -⟩ := Prod.mk.inj_iff.mp (Option.some.inj (h.symm.trans h'))
  exact ⟨doRequest_db hs.db hs.buf h ▸ exec_wf H env.now hs.db cmd, hi, hfd hs.fd⟩

/-- Every run keeps the invariant of the server. -/
theorem Server.Run.inv {H : HeapUpdate} {s s' : Server} {L : List Cmd} {W : List UInt8}
    (hr : s.Run H L W s') (hs : s.Inv) : s'.Inv := by
  induction hr with
  | nil => exact hs
  | request h _ ih => exact ih (hs.request h)
  | @timers s s₁ s₂ now L W h _ ih =>
    obtain ⟨_, h', hw', ha⟩ := Server.processTtl_spec H now hs.db
    cases h.symm.trans h'
    exact ih ⟨hw', ha ▸ hs.buf, ha ▸ hs.fd⟩

/-- Over every run, with any outcomes of `write()` on `aof_fd` (all bytes, a prefix, or an
error) and across every rewrite: the bytes `write()` took, followed by `aof_buf`, are
`aof_buf` at the start followed by the frames of the commands logged, in order. No frame is
lost, duplicated, reordered or torn. -/
theorem aof_log_trace {H : HeapUpdate} {s s' : Server} {L : List Cmd} {W : List UInt8}
    (hwf : s.db.WF) (hb : s.aof.buf.Inv) (hr : s.Run H L W s') :
    W ++ s'.aof.buf.content = s.aof.buf.content ++ L.flatMap reqBody := by
  induction hr with
  | nil => simp
  | @request s s₁ s₂ env cmd outs w L W h hr ih =>
    obtain ⟨_, _, _, h', hdb, hi, hw, -⟩ := doRequest_spec H env hwf hb cmd
    obtain ⟨rfl, -, rfl⟩ := Prod.mk.inj_iff.mp (Option.some.inj (h.symm.trans h'))
    rw [List.append_assoc, ih (hdb ▸ exec_wf H env.now hwf cmd) hi, ← List.append_assoc, hw]
    simp
  | @timers s s₁ s₂ now L W h _ ih =>
    obtain ⟨_, h', hw', ha⟩ := Server.processTtl_spec H now hwf
    cases h.symm.trans h'
    rw [ih hw' (ha ▸ hb), ha]

/-- One `set k v` from an empty store and an empty `aof_buf`, with a `write()` that takes
everything: the log holds the frame of the command. -/
theorem aof_log_trace_set :
    ∃ s' W, Server.Run HeapUpdate.sorted ⟨Db.empty, ⟨true, true, 0, Buffer.new 1024, false, []⟩⟩
        [[ascii "set", ascii "k", ascii "v"]] W s' ∧
      W ++ s'.aof.buf.content = [[ascii "set", ascii "k", ascii "v"]].flatMap reqBody := by
  have h : doRequest HeapUpdate.sorted ⟨0, some, true, true, true⟩
      ⟨Db.empty, ⟨true, true, 0, Buffer.new 1024, false, []⟩⟩ [ascii "set", ascii "k", ascii "v"] =
      some (_, _, _) := rfl
  have hr := Server.Run.request h (.nil _)
  exact ⟨_, _, hr, aof_log_trace Db.WF.empty (Buffer.new_inv (by decide)) hr⟩

end KvServer
