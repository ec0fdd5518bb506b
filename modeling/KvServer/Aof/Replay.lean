import KvServer.Server.Request

/-!
# Start-up: `aof_init` and `load_aof_file`

`aof_init` opens the log for appending and replays it with `load_aof_file`, which turns the AOF
off, reads the file frame by frame with `fread` (its own reader, not `parse_req`), hands each
command vector to `do_request`, and turns the AOF back on at the end of the file. The states
the server reaches are those of the runs that start after `aof_init`.

Results:
1. `loadStrs_strsBytes`, `loadLoop_frames`: on the frames `reqBody c` of a list of commands the
   replay loop calls `do_request` once per frame, on that frame's command, with the AOF off.
2. `load_aof_replays_frames`: `load_aof_file` on such a log.
3. `Server.Reachable.inv`: every reachable state keeps `Server.Inv`.
4. `aof_flush_keeps_wrapped_part`: with the AOF on and a `write()` that takes all it is
   offered, a logged command leaves in `aof_buf` exactly the bytes past the span
   `get_continuous_data(0)` reports, so `aof_buf` is empty afterwards only when they did not
   wrap round the end of its block; `aof_buf_not_empty_after_wrap` reaches a state where they do.
-/

namespace KvServer

/-- The `for` loop of `load_aof_file` that reads `nstr` strings with `fread`: the strings read
and the rest of the file. `fread` of a `uint32_t` or of a string succeeds when that many bytes
are left, which is the test of `read_u32` and `read_str`; a short read ("AOF file is
corrupted") reads what is left of the file and leaves the loop with the strings read so far. -/
def loadStrs : Nat → List UInt8 → Cmd × List UInt8
  | 0, rest => ([], rest)
  | k + 1, rest =>
    match readU32 rest with
    | none => ([], [])
    | some (len, rest) =>
      match readStr rest len.toNat with
      | none => ([], [])
      | some (s, rest) =>
        let (ss, rest) := loadStrs k rest
        (s :: ss, rest)

/-- The `while (true)` loop of `load_aof_file`, at most `fuel` iterations, over the unread rest
of the file: each reads `nstr` and the strings, and hands them to `do_request`, the `i`-th call
with the outcomes `env i` of its system calls. Returns the state and the calls, each with the
value of `aof_enabled` when it was made. -/
def loadLoop (H : HeapUpdate) (env : Nat → Env) :
    Nat → Nat → Server → List UInt8 → Option (Server × List (Bool × Cmd))
  | 0, _, s, _ => some (s, [])
  | fuel + 1, i, s, rest =>
    match readU32 rest with
    | none => some (s, [])
    | some (nstr, rest) =>
      if nstr.toNat > kMaxArgs then some (s, [])
      else
        let (cmd, rest) := loadStrs nstr.toNat rest
        do
          let (s', _, _) ← doRequest H (env i) s cmd
          let (s', calls) ← loadLoop H env fuel (i + 1) s' rest
          pure (s', (s.aof.enabled, cmd) :: calls)

/-- `load_aof_file()`; `opened` is whether `fopen` of the log succeeds. Every iteration reads
at least four bytes, so `|file| + 1` iterations reach the end of the file. Returns the state
and the `do_request` calls of the replay. -/
def loadAofFile (H : HeapUpdate) (env : Nat → Env) (opened : Bool) (s : Server) :
    Option (Server × List (Bool × Cmd)) :=
  if !s.aof.enabled then some (s, [])
  else
    let wasEnabled := s.aof.enabled
    let s := { s with aof := { s.aof with enabled := false } }
    if !opened then some (s, [])
    else do
      let (s, calls) ← loadLoop H env (s.aof.file.length + 1) 0 s s.aof.file
      pure ({ s with aof := { s.aof with enabled := wasEnabled } }, calls)

/-- `g_data` when `main` starts, with `file` the content of `redis.aof`. -/
def Server.init (file : List UInt8) : Server :=
  ⟨Db.empty, ⟨true, false, 0, Buffer.new 1024, false, file⟩⟩

/-- `aof_init()`; `opened` is whether `open()` of the log succeeds, `readable` whether the
`fopen` of the replay does. -/
def aofInit (H : HeapUpdate) (env : Nat → Env) (opened readable : Bool) (s : Server) :
    Option Server :=
  if !s.aof.enabled then some s
  else if !opened then some { s with aof := { s.aof with enabled := false } }
  else (loadAofFile H env readable { s with aof := { s.aof with fdOpen := true } }).map Prod.fst

/-- The store after `exec` of `cmds` in turn, the `j`-th at the clock reading of
`env (i + j)`. -/
def execAll (H : HeapUpdate) (env : Nat → Env) : Nat → Db → List Cmd → Db
  | _, db, [] => db
  | i, db, c :: cs => execAll H env (i + 1) (exec H (env i).now db c).1 cs

/-- The states the server reaches: `aof_init` at start-up, then any run. -/
def Server.Reachable (H : HeapUpdate) (s : Server) : Prop :=
  ∃ file env opened readable s₀ L W, aofInit H env opened readable (Server.init file) = some s₀ ∧
    s₀.Run H L W s

/-! ## The replay -/

/-- With the AOF off, `do_request` runs the handler and leaves the log alone. -/
theorem doRequest_disabled (H : HeapUpdate) (env : Env) {s : Server} (hen : s.aof.enabled = false)
    (cmd : Cmd) : ∃ outs, doRequest H env s cmd =
      some (⟨(exec H env.now s.db cmd).1, s.aof⟩, outs, []) := by
  by_cases hr : route cmd = .bgrewriteaof
  · rw [doRequest_rewrite H env hr, doAofRewrite_disabled env _ hen]
    exact ⟨[.err errBadArg (ascii "AOF is not enabled")], by simp [exec, hr]⟩
  · exact ⟨_, doRequest_unlogged H env hr (by simp [Server.logged, hen])⟩

/-- The reader of `load_aof_file` reads back the strings of a command, each shorter than
`2^32` bytes. -/
theorem loadStrs_strsBytes (cmd : Cmd) (rest : List UInt8)
    (hlen : ∀ s ∈ cmd, s.length < 2 ^ 32) :
    loadStrs cmd.length (strsBytes cmd ++ rest) = (cmd, rest) := by
  induction cmd with
  | nil => rfl
  | cons s cmd ih =>
    have hs := u32Len_toNat (hlen s (List.mem_cons_self s cmd))
    simp only [List.length_cons, loadStrs, strsBytes, u32Len, List.append_assoc,
      readU32_append, hs, readStr_append, ih fun t ht => hlen t (List.mem_cons_of_mem s ht)]

/-- Every frame is at least its four-byte string count. -/
theorem length_le_frames (L : List Cmd) : L.length ≤ (L.flatMap reqBody).length := by
  induction L with
  | nil => simp
  | cons c cs ih =>
    simp only [List.length_cons, List.flatMap_cons, List.length_append, reqBody, u32Len,
      u32Bytes_length]
    omega

/-- The replay loop stops at the end of the file. -/
@[simp] theorem loadLoop_nil (H : HeapUpdate) (env : Nat → Env) (fuel i : Nat) (s : Server) :
    loadLoop H env fuel i s [] = some (s, []) := by
  cases fuel <;> rfl

/-- With the AOF off, the replay loop over the frames of `L` followed by the bytes `rest`
calls `do_request` once per frame, on that frame's command, with the AOF off at every call,
changes the store as `exec` of the commands in turn does, and goes on with `rest`. -/
theorem loadLoop_frames_append (H : HeapUpdate) (env : Nat → Env) {L : List Cmd}
    (hL : ∀ c ∈ L, c.length ≤ kMaxArgs ∧ ∀ x ∈ c, x.length < 2 ^ 32) (rest : List UInt8) :
    ∀ {fuel i : Nat} {s : Server}, L.length ≤ fuel → s.aof.enabled = false →
      loadLoop H env fuel i s (L.flatMap reqBody ++ rest) =
        (loadLoop H env (fuel - L.length) (i + L.length) ⟨execAll H env i s.db L, s.aof⟩ rest).map
          fun r => (r.1, L.map (fun c => (false, c)) ++ r.2) := by
  intro fuel i s hf hen
  induction L generalizing fuel i s with
  | nil => simp [execAll]
  | cons c cs ih =>
    obtain ⟨hmax, hlen⟩ := hL c (List.mem_cons_self c cs)
    have hc32 : c.length < 2 ^ 32 := by
      unfold kMaxArgs at hmax
      omega
    obtain ⟨outs, hd⟩ := doRequest_disabled H (env i) hen c
    obtain ⟨fuel, rfl⟩ : ∃ f, fuel = f + 1 := ⟨fuel - 1, by simp at hf; omega⟩
    have ih' := ih (fun c hc => hL c (List.mem_cons_of_mem _ hc)) (i := i + 1)
      (s := ⟨(exec H (env i).now s.db c).1, s.aof⟩) (by simp at hf; omega : cs.length ≤ fuel) hen
    rw [loadLoop]
    simp only [List.flatMap_cons, reqBody, u32Len, List.append_assoc, readU32_append,
      u32Len_toNat hc32, if_neg (not_lt.mpr hmax), loadStrs_strsBytes c _ hlen, hd,
      Option.bind_eq_bind, Option.some_bind]
    rw [ih', List.length_cons, Nat.add_sub_add_right,
      show i + (cs.length + 1) = i + 1 + cs.length by omega, execAll]
    rcases loadLoop H env (fuel - cs.length) (i + 1 + cs.length) _ rest with _ | ⟨s', calls⟩ <;>
      simp [hen]

/-- With the AOF off, the replay loop over the frames of `L` calls `do_request` once per
frame, on that frame's command, with the AOF off at every call, and changes the store as `exec`
of the commands in turn does. -/
theorem loadLoop_frames (H : HeapUpdate) (env : Nat → Env) {L : List Cmd}
    (hL : ∀ c ∈ L, c.length ≤ kMaxArgs ∧ ∀ x ∈ c, x.length < 2 ^ 32) :
    ∀ {fuel i : Nat} {s : Server}, L.length < fuel → s.aof.enabled = false →
      loadLoop H env fuel i s (L.flatMap reqBody) =
        some (⟨execAll H env i s.db L, s.aof⟩, L.map fun c => (false, c)) := by
  intro fuel i s hf hen
  simpa using loadLoop_frames_append H env hL [] hf.le hen

/-- `load_aof_file` on a log that holds the frames `u32(|c|) ++ (u32(|x|) ++ x)*` of a list
`L` of commands, each of at most `k_max_args` strings shorter than `2^32` bytes (the frames
`aof_write_command` appends): it calls `do_request` once per frame, in order, on exactly the
command `parse_req` decodes from that frame, with `aof_enabled` false at every call, so the
replay logs nothing; afterwards `aof_enabled` is back on and the log state is as before, and
the store is the one `exec` of `L` in turn gives. -/
theorem load_aof_replays_frames (H : HeapUpdate) (env : Nat → Env) {s : Server}
    (hen : s.aof.enabled) {L : List Cmd}
    (hL : ∀ c ∈ L, c.length ≤ kMaxArgs ∧ ∀ x ∈ c, x.length < 2 ^ 32)
    (hfile : s.aof.file = L.flatMap reqBody) :
    loadAofFile H env true s =
      some (⟨execAll H env 0 s.db L, s.aof⟩, L.map fun c => (false, c)) ∧
    ∀ c ∈ L, parseReq (reqBody c) = some c := by
  refine ⟨?_, fun c hc => parseReq_eq_some_iff.mpr ⟨(hL c hc).1, (hL c hc).2, rfl⟩⟩
  have hfuel : L.length < s.aof.file.length + 1 := by
    rw [hfile, Nat.lt_succ_iff]
    exact length_le_frames L
  unfold loadAofFile
  rw [if_neg (by simp [hen])]
  dsimp only
  rw [if_neg (by decide)]
  simp only [hfile] at hfuel ⊢
  rw [loadLoop_frames H env hL hfuel rfl]
  simp only [Option.bind_eq_bind, Option.some_bind, Option.pure_def, Option.some.injEq,
    Prod.mk.injEq, and_true]
  rw [← hfile]

/-- The replay of a log holding the frame of `set k v`. -/
theorem load_aof_replays_frames_set :
    loadAofFile HeapUpdate.sorted (fun _ => ⟨0, some, true, true, true⟩) true
        (Server.init (reqBody [ascii "set", ascii "k", ascii "v"])) =
      some (⟨execAll HeapUpdate.sorted (fun _ => ⟨0, some, true, true, true⟩) 0 Db.empty
          [[ascii "set", ascii "k", ascii "v"]],
        (Server.init (reqBody [ascii "set", ascii "k", ascii "v"])).aof⟩,
        [(false, [ascii "set", ascii "k", ascii "v"])]) ∧
    ∀ c ∈ [[ascii "set", ascii "k", ascii "v"]], parseReq (reqBody c) = some c :=
  load_aof_replays_frames HeapUpdate.sorted _ (s := Server.init _) rfl
    (L := [[ascii "set", ascii "k", ascii "v"]]) (by decide) rfl

/-- `aof_init` on a log that holds the frames of `L`: the replay leaves the store that `exec`
of `L` in turn gives, with the AOF on and `aof_fd` open. -/
theorem aofInit_frames (H : HeapUpdate) (env : Nat → Env) {L : List Cmd}
    (hL : ∀ c ∈ L, c.length ≤ kMaxArgs ∧ ∀ x ∈ c, x.length < 2 ^ 32) :
    aofInit H env true true (Server.init (L.flatMap reqBody)) =
      some ⟨execAll H env 0 Db.empty L, ⟨true, true, 0, Buffer.new 1024, false, L.flatMap reqBody⟩⟩ := by
  have hf : L.length < (L.flatMap reqBody).length + 1 := Nat.lt_succ_of_le (length_le_frames L)
  simp only [aofInit, loadAofFile, Server.init, Bool.not_true, Bool.false_eq_true, if_false]
  rw [loadLoop_frames H env hL hf rfl]
  rfl

/-! ## Reachable states -/

/-- With the AOF off, the replay loop keeps the store's invariant and leaves the log alone,
whatever the file holds. -/
theorem loadLoop_disabled (H : HeapUpdate) (env : Nat → Env) :
    ∀ (fuel i : Nat) (s : Server) (rest : List UInt8), s.aof.enabled = false → s.db.WF →
      ∃ s' calls, loadLoop H env fuel i s rest = some (s', calls) ∧ s'.aof = s.aof ∧ s'.db.WF
  | 0, _, s, _, _, hwf => ⟨s, [], rfl, rfl, hwf⟩
  | fuel + 1, i, s, rest, hen, hwf => by
    rw [loadLoop]
    split
    · exact ⟨s, [], rfl, rfl, hwf⟩
    · rename_i nstr rest' _
      split
      · exact ⟨s, [], rfl, rfl, hwf⟩
      · rcases loadStrs nstr.toNat rest' with ⟨cmd, rest''⟩
        obtain ⟨outs, hd⟩ := doRequest_disabled H (env i) hen cmd
        obtain ⟨s', calls, hl, ha, hw⟩ := loadLoop_disabled H env fuel (i + 1)
          ⟨(exec H (env i).now s.db cmd).1, s.aof⟩ rest'' hen (exec_wf H (env i).now hwf cmd)
        simp only [hd, Option.bind_eq_bind, Option.some_bind, hl, Option.pure_def]
        exact ⟨s', _, rfl, ha, hw⟩

/-- `aof_init` leaves the server invariant holding, whatever the log holds and whatever its
system calls return. -/
theorem Server.Inv.init {H : HeapUpdate} {env : Nat → Env} {opened readable : Bool}
    {file : List UInt8} {s : Server} (h : aofInit H env opened readable (Server.init file) = some s) :
    s.Inv := by
  have hb : (Buffer.new 1024).Inv := Buffer.new_inv (by decide)
  cases opened
  · cases h
    exact ⟨Db.WF.empty, hb, fun h => absurd h Bool.false_ne_true⟩
  cases readable
  · cases h
    exact ⟨Db.WF.empty, hb, fun h => absurd h Bool.false_ne_true⟩
  obtain ⟨s', calls, hl, ha, hw⟩ := loadLoop_disabled H env (file.length + 1) 0
    ⟨Db.empty, ⟨false, true, 0, Buffer.new 1024, false, file⟩⟩ file rfl Db.WF.empty
  have hs : s = { s' with aof := { s'.aof with enabled := true } } := by
    simp only [aofInit, loadAofFile, Server.init] at h
    simp only [Bool.not_true, Bool.false_eq_true, if_false, hl, Option.bind_eq_bind,
      Option.some_bind, Option.pure_def, Option.map_some', Option.some.injEq] at h
    exact h.symm
  subst hs
  exact ⟨hw, by rw [ha]; exact hb, fun _ => by rw [ha]⟩

/-- Every reachable state keeps the server invariant. -/
theorem Server.Reachable.inv {H : HeapUpdate} {s : Server} (h : s.Reachable H) : s.Inv := by
  obtain ⟨_, _, _, _, _, _, _, hi, hr⟩ := h
  exact hr.inv (Server.Inv.init hi)

/-! ## The flush of a logged command -/

/-- In every reachable state, a command of a mutating branch with the AOF on, and a `write()`
that takes all it is offered: `aof_write_command` appends the frame to `aof_buf`, and
`aof_flush_and_sync` writes the span `get_continuous_data(0)` reports, from `head` to the end
of the bytes in use or, when they wrap, to the end of the block. What stays in `aof_buf` is
the rest; it is empty exactly when the bytes in use did not wrap. -/
theorem aof_flush_keeps_wrapped_part {H : HeapUpdate} {s : Server} (hr : s.Reachable H)
    {env : Env} (hfull : ∀ n, env.write n = some n) {cmd : Cmd} (hlog : (route cmd).logged)
    (hen : s.aof.enabled) :
    ∃ b s' outs, aofWriteCommand s.aof.buf cmd = some b ∧
      b.content = s.aof.buf.content ++ reqBody cmd ∧
      doRequest H env s cmd = some (s', outs, b.content.take (b.getContinuousData 0).2) ∧
      s'.aof.buf.content = b.content.drop (b.getContinuousData 0).2 ∧
      (s'.aof.buf.empty ↔ b.head + b.size ≤ b.capacity) := by
  have hs := hr.inv
  obtain ⟨b, hab, hbi, hbc⟩ := aofWriteCommand_spec hs.buf (ne_nil_of_logged hlog)
  obtain ⟨a', k, hf, -, hc, -, -, -, -, hk⟩ :=
    flushAndSync_spec env (a := { s.aof with buf := b }) hbi
  have hk := hk hen (hs.fd hen) hfull
  subst hk
  have hsize : 0 < b.size := by
    rw [← Buffer.length_content, hbc, List.length_append]
    simp only [reqBody, u32Len, List.length_append, u32Bytes_length]
    omega
  obtain ⟨n, hd, -, hn, -, hwrap⟩ := Buffer.getContinuousData_zero hbi hsize
  refine ⟨b, _, _, hab, hbc, by rw [doRequest_logged H env hlog hen hab, hf]; rfl, hc, ?_⟩
  have hlen := congrArg List.length hc
  simp only [Buffer.length_content, List.length_drop, hd] at hlen
  simp only [Buffer.empty, beq_iff_eq, hlen, hd, ← hwrap]
  omega

/-- Right after start-up on an empty log, `set k v` with a `write()` that takes everything. -/
theorem aof_flush_keeps_wrapped_part_init :
    ∃ s, aofInit HeapUpdate.sorted (fun _ => ⟨0, some, true, true, true⟩) true true
        (Server.init []) = some s ∧
      ∃ b s' outs, aofWriteCommand s.aof.buf [ascii "set", ascii "k", ascii "v"] = some b ∧
        b.content = s.aof.buf.content ++ reqBody [ascii "set", ascii "k", ascii "v"] ∧
        doRequest HeapUpdate.sorted ⟨0, some, true, true, true⟩ s
          [ascii "set", ascii "k", ascii "v"] =
          some (s', outs, b.content.take (b.getContinuousData 0).2) ∧
        s'.aof.buf.content = b.content.drop (b.getContinuousData 0).2 ∧
        (s'.aof.buf.empty ↔ b.head + b.size ≤ b.capacity) := by
  have h₀ : aofInit HeapUpdate.sorted (fun _ => ⟨0, some, true, true, true⟩) true true
      (Server.init []) = some ⟨Db.empty, ⟨true, true, 0, Buffer.new 1024, false, []⟩⟩ := rfl
  exact ⟨_, h₀, aof_flush_keeps_wrapped_part ⟨[], _, true, true, _, [], [], h₀, .nil _⟩
    (fun _ => rfl) (by decide) rfl⟩

set_option maxRecDepth 8000 in
/-- From start-up on an empty log, with a `write()` that takes everything: `set k` with a
990-byte value logs a 1010-byte frame and leaves the head of the empty `aof_buf` 14 bytes
before the end of its 1024-byte block; the 21-byte frame of the next `set k v` then wraps,
the flush writes its first 14 bytes, and `aof_buf` is not empty when `do_request` returns. -/
theorem aof_buf_not_empty_after_wrap :
    ∃ s s' outs w, s.Reachable HeapUpdate.sorted ∧ s.aof.enabled ∧
      doRequest HeapUpdate.sorted ⟨0, some, true, true, true⟩ s
        [ascii "set", ascii "k", ascii "v"] = some (s', outs, w) ∧
      s'.aof.buf.empty = false := by
  have h₀ : aofInit HeapUpdate.sorted (fun _ => ⟨0, some, true, true, true⟩) true true
      (Server.init []) = some ⟨Db.empty, ⟨true, true, 0, Buffer.new 1024, false, []⟩⟩ := rfl
  have hs : (doRequest HeapUpdate.sorted ⟨0, some, true, true, true⟩
      ⟨Db.empty, ⟨true, true, 0, Buffer.new 1024, false, []⟩⟩
      [ascii "set", ascii "k", List.replicate 990 97]).map (·.1.aof.enabled) = some true := rfl
  have hv : (((doRequest HeapUpdate.sorted ⟨0, some, true, true, true⟩
      ⟨Db.empty, ⟨true, true, 0, Buffer.new 1024, false, []⟩⟩
      [ascii "set", ascii "k", List.replicate 990 97]).map (·.1)).bind fun s₁ =>
        (doRequest HeapUpdate.sorted ⟨0, some, true, true, true⟩ s₁
          [ascii "set", ascii "k", ascii "v"]).map (·.1.aof.buf.empty)) = some false := rfl
  obtain ⟨s₁, hm₁, hv⟩ := Option.bind_eq_some.mp hv
  obtain ⟨⟨s₁, o₁, w₁⟩, h₁, rfl⟩ := Option.map_eq_some'.mp hm₁
  obtain ⟨⟨s₂, o₂, w₂⟩, h₂, he⟩ := Option.map_eq_some'.mp hv
  rw [h₁] at hs
  exact ⟨_, s₂, o₂, w₂, ⟨[], _, true, true, _, _, _, h₀, .request h₁ (.nil _)⟩,
    Option.some.inj hs, h₂, he⟩

end KvServer
