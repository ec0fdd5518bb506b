import KvServer.Aof.Recovery

/-!
# The log as a redo log

`do_request` appends the frame of every mutating command to `aof_buf` before it runs the
handler, and hands the head of the buffer to `write()` after it; at the next start
`load_aof_file` replays the file into an empty store. This module shows that the file is a redo
log of the store for the runs whose requests are neither `pexpire` nor `bgrewriteaof`
(`Replayable`). Wherever the process stops, the file holds the log it started with and then a
prefix of the frames of the commands logged since. A restart rebuilds the store the server had
after the commands whose frames are whole in it, and so the store it has once `aof_buf` is
empty.

The two requests left out are where the log and the store part (`Aof.Recovery`): a restart
adds the time to live `pexpire` logged to its own clock, and the TTL pass deletes keys without
logging; `bgrewriteaof` replaces the log by a snapshot that loses sorted sets.

Stores are compared through `Db.abs`: the replay builds other entry addresses and another heap
layout than the run did, and the same finite map.

Results:
1. `Spec.store_eq`, `Spec.noDeadlines`: outside `pexpire`, section 4.3 fixes the store after a
   command by the store before it, whatever the clock, and adds no deadline.
2. `execAll_abs_congr`: replaying such commands from two stores with one abstract value, at
   any clock readings, ends with one abstract value.
3. `Server.RunIn.trace`: over a run of replayable requests from a state with the AOF on and no
   deadline, the file grows by what `write()` took, which followed by `aof_buf` is the frames
   of the commands logged, and the store is the replay of those commands.
4. `aof_restart_recovers`: what a restart rebuilds after such a run, stopped at any point.
-/

namespace KvServer

open Function

/-! ## Section 4.3 outside `pexpire` -/

/-- No key of the store has a deadline. -/
def NoDeadlines (A : AStore) : Prop := ∀ k v d, A k = some (v, d) → d = none

theorem NoDeadlines.update {A : AStore} (hA : NoDeadlines A) {k : List UInt8}
    {e : Option (AValue × Option Nat)} (he : ∀ v d, e = some (v, d) → d = none) :
    NoDeadlines (update A k e) := by
  intro k' v d h
  by_cases hk : k' = k
  · subst hk
    rw [update_same] at h
    exact he v d h
  · rw [update_noteq hk] at h
    exact hA k' v d h

section Spec

variable {now now' : Nat} {A A₁ A₂ : AStore} {cmd : Cmd} {o₁ o₂ : List Out}

/-- Outside `pexpire`, the store after a command is a function of the store before it: the
clock reading does not enter. -/
theorem Spec.store_eq (hp : route cmd ≠ .pexpire) (h₁ : Spec now A cmd A₁ o₁)
    (h₂ : Spec now' A cmd A₂ o₂) : A₁ = A₂ := by
  unfold Spec at h₁ h₂
  rw [← route_eq_command] at h₁ h₂
  cases hr : route cmd <;> simp only [hr] at h₁ h₂
  case pexpire => exact absurd hr hp
  case set =>
    unfold setSpec at h₁ h₂
    generalize A (arg cmd 1) = a at h₁ h₂
    rcases a with _ | ⟨_ | _, d⟩ <;> exact h₁.1.trans h₂.1.symm
  case zadd =>
    unfold zaddSpec at h₁ h₂
    generalize str2dbl (arg cmd 2) = r at h₁ h₂
    generalize A (arg cmd 1) = a at h₁ h₂
    rcases r with _ | f <;> rcases a with _ | ⟨_ | _, d⟩ <;> exact h₁.1.trans h₂.1.symm
  case zrem =>
    unfold zremSpec at h₁ h₂
    generalize A (arg cmd 1) = a at h₁ h₂
    rcases a with _ | ⟨_ | _, d⟩ <;> exact h₁.1.trans h₂.1.symm
  case bgrewriteaof => exact h₁.trans h₂.symm
  all_goals exact h₁.1.trans h₂.1.symm

/-- Outside `pexpire`, a command gives no key a deadline. -/
theorem Spec.noDeadlines (hp : route cmd ≠ .pexpire) (h : Spec now A cmd A₁ o₁)
    (hA : NoDeadlines A) : NoDeadlines A₁ := by
  -- the deadline a command keeps is the one the key had
  have hkeep : ∀ {v d}, A (arg cmd 1) = some (v, d) → ∀ e, NoDeadlines (update A (arg cmd 1)
      (some (e, d))) := fun hk _ => hA.update fun _ _ he => by cases he; exact hA _ _ _ hk
  have hnew : ∀ e, NoDeadlines (update A (arg cmd 1) (some (e, none))) := fun _ =>
    hA.update fun _ _ he => by cases he; rfl
  unfold Spec at h
  rw [← route_eq_command] at h
  cases hr : route cmd <;> simp only [hr] at h
  case pexpire => exact absurd hr hp
  case set =>
    unfold setSpec at h
    generalize hk : A (arg cmd 1) = a at h
    rcases a with _ | ⟨_ | _, d⟩
    · exact h.1 ▸ hnew _
    · exact h.1 ▸ hkeep hk _
    · exact h.1 ▸ hA
  case del => exact h.1 ▸ hA.update fun _ _ he => by cases he
  case zadd =>
    unfold zaddSpec at h
    generalize str2dbl (arg cmd 2) = r at h
    generalize hk : A (arg cmd 1) = a at h
    rcases r with _ | f
    · exact h.1 ▸ hA
    rcases a with _ | ⟨_ | _, d⟩
    · exact h.1 ▸ hnew _
    · exact h.1 ▸ hA
    · exact h.1 ▸ hkeep hk _
  case zrem =>
    unfold zremSpec at h
    generalize hk : A (arg cmd 1) = a at h
    rcases a with _ | ⟨_ | _, d⟩
    · exact h.1 ▸ hA
    · exact h.1 ▸ hA
    · exact h.1 ▸ hkeep hk _
  case bgrewriteaof => exact h ▸ hA
  all_goals exact h.1 ▸ hA

/-- A command of a branch that `do_request` does not log leaves the store as it was. -/
theorem Spec.eq_of_not_logged (hl : (route cmd).logged = false) (h : Spec now A cmd A₁ o₁) :
    A₁ = A := by
  unfold Spec at h
  rw [← route_eq_command] at h
  cases hr : route cmd <;> rw [hr] at hl <;> cases hl <;> simp only [hr] at h
  case bgrewriteaof => exact h
  all_goals exact h.1

end Spec

/-- With no deadline in the store, a TTL pass deletes nothing. -/
theorem Sweep.eq_of_noDeadlines {now : Nat} {A A' : AStore} {D : List (List UInt8)}
    (hs : Sweep now A D A') (hA : NoDeadlines A) : A' = A := by
  funext k
  rw [hs.removed k]
  split_ifs with hk
  · obtain ⟨v, d, hAk, -⟩ := hs.expired k hk
    cases hA k v _ hAk
  · rfl

/-! ## Replaying commands -/

section Replay

variable (H : HeapUpdate)

/-- Outside `pexpire`, `exec` on two stores with one abstract value, at any clock readings,
gives one abstract value. -/
theorem exec_abs_congr {db₁ db₂ : Db} (hw₁ : db₁.WF) (hw₂ : db₂.WF) (h : db₁.abs = db₂.abs)
    {cmd : Cmd} (hp : route cmd ≠ .pexpire) (now now' : Nat) :
    (exec H now db₁ cmd).1.abs = (exec H now' db₂ cmd).1.abs :=
  Spec.store_eq hp (exec_spec_of H now hw₁ fun h' => absurd h' hp)
    (h ▸ exec_spec_of H now' hw₂ fun h' => absurd h' hp)

theorem execAll_wf (env : Nat → Env) :
    ∀ {i : Nat} {db : Db} (L : List Cmd), db.WF → (execAll H env i db L).WF
  | _, _, [], hw => hw
  | _, _, c :: cs, hw => execAll_wf env cs (exec_wf H _ hw c)

theorem execAll_append (env : Nat → Env) :
    ∀ (i : Nat) (db : Db) (L₁ L₂ : List Cmd),
      execAll H env i db (L₁ ++ L₂) = execAll H env (i + L₁.length) (execAll H env i db L₁) L₂
  | _, _, [], _ => rfl
  | i, db, c :: cs, L₂ => by
    rw [List.cons_append, execAll, execAll, execAll_append env (i + 1), List.length_cons,
      Nat.add_right_comm, Nat.add_assoc]

/-- Replaying commands other than `pexpire` from two stores with one abstract value, at any
clock readings, ends with one abstract value. -/
theorem execAll_abs_congr (env env' : Nat → Env) :
    ∀ {i j : Nat} {db₁ db₂ : Db} {L : List Cmd}, db₁.WF → db₂.WF → db₁.abs = db₂.abs →
      (∀ c ∈ L, route c ≠ .pexpire) → (execAll H env i db₁ L).abs = (execAll H env' j db₂ L).abs
  | _, _, _, _, [], _, _, h, _ => h
  | _, _, _, _, c :: _, hw₁, hw₂, h, hL => by
    simp only [execAll]
    exact execAll_abs_congr env env' (exec_wf H _ hw₁ c) (exec_wf H _ hw₂ c)
      (exec_abs_congr H hw₁ hw₂ h (hL c (.head _)) _ _) fun c' hc' =>
        hL c' (List.mem_cons_of_mem _ hc')

/-- Replaying commands other than `pexpire` gives no key a deadline. -/
theorem execAll_noDeadlines (env : Nat → Env) :
    ∀ {i : Nat} {db : Db} {L : List Cmd}, db.WF → NoDeadlines db.abs →
      (∀ c ∈ L, route c ≠ .pexpire) → NoDeadlines (execAll H env i db L).abs
  | _, _, [], _, hA, _ => hA
  | _, _, c :: _, hw, hA, hL => by
    simp only [execAll]
    exact execAll_noDeadlines env (exec_wf H _ hw c)
      (Spec.noDeadlines (hL c (.head _)) (exec_spec_of H _ hw fun h => absurd h (hL c (.head _)))
        hA) fun c' hc' => hL c' (List.mem_cons_of_mem _ hc')

end Replay

/-! ## Runs of replayable requests -/

/-- The requests whose effect the log carries over a restart: a command as `parse_req` returns
it, of at most `k_max_args` strings each shorter than `2^32` bytes, other than `pexpire` and
`bgrewriteaof`. -/
def Replayable (cmd : Cmd) : Prop :=
  cmd.length ≤ kMaxArgs ∧ (∀ x ∈ cmd, x.length < 2 ^ 32) ∧ route cmd ≠ .pexpire ∧
    route cmd ≠ .bgrewriteaof

instance (cmd : Cmd) : Decidable (Replayable cmd) :=
  inferInstanceAs (Decidable (_ ∧ _ ∧ _ ∧ _))

/-- A run of the server whose requests all satisfy `P`: `Server.Run` with the requests
restricted. -/
inductive Server.RunIn (H : HeapUpdate) (P : Cmd → Prop) :
    Server → List Cmd → List UInt8 → Server → Prop
  | nil (s : Server) : Server.RunIn H P s [] [] s
  | request {s s₁ s₂ : Server} {env : Env} {cmd : Cmd} {outs : List Out} {w : List UInt8}
      {L : List Cmd} {W : List UInt8} : P cmd → doRequest H env s cmd = some (s₁, outs, w) →
      Server.RunIn H P s₁ L W s₂ → Server.RunIn H P s (s.logged cmd ++ L) (w ++ W) s₂
  | timers {s s₁ s₂ : Server} {now : Nat} {L : List Cmd} {W : List UInt8} :
      s.processTtl H now = some s₁ → Server.RunIn H P s₁ L W s₂ → Server.RunIn H P s L W s₂

/-- What a run of replayable requests keeps: the invariants of the store and of `aof_buf`, the
AOF on, and no deadline in the store. -/
structure Server.Durable (s : Server) : Prop where
  wf : s.db.WF
  buf : s.aof.buf.Inv
  enabled : s.aof.enabled = true
  noDeadlines : NoDeadlines s.db.abs

section Run

variable (H : HeapUpdate)

/-- Such a run is a run of the server. -/
theorem Server.RunIn.run {P : Cmd → Prop} {s s' : Server} {L : List Cmd} {W : List UInt8}
    (hr : s.RunIn H P L W s') : s.Run H L W s' := by
  induction hr with
  | nil s => exact .nil s
  | request _ h _ ih => exact .request h ih
  | timers h _ ih => exact .timers h ih

/-- Outside `bgrewriteaof`, `do_request` appends to the file what `write()` took, and leaves
the AOF on or off. -/
theorem doRequest_file {env : Env} {s s₁ : Server} {cmd : Cmd} {outs : List Out}
    {w : List UInt8} (hb : s.aof.buf.Inv) (hr : route cmd ≠ .bgrewriteaof)
    (h : doRequest H env s cmd = some (s₁, outs, w)) :
    s₁.aof.file = s.aof.file ++ w ∧ s₁.aof.enabled = s.aof.enabled := by
  by_cases hl : (route cmd).logged ∧ s.aof.enabled
  · obtain ⟨b, hab, hbi, -⟩ := aofWriteCommand_spec hb (ne_nil_of_logged hl.1)
    obtain ⟨a', k, hf, -, -, hfile, hen, -⟩ := flushAndSync_spec env (a := { s.aof with buf := b }) hbi
    rw [doRequest_logged H env hl.1 hl.2 hab, hf, Option.map_some', Option.some.injEq] at h
    obtain ⟨rfl, -, rfl⟩ := Prod.mk.inj_iff.mp h
    exact ⟨hfile, hen⟩
  · have hn : s.logged cmd = [] := by
      unfold Server.logged
      rw [if_neg (by simpa using hl)]
    rw [doRequest_unlogged H env hr hn, Option.some.injEq] at h
    obtain ⟨rfl, -, rfl⟩ := Prod.mk.inj_iff.mp h
    exact ⟨(List.append_nil _).symm, rfl⟩

/-- A replayable request keeps a state durable. The file grows by what `write()` took, which
followed by `aof_buf` is `aof_buf` before followed by the frame of the command if it was
logged; the store changes as `exec` says, and not at all when the command was not logged. -/
theorem Server.Durable.request {env : Env} {s s₁ : Server} {cmd : Cmd} {outs : List Out}
    {w : List UInt8} (hs : s.Durable) (hP : Replayable cmd)
    (h : doRequest H env s cmd = some (s₁, outs, w)) :
    s₁.Durable ∧ s₁.aof.file = s.aof.file ++ w ∧
      w ++ s₁.aof.buf.content = s.aof.buf.content ++ (s.logged cmd).flatMap reqBody ∧
      s₁.db = (exec H env.now s.db cmd).1 ∧ ((route cmd).logged = false → s₁.db.abs = s.db.abs) := by
  obtain ⟨_, _, _, h', hdb, hi, htr, -⟩ := doRequest_spec H env hs.wf hs.buf cmd
  obtain ⟨rfl, -, rfl⟩ := Prod.mk.inj_iff.mp (Option.some.inj (h.symm.trans h'))
  obtain ⟨hfile, hen⟩ := doRequest_file H hs.buf hP.2.2.2 h
  have hspec := exec_spec_of H env.now hs.wf fun h => absurd h hP.2.2.1
  refine ⟨⟨hdb ▸ exec_wf H env.now hs.wf cmd, hi, hen.trans hs.enabled, ?_⟩, hfile, htr, hdb,
    fun hl => hdb ▸ Spec.eq_of_not_logged hl hspec⟩
  exact hdb ▸ Spec.noDeadlines hP.2.2.1 hspec hs.noDeadlines

/-- A TTL pass on a durable state deletes nothing and leaves the log alone. -/
theorem Server.Durable.timers {now : Nat} {s s₁ : Server} (hs : s.Durable)
    (h : s.processTtl H now = some s₁) : s₁.Durable ∧ s₁.aof = s.aof ∧ s₁.db.abs = s.db.abs := by
  obtain ⟨db', D, he, hw', hsw, -⟩ := @expireLoop_sweep H now (kMaxWorks + 1) 0 s.db hs.wf
    (Nat.zero_le _)
  rw [Server.processTtl, Db.processTtl, he, Option.map_some', Option.some.injEq] at h
  subst h
  have habs := hsw.eq_of_noDeadlines hs.noDeadlines
  exact ⟨⟨hw', hs.buf, hs.enabled, habs ▸ hs.noDeadlines⟩, rfl, habs⟩

/-- Over a run of replayable requests from a durable state, the file grows by what `write()`
took, and that followed by `aof_buf` is `aof_buf` at the start followed by the frames of the
commands logged, each replayable and of a mutating branch. The store is, as a finite map, the
replay of the commands logged from the store at the start, at any clock readings. -/
theorem Server.RunIn.trace {s s' : Server} {L : List Cmd} {W : List UInt8}
    (hr : s.RunIn H Replayable L W s') (hs : s.Durable) :
    s'.Durable ∧ s'.aof.file = s.aof.file ++ W ∧
      W ++ s'.aof.buf.content = s.aof.buf.content ++ L.flatMap reqBody ∧
      (∀ c ∈ L, Replayable c ∧ (route c).logged) ∧
      ∀ env i, s'.db.abs = (execAll H env i s.db L).abs := by
  induction hr with
  | nil s => exact ⟨hs, by simp, by simp, by simp, fun _ _ => rfl⟩
  | @request s s₁ s₂ env cmd outs w L W hP h _ ih =>
    obtain ⟨hs₁, hf, htr, hdb, hun⟩ := hs.request H hP h
    obtain ⟨hs₂, hf₂, htr₂, hL₂, hab₂⟩ := ih hs₁
    have hpex : ∀ c ∈ L, route c ≠ .pexpire := fun c hc => (hL₂ c hc).1.2.2.1
    have hl : s.logged cmd = if (route cmd).logged then [cmd] else [] := by
      simp [Server.logged, hs.enabled]
    refine ⟨hs₂, by rw [hf₂, hf, List.append_assoc], ?_, ?_, fun env' i => ?_⟩
    · rw [List.append_assoc, htr₂, ← List.append_assoc, htr, List.flatMap_append,
        List.append_assoc]
    · rw [hl]
      split_ifs with hlog
      · rintro c (_ | ⟨_, hc⟩)
        exacts [⟨hP, hlog⟩, hL₂ c hc]
      · rwa [List.nil_append]
    · rw [hl]
      split_ifs with hlog
      · -- a logged command: the replay runs it first
        rw [List.singleton_append, execAll, hab₂ env' (i + 1)]
        exact execAll_abs_congr H env' env' hs₁.wf (exec_wf H _ hs.wf cmd)
          (by rw [hdb]; exact exec_abs_congr H hs.wf hs.wf rfl hP.2.2.1 env.now (env' i).now) hpex
      · rw [List.nil_append, hab₂ env' i]
        exact execAll_abs_congr H env' env' hs₁.wf hs.wf (hun (by simpa using hlog)) hpex
  | timers h _ ih =>
    obtain ⟨hs₁, ha, hab⟩ := hs.timers H h
    obtain ⟨hs₂, hf₂, htr₂, hL₂, hab₂⟩ := ih hs₁
    refine ⟨hs₂, by rw [hf₂, ha], by rw [htr₂, ha], hL₂, fun env i => ?_⟩
    rw [hab₂ env i]
    exact execAll_abs_congr H env env hs₁.wf hs.wf hab fun c hc => (hL₂ c hc).1.2.2.1

end Run

/-! ## A restart -/

/-- What of the frames of a list of commands is in the file when the process stops, when the
rest `T` is still in `aof_buf`: the frames of the first `m` commands, whole, then less than the
next frame; or all of them. -/
theorem frames_prefix_cases {T : List UInt8} :
    ∀ {L : List Cmd} {W : List UInt8}, W ++ T = L.flatMap reqBody →
      ∃ m ≤ L.length, (m = L.length ∧ W = L.flatMap reqBody) ∨
        ∃ c n, L[m]? = some c ∧ n < (reqBody c).length ∧
          W = (L.take m).flatMap reqBody ++ (reqBody c).take n
  | [], W, h => ⟨0, le_rfl, .inl ⟨rfl, (List.append_eq_nil.mp h).1⟩⟩
  | c :: cs, W, h => by
    rw [List.flatMap_cons] at h
    by_cases hw : W.length < (reqBody c).length
    · -- the process stopped inside the first frame
      have hW := congrArg (List.take W.length) h
      rw [List.take_left, List.take_append_of_le_length hw.le] at hW
      exact ⟨0, Nat.zero_le _, .inr ⟨c, W.length, List.getElem?_cons_zero, hw, by simpa using hW⟩⟩
    · -- the first frame is whole
      obtain ⟨W', rfl, hrest⟩ : ∃ W', W = reqBody c ++ W' ∧ W' ++ T = cs.flatMap reqBody := by
        rcases List.append_eq_append_iff.mp h with ⟨a', hc, hT⟩ | ⟨W', hW, hrest⟩
        · have ha' : a' = [] := by
            have := congrArg List.length hc
            simp only [List.length_append] at this
            exact List.eq_nil_of_length_eq_zero (by omega)
          subst ha'
          exact ⟨[], by simpa using hc.symm, by simpa using hT⟩
        · exact ⟨W', hW, hrest.symm⟩
      obtain ⟨m, hm, hcase⟩ := frames_prefix_cases hrest
      refine ⟨m + 1, by simpa using hm, ?_⟩
      rcases hcase with ⟨rfl, rfl⟩ | ⟨c', n, hc', hn, rfl⟩
      · exact .inl ⟨rfl, by rw [List.flatMap_cons]⟩
      · exact .inr ⟨c', n, List.getElem?_cons_succ.trans hc', hn, by
          rw [List.take_succ_cons, List.flatMap_cons, List.append_assoc]⟩

/-- `aof_init` on a log of whole frames and then the cut frame of a mutating command replays
the whole frames. -/
theorem aofInit_torn (H : HeapUpdate) (env : Nat → Env) {L : List Cmd}
    (hL : ∀ c ∈ L, c.length ≤ kMaxArgs ∧ ∀ x ∈ c, x.length < 2 ^ 32) {c : Cmd}
    (hc : (route c).logged) (hlen : ∀ x ∈ c, x.length < 2 ^ 32) {n : Nat}
    (hn : n < (reqBody c).length) :
    aofInit H env true true (Server.init (L.flatMap reqBody ++ (reqBody c).take n)) =
      some ⟨execAll H env 0 Db.empty L,
        ⟨true, true, 0, Buffer.new 1024, false, L.flatMap reqBody ++ (reqBody c).take n⟩⟩ := by
  have hf : L.length ≤ (L.flatMap reqBody ++ (reqBody c).take n).length + 1 := by
    have := length_le_frames L
    simp only [List.length_append]
    omega
  obtain ⟨calls, ht⟩ := loadLoop_torn H env hc hlen hn
    ((L.flatMap reqBody ++ (reqBody c).take n).length + 1 - L.length) (0 + L.length)
    (s := ⟨execAll H env 0 Db.empty L,
      ⟨false, true, 0, Buffer.new 1024, false, L.flatMap reqBody ++ (reqBody c).take n⟩⟩) rfl
  simp only [aofInit, loadAofFile, Server.init, Bool.not_true, Bool.false_eq_true, if_false]
  rw [loadLoop_frames_append H env hL _ hf rfl]
  simp only [ht, Option.map_some', Option.bind_eq_bind, Option.some_bind, Option.pure_def]

/-- **A restart recovers the store from the log.** Start the server on a log of frames of
replayable commands, run replayable requests and TTL passes with any outcomes of `write()`,
and stop the process at any point. The file then holds the frames of the first `m` commands
logged, whole, and less than the next frame. A restart replays them, reads no memory out of
bounds, and rebuilds the store the server had after those `m` commands, as a finite map. All
of them are there once `aof_buf` is empty, and then the restart rebuilds the store the server
has. -/
theorem aof_restart_recovers {H : HeapUpdate} {env₀ : Nat → Env} {L₀ : List Cmd}
    (hL₀ : ∀ c ∈ L₀, Replayable c) {s₀ s : Server} {L : List Cmd} {W : List UInt8}
    (h₀ : aofInit H env₀ true true (Server.init (L₀.flatMap reqBody)) = some s₀)
    (hr : s₀.RunIn H Replayable L W s) (env : Nat → Env) :
    s.db.abs = (execAll H env₀ 0 Db.empty (L₀ ++ L)).abs ∧
      ∃ m ≤ L.length, (L.take m).flatMap reqBody <+: W ∧
        (m < L.length → W.length < ((L.take (m + 1)).flatMap reqBody).length) ∧
        (s.aof.buf.content = [] → m = L.length) ∧
        ∃ s', aofInit H env true true (Server.init s.aof.file) = some s' ∧
          s'.db.abs = (execAll H env₀ 0 Db.empty (L₀ ++ L.take m)).abs := by
  have hwf₀ : ∀ c ∈ L₀, c.length ≤ kMaxArgs ∧ ∀ x ∈ c, x.length < 2 ^ 32 :=
    fun c hc => ⟨(hL₀ c hc).1, (hL₀ c hc).2.1⟩
  have hpex₀ : ∀ c ∈ L₀, route c ≠ .pexpire := fun c hc => (hL₀ c hc).2.2.1
  rw [aofInit_frames H env₀ hwf₀, Option.some.injEq] at h₀
  subst h₀
  obtain ⟨-, hfile, htr, hL, hab⟩ := hr.trace H ⟨execAll_wf H env₀ L₀ Db.WF.empty,
    Buffer.new_inv (by decide), rfl,
    execAll_noDeadlines H env₀ Db.WF.empty (fun _ _ _ h => by cases h) hpex₀⟩
  simp only [Buffer.content_new, List.nil_append] at htr
  dsimp only at hfile hab
  -- the commands of a replay of the file
  have hwf : ∀ m, ∀ c ∈ L₀ ++ L.take m, c.length ≤ kMaxArgs ∧ ∀ x ∈ c, x.length < 2 ^ 32 := by
    intro m c hc
    rcases List.mem_append.mp hc with hc | hc
    · exact hwf₀ c hc
    · have := (hL c (List.mem_of_mem_take hc)).1
      exact ⟨this.1, this.2.1⟩
  have hrec : ∀ m, (execAll H env 0 Db.empty (L₀ ++ L.take m)).abs =
      (execAll H env₀ 0 Db.empty (L₀ ++ L.take m)).abs := fun m =>
    execAll_abs_congr H env env₀ Db.WF.empty Db.WF.empty rfl fun c hc =>
      (List.mem_append.mp hc).elim (hpex₀ c) fun hc => (hL c (List.mem_of_mem_take hc)).1.2.2.1
  refine ⟨by rw [hab env₀ (0 + L₀.length), execAll_append], ?_⟩
  obtain ⟨m, hm, hcase⟩ := frames_prefix_cases htr
  refine ⟨m, hm, ?_⟩
  rcases hcase with ⟨rfl, hW⟩ | ⟨c, n, hc, hn, hW⟩
  · -- every frame is in the file
    have hrecL := hrec L.length
    have hwfL := hwf L.length
    rw [List.take_length] at hrecL hwfL ⊢
    have hinit := aofInit_frames H env hwfL
    rw [List.flatMap_append, ← hW, ← hfile] at hinit
    exact ⟨hW ▸ List.prefix_refl _, fun h => absurd h (lt_irrefl _), fun _ => rfl, _, hinit, hrecL⟩
  · -- the process stopped inside a frame
    have hcL := hL c (List.getElem?_mem hc)
    have hnext : W.length < ((L.take (m + 1)).flatMap reqBody).length := by
      rw [hW, List.take_succ, hc]
      simp only [Option.toList_some, List.flatMap_append, List.flatMap_singleton,
        List.length_append, List.length_take]
      omega
    have hinit := aofInit_torn H env (hwf m) hcL.2 hcL.1.2.1 hn
    rw [List.flatMap_append, List.append_assoc, ← hW, ← hfile] at hinit
    refine ⟨⟨_, hW.symm⟩, fun _ => hnext, fun hb => ?_, _, hinit, hrec m⟩
    -- an empty `aof_buf` leaves no frame cut
    have hlen : ((L.take (m + 1)).flatMap reqBody).length ≤ (L.flatMap reqBody).length := by
      conv_rhs => rw [← List.take_append_drop (m + 1) L]
      simp only [List.flatMap_append, List.length_append]
      omega
    rw [hb, List.append_nil] at htr
    rw [htr] at hnext
    omega

/-- A log holding `set a b`, then one `set k v` whose frame `write()` takes whole. -/
theorem aof_restart_recovers_set :
    ∃ s₀ s W, (∀ c ∈ [[ascii "set", ascii "a", ascii "b"]], Replayable c) ∧
      aofInit HeapUpdate.sorted (fun _ => ⟨0, some, true, true, true⟩) true true
        (Server.init ([[ascii "set", ascii "a", ascii "b"]].flatMap reqBody)) = some s₀ ∧
      s₀.RunIn HeapUpdate.sorted Replayable [[ascii "set", ascii "k", ascii "v"]] W s ∧
      (s.db.abs = (execAll HeapUpdate.sorted (fun _ => ⟨0, some, true, true, true⟩) 0 Db.empty
          ([[ascii "set", ascii "a", ascii "b"]] ++ [[ascii "set", ascii "k", ascii "v"]])).abs ∧
        ∃ m ≤ [[ascii "set", ascii "k", ascii "v"]].length,
          ([[ascii "set", ascii "k", ascii "v"]].take m).flatMap reqBody <+: W ∧
          (m < [[ascii "set", ascii "k", ascii "v"]].length →
            W.length < (([[ascii "set", ascii "k", ascii "v"]].take (m + 1)).flatMap reqBody).length) ∧
          (s.aof.buf.content = [] → m = [[ascii "set", ascii "k", ascii "v"]].length) ∧
          ∃ s', aofInit HeapUpdate.sorted (fun _ => ⟨0, some, true, true, true⟩) true true
              (Server.init s.aof.file) = some s' ∧
            s'.db.abs = (execAll HeapUpdate.sorted (fun _ => ⟨0, some, true, true, true⟩) 0
              Db.empty ([[ascii "set", ascii "a", ascii "b"]] ++
                [[ascii "set", ascii "k", ascii "v"]].take m)).abs) := by
  have hL₀ : ∀ c ∈ [[ascii "set", ascii "a", ascii "b"]], Replayable c := by decide
  have h₀ := aofInit_frames HeapUpdate.sorted (fun _ => ⟨0, some, true, true, true⟩)
    fun c hc => ⟨(hL₀ c hc).1, (hL₀ c hc).2.1⟩
  have h : doRequest HeapUpdate.sorted ⟨0, some, true, true, true⟩
      ⟨execAll HeapUpdate.sorted (fun _ => ⟨0, some, true, true, true⟩) 0 Db.empty
        [[ascii "set", ascii "a", ascii "b"]],
        ⟨true, true, 0, Buffer.new 1024, false, [[ascii "set", ascii "a", ascii "b"]].flatMap reqBody⟩⟩
      [ascii "set", ascii "k", ascii "v"] = some (_, _, _) := rfl
  have hr := Server.RunIn.request (P := Replayable) (by decide) h (.nil _)
  exact ⟨_, _, _, hL₀, h₀, hr, aof_restart_recovers hL₀ h₀ hr _⟩

end KvServer
