import KvServer.Aof.Durability
import KvServer.Aof.Rewrite

/-!
# The log across `bgrewriteaof`

`Aof.Durability` shows that the log is a redo log of the store over runs without
`bgrewriteaof`, and `Aof.Rewrite` that the snapshot of a store of strings rebuilds it. This
module puts the two together over whole runs of a store of strings: requests that are
replayable and make no sorted set (`Compactable`), `bgrewriteaof` requests, and TTL passes.
The log stays a redo log (`Server.RedoLog`): the file followed by `aof_buf` is the frames of
commands whose replay gives the store. A restart at any point rebuilds the store after the
frames that are whole in the file, and the store itself once `aof_buf` is empty.

A rewrite keeps this when it leaves `aof_buf` empty. `aof_rewrite_finish` flushes `aof_buf`
once, renames the snapshot over the log and keeps what the flush left, which the next flush
appends after the snapshot. Those bytes are frames the snapshot already holds, or the rest of
one that an earlier short `write()` cut. In the second case the new log holds a torn frame in
its middle, and a restart stops there (the example after `aof_compaction_recovers`).

Results:
1. `Spec.stringsOnly`: outside `zadd` and `pexpire`, section 4.3 keeps a store of strings.
2. `Server.RedoLog.request`, `Server.RedoLog.timers`, `Server.RedoLog.rewrite`: each step of
   such a run keeps the log a redo log; a rewrite that renames the snapshot replaces the log
   by the snapshot's `set`s.
3. `Server.RedoLog.restart`: what a restart rebuilds from a redo log.
4. `aof_compaction_recovers`: over every such run from a start-up, stopped at any point.
-/

namespace KvServer

open Function

/-! ## Section 4.3 on a store of strings -/

theorem StringsOnly.update {A : AStore} (hA : StringsOnly A) {k : List UInt8}
    {e : Option (AValue × Option Nat)}
    (he : ∀ v d, e = some (v, d) →
      d = none ∧ k.length < 2 ^ 32 ∧ ∃ x, v = .str x ∧ x.length < 2 ^ 32) :
    StringsOnly (update A k e) := by
  intro k' v d h
  by_cases hk : k' = k
  · subst hk
    rw [update_same] at h
    exact he v d h
  · rw [update_noteq hk] at h
    exact hA k' v d h

theorem arg_length_lt {cmd : Cmd} (h : ∀ x ∈ cmd, x.length < 2 ^ 32) (i : Nat) :
    (arg cmd i).length < 2 ^ 32 := by
  rw [arg, List.getD_eq_getElem?_getD]
  cases hi : cmd[i]? with
  | none => exact Nat.two_pow_pos 32
  | some x => exact h x (List.getElem?_mem hi)

/-- Outside `zadd` and `pexpire`, section 4.3 keeps a store of strings: `set` writes a string
of the request, without a deadline on a store without deadlines, and `del` removes a key. -/
theorem Spec.stringsOnly {now : Nat} {A A' : AStore} {cmd : Cmd} {outs : List Out}
    (hz : route cmd ≠ .zadd) (hp : route cmd ≠ .pexpire) (hlen : ∀ x ∈ cmd, x.length < 2 ^ 32)
    (hA : StringsOnly A) (h : Spec now A cmd A' outs) : StringsOnly A' := by
  unfold Spec at h
  rw [← route_eq_command] at h
  cases hr : route cmd with
  | set =>
    simp only [hr, setSpec] at h
    split at h
    · exact h.1 ▸ hA
    · rename_i d hk
      obtain ⟨rfl, -⟩ := h
      exact hA.update fun v d' he => by
        cases he
        exact ⟨(hA _ _ _ hk).1, arg_length_lt hlen 1, _, rfl, arg_length_lt hlen 2⟩
    · obtain ⟨rfl, -⟩ := h
      exact hA.update fun v d he => by
        cases he
        exact ⟨rfl, arg_length_lt hlen 1, _, rfl, arg_length_lt hlen 2⟩
  | del =>
    simp only [hr, delSpec] at h
    obtain ⟨rfl, -⟩ := h
    exact hA.update fun _ _ he => by cases he
  | zrem =>
    simp only [hr, zremSpec] at h
    split at h
    · exact h.1 ▸ hA
    · exact h.1 ▸ hA
    · rename_i m d hk
      obtain ⟨-, -, x, hx, -⟩ := hA _ _ _ hk
      cases hx
  | pexpire => exact absurd hr hp
  | zadd => exact absurd hr hz
  | get => simp only [hr, getSpec] at h; exact h.1 ▸ hA
  | pttl => simp only [hr, pttlSpec] at h; exact h.1 ▸ hA
  | keys => simp only [hr, keysSpec] at h; exact h.1 ▸ hA
  | zscore => simp only [hr, zscoreSpec] at h; exact h.1 ▸ hA
  | zquery => simp only [hr] at h; exact h.1 ▸ hA
  | bgrewriteaof => simp only [hr] at h; exact h ▸ hA
  | unknown => simp only [hr] at h; exact h.1 ▸ hA

/-! ## The log as a redo log of a store of strings -/

/-- The commands of the runs of this module: replayable, and not `zadd`, the one command that
makes a sorted set. -/
def Compactable (cmd : Cmd) : Prop := Replayable cmd ∧ route cmd ≠ .zadd

instance (cmd : Cmd) : Decidable (Compactable cmd) := inferInstanceAs (Decidable (_ ∧ _))

/-- The log of `s` is a redo log of its store of strings: the file followed by `aof_buf` is the
frames of the commands `L`, each compactable and of a mutating branch, and replaying them from
the empty store gives the store. -/
structure Server.RedoLog (H : HeapUpdate) (s : Server) (L : List Cmd) : Prop where
  durable : s.Durable
  strings : StringsOnly s.db.abs
  frames : s.aof.file ++ s.aof.buf.content = L.flatMap reqBody
  cmds : ∀ c ∈ L, Compactable c ∧ (route c).logged
  replay : ∀ env i, s.db.abs = (execAll H env i Db.empty L).abs

section Steps

variable {H : HeapUpdate}

theorem execAll_stringsOnly (env : Nat → Env) :
    ∀ {i : Nat} {db : Db} {L : List Cmd}, db.WF → StringsOnly db.abs →
      (∀ c ∈ L, Compactable c ∧ (route c).logged) → StringsOnly (execAll H env i db L).abs
  | _, _, [], _, hs, _ => hs
  | i, db, c :: L, hw, hs, hL => by
    have hc := (hL c (List.mem_cons_self _ _)).1
    simp only [execAll]
    exact execAll_stringsOnly env (exec_wf H _ hw c)
      (Spec.stringsOnly hc.2 hc.1.2.2.1 hc.1.2.1 hs
        (exec_spec_of H (env i).now hw fun h => absurd h hc.1.2.2.1))
      fun c' h' => hL c' (List.mem_cons_of_mem _ h')

/-- A compactable request keeps the log a redo log, extended by the command if it was
logged. -/
theorem Server.RedoLog.request {env : Env} {s s₁ : Server} {L : List Cmd} {cmd : Cmd}
    {outs : List Out} {w : List UInt8} (hl : s.RedoLog H L) (hc : Compactable cmd)
    (h : doRequest H env s cmd = some (s₁, outs, w)) : s₁.RedoLog H (L ++ s.logged cmd) := by
  obtain ⟨hs₁, hf, htr, hdb, hun⟩ := hl.durable.request H hc.1 h
  have hlog : s.logged cmd = if (route cmd).logged then [cmd] else [] := by
    simp [Server.logged, hl.durable.enabled]
  have hwf := hl.durable.wf
  refine ⟨hs₁, ?_, ?_, ?_, fun env' i => ?_⟩
  · rw [hdb]
    exact Spec.stringsOnly hc.2 hc.1.2.2.1 hc.1.2.1 hl.strings
      (exec_spec_of H env.now hwf fun h => absurd h hc.1.2.2.1)
  · rw [hf, List.append_assoc, htr, ← List.append_assoc, hl.frames, List.flatMap_append]
  · rw [hlog]
    split_ifs
    · rintro c' h'
      rcases List.mem_append.mp h' with h' | h'
      exacts [hl.cmds c' h', List.mem_singleton.mp h' ▸ ⟨hc, ‹_›⟩]
    · simpa using hl.cmds
  · rw [execAll_append, hlog]
    split_ifs with hlg
    · -- a logged command: the replay runs it last
      rw [hdb]
      exact exec_abs_congr H hwf (execAll_wf H env' L Db.WF.empty) (hl.replay env' i) hc.1.2.2.1
        env.now _
    · rw [hun (by simpa using hlg)]
      exact hl.replay env' i

/-- A TTL pass keeps a redo log: a store without deadlines has no key to delete. -/
theorem Server.RedoLog.timers {now : Nat} {s s₁ : Server} {L : List Cmd} (hl : s.RedoLog H L)
    (h : s.processTtl H now = some s₁) : s₁.RedoLog H L := by
  obtain ⟨hs₁, ha, hab⟩ := hl.durable.timers H h
  exact ⟨hs₁, hab ▸ hl.strings, by rw [ha]; exact hl.frames, hl.cmds,
    fun env i => hab ▸ hl.replay env i⟩

/-- A `bgrewriteaof` that leaves the AOF on and `aof_buf` empty keeps a redo log: when it
renamed the snapshot over the log, the log is the snapshot's `set`s; otherwise the log is the
one it was, its flush having moved bytes from `aof_buf` to the file. -/
theorem Server.RedoLog.rewrite {env : Env} {s s₁ : Server} {L : List Cmd} {cmd : Cmd}
    {outs : List Out} {w : List UInt8} (hl : s.RedoLog H L) (hr : route cmd = .bgrewriteaof)
    (h : doRequest H env s cmd = some (s₁, outs, w)) (hen : s₁.aof.enabled)
    (hbuf : s₁.aof.buf.content = []) : ∃ L', s₁.RedoLog H L' := by
  rw [doRequest_rewrite H env hr] at h
  obtain ⟨⟨a', outs', w'⟩, hd, he⟩ := Option.map_eq_some'.mp h
  obtain rfl := (Prod.mk.inj he).1
  obtain ⟨hwf, hb, hen₀, hnd⟩ := hl.durable
  -- a rewrite that changes nothing, or only flushes, keeps the log
  have hsame : ∀ a : Aof, a.enabled → a.buf.Inv → a.file ++ a.buf.content = L.flatMap reqBody →
      ∃ L', ({ s with aof := a } : Server).RedoLog H L' := fun a hen' hb' hf' =>
    ⟨L, ⟨hwf, hb', hen', hnd⟩, hl.strings, hf', hl.cmds, hl.replay⟩
  unfold doAofRewrite at hd
  rw [if_neg (by simp [hen₀])] at hd
  unfold aofRewrite at hd
  split_ifs at hd with hrw hopen
  · cases hd; exact hsame _ hen₀ hb hl.frames
  · cases hd; exact hsame _ hen₀ hb hl.frames
  obtain ⟨⟨a₂, w₂, ok⟩, hrw', hd⟩ := Option.bind_eq_some.mp hd
  obtain rfl : a₂ = a' := (Prod.mk.inj (Option.some.inj hd)).1
  obtain ⟨tmp, ht, hrw'⟩ := Option.bind_eq_some.mp hrw'
  obtain rfl := Option.some.inj ((aofRewriteDo_strings hwf hl.strings env.now).symm.trans ht)
  obtain ⟨⟨a₃, w₃⟩, hfin, hrw'⟩ := Option.bind_eq_some.mp hrw'
  obtain rfl : a₃ = a₂ := (Prod.mk.inj (Option.some.inj hrw')).1
  obtain ⟨a₁, k, hf, hb₁, hc₁, hfile₁, hen₁, -⟩ := flushAndSync_spec env
    (a := { s.aof with rewriting := true }) hb
  rw [aofRewriteFinish, hf, Option.bind_eq_bind, Option.some_bind] at hfin
  split_ifs at hfin with hren hre <;> cases hfin
  · -- `rename()` failed: the flush moved bytes from `aof_buf` to the log
    refine hsame _ (hen₁.trans hen₀) hb₁ ?_
    rw [hfile₁, hc₁, List.append_assoc, List.take_append_drop]
    exact hl.frames
  · -- the snapshot is the log
    have hcmds := snapshotCmds_spec hwf hl.strings
    refine ⟨snapshotCmds s.db, ⟨hwf, hb₁, hen, hnd⟩, hl.strings, ?_, fun c hc => ?_,
      fun env i => (execAll_snapshot H env hwf hl.strings i).symm⟩
    · rw [hbuf, List.append_nil]
    · obtain ⟨hset, hlen, hstr⟩ := hcmds c hc
      rw [Compactable, Replayable, hset]
      exact ⟨⟨⟨hlen, hstr, nofun, nofun⟩, nofun⟩, rfl⟩
  · exact absurd hen (by simp)

/-- A restart on the file of a redo log replays the frames that are whole in it: those of the
first `m` commands of the log, all of them once `aof_buf` is empty. -/
theorem Server.RedoLog.restart {s : Server} {L : List Cmd} (hl : s.RedoLog H L)
    (env : Nat → Env) :
    ∃ m ≤ L.length, (L.take m).flatMap reqBody <+: s.aof.file ∧
      (s.aof.buf.content = [] → m = L.length) ∧
      ∃ s', aofInit H env true true (Server.init s.aof.file) = some s' ∧
        s'.db.abs = (execAll H env 0 Db.empty (L.take m)).abs := by
  have hwf : ∀ m, ∀ c ∈ L.take m, c.length ≤ kMaxArgs ∧ ∀ x ∈ c, x.length < 2 ^ 32 :=
    fun m c hc => (hl.cmds c (List.mem_of_mem_take hc)).1.1.imp_right And.left
  obtain ⟨m, hm, hcase⟩ := frames_prefix_cases hl.frames
  refine ⟨m, hm, ?_⟩
  rcases hcase with ⟨rfl, hW⟩ | ⟨c, n, hc, hn, hW⟩
  · -- every frame is in the file
    have hinit := aofInit_frames H env (hwf L.length)
    rw [List.take_length] at hinit ⊢
    rw [← hW] at hinit
    exact ⟨hW ▸ List.prefix_refl _, fun _ => rfl, _, hinit, rfl⟩
  · -- the file ends inside the frame of the next command
    have hcL := hl.cmds c (List.getElem?_mem hc)
    have hinit := aofInit_torn H env (hwf m) hcL.2 hcL.1.1.2.1 hn
    rw [← hW] at hinit
    refine ⟨⟨_, hW.symm⟩, fun hb => ?_, _, hinit, rfl⟩
    -- an empty `aof_buf` leaves no frame cut
    have hlen : ((L.take (m + 1)).flatMap reqBody).length ≤ (L.flatMap reqBody).length := by
      conv_rhs => rw [← List.take_append_drop (m + 1) L]
      simp only [List.flatMap_append, List.length_append]
      omega
    have hfr := hl.frames
    rw [hb, List.append_nil] at hfr
    have hnext : (s.aof.file).length < ((L.take (m + 1)).flatMap reqBody).length := by
      rw [hW, List.take_succ, hc]
      simp only [Option.toList_some, List.flatMap_append, List.flatMap_singleton,
        List.length_append, List.length_take]
      omega
    rw [hfr] at hnext
    omega

end Steps

/-! ## Every run -/

/-- Runs of a store of strings over which the log is kept across `bgrewriteaof`: compactable
requests, `bgrewriteaof` requests that leave the AOF on and `aof_buf` empty, and TTL passes,
each with any outcomes of the system calls. -/
inductive Server.CompactRun (H : HeapUpdate) : Server → Server → Prop
  | nil (s : Server) : Server.CompactRun H s s
  | request {s s₁ s₂ : Server} {env : Env} {cmd : Cmd} {outs : List Out} {w : List UInt8} :
      Compactable cmd → doRequest H env s cmd = some (s₁, outs, w) →
      Server.CompactRun H s₁ s₂ → Server.CompactRun H s s₂
  | rewrite {s s₁ s₂ : Server} {env : Env} {cmd : Cmd} {outs : List Out} {w : List UInt8} :
      route cmd = .bgrewriteaof → doRequest H env s cmd = some (s₁, outs, w) →
      s₁.aof.enabled → s₁.aof.buf.content = [] →
      Server.CompactRun H s₁ s₂ → Server.CompactRun H s s₂
  | timers {s s₁ s₂ : Server} {now : Nat} :
      s.processTtl H now = some s₁ → Server.CompactRun H s₁ s₂ → Server.CompactRun H s s₂

theorem Server.CompactRun.redoLog {H : HeapUpdate} {s s' : Server} (hr : s.CompactRun H s')
    {L : List Cmd} (hl : s.RedoLog H L) : ∃ L', s'.RedoLog H L' := by
  induction hr generalizing L with
  | nil => exact ⟨L, hl⟩
  | request hc h _ ih => exact ih (hl.request hc h)
  | rewrite hr h hen hbuf _ ih =>
    obtain ⟨L', hl'⟩ := hl.rewrite hr h hen hbuf
    exact ih hl'
  | timers h _ ih => exact ih (hl.timers h)

/-- **The log survives `bgrewriteaof`.** Start the server on a log of frames of compactable
commands of mutating branches, then run compactable requests, TTL passes, and `bgrewriteaof` requests that leave the
AOF on and `aof_buf` empty, with any outcomes of `write()`, and stop the process at any point.
The store is then the replay of a list of commands whose frames, whole, start the file, up to
less than the next frame, and all of them once `aof_buf` is empty. A restart replays those
frames, reads no memory out of bounds, and rebuilds the store after them, as a finite map: the
store the server has, once `aof_buf` is empty. -/
theorem aof_compaction_recovers {H : HeapUpdate} {env₀ : Nat → Env} {L₀ : List Cmd}
    (hL₀ : ∀ c ∈ L₀, Compactable c ∧ (route c).logged) {s₀ s : Server}
    (h₀ : aofInit H env₀ true true (Server.init (L₀.flatMap reqBody)) = some s₀)
    (hr : s₀.CompactRun H s) (env : Nat → Env) :
    ∃ L : List Cmd, s.db.abs = (execAll H env 0 Db.empty L).abs ∧
      ∃ m ≤ L.length, (L.take m).flatMap reqBody <+: s.aof.file ∧
        (s.aof.buf.content = [] → m = L.length) ∧
        ∃ s', aofInit H env true true (Server.init s.aof.file) = some s' ∧
          s'.db.abs = (execAll H env 0 Db.empty (L.take m)).abs := by
  have hwf₀ : ∀ c ∈ L₀, c.length ≤ kMaxArgs ∧ ∀ x ∈ c, x.length < 2 ^ 32 :=
    fun c hc => (hL₀ c hc).1.1.imp_right And.left
  have hpex₀ : ∀ c ∈ L₀, route c ≠ .pexpire := fun c hc => (hL₀ c hc).1.1.2.2.1
  rw [aofInit_frames H env₀ hwf₀, Option.some.injEq] at h₀
  subst h₀
  -- the log at start-up is a redo log
  have hl₀ : Server.RedoLog H ⟨execAll H env₀ 0 Db.empty L₀,
      ⟨true, true, 0, Buffer.new 1024, false, L₀.flatMap reqBody⟩⟩ L₀ :=
    ⟨⟨execAll_wf H env₀ L₀ Db.WF.empty, Buffer.new_inv (by decide), rfl,
      execAll_noDeadlines H env₀ Db.WF.empty (fun _ _ _ h => by cases h) hpex₀⟩,
      execAll_stringsOnly env₀ Db.WF.empty (fun _ _ _ h => by cases h) hL₀,
      List.append_nil _, hL₀,
      fun env i => execAll_abs_congr H env₀ env Db.WF.empty Db.WF.empty rfl hpex₀⟩
  obtain ⟨L, hl⟩ := hr.redoLog hl₀
  exact ⟨L, hl.replay env 0, hl.restart env⟩

/-- A log holding `set a b`, then a `bgrewriteaof` with every system call succeeding. -/
theorem aof_compaction_recovers_rewrite :
    ∃ s₀ s, (∀ c ∈ [[ascii "set", ascii "a", ascii "b"]], Compactable c ∧ (route c).logged) ∧
      aofInit HeapUpdate.sorted (fun _ => ⟨0, some, true, true, true⟩) true true
        (Server.init ([[ascii "set", ascii "a", ascii "b"]].flatMap reqBody)) = some s₀ ∧
      s₀.CompactRun HeapUpdate.sorted s ∧
      ∃ L : List Cmd, s.db.abs = (execAll HeapUpdate.sorted (fun _ => ⟨0, some, true, true, true⟩)
          0 Db.empty L).abs ∧
        ∃ m ≤ L.length, (L.take m).flatMap reqBody <+: s.aof.file ∧
          (s.aof.buf.content = [] → m = L.length) ∧
          ∃ s', aofInit HeapUpdate.sorted (fun _ => ⟨0, some, true, true, true⟩) true true
              (Server.init s.aof.file) = some s' ∧
            s'.db.abs = (execAll HeapUpdate.sorted (fun _ => ⟨0, some, true, true, true⟩) 0
              Db.empty (L.take m)).abs := by
  have hL₀ : ∀ c ∈ [[ascii "set", ascii "a", ascii "b"]], Compactable c ∧ (route c).logged := by
    decide
  have h₀ := aofInit_frames HeapUpdate.sorted (fun _ => ⟨0, some, true, true, true⟩)
    fun c hc => (hL₀ c hc).1.1.imp_right And.left
  obtain ⟨r, hd, hen, hbuf⟩ : ∃ r, doRequest HeapUpdate.sorted ⟨0, some, true, true, true⟩
      ⟨execAll HeapUpdate.sorted (fun _ => ⟨0, some, true, true, true⟩) 0 Db.empty
        [[ascii "set", ascii "a", ascii "b"]],
       ⟨true, true, 0, Buffer.new 1024, false, [[ascii "set", ascii "a", ascii "b"]].flatMap reqBody⟩⟩
      [ascii "bgrewriteaof"] = some r ∧ r.1.aof.enabled = true ∧ r.1.aof.buf.content = [] :=
    ⟨_, rfl, rfl, rfl⟩
  have hr : Server.CompactRun HeapUpdate.sorted _ r.1 := .rewrite (by decide) hd hen hbuf (.nil _)
  exact ⟨_, _, hL₀, h₀, hr, aof_compaction_recovers hL₀ h₀ hr _⟩

/- The rewrite must leave `aof_buf` empty. Here `write()` takes 3 bytes of the frame of `set k v`,
then fails in the flush of `bgrewriteaof`, then takes all of the next flush: the rest of the
frame lands after the snapshot, before the frame of `set a b`. `aof_buf` is empty and the
server has `a`, but a restart stops at the torn frame and has no `a`. -/
example : (do
    let (s₁, _, _) ← doRequest HeapUpdate.sorted ⟨0, fun _ => some 3, true, true, true⟩
      ⟨Db.empty, ⟨true, true, 0, Buffer.new 1024, false, []⟩⟩ [ascii "set", ascii "k", ascii "v"]
    let (s₂, _, _) ← doRequest HeapUpdate.sorted ⟨0, fun _ => none, true, true, true⟩ s₁
      [ascii "bgrewriteaof"]
    let (s₃, _, _) ← doRequest HeapUpdate.sorted ⟨0, some, true, true, true⟩ s₂
      [ascii "set", ascii "a", ascii "b"]
    let s' ← aofInit HeapUpdate.sorted (fun _ => ⟨0, some, true, true, true⟩) true true
      (Server.init s₃.aof.file)
    pure (s₃.aof.buf.content, (s₃.db.abs (ascii "a")).isSome, (s'.db.abs (ascii "a")).isSome)) =
    some ([], true, false) := by
  decide

end KvServer
