import KvServer.Aof.Recovery

/-!
# `bgrewriteaof` on a store of strings

`aof_rewrite_do` writes a snapshot of the store to a temporary file, which
`aof_rewrite_finish` renames over the log. Each entry is written from a fresh `Buffer`: a
string as `set key value` and its `pexpire`, a sorted set as a `zadd` per member with a
non-empty name and its `pexpire`. `Aof.Recovery` shows sorted sets that the snapshot loses or
changes. This module shows that on a store of strings without deadlines the snapshot is
exact: replaying the new log at the next start rebuilds the store.

A buffer that is only appended to keeps its bytes at the start of its block, so
`get_continuous_data(0)` reports all of them, and each entry's buffer is written whole.

Results:
1. `bufferedFrames_whole`: the bytes written from one buffer are the frames of its commands.
2. `aofRewriteDo_strings`: the snapshot of a store of strings is a `set` per entry, in the
   table's order (`snapshotCmds`).
3. `execAll_sets_abs`, `execAll_snapshot`: replaying `set`s of distinct new keys adds exactly
   those keys, so replaying the snapshot rebuilds the store.
4. `aof_rewrite_restores_strings`: after `bgrewriteaof` with the temporary file opened and
   renamed, a restart rebuilds the store.
-/

namespace KvServer

open Function

/-! ## A buffer that is only appended to -/

namespace Buffer

/-- `append` keeps the bytes at the start of the block: `resize` moves them there and
`putTail` leaves `head` alone. -/
theorem append_head_zero {b b' : Buffer} {src : List UInt8} (h0 : b.head = 0)
    (h : b.append src = some b') : b'.head = 0 := by
  obtain ⟨b₁, h₁, h₂⟩ := Option.bind_eq_some.mp h
  have hb₁ : b₁.head = 0 := by
    unfold reserve at h₁
    split_ifs at h₁
    · obtain ⟨d, -, h₁⟩ := Option.bind_eq_some.mp h₁
      cases h₁
      rfl
    · cases h₁
      exact h0
  obtain ⟨d, -, h₂⟩ := Option.bind_eq_some.mp h₂
  cases h₂
  exact hb₁

end Buffer

/-- A step that keeps a property of its state keeps it along a `foldlM`. -/
theorem foldlM_invariant {α β : Type} {f : β → α → Option β} {P : β → Prop}
    (hf : ∀ b a b', P b → f b a = some b' → P b') :
    ∀ {l : List α} {b b' : β}, P b → l.foldlM f b = some b' → P b'
  | [], _, _, hb, h => by cases h; exact hb
  | a :: l, b, b', hb, h => by
    rw [List.foldlM_cons] at h
    obtain ⟨b₁, h₁, h₂⟩ := Option.bind_eq_some.mp h
    exact foldlM_invariant hf (hf b a b₁ hb h₁) h₂

theorem aofWriteCommand_head_zero {b b' : Buffer} {cmd : Cmd} (h0 : b.head = 0)
    (h : aofWriteCommand b cmd = some b') : b'.head = 0 := by
  have hstr : ∀ (b : Buffer) (s : List UInt8) (b' : Buffer), b.head = 0 →
      appendStr b s = some b' → b'.head = 0 := fun b s b' h0 h => by
    obtain ⟨b₁, h₁, h₂⟩ := Option.bind_eq_some.mp h
    exact Buffer.append_head_zero (Buffer.append_head_zero h0 h₁) h₂
  unfold aofWriteCommand at h
  split_ifs at h
  · cases h
    exact h0
  · obtain ⟨b₁, h₁, h₂⟩ := Option.bind_eq_some.mp h
    exact foldlM_invariant hstr (Buffer.append_head_zero h0 h₁) h₂

/-- The bytes `aof_rewrite_entry` writes from one buffer are the frames of its commands, all
of them. -/
theorem bufferedFrames_whole {cmds : List Cmd} (hne : ∀ c ∈ cmds, c ≠ []) :
    bufferedFrames cmds = some (cmds.flatMap reqBody) := by
  obtain ⟨b, hb, hi, hc⟩ := foldlM_aofWriteCommand hne (Buffer.new_inv (c := 1024) (by decide))
  have h0 : b.head = 0 := foldlM_invariant (fun _ _ _ => aofWriteCommand_head_zero) rfl hb
  rw [Buffer.content_new, List.nil_append] at hc
  unfold bufferedFrames
  rw [hb, Option.bind_eq_bind, Option.some_bind]
  rcases Nat.eq_zero_or_pos b.size with hs | hs
  · have : cmds.flatMap reqBody = [] := by
      rw [← hc, ← List.length_eq_zero, Buffer.length_content, hs]
    simp [Buffer.getContinuousData, hs, this]
  · obtain ⟨n, hd, -, hn, hcap, hfull⟩ := Buffer.getContinuousData_zero hi hs
    have hn' : n = b.size := hfull.mpr (by rw [h0, Nat.zero_add]; exact hi.size_le)
    rw [hd]
    dsimp only
    rw [if_pos (show n > 0 by omega), Buffer.memcpyFrom_head hn hcap, hn',
      ← Buffer.length_content, List.take_length, hc]

/-! ## The snapshot of a store of strings -/

/-- Every key holds a string without a deadline, and keys and strings are shorter than `2^32`
bytes, as the strings of a request are. -/
def StringsOnly (A : AStore) : Prop :=
  ∀ k v d, A k = some (v, d) → d = none ∧ k.length < 2 ^ 32 ∧ ∃ x, v = .str x ∧ x.length < 2 ^ 32

/-- In a store of strings, every entry of the table is a string without a deadline. -/
theorem StringsOnly.entry {db : Db} (hw : db.WF) (hs : StringsOnly db.abs) {a : Nat}
    (ha : a ∈ db.table) : (db.ent a).type = .str ∧ db.deadline a = none ∧
      (db.ent a).key.length < 2 ^ 32 ∧ (db.ent a).str.length < 2 ^ 32 := by
  obtain ⟨hd, hk, x, hv, hx⟩ := hs _ _ _ (Db.abs_of_hmLookup (Db.hmLookup_of_mem hw ha))
  have htyp := hw.typed a ha
  unfold Entry.value at hv
  split_ifs at hv with hz
  cases hv
  refine ⟨?_, hd, hk, hx⟩
  cases h : (db.ent a).type
  · exact absurd h htyp
  · rfl
  · exact absurd h hz

/-- A string without a deadline is written as its `set`, with no `pexpire`. -/
theorem aofRewriteEntry_str {db : Db} (hw : db.WF) {a : Nat} (ha : a ∈ db.table)
    (ht : (db.ent a).type = .str) (hd : db.deadline a = none) (now : Nat) :
    aofRewriteEntry db now (db.ent a) =
      some (reqBody [ascii "set", (db.ent a).key, (db.ent a).str]) := by
  obtain ⟨e, he⟩ := Option.isSome_iff_exists.mp (hw.table_live a ha)
  have hidx : (db.ent a).heapIdx = none := by
    rw [Db.ent_eq he, hw.sync a e he, slotOf_eq_none_iff, mem_refs_iff]
    simpa [Db.deadline] using hd
  unfold aofRewriteEntry
  rw [ht]
  simp only [rewriteTtlCmds, hidx, Option.bind_eq_bind, Option.some_bind]
  rw [bufferedFrames_whole (by simp)]
  simp

theorem mapM_eq_some_map {α β : Type} {f : α → Option β} {g : α → β} :
    ∀ {l : List α}, (∀ x ∈ l, f x = some (g x)) → l.mapM f = some (l.map g)
  | [], _ => rfl
  | x :: l, h => by
    rw [List.mapM_cons, h x (List.mem_cons_self _ _),
      mapM_eq_some_map fun y hy => h y (List.mem_cons_of_mem _ hy)]
    rfl

/-- The commands of the snapshot of a store of strings: a `set` per entry, in the table's
order. -/
def snapshotCmds (db : Db) : List Cmd :=
  db.table.map fun a => [ascii "set", (db.ent a).key, (db.ent a).str]

/-- The snapshot of a store of strings is the frames of its `set`s. -/
theorem aofRewriteDo_strings {db : Db} (hw : db.WF) (hs : StringsOnly db.abs) (now : Nat) :
    aofRewriteDo db now = some ((snapshotCmds db).flatMap reqBody) := by
  unfold aofRewriteDo
  rw [mapM_eq_some_map fun a ha =>
    aofRewriteEntry_str hw ha (hs.entry hw ha).1 (hs.entry hw ha).2.1 now]
  simp [snapshotCmds, List.flatMap, List.map_map, Function.comp_def]

/-! ## Replaying the snapshot -/

section Replay

variable (H : HeapUpdate) (env : Nat → Env)

theorem route_set (k v : List UInt8) : route [ascii "set", k, v] = .set :=
  (route_congr (q := [ascii "set", [], []]) rfl rfl).trans (by decide)

/-- Each command of the snapshot of a store of strings is a `set` of at most `k_max_args`
strings, each shorter than `2^32` bytes. -/
theorem snapshotCmds_spec {db : Db} (hw : db.WF) (hs : StringsOnly db.abs) :
    ∀ c ∈ snapshotCmds db, route c = .set ∧ c.length ≤ kMaxArgs ∧ ∀ x ∈ c, x.length < 2 ^ 32 := by
  simp only [snapshotCmds, List.mem_map]
  rintro c ⟨a, ha, rfl⟩
  obtain ⟨-, -, hk, hx⟩ := hs.entry hw ha
  refine ⟨route_set _ _, by simp [kMaxArgs], ?_⟩
  simp only [List.mem_cons, List.mem_singleton, List.not_mem_nil, or_false]
  rintro x (rfl | rfl | rfl)
  exacts [by decide, hk, hx]

/-- `set` of a key the store lacks adds it, with the string and no deadline. -/
theorem exec_set_new {db : Db} (hw : db.WF) {k v : List UInt8} (hk : db.abs k = none)
    (now : Nat) : (exec H now db [ascii "set", k, v]).1.abs = update db.abs k (some (.str v, none)) := by
  have h := @exec_spec_of H now db hw [ascii "set", k, v] fun h =>
    absurd (h.symm.trans (route_set k v)) (by decide)
  unfold Spec at h
  rw [← route_eq_command] at h
  simp only [route_set] at h
  unfold setSpec at h
  rw [show arg [ascii "set", k, v] 1 = k from rfl, show arg [ascii "set", k, v] 2 = v from rfl,
    hk] at h
  exact h.1

/-- Replaying `set`s of distinct keys that the store lacks adds exactly those keys, each with
its string and no deadline. -/
theorem execAll_sets_abs :
    ∀ {i : Nat} {db : Db} {ps : List (List UInt8 × List UInt8)}, db.WF →
      (ps.map Prod.fst).Nodup → (∀ p ∈ ps, db.abs p.1 = none) →
      ∀ k, (execAll H env i db (ps.map fun p => [ascii "set", p.1, p.2])).abs k =
        match ps.find? (·.1 == k) with
        | some p => some (.str p.2, none)
        | none => db.abs k
  | _, _, [], _, _, _, _ => rfl
  | i, db, p :: ps, hw, hn, hnew, k => by
    obtain ⟨hp, hn'⟩ := List.nodup_cons.mp hn
    have h₁ := exec_set_new H hw (v := p.2) (hnew p (List.mem_cons_self _ _)) (env i).now
    have hnew' : ∀ q ∈ ps, (exec H (env i).now db [ascii "set", p.1, p.2]).1.abs q.1 = none :=
      fun q hq => by
        rw [h₁, update_noteq fun h => hp (by rw [← h]; exact List.mem_map_of_mem _ hq)]
        exact hnew q (List.mem_cons_of_mem _ hq)
    simp only [List.map_cons, execAll]
    rw [execAll_sets_abs (exec_wf H _ hw _) hn' hnew' k, h₁, List.find?_cons]
    by_cases hk : p.1 = k
    · subst hk
      have hnone : ps.find? (·.1 == p.1) = none := List.find?_eq_none.mpr fun q hq h =>
        hp (List.mem_map.mpr ⟨q, hq, by simpa using h⟩)
      simp [hnone]
    · have hb : (p.1 == k) = false := by simpa using hk
      simp only [hb]
      cases ps.find? (·.1 == k) <;> simp [update_noteq (Ne.symm hk)]

/-- Replaying the snapshot of a store of strings from the empty store rebuilds it, as a finite
map. -/
theorem execAll_snapshot {db : Db} (hw : db.WF) (hs : StringsOnly db.abs) (i : Nat) :
    (execAll H env i Db.empty (snapshotCmds db)).abs = db.abs := by
  have hcmds : snapshotCmds db = (db.table.map fun a => ((db.ent a).key, (db.ent a).str)).map
      fun p => [ascii "set", p.1, p.2] := by
    rw [List.map_map]
    rfl
  have hnd : ((db.table.map fun a => ((db.ent a).key, (db.ent a).str)).map Prod.fst).Nodup := by
    rw [List.map_map]
    exact hw.keys_nodup
  funext k
  rw [hcmds, execAll_sets_abs H env Db.WF.empty hnd (fun _ _ => rfl) k, List.find?_map]
  have hlook : db.hmLookup k = db.table.find? fun a => (db.ent a).key == k :=
    find?_congr_mem fun a ha => by
      obtain ⟨e, he⟩ := Option.isSome_iff_exists.mp (hw.table_live a ha)
      simp [Db.keyIs, he, Db.ent_eq he]
  show _ = (db.hmLookup k).map _
  rw [hlook, Function.comp_def]
  cases hf : db.table.find? (fun a => (db.ent a).key == k) with
  | none => rfl
  | some a =>
    obtain ⟨ht, hdl, -⟩ := hs.entry hw (List.mem_of_find?_eq_some hf)
    simp [Entry.value, ht, hdl]

end Replay

/-! ## `bgrewriteaof` -/

/-- With the AOF on and no rewrite running, when `open()` of the temporary file and `rename()`
succeed, `bgrewriteaof` leaves the snapshot as the log. -/
theorem doAofRewrite_renamed (env : Env) {db : Db} {a : Aof} {tmp : List UInt8}
    (hb : a.buf.Inv) (hen : a.enabled) (hrw : a.rewriting = false) (hopen : env.tmpOpen)
    (hren : env.rename) (ht : aofRewriteDo db env.now = some tmp) :
    ∃ a' outs w, doAofRewrite env db a = some (a', outs, w) ∧ a'.file = tmp := by
  obtain ⟨_, fdOpen, lastSaveMs, buf, _, file⟩ := a
  subst hen hrw
  obtain ⟨a₁, k, hf, -⟩ := flushAndSync_spec env (a := ⟨true, fdOpen, lastSaveMs, buf, true, file⟩) hb
  unfold doAofRewrite aofRewrite aofRewriteFinish
  simp only [hopen, hren, ht, Bool.not_true, Bool.false_eq_true, if_false, Option.bind_eq_bind,
    Option.some_bind, Option.pure_def]
  rw [hf]
  cases env.reopen <;> exact ⟨_, _, _, rfl, rfl⟩

/-- **`bgrewriteaof` keeps a store of strings.** On a store of strings without deadlines, with
the AOF on and no rewrite running, a `bgrewriteaof` whose `open()` of the temporary file and
`rename()` succeed is defined, and a restart on the log it leaves rebuilds the store, as a
finite map. -/
theorem aof_rewrite_restores_strings {H : HeapUpdate} {env : Env} {s : Server} (hw : s.db.WF)
    (hb : s.aof.buf.Inv) (hs : StringsOnly s.db.abs) (hen : s.aof.enabled)
    (hrw : s.aof.rewriting = false) (hopen : env.tmpOpen) (hren : env.rename)
    (env' : Nat → Env) :
    ∃ s₁ outs w s₂, doRequest H env s [ascii "bgrewriteaof"] = some (s₁, outs, w) ∧
      aofInit H env' true true (Server.init s₁.aof.file) = some s₂ ∧ s₂.db.abs = s₁.db.abs := by
  obtain ⟨a', outs, w, hd, hfile⟩ :=
    doAofRewrite_renamed env hb hen hrw hopen hren (aofRewriteDo_strings hw hs env.now)
  have hreq : doRequest H env s [ascii "bgrewriteaof"] = some ({ s with aof := a' }, outs, w) := by
    rw [doRequest_rewrite H env (by decide), hd]
    rfl
  -- the snapshot is the frames of one `set` per entry, and replaying them rebuilds the store
  have hinit := aofInit_frames H env' fun c hc => (snapshotCmds_spec hw hs c hc).2
  rw [← hfile] at hinit
  exact ⟨_, _, _, _, hreq, hinit, execAll_snapshot H env' hw hs 0⟩

/-- A store holding the one string `k = v` survives a `bgrewriteaof`. -/
theorem aof_rewrite_restores_strings_set :
    ∃ s₁ outs w s₂, doRequest HeapUpdate.sorted ⟨0, some, true, true, true⟩
        ⟨(exec HeapUpdate.sorted 0 Db.empty [ascii "set", ascii "k", ascii "v"]).1,
          ⟨true, true, 0, Buffer.new, false, []⟩⟩ [ascii "bgrewriteaof"] = some (s₁, outs, w) ∧
      aofInit HeapUpdate.sorted (fun _ => ⟨0, some, true, true, true⟩) true true
        (Server.init s₁.aof.file) = some s₂ ∧ s₂.db.abs = s₁.db.abs := by
  have hs : StringsOnly (exec HeapUpdate.sorted 0 Db.empty [ascii "set", ascii "k", ascii "v"]).1.abs := by
    rw [exec_set_new HeapUpdate.sorted Db.WF.empty rfl 0]
    intro k v d h
    by_cases hk : k = ascii "k"
    · subst hk
      simp only [update_same, Option.some.injEq, Prod.mk.injEq] at h
      obtain ⟨rfl, rfl⟩ := h
      exact ⟨rfl, by decide, _, rfl, by decide⟩
    · simp only [update_noteq hk] at h
      cases h
  exact aof_rewrite_restores_strings (exec_wf HeapUpdate.sorted 0 Db.WF.empty _)
    (Buffer.new_inv (by decide)) hs rfl rfl rfl rfl _

end KvServer
