import KvServer.Store.Invariant

/-!
# The append-only file

The AOF part of `g_data`: the log buffer `aof_buf`, which `aof_write_command` fills with the
frame of every logged command; `aof_flush_and_sync`, which hands the buffer to `write()` on
`aof_fd`; and `bgrewriteaof`, which writes a snapshot of the store to a temporary file and
renames it over the log.

The system calls are the environment's: an `Env` gives the clock reading of a request and what
each call the request makes returns (how many bytes `write()` accepts, whether `open()` and
`rename()` succeed). The file system is the content of `redis.aof`. The writes of a rewrite
to its temporary file, a regular file, are taken to be complete.

Results:
1. `flushAndSync_spec`: a flush hands a prefix of the log buffer's content to `write()`,
   appends it to the file and keeps the rest; when `write()` takes all it is offered, the
   prefix is the span `get_continuous_data(0)` reports.
2. `bufferedFrames_spec`, `aofRewriteDo_isSome`: under `Db.WF` the rewrite reads no memory
   out of bounds.
3. `doAofRewrite_spec`: `bgrewriteaof` writes to `aof_fd` only by its flush.
-/

namespace KvServer

/-! ## `std::to_string` -/

/-- The decimal digits of `n`. -/
def decimal (n : Nat) : List UInt8 := (Nat.toDigits 10 n).map Char.toUInt8

/-- `std::to_string(int64_t)`. -/
def toStringI64 (v : Int) : List UInt8 :=
  if v < 0 then ascii "-" ++ decimal v.natAbs else decimal v.toNat

/-- `std::to_string(double)`, that is `printf("%f")`: the exact binary value rounded to six
decimals, ties to even, after a minus sign whenever the sign bit is set; `inf` and `nan` for
the special values. The fraction is `decimal (n % 10^6 + 10^6)` without its leading `1`, so
that it keeps its leading zeros. -/
def toStringDbl (d : F64) : List UInt8 :=
  let sign := if d.sign then ascii "-" else []
  let e := d.bits.toNat / 2 ^ 52 % 2 ^ 11
  let f := d.bits.toNat % 2 ^ 52
  if e = 2047 then sign ++ ascii (if f = 0 then "inf" else "nan")
  else
    -- the magnitude is `m * 2 ^ (x - 1075)`
    let m := if e = 0 then f else f + 2 ^ 52
    let x := if e = 0 then 1 else e
    let num := if 1075 ≤ x then m * 2 ^ (x - 1075) * 10 ^ 6 else m * 10 ^ 6
    let den := if 1075 ≤ x then 1 else 2 ^ (1075 - x)
    let q := num / den
    let r := num % den
    let n := if 2 * r > den ∨ (2 * r = den ∧ q % 2 = 1) then q + 1 else q
    sign ++ decimal (n / 10 ^ 6) ++ ascii "." ++ (decimal (n % 10 ^ 6 + 10 ^ 6)).drop 1

/-- A `uint64_t` read as `int64_t`. -/
def toInt64 (n : Nat) : Int := if n < 2 ^ 63 then n else (n : Int) - 2 ^ 64

/-! ## The log state -/

/-- What the system calls of one request return. -/
structure Env where
  /-- `get_monotonic_msec()`. -/
  now : Nat
  /-- `write(aof_fd, data, n)`: `none` is an error, `some r` is `min r n` bytes taken. -/
  write : Nat → Option Nat
  /-- `open()` of the temporary file of a rewrite succeeds. -/
  tmpOpen : Bool
  /-- `rename()` of the temporary file over the log succeeds. -/
  rename : Bool
  /-- `open()` of the log after the rename succeeds. -/
  reopen : Bool

/-- The AOF fields of `g_data`, and the content of the file `redis.aof`. -/
structure Aof where
  /-- `g_data.aof_enabled`. -/
  enabled : Bool
  /-- `g_data.aof_fd >= 0`. -/
  fdOpen : Bool
  /-- `g_data.aof_last_save_ms`. -/
  lastSaveMs : Nat
  /-- `g_data.aof_buf`. -/
  buf : Buffer
  /-- `g_data.aof_rewriting`. -/
  rewriting : Bool
  /-- The content of `redis.aof`, which `aof_fd` appends to. -/
  file : List UInt8

/-- `aof_flush_and_sync()`: one `write()` of the contiguous span at the head of `aof_buf`,
`consume` of what it took, and an `fsync` when more than a second passed since the last one.
Also returns the bytes `write()` took; `none` when the span is read out of bounds. -/
def flushAndSync (env : Env) (a : Aof) : Option (Aof × List UInt8) :=
  if !a.enabled || a.buf.empty || !a.fdOpen then some (a, [])
  else
    let (data, dataSize) := a.buf.getContinuousData 0
    match env.write dataSize with
    | none => some (a, [])
    | some r => do
      let rv := min r dataSize
      let bytes ← memcpyFrom a.buf.capacity a.buf.data (data.getD 0) rv
      let lastSaveMs := if subT env.now a.lastSaveMs > 1000 then env.now else a.lastSaveMs
      pure ({ a with buf := a.buf.consume rv, file := a.file ++ bytes, lastSaveMs }, bytes)

/-! ## `bgrewriteaof` -/

/-- A fresh `Buffer` that `aof_write_command` filled with `cmds`, then the `write()` of its
`get_continuous_data(0)` span to the temporary file when the span is not empty. -/
def bufferedFrames (cmds : List Cmd) : Option (List UInt8) := do
  let buf ← cmds.foldlM aofWriteCommand (Buffer.new 1024)
  let (data, dataSize) := buf.getContinuousData 0
  match data with
  | some p => if dataSize > 0 then memcpyFrom buf.capacity buf.data p dataSize else some []
  | none => some []

/-- The `pexpire` a rewrite writes after an entry with a TTL, from `int64_t ttl =
g_data.heap[ent->heap_idx].val - get_monotonic_msec()` when `ttl > 0`; `none` when
`heap_idx` is out of range. -/
def rewriteTtlCmds (db : Db) (now : Nat) (e : Entry) : Option (List Cmd) :=
  match e.heapIdx with
  | none => some []
  | some i => db.heap[i]?.map fun it =>
    let ttl := toInt64 (subT it.val now)
    if ttl > 0 then [[ascii "pexpire", e.key, toStringI64 ttl]] else []

/-- `aof_rewrite_entry(ent, fd)`: the bytes written for one entry. A string is a `set` and
its `pexpire` from one buffer; a sorted set is a `zadd` per member with a non-empty name,
each from its own buffer, then its `pexpire`. Members are visited in the order of
`ZSet.members` (`hm_foreach` of `zset.h` is modelled from the spec). -/
def aofRewriteEntry (db : Db) (now : Nat) (e : Entry) : Option (List UInt8) :=
  match e.type with
  | .str => do
    let ttl ← rewriteTtlCmds db now e
    bufferedFrames ([ascii "set", e.key, e.str] :: ttl)
  | .zset => do
    let adds ← (e.zset.members.filter fun n => !n.name.isEmpty).mapM fun n =>
      bufferedFrames [[ascii "zadd", e.key, toStringDbl n.score, n.name]]
    let ttl ← rewriteTtlCmds db now e
    let t ← bufferedFrames ttl
    pure (adds.flatten ++ t)
  | .init => some []

/-- `aof_rewrite_do()`: the content of the temporary file, every entry of the table in the
table's order (`hm_foreach`, modelled from the spec). -/
def aofRewriteDo (db : Db) (now : Nat) : Option (List UInt8) :=
  (db.table.mapM fun a => aofRewriteEntry db now (db.ent a)).map List.flatten

/-- `aof_rewrite_finish()` once the temporary file holds `tmp`: flush `aof_buf` to the old
log, rename the temporary file over it, and reopen `aof_fd` on the new file, disabling the
AOF when that fails. Also returns the bytes `write()` took. -/
def aofRewriteFinish (env : Env) (a : Aof) (tmp : List UInt8) : Option (Aof × List UInt8) := do
  let (a, w) ← flushAndSync env a
  if !env.rename then pure ({ a with rewriting := false }, w)
  else if env.reopen then pure ({ a with file := tmp, fdOpen := true, rewriting := false }, w)
  else pure ({ a with file := tmp, fdOpen := false, enabled := false, rewriting := false }, w)

/-- `aof_rewrite()`; the `Bool` is `rv == 0`. -/
def aofRewrite (env : Env) (db : Db) (a : Aof) : Option (Aof × List UInt8 × Bool) :=
  if a.rewriting then some (a, [], false)
  else if !env.tmpOpen then some (a, [], false)
  else do
    let tmp ← aofRewriteDo db env.now
    let (a, w) ← aofRewriteFinish env { a with rewriting := true } tmp
    pure (a, w, true)

/-- `do_aof_rewrite(cmd, out)`: the new state, the reply, and the bytes `write()` took on
`aof_fd`. -/
def doAofRewrite (env : Env) (db : Db) (a : Aof) : Option (Aof × List Out × List UInt8) :=
  if !a.enabled then some (a, [.err errBadArg (ascii "AOF is not enabled")], [])
  else if a.rewriting then
    some (a, [.err errBadArg (ascii "AOF rewrite already in progress")], [])
  else do
    let (a, w, ok) ← aofRewrite env db a
    pure (a, if ok then [.int 1] else [.err errUnknown (ascii "AOF rewrite failed")], w)

/-! ## The flush -/

/-- A flush hands the first `k` bytes of `aof_buf`'s content to `write()`, appends them to the
file and keeps the rest; `k` is the whole span `get_continuous_data(0)` reports when the AOF
is on and `write()` takes all it is offered. The flags are left alone. -/
theorem flushAndSync_spec (env : Env) {a : Aof} (h : a.buf.Inv) :
    ∃ a' k, flushAndSync env a = some (a', a.buf.content.take k) ∧ a'.buf.Inv ∧
      a'.buf.content = a.buf.content.drop k ∧ a'.file = a.file ++ a.buf.content.take k ∧
      a'.enabled = a.enabled ∧ a'.fdOpen = a.fdOpen ∧ a'.rewriting = a.rewriting ∧
      (a.enabled → a.fdOpen → (∀ n, env.write n = some n) →
        k = (a.buf.getContinuousData 0).2) := by
  unfold flushAndSync
  by_cases hc : (!a.enabled || a.buf.empty || !a.fdOpen) = true
  · refine ⟨a, 0, by rw [if_pos hc]; rfl, h, rfl, by simp, rfl, rfl, rfl, fun hen hfd _ => ?_⟩
    have hs : a.buf.size = 0 := by simpa [hen, hfd, Buffer.empty] using hc
    simp [Buffer.getContinuousData, hs]
  · have hs : 0 < a.buf.size := Nat.pos_of_ne_zero fun h0 => hc (by simp [Buffer.empty, h0])
    obtain ⟨n, hd, -, hn, hcap, -⟩ := Buffer.getContinuousData_zero h hs
    rw [if_neg hc, hd]
    dsimp only
    cases hw : env.write n with
    | none =>
      exact ⟨a, 0, rfl, h, rfl, by simp, rfl, rfl, rfl, fun _ _ hfull => by simp [hfull] at hw⟩
    | some r =>
      obtain ⟨hinv, hcont⟩ := Buffer.consume_spec h (n := min r n) (by omega)
      dsimp only
      rw [Option.getD_some, Buffer.memcpyFrom_head (by omega) (by omega)]
      refine ⟨_, min r n, rfl, hinv, hcont, rfl, rfl, rfl, rfl, fun _ _ hfull => ?_⟩
      rw [hfull, Option.some.injEq] at hw
      omega

/-! ## The rewrite reads within bounds -/

/-- `aof_write_command` for each of `cmds`, none of them empty, appends their bodies. -/
theorem foldlM_aofWriteCommand {cmds : List Cmd} (hne : ∀ c ∈ cmds, c ≠ []) {buf : Buffer}
    (h : buf.Inv) : ∃ buf', cmds.foldlM aofWriteCommand buf = some buf' ∧ buf'.Inv ∧
      buf'.content = buf.content ++ cmds.flatMap reqBody := by
  induction cmds generalizing buf with
  | nil => exact ⟨buf, rfl, h, by simp⟩
  | cons c cs ih =>
    obtain ⟨b₁, h₁, hi₁, hc₁⟩ := aofWriteCommand_spec h (hne c (List.mem_cons_self _ _))
    obtain ⟨b₂, h₂, hi₂, hc₂⟩ := ih (fun c hc => hne c (List.mem_cons_of_mem _ hc)) hi₁
    exact ⟨b₂, by rw [List.foldlM_cons, h₁]; exact h₂, hi₂, by simp [hc₂, hc₁]⟩

/-- The bytes a rewrite writes from one buffer start the bodies of its commands. -/
theorem bufferedFrames_spec {cmds : List Cmd} (hne : ∀ c ∈ cmds, c ≠ []) :
    ∃ w, bufferedFrames cmds = some w ∧ w <+: cmds.flatMap reqBody := by
  obtain ⟨b, hb, hi, hc⟩ := foldlM_aofWriteCommand hne (Buffer.new_inv (c := 1024) (by decide))
  rw [Buffer.content_new, List.nil_append] at hc
  unfold bufferedFrames
  rw [hb, Option.bind_eq_bind, Option.some_bind]
  rcases Nat.eq_zero_or_pos b.size with hs | hs
  · exact ⟨[], by simp [Buffer.getContinuousData, hs], List.nil_prefix⟩
  · obtain ⟨n, hd, -, hn, hcap, -⟩ := Buffer.getContinuousData_zero hi hs
    rw [hd]
    dsimp only
    split
    · rw [Buffer.memcpyFrom_head hn hcap, ← hc]
      exact ⟨_, rfl, List.take_prefix _ _⟩
    · exact ⟨[], rfl, List.nil_prefix⟩

/-- An `Option` map over a list is defined when it is at every element. -/
theorem mapM_isSome {α β : Type} {f : α → Option β} :
    ∀ {l : List α}, (∀ x ∈ l, (f x).isSome) → (l.mapM f).isSome
  | [], _ => rfl
  | x :: l, h => by
    obtain ⟨y, hy⟩ := Option.isSome_iff_exists.mp (h x (List.mem_cons_self _ _))
    obtain ⟨ys, hys⟩ := Option.isSome_iff_exists.mp
      (mapM_isSome fun z hz => h z (List.mem_cons_of_mem _ hz))
    rw [List.mapM_cons, hy, hys]
    rfl

/-- The `pexpire` of an entry of the table reads a slot of the heap. -/
theorem rewriteTtlCmds_spec {db : Db} (hw : db.WF) {a : Nat} (ha : a ∈ db.table) (now : Nat) :
    ∃ cs, rewriteTtlCmds db now (db.ent a) = some cs ∧ ∀ c ∈ cs, c ≠ [] := by
  obtain ⟨e, he⟩ := Option.isSome_iff_exists.mp (hw.table_live a ha)
  unfold rewriteTtlCmds
  rw [Db.ent_eq he, hw.sync a e he]
  cases hs : slotOf db.heap a with
  | none => exact ⟨[], rfl, by simp⟩
  | some i =>
    obtain ⟨it, hit, -⟩ := (slotOf_eq_some_iff hw.refs_nodup).mp hs
    dsimp only
    rw [hit]
    refine ⟨_, rfl, ?_⟩
    dsimp only
    split <;> simp

/-- The rewrite of an entry of the table is defined. -/
theorem aofRewriteEntry_isSome {db : Db} (hw : db.WF) {a : Nat} (ha : a ∈ db.table)
    (now : Nat) : (aofRewriteEntry db now (db.ent a)).isSome := by
  obtain ⟨cs, hcs, hne⟩ := rewriteTtlCmds_spec hw ha now
  unfold aofRewriteEntry
  split
  · obtain ⟨w, hw, -⟩ := @bufferedFrames_spec ([ascii "set", (db.ent a).key,
      (db.ent a).str] :: cs) (by simpa using hne)
    simp [hcs, hw]
  · have hadd : ∀ n : ZNode, (bufferedFrames [[ascii "zadd", (db.ent a).key,
        toStringDbl n.score, n.name]]).isSome := fun n => by
      obtain ⟨w, hw, -⟩ := @bufferedFrames_spec [[ascii "zadd", (db.ent a).key,
        toStringDbl n.score, n.name]] (by simp)
      simp [hw]
    obtain ⟨adds, hadds⟩ := Option.isSome_iff_exists.mp (mapM_isSome
      (l := (db.ent a).zset.members.filter fun n => !n.name.isEmpty) fun n _ => hadd n)
    obtain ⟨t, ht, -⟩ := bufferedFrames_spec hne
    simp only [Option.bind_eq_bind, hadds, Option.some_bind, hcs, ht]
    rfl
  · rfl

/-- `aof_rewrite_do` on a store that keeps `Db.WF` is defined. -/
theorem aofRewriteDo_isSome {db : Db} (hw : db.WF) (now : Nat) :
    (aofRewriteDo db now).isSome := by
  unfold aofRewriteDo
  rw [Option.isSome_map']
  exact mapM_isSome fun a ha => aofRewriteEntry_isSome hw ha now

/-! ## `bgrewriteaof` and the log -/

/-- The end of a rewrite writes to `aof_fd` only by its flush, and leaves `aof_fd` open while
the AOF is on. -/
theorem aofRewriteFinish_spec (env : Env) {a : Aof} (h : a.buf.Inv) (tmp : List UInt8) :
    ∃ a' w, aofRewriteFinish env a tmp = some (a', w) ∧ a'.buf.Inv ∧
      w ++ a'.buf.content = a.buf.content ∧
      ((a.enabled → a.fdOpen) → a'.enabled → a'.fdOpen) := by
  obtain ⟨a₁, k, hf, hi, hc, -, hen, hfd, -⟩ := flushAndSync_spec env h
  have hw : a.buf.content.take k ++ a₁.buf.content = a.buf.content := by
    rw [hc, List.take_append_drop]
  have hfl : (a.enabled → a.fdOpen) → a₁.enabled → a₁.fdOpen := by
    rw [hen, hfd]
    exact id
  unfold aofRewriteFinish
  rw [hf, Option.bind_eq_bind, Option.some_bind]
  dsimp only
  split_ifs
  · exact ⟨_, _, rfl, hi, hw, hfl⟩
  · exact ⟨_, _, rfl, hi, hw, fun _ _ => rfl⟩
  · exact ⟨_, _, rfl, hi, hw, fun _ h => Bool.false_ne_true h |>.elim⟩

/-- `bgrewriteaof` on a store that keeps `Db.WF` is defined, and writes to `aof_fd` only by the
flush at its end: what `write()` took, then the log buffer, is the log buffer before. It
leaves `aof_fd` open while the AOF is on. -/
theorem doAofRewrite_spec (env : Env) {db : Db} (hwf : db.WF) {a : Aof} (h : a.buf.Inv) :
    ∃ a' outs w, doAofRewrite env db a = some (a', outs, w) ∧ a'.buf.Inv ∧
      w ++ a'.buf.content = a.buf.content ∧
      ((a.enabled → a.fdOpen) → a'.enabled → a'.fdOpen) := by
  obtain ⟨tmp, htmp⟩ := Option.isSome_iff_exists.mp (aofRewriteDo_isSome hwf env.now)
  obtain ⟨a', w, hfin, hi, hw, hfl⟩ :=
    aofRewriteFinish_spec env (a := { a with rewriting := true }) h tmp
  unfold doAofRewrite
  by_cases hen : a.enabled = true
  swap
  · rw [if_pos (by simpa using hen)]
    exact ⟨_, _, _, rfl, h, rfl, id⟩
  rw [if_neg (by simp [hen])]
  by_cases hrw : a.rewriting = true
  · rw [if_pos hrw]
    exact ⟨_, _, _, rfl, h, rfl, id⟩
  rw [if_neg hrw]
  unfold aofRewrite
  rw [if_neg hrw]
  by_cases hop : env.tmpOpen = true
  · rw [if_neg (by simp [hop])]
    simp only [Option.bind_eq_bind, Option.pure_def, htmp, Option.some_bind, hfin]
    exact ⟨_, _, _, rfl, hi, hw, hfl⟩
  · rw [if_pos (by simpa using hop)]
    exact ⟨_, _, _, rfl, h, rfl, id⟩

/-- With the AOF off, `bgrewriteaof` replies with an error and changes nothing. -/
theorem doAofRewrite_disabled (env : Env) (db : Db) {a : Aof} (hen : a.enabled = false) :
    doAofRewrite env db a = some (a, [.err errBadArg (ascii "AOF is not enabled")], []) := by
  simp [doAofRewrite, hen]

/-- `bgrewriteaof` replies with one call. -/
theorem doAofRewrite_shaped {env : Env} {db : Db} {a a' : Aof} {outs : List Out}
    {w : List UInt8} (h : doAofRewrite env db a = some (a', outs, w)) : Out.Shaped outs := by
  unfold doAofRewrite at h
  split_ifs at h
  · cases h; exact Out.shaped_singleton rfl
  · cases h; exact Out.shaped_singleton rfl
  · obtain ⟨⟨a₁, w₁, ok⟩, -, h⟩ := Option.bind_eq_some.mp h
    cases h
    split <;> exact Out.shaped_singleton rfl

end KvServer
