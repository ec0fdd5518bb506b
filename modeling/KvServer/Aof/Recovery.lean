import KvServer.Aof.Replay
import KvServer.Store.Expire

/-!
# What a restart recovers from the log

The log is replayed into an empty store at the next start, so it should rebuild the store the
server had. This module follows that through three ways the log and the store part.

* A kill can cut the last record. When nothing follows it, `load_aof_file` reads what is whole
  of it, a command with fewer strings than a mutating one, which is unknown and changes
  nothing. When the restarted server appends frames behind the cut record, the reader of the
  cut record goes on into them.
* The TTL pass of `process_timers` deletes keys without logging anything.
* `aof_rewrite_do` writes a `zadd` per member with a non-empty name, from `std::to_string` of
  the score, and nothing for a sorted set without members.

Results:
1. `route_of_shorter`, `loadStrs_take`, `loadLoop_torn`: the cut record at the end of the log.
2. `load_aof_ignores_torn_tail`: the replay of a log whose last record is cut.
3. `torn_record_swallows_next_frame`: frames appended behind a cut record are misread.
4. `timer_deletion_not_logged`: a key the TTL pass deleted comes back at the next start.
5. `aof_rewrite_replay_loses_sets`: sorted sets the rewritten log loses or changes.
-/

namespace KvServer

open Function

/-! ## Commands of a cut record -/

/-- One test of the chain of `route`. -/
theorem logged_ite {b : Bool} {r x : Route} (h : (if b = true then r else x).logged) :
    b ∧ r.logged ∨ x.logged := by
  cases b
  · exact .inr h
  · exact .inl ⟨rfl, h⟩

theorem route_logged_cases {c : Cmd} (hc : (route c).logged) :
    c.length = 3 ∧ arg c 0 = ascii "set" ∨ c.length = 2 ∧ arg c 0 = ascii "del" ∨
    c.length = 3 ∧ arg c 0 = ascii "pexpire" ∨ c.length = 4 ∧ arg c 0 = ascii "zadd" ∨
    c.length = 3 ∧ arg c 0 = ascii "zrem" := by
  unfold route at hc
  dsimp only at hc
  have hand : ∀ {n : Nat} {a : List UInt8}, (c.length == n && arg c 0 == a) = true →
      c.length = n ∧ arg c 0 = a := by
    intro n a h
    simpa only [Bool.and_eq_true, beq_iff_eq] using h
  rcases logged_ite hc with ⟨-, h⟩ | hc
  · exact absurd h (by decide)
  rcases logged_ite hc with ⟨h, -⟩ | hc
  · exact .inl (hand h)
  rcases logged_ite hc with ⟨h, -⟩ | hc
  · exact .inr (.inl (hand h))
  rcases logged_ite hc with ⟨h, -⟩ | hc
  · exact .inr (.inr (.inl (hand h)))
  rcases logged_ite hc with ⟨-, h⟩ | hc
  · exact absurd h (by decide)
  rcases logged_ite hc with ⟨-, h⟩ | hc
  · exact absurd h (by decide)
  rcases logged_ite hc with ⟨h, -⟩ | hc
  · exact .inr (.inr (.inr (.inl (hand h))))
  rcases logged_ite hc with ⟨h, -⟩ | hc
  · exact .inr (.inr (.inr (.inr (hand h))))
  rcases logged_ite hc with ⟨-, h⟩ | hc
  · exact absurd h (by decide)
  rcases logged_ite hc with ⟨-, h⟩ | hc
  · exact absurd h (by decide)
  rcases logged_ite hc with ⟨-, h⟩ | h <;> exact absurd h (by decide)

/-- A command with the name of a mutating command and fewer strings is unknown: each of those
names has one arity. -/
theorem route_of_shorter {p c : Cmd} (hc : (route c).logged) (hp : p <+: c)
    (hl : p.length < c.length) : route p = .unknown := by
  rcases p with _ | ⟨x, p⟩
  · rfl
  obtain ⟨t, rfl⟩ := hp
  rw [route_congr (p := x :: p) (q := x :: List.replicate p.length []) (by simp) rfl]
  simp only [List.length_cons] at hl
  generalize p.length = n at hl
  rcases route_logged_cases hc with ⟨hn, ha⟩ | ⟨hn, ha⟩ | ⟨hn, ha⟩ | ⟨hn, ha⟩ | ⟨hn, ha⟩ <;>
    simp only [arg, List.cons_append, List.getD_cons_zero] at ha <;>
    rw [ha] <;> rw [hn] at hl <;> rcases n with _ | _ | _ | n <;> first | rfl | omega


/-- A command of a branch that logs nothing does not change the store. -/
theorem exec_unknown (H : HeapUpdate) (now : Nat) (db : Db) {cmd : Cmd}
    (hr : route cmd = .unknown) : (exec H now db cmd).1 = db := by
  unfold exec
  rw [hr]

/-! ## The replay of a cut record -/

/-- Cut inside the strings of a command, the reader of `load_aof_file` returns the strings
that are whole before the cut, fewer than the command's, and nothing of the file is left. -/
theorem loadStrs_take (cmd : Cmd) (hlen : ∀ s ∈ cmd, s.length < 2 ^ 32) {n : Nat}
    (hn : n < (strsBytes cmd).length) :
    ∃ p, p <+: cmd ∧ p.length < cmd.length ∧
      loadStrs cmd.length ((strsBytes cmd).take n) = (p, []) := by
  induction cmd generalizing n with
  | nil => simp [strsBytes] at hn
  | cons s cmd ih =>
    have hs := u32Len_toNat (hlen s (List.mem_cons_self s cmd))
    simp only [strsBytes, u32Len, List.append_assoc, List.length_append, u32Bytes_length] at hn ⊢
    by_cases h4 : n < 4
    · refine ⟨[], List.nil_prefix, by simp, ?_⟩
      have ht : (u32Bytes (UInt32.ofNat s.length) ++ (s ++ strsBytes cmd)).take n =
          (u32Bytes (UInt32.ofNat s.length)).take n :=
        List.take_append_of_le_length (by simp; omega)
      simp [loadStrs, readU32, ht, h4]
    rw [List.take_append_eq_append_take, List.take_of_length_le (by simp; omega)]
    simp only [List.length_cons, loadStrs, readU32_append, u32Bytes_length, hs]
    by_cases hm : n - 4 < s.length
    · refine ⟨[], List.nil_prefix, by simp, ?_⟩
      have ht : (s ++ strsBytes cmd).take (n - 4) = s.take (n - 4) :=
        List.take_append_of_le_length hm.le
      simp [readStr, ht, hm]
    rw [List.take_append_eq_append_take, List.take_of_length_le (by omega), readStr_append]
    obtain ⟨p, hp, hpl, hr⟩ := ih (fun t ht => hlen t (List.mem_cons_of_mem s ht))
      (n := n - 4 - s.length) (by omega)
    refine ⟨s :: p, List.cons_prefix_cons.mpr ⟨rfl, hp⟩, by simpa using hpl, ?_⟩
    simp only [hr]

/-- The last record of the log cut after `n` bytes: the loop reads what is whole of it, hands
`do_request` a command with fewer strings than the record's, which is unknown and changes
nothing, and stops at the end of the file. -/
theorem loadLoop_torn (H : HeapUpdate) (env : Nat → Env) {c : Cmd} (hc : (route c).logged)
    (hlen : ∀ x ∈ c, x.length < 2 ^ 32) {n : Nat} (hn : n < (reqBody c).length) :
    ∀ (fuel i : Nat) {s : Server}, s.aof.enabled = false →
      ∃ calls, loadLoop H env fuel i s ((reqBody c).take n) = some (s, calls)
  | 0, _, _, _ => ⟨[], rfl⟩
  | fuel + 1, i, s, hen => by
    have hc4 : c.length ≤ 4 := by
      rcases route_logged_cases hc with ⟨h, -⟩ | ⟨h, -⟩ | ⟨h, -⟩ | ⟨h, -⟩ | ⟨h, -⟩ <;> omega
    unfold reqBody at hn ⊢
    simp only [u32Len, List.length_append, u32Bytes_length] at hn ⊢
    by_cases h4 : n < 4
    · have ht : (u32Bytes (UInt32.ofNat c.length) ++ strsBytes c).take n =
          (u32Bytes (UInt32.ofNat c.length)).take n :=
        List.take_append_of_le_length (by simp; omega)
      exact ⟨[], by simp [loadLoop, readU32, ht, h4]⟩
    rw [List.take_append_eq_append_take, List.take_of_length_le (by simp; omega)]
    obtain ⟨p, hp, hpl, hr⟩ := loadStrs_take c hlen (n := n - 4) (by omega)
    obtain ⟨outs, hd⟩ := doRequest_disabled H (env i) hen p
    rw [exec_unknown H _ _ (route_of_shorter hc hp hpl)] at hd
    refine ⟨[(false, p)], ?_⟩
    simp only [loadLoop, readU32_append, u32Bytes_length, u32Len_toNat (by omega : c.length < 2 ^ 32),
      if_neg (show ¬c.length > kMaxArgs by unfold kMaxArgs; omega), hr, hd, Option.bind_eq_bind,
      Option.some_bind, loadLoop_nil, hen]
    rfl

/-- `load_aof_file` on a log whose last record was cut by a kill: the frames of `L`, then the
first `n` bytes of the frame of a mutating command `c`, fewer than the whole frame. The replay
ends with the store `exec` of `L` in turn gives and the AOF back on: the cut record changes
nothing. -/
theorem load_aof_ignores_torn_tail (H : HeapUpdate) (env : Nat → Env) {s : Server}
    (hen : s.aof.enabled) {L : List Cmd}
    (hL : ∀ c ∈ L, c.length ≤ kMaxArgs ∧ ∀ x ∈ c, x.length < 2 ^ 32) {c : Cmd}
    (hc : (route c).logged) (hlen : ∀ x ∈ c, x.length < 2 ^ 32) {n : Nat}
    (hn : n < (reqBody c).length)
    (hfile : s.aof.file = L.flatMap reqBody ++ (reqBody c).take n) :
    ∃ calls, loadAofFile H env true s = some (⟨execAll H env 0 s.db L, s.aof⟩, calls) := by
  have hf : L.length ≤ s.aof.file.length + 1 := by
    rw [hfile, List.length_append]
    have := length_le_frames L
    omega
  obtain ⟨calls, ht⟩ := loadLoop_torn H env hc hlen hn (s.aof.file.length + 1 - L.length)
    (0 + L.length) (s := ⟨execAll H env 0 s.db L, { s.aof with enabled := false }⟩) rfl
  have ha : ({ s.aof with enabled := true } : Aof) = s.aof := by rw [← hen]
  refine ⟨L.map (fun c => (false, c)) ++ calls, ?_⟩
  unfold loadAofFile
  rw [if_neg (by simp [hen])]
  dsimp only
  rw [if_neg (by decide), hfile, loadLoop_frames_append H env hL _ (hfile ▸ hf) rfl]
  simp only [← hfile, ht, Option.map_some', Option.bind_eq_bind, Option.some_bind,
    Option.pure_def, ha]

/-- A log holding `set k v` and the first ten bytes of the frame of `set a b`. -/
theorem load_aof_ignores_torn_tail_set :
    ∃ calls, loadAofFile HeapUpdate.sorted (fun _ => ⟨0, some, true, true, true⟩) true
        (Server.init (reqBody [ascii "set", ascii "k", ascii "v"] ++
          (reqBody [ascii "set", ascii "a", ascii "b"]).take 10)) =
      some (⟨execAll HeapUpdate.sorted (fun _ => ⟨0, some, true, true, true⟩) 0 Db.empty
          [[ascii "set", ascii "k", ascii "v"]],
        (Server.init (reqBody [ascii "set", ascii "k", ascii "v"] ++
          (reqBody [ascii "set", ascii "a", ascii "b"]).take 10)).aof⟩, calls) :=
  load_aof_ignores_torn_tail HeapUpdate.sorted _ (s := Server.init _) rfl
    (L := [[ascii "set", ascii "k", ascii "v"]]) (by decide) (c := [ascii "set", ascii "a", ascii "b"])
    (by decide) (by decide) (by decide) rfl

/-- After a kill that cut the record of `set k v` after its string count, the restarted server
logs `set a b` behind it. At the next start the replay reads the count 3 of the cut record and
takes the frame of `set a b` for its strings: `a` is missing from the replayed store, which
`exec` of the whole log but the cut record has. -/
theorem torn_record_swallows_next_frame (H : HeapUpdate) :
    ∃ s₀ s₁ outs w s₂,
      aofInit H (fun _ => ⟨0, some, true, true, true⟩) true true
        (Server.init ((reqBody [ascii "set", ascii "k", ascii "v"]).take 4)) = some s₀ ∧
      doRequest H ⟨0, some, true, true, true⟩ s₀ [ascii "set", ascii "a", ascii "b"] =
        some (s₁, outs, w) ∧
      s₁.aof.file = (reqBody [ascii "set", ascii "k", ascii "v"]).take 4 ++
        reqBody [ascii "set", ascii "a", ascii "b"] ∧
      aofInit H (fun _ => ⟨0, some, true, true, true⟩) true true (Server.init s₁.aof.file) =
        some s₂ ∧
      (execAll H (fun _ => ⟨0, some, true, true, true⟩) 0 Db.empty
        [[ascii "set", ascii "a", ascii "b"]]).abs (ascii "a") = some (.str (ascii "b"), none) ∧
      s₂.db.abs (ascii "a") = none := by
  have h₀ : aofInit H (fun _ => ⟨0, some, true, true, true⟩) true true
      (Server.init ((reqBody [ascii "set", ascii "k", ascii "v"]).take 4)) =
      some ⟨Db.empty, ⟨true, true, 0, Buffer.new 1024, false,
        (reqBody [ascii "set", ascii "k", ascii "v"]).take 4⟩⟩ := rfl
  have h : ((doRequest H ⟨0, some, true, true, true⟩ ⟨Db.empty, ⟨true, true, 0, Buffer.new 1024,
      false, (reqBody [ascii "set", ascii "k", ascii "v"]).take 4⟩⟩
      [ascii "set", ascii "a", ascii "b"]).bind fun r =>
        (aofInit H (fun _ => ⟨0, some, true, true, true⟩) true true (Server.init r.1.aof.file)).map
          fun s₂ => (r.1.aof.file, s₂.db.abs (ascii "a"))) =
      some ((reqBody [ascii "set", ascii "k", ascii "v"]).take 4 ++
        reqBody [ascii "set", ascii "a", ascii "b"], none) := rfl
  obtain ⟨⟨s₁, outs, w⟩, h₁, hm⟩ := Option.bind_eq_some.mp h
  obtain ⟨s₂, h₂, he⟩ := Option.map_eq_some'.mp hm
  obtain ⟨hf, ha⟩ := Prod.mk.inj he
  exact ⟨_, s₁, outs, w, s₂, h₀, h₁, hf, h₂, rfl, ha⟩

/-- From start-up on an empty log, with a `write()` that takes everything: `set k v` and
`pexpire k 0` at clock reading 0 are logged and reach the file, and the TTL pass of
`process_timers` at 1 deletes `k` and logs nothing. `aof_buf` is empty, yet the replay of the
file at the next start has `k` with its deadline 0, which the live store no longer has. -/
theorem timer_deletion_not_logged (H : HeapUpdate) :
    ∃ s₀ s' L W s₂,
      aofInit H (fun _ => ⟨0, some, true, true, true⟩) true true (Server.init []) = some s₀ ∧
      s₀.Run H L W s' ∧ s'.aof.buf.empty ∧ s'.db.abs (ascii "k") = none ∧
      aofInit H (fun _ => ⟨0, some, true, true, true⟩) true true (Server.init s'.aof.file) =
        some s₂ ∧
      s₂.db.abs (ascii "k") = some (.str (ascii "v"), some 0) := by
  have h₀ : aofInit H (fun _ => ⟨0, some, true, true, true⟩) true true (Server.init []) =
      some ⟨Db.empty, ⟨true, true, 0, Buffer.new 1024, false, []⟩⟩ := rfl
  -- the log part of the two requests does not depend on the store
  have hv : ((doRequest H ⟨0, some, true, true, true⟩
      ⟨Db.empty, ⟨true, true, 0, Buffer.new 1024, false, []⟩⟩ [ascii "set", ascii "k", ascii "v"]).bind
        fun r₁ => (doRequest H ⟨0, some, true, true, true⟩ r₁.1
          [ascii "pexpire", ascii "k", ascii "0"]).map fun r₂ => (r₂.1.aof.file, r₂.1.aof.buf.empty)) =
      some ([[ascii "set", ascii "k", ascii "v"], [ascii "pexpire", ascii "k", ascii "0"]].flatMap reqBody,
        true) := rfl
  obtain ⟨⟨s₁, o₁, w₁⟩, h₁, hm⟩ := Option.bind_eq_some.mp hv
  obtain ⟨⟨s₂, o₂, w₂⟩, h₂, hf⟩ := Option.map_eq_some'.mp hm
  obtain ⟨hfile, hbuf⟩ := Prod.mk.inj hf
  -- the store part, through the specification of the handlers
  have hi₁ := Server.Inv.request ⟨Db.WF.empty, Buffer.new_inv (by decide), fun _ => rfl⟩ h₁
  have hd₁ := doRequest_db Db.WF.empty (Buffer.new_inv (by decide)) h₁
  have hd₂ := doRequest_db hi₁.db hi₁.buf h₂
  have hA₂ : s₂.db.abs = update Db.empty.abs (ascii "k") (some (.str (ascii "v"), some 0)) := by
    rw [hd₂, hd₁]
    exact abs_set_pexpire H Db.WF.empty rfl (t := ascii "0") (n := 0) rfl
  -- the TTL pass at 1 deletes `k`
  obtain ⟨db₃, D, hp, -, hs, hlen, hall⟩ := @expireLoop_sweep H 1 (kMaxWorks + 1) 0 s₂.db
    (Server.Inv.request hi₁ h₂).db (Nat.zero_le _)
  simp only [Nat.sub_zero, min_self] at hlen hall
  have hk₃ : db₃.abs (ascii "k") = none := by
    by_cases hk : ascii "k" ∈ D
    · simp [hs.removed, hk]
    have hD : D = [] := List.eq_nil_iff_forall_not_mem.mpr fun x hx => by
      obtain ⟨v, d, hx', -⟩ := hs.expired x hx
      by_cases hxk : x = ascii "k"
      · exact hk (hxk ▸ hx)
      · rw [hA₂, update_noteq hxk] at hx'
        cases hx'
    have h' := hs.removed (ascii "k")
    rw [if_neg hk, hA₂, update_same] at h'
    exact absurd (hall (by simp [hD]) _ _ _ h') (by decide)
  have ht : s₂.processTtl H 1 = some { s₂ with db := db₃ } := by
    rw [Server.processTtl, Db.processTtl, hp]
    rfl
  -- the replay of the file
  have hr := aofInit_frames H (fun _ => ⟨0, some, true, true, true⟩)
    (L := [[ascii "set", ascii "k", ascii "v"], [ascii "pexpire", ascii "k", ascii "0"]]) (by decide)
  rw [← hfile] at hr
  refine ⟨_, { s₂ with db := db₃ }, _, _, _, h₀, .request h₁ (.request h₂ (.timers ht (.nil _))),
    hbuf, hk₃, hr, ?_⟩
  show (exec H 0 (exec H 0 Db.empty [ascii "set", ascii "k", ascii "v"]).1
    [ascii "pexpire", ascii "k", ascii "0"]).1.abs (ascii "k") = _
  rw [abs_set_pexpire H Db.WF.empty rfl (t := ascii "0") (n := 0) rfl, update_same]

/-! ## The rewritten log -/

/-- Three sorted sets that the rewritten log loses or changes, made by `zadd`s and a `zrem` at
clock reading 0: `a` is left without members by `zrem`, and no `zadd` is written for it; the
only member of `b` has an empty name, which `aof_rewrite_entry` skips; the score `1e-7` of `c` is
written `0.000000` by `std::to_string`. Replaying the rewritten file, `a` and `b` are missing
and `zscore c m` replies `0` instead of `1e-7`. -/
theorem aof_rewrite_replay_loses_sets (H : HeapUpdate) :
    ∃ db tmp s, db.Reachable H ∧ aofRewriteDo db 0 = some tmp ∧
      aofInit H (fun _ => ⟨0, some, true, true, true⟩) true true (Server.init tmp) = some s ∧
      (db.abs (ascii "a")).isSome ∧ s.db.abs (ascii "a") = none ∧
      (db.abs (ascii "b")).isSome ∧ s.db.abs (ascii "b") = none ∧
      (exec H 0 db [ascii "zscore", ascii "c", ascii "m"]).2 = [.dbl ⟨0x3E7AD7F29ABCAF48⟩] ∧
      (exec H 0 s.db [ascii "zscore", ascii "c", ascii "m"]).2 = [.dbl ⟨0⟩] := by
  -- no command of the run reaches `heap_update`, so the stores are those of any other
  have hr := ((((Db.Reachable.empty (H := H)).exec 0 [ascii "zadd", ascii "a", ascii "1", ascii "x"]).exec
    0 [ascii "zrem", ascii "a", ascii "x"]).exec 0 [ascii "zadd", ascii "b", ascii "1", []]).exec
    0 [ascii "zadd", ascii "c", ascii "0.0000001", ascii "m"]
  simp (disch := decide) only [exec_congr_heap H HeapUpdate.sorted] at hr
  -- the rewrite writes one frame, `zadd c 0.000000 m`
  have ht : aofRewriteDo (exec HeapUpdate.sorted 0 (exec HeapUpdate.sorted 0
      (exec HeapUpdate.sorted 0 (exec HeapUpdate.sorted 0 Db.empty
        [ascii "zadd", ascii "a", ascii "1", ascii "x"]).1 [ascii "zrem", ascii "a", ascii "x"]).1
        [ascii "zadd", ascii "b", ascii "1", []]).1
        [ascii "zadd", ascii "c", ascii "0.0000001", ascii "m"]).1 0 =
      some ([[ascii "zadd", ascii "c", ascii "0.000000", ascii "m"]].flatMap reqBody) := by decide
  have hs := aofInit_frames H (fun _ => ⟨0, some, true, true, true⟩)
    (L := [[ascii "zadd", ascii "c", ascii "0.000000", ascii "m"]]) (by decide)
  have hz : ∀ db : Db, exec H 0 db [ascii "zscore", ascii "c", ascii "m"] =
      exec HeapUpdate.sorted 0 db [ascii "zscore", ascii "c", ascii "m"] := fun db =>
    exec_congr_heap H _ 0 db _ (by decide) (by decide)
  have hc : execAll H (fun _ => ⟨0, some, true, true, true⟩) 0 Db.empty
      [[ascii "zadd", ascii "c", ascii "0.000000", ascii "m"]] =
      (exec HeapUpdate.sorted 0 Db.empty [ascii "zadd", ascii "c", ascii "0.000000", ascii "m"]).1 :=
    congrArg Prod.fst (exec_congr_heap H _ 0 Db.empty _ (by decide) (by decide))
  refine ⟨_, _, _, hr, ht, hs, by decide, ?_, by decide, ?_, by rw [hz]; decide, ?_⟩ <;>
    simp only [hc, hz]
  · rfl
  · rfl
  · decide

end KvServer
