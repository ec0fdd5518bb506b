import KvServer.Server.Idle
import KvServer.Store.Expire
import KvServer.Aof.Replay

/-!
# The timeout of `poll()`

Before each `poll()`, `next_timer_ms` takes the nearer of two deadlines: the idle timer of the
connection at the front of the idle list, and `heap[0]`, the TTL deadline at the top of the
heap. Section 4.5 of the spec asks for the nearest deadline less `now`, clamped to 0, and -1
(wait forever) without timers: `Loop.specTimeout`.

The code takes the difference in `uint64_t`, converts it to `int32_t`, returns it as a
`uint32_t`, and `main` reads it back into an `int32_t`. Only the low 32 bits of the difference
survive, read in two's complement.

Results:
1. `poll_timeout_law`: in every reachable state, with both deadlines below `2^64 - 1`, the
   timeout `poll()` gets agrees with the spec's modulo `2^32`, and equals it when the spec's
   is below `2^31`.
2. `poll_timeout_negative`: after a start-up whose log gives a key a TTL of `2^31` ms, the first
   `poll()` gets the timeout `-2^31`, and a negative timeout waits forever.
-/

namespace KvServer

open Function

namespace Loop

/-- The deadlines of section 4.5 of the spec: the idle expiry of the connection at the front
of the idle list, `last_active_ms + k_idle_timeout_ms`, and the TTL deadline at the top of the
heap. -/
def expiries (l : Loop) : List Nat :=
  (l.idle.head?.bind fun a => (l.conns a).map fun x => x.lastActiveMs + kIdleTimeoutMs).toList ++
    (l.server.db.heap.head?.map (·.val)).toList

/-- The timeout of section 4.5 of the spec at clock reading `now`: the nearest deadline less
`now`, clamped to 0, and -1 without timers. -/
def specTimeout (l : Loop) (now : Nat) : Int :=
  match l.expiries.min? with
  | none => -1
  | some d => ((d - now : Nat) : Int)

/-- Past the test for no timer, `next_timer_ms` returns the deadline less `now`, clamped to
0, modulo `2^32`. -/
theorem timeout_of_next (next now : Nat) :
    (if next ≤ now then pure 0 else pure ((next - now) % 2 ^ 32) : Except Stop Nat) =
      .ok ((next - now) % 2 ^ 32) := by
  split
  · rename_i hn
    rw [Nat.sub_eq_zero_of_le hn]
    rfl
  · rfl

/-- `next_timer_ms` is defined on every state where the idle list holds live connections. With
both deadlines below `2^64 - 1` it returns `-1` without timers, and otherwise the low 32 bits
of the nearest deadline less `now`, clamped to 0. -/
theorem nextTimerMs_spec {l : Loop} (hl : l.Inv) (now : Nat)
    (hfit : ∀ d ∈ l.expiries, d < 2 ^ 64 - 1) :
    l.nextTimerMs now = .ok (match l.expiries.min? with
      | none => 2 ^ 32 - 1
      | some d => (d - now) % 2 ^ 32) := by
  unfold nextTimerMs
  rcases hidle : l.idle with _ | ⟨a, rest⟩
  · -- no idle connection: `heap[0]`, if any
    have he : l.expiries = (l.server.db.heap.head?.map (·.val)).toList := by
      simp [expiries, hidle]
    rw [he] at hfit ⊢
    rcases hheap : l.server.db.heap with _ | ⟨top, tail⟩
    · rfl
    · have ht : top.val < 2 ^ 64 - 1 := hfit top.val (by simp [hheap])
      simp only [pure_bind, if_pos ht, if_neg (Nat.ne_of_lt ht)]
      exact timeout_of_next _ _
  · -- the idle timer of the front connection, then `heap[0]` if it is earlier
    obtain ⟨x, hx⟩ : ∃ x, l.conns a = some x :=
      Option.isSome_iff_exists.mp ((hl.idle a).1 (hidle ▸ List.mem_cons_self a rest))
    have he : l.expiries = (x.lastActiveMs + kIdleTimeoutMs) ::
        (l.server.db.heap.head?.map (·.val)).toList := by
      simp [expiries, hidle, hx]
    rw [he] at hfit ⊢
    have hi : x.lastActiveMs + kIdleTimeoutMs < 2 ^ 64 - 1 := hfit _ (List.mem_cons_self _ _)
    simp only [hx, orUndefined, ok_bind, pure_bind,
      Nat.mod_eq_of_lt (by omega : x.lastActiveMs + kIdleTimeoutMs < 2 ^ 64)]
    rcases hheap : l.server.db.heap with _ | ⟨top, tail⟩
    · rw [if_neg (Nat.ne_of_lt hi)]
      exact timeout_of_next _ _
    · have ht : top.val < 2 ^ 64 - 1 := hfit top.val (by simp [hheap])
      have hm : (if top.val < x.lastActiveMs + kIdleTimeoutMs then top.val
          else x.lastActiveMs + kIdleTimeoutMs) = min (x.lastActiveMs + kIdleTimeoutMs) top.val := by
        rw [Nat.min_def]
        split_ifs <;> omega
      show _ = Except.ok ((min (x.lastActiveMs + kIdleTimeoutMs) top.val - now) % 2 ^ 32)
      dsimp only
      rw [hm, if_neg (by omega)]
      exact timeout_of_next _ _

/-- The timeout `poll()` gets, by `nextTimerMs_spec`. -/
theorem pollTimeout_spec {l : Loop} (hl : l.Inv) (now : Nat)
    (hfit : ∀ d ∈ l.expiries, d < 2 ^ 64 - 1) :
    l.pollTimeout now = .ok (toInt32 (match l.expiries.min? with
      | none => 2 ^ 32 - 1
      | some d => (d - now) % 2 ^ 32)) := by
  rw [pollTimeout, nextTimerMs_spec hl now hfit]
  rfl

end Loop

/-- The conversion to `int32_t` keeps the value modulo `2^32`. -/
theorem toInt32_emod (n : Nat) : toInt32 n % 2 ^ 32 = (n : Int) % 2 ^ 32 := by
  unfold toInt32
  split <;> omega

theorem toInt32_of_lt {n : Nat} (h : n < 2 ^ 31) : toInt32 n = n := by
  unfold toInt32
  split <;> omega

/-- In every reachable state, with both deadlines below `2^64 - 1`, `poll()` gets a timeout
that agrees with the spec's modulo `2^32`: -1 without timers, and the nearest deadline less
`now`, clamped to 0, when it is below `2^31`. Further deadlines lose their high bits. -/
theorem poll_timeout_law {H : HeapUpdate} {l : Loop} (hl : l.Reachable H) (now : Nat)
    (hfit : ∀ d ∈ l.expiries, d < 2 ^ 64 - 1) :
    ∃ t, l.pollTimeout now = .ok t ∧ t % 2 ^ 32 = l.specTimeout now % 2 ^ 32 ∧
      (l.specTimeout now < 2 ^ 31 → t = l.specTimeout now) := by
  refine ⟨_, Loop.pollTimeout_spec hl.inv.1 now hfit, ?_⟩
  unfold Loop.specTimeout
  rcases l.expiries.min? with _ | d
  · have hm : toInt32 (2 ^ 32 - 1) = -1 := by
      unfold toInt32
      split <;> omega
    exact ⟨by rw [hm], fun _ => hm⟩
  · dsimp only
    rw [toInt32_emod]
    refine ⟨by omega, fun h => ?_⟩
    rw [Nat.mod_eq_of_lt (by omega), toInt32_of_lt (by omega)]

/-- A log that sets `k` and gives it a TTL `t` of `n` ms, replayed at start-up with the clock at
0: the loop enters with no connection and the one deadline `n`. -/
theorem startup_set_pexpire (H : HeapUpdate) {t : List UInt8} {n : Nat}
    (ht : str2int t = some (n : Int)) (hlen : t.length < 2 ^ 32) :
    ∃ s, aofInit H (fun _ => ⟨0, some, true, true, true⟩) true true
        (Server.init ([[ascii "set", ascii "k", ascii "v"], [ascii "pexpire", ascii "k", t]].flatMap
          reqBody)) = some s ∧
      (Loop.init s).expiries = [n] := by
  have hL : ∀ c ∈ [[ascii "set", ascii "k", ascii "v"], [ascii "pexpire", ascii "k", t]],
      c.length ≤ kMaxArgs ∧ ∀ x ∈ c, x.length < 2 ^ 32 := by
    intro c hc
    simp only [List.mem_cons, List.mem_singleton, List.not_mem_nil, or_false] at hc
    rcases hc with rfl | rfl
    · decide
    · refine ⟨by simp [kMaxArgs], fun x hx => ?_⟩
      simp only [List.mem_cons, List.mem_singleton, List.not_mem_nil, or_false] at hx
      rcases hx with rfl | rfl | rfl
      · decide
      · decide
      · exact hlen
  refine ⟨_, aofInit_frames H _ hL, ?_⟩
  have hw := exec_wf H 0 (exec_wf H 0 Db.WF.empty [ascii "set", ascii "k", ascii "v"])
    [ascii "pexpire", ascii "k", t]
  have hh := Db.heap_head_of_abs hw (abs_set_pexpire H Db.WF.empty rfl ht)
  have hx : execAll H (fun _ => ⟨0, some, true, true, true⟩) 0 Db.empty
      [[ascii "set", ascii "k", ascii "v"], [ascii "pexpire", ascii "k", t]] =
      (exec H 0 (exec H 0 Db.empty [ascii "set", ascii "k", ascii "v"]).1
        [ascii "pexpire", ascii "k", t]).1 := rfl
  simp only [Loop.expiries, Loop.init, hx, hh, List.head?_nil, Option.none_bind,
    Option.toList_none, Option.toList_some, List.nil_append]

/-- The state of `startup_set_pexpire` with a TTL of 1000 ms. -/
theorem poll_timeout_law_ttl :
    ∃ s, aofInit HeapUpdate.sorted (fun _ => ⟨0, some, true, true, true⟩) true true
        (Server.init ([[ascii "set", ascii "k", ascii "v"],
          [ascii "pexpire", ascii "k", ascii "1000"]].flatMap reqBody)) = some s ∧
      (∀ d ∈ (Loop.init s).expiries, d < 2 ^ 64 - 1) ∧
      ∃ t, (Loop.init s).pollTimeout 0 = .ok t ∧
        t % 2 ^ 32 = (Loop.init s).specTimeout 0 % 2 ^ 32 ∧
        ((Loop.init s).specTimeout 0 < 2 ^ 31 → t = (Loop.init s).specTimeout 0) := by
  obtain ⟨s, hs, he⟩ := startup_set_pexpire HeapUpdate.sorted (t := ascii "1000") (n := 1000) rfl
    (by decide)
  have hfit : ∀ d ∈ (Loop.init s).expiries, d < 2 ^ 64 - 1 := fun d hd => by
    rw [he, List.mem_singleton] at hd
    omega
  exact ⟨s, hs, hfit, poll_timeout_law (H := HeapUpdate.sorted) (.init s) 0 hfit⟩

/-- A log that sets `k` and gives it a TTL of `2^31` ms, replayed at start-up with the clock at
0. The loop enters with no connection and one deadline, `2^31` ms away, which the spec's
timeout waits for. `next_timer_ms` converts `2^31` to `int32_t`, and `poll()` gets the timeout
`-2^31`, a negative one, which waits until a descriptor is ready. -/
theorem poll_timeout_negative (H : HeapUpdate) :
    ∃ s, aofInit H (fun _ => ⟨0, some, true, true, true⟩) true true
        (Server.init ([[ascii "set", ascii "k", ascii "v"],
          [ascii "pexpire", ascii "k", ascii "2147483648"]].flatMap reqBody)) = some s ∧
      (Loop.init s).Reachable H ∧ (Loop.init s).idle = [] ∧ (Loop.init s).expiries = [2147483648] ∧
      (Loop.init s).specTimeout 0 = 2147483648 ∧ (Loop.init s).pollTimeout 0 = .ok (-2147483648) := by
  obtain ⟨s, hs, he⟩ := startup_set_pexpire H (t := ascii "2147483648") (n := 2147483648) rfl
    (by decide)
  have hfit : ∀ d ∈ (Loop.init s).expiries, d < 2 ^ 64 - 1 := fun d hd => by
    rw [he, List.mem_singleton] at hd
    omega
  refine ⟨s, hs, .init s, rfl, he, ?_, ?_⟩
  · unfold Loop.specTimeout
    rw [he]
    show ((2147483648 - 0 : Nat) : Int) = 2147483648
    omega
  · rw [Loop.pollTimeout_spec (Loop.Inv.init s) 0 hfit, he]
    show Except.ok (toInt32 ((2147483648 - 0) % 2 ^ 32)) = _
    exact congrArg Except.ok (by unfold toInt32; split <;> omega)

end KvServer
