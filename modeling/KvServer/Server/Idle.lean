import KvServer.Server.Loop

/-!
# Idle timers

An event on a connection moves it to the end of the idle list, stamped with the clock reading
of the event, and `handle_accept` puts a new connection there. `process_timers` destroys
connections from the front of the list while their timer, the `uint64_t` sum
`last_active_ms + k_idle_timeout_ms`, is below its clock reading. The idle list is therefore
in order of `last_active_ms` when the clock never goes back. `Loop.Run` assumes that of the
environment, and that `accept()` returns no descriptor of a live connection.

Results:
1. `idle_timers_law`: on those runs `fd2conn` and the idle list agree with the live
   connections, and the idle list is in order. No iteration stops at an `assert`. Its
   `process_timers` leaves no connection idle for more than `k_idle_timeout_ms`, and destroys
   only connections whose `uint64_t` timer is below the clock.
2. `idle_timers_evict_expired`: the same, and while the clock reads below `2^64 - 5000` ms, so
   that the timer does not wrap at the end of the `uint64_t` range, `process_timers` destroys
   only connections idle for more than `k_idle_timeout_ms`.
-/

namespace KvServer

namespace Loop

/-- `last_active_ms` of the `Conn` at `a`. -/
def lastActive (l : Loop) (a : Nat) : Nat := ((l.conns a).map (·.lastActiveMs)).getD 0

/-- The idle list is in order of `last_active_ms` from its front, and no live connection was
active after the clock reading `ms`. -/
structure Ordered (l : Loop) (ms : Nat) : Prop where
  sorted : (l.idle.map l.lastActive).Pairwise (· ≤ ·)
  clock : ∀ a x, l.conns a = some x → x.lastActiveMs ≤ ms

section Ordered

variable {H : HeapUpdate} {l l' : Loop} {ms : Nat}

theorem lastActive_of {a : Nat} {x : Live} (hx : l.conns a = some x) :
    l.lastActive a = x.lastActiveMs := by
  simp [lastActive, hx]

theorem map_lastActive_congr {L : List Nat} (h : ∀ b ∈ L, l'.conns b = l.conns b) :
    L.map l'.lastActive = L.map l.lastActive :=
  List.map_congr_left fun b hb => by simp [lastActive, h b hb]

theorem Ordered.mono {ms' : Nat} (ho : l.Ordered ms) (h : ms ≤ ms') : l.Ordered ms' :=
  ⟨ho.sorted, fun a x hx => (ho.clock a x hx).trans h⟩

theorem Ordered.init (s : Server) : (Loop.init s).Ordered 0 :=
  ⟨List.Pairwise.nil, fun _ _ h => by cases h⟩

/-- The connections left after some are taken out of the idle list stay in order. -/
theorem Ordered.sublist {L : List Nat} (ho : l.Ordered ms) (hL : L.Sublist l.idle)
    (hc : ∀ b ∈ L, l'.conns b = l.conns b) : (L.map l'.lastActive).Pairwise (· ≤ ·) := by
  rw [map_lastActive_congr hc]
  exact ho.sorted.sublist (hL.map _)

/-- A connection active at `now`, no earlier than the last clock reading, goes to the end of
the idle list in order. -/
theorem sorted_append_now {L : List Nat} {now : Nat} (hs : (L.map l.lastActive).Pairwise (· ≤ ·))
    (hle : ∀ b ∈ L, l.lastActive b ≤ now) :
    (L.map l.lastActive ++ [now]).Pairwise (· ≤ ·) :=
  List.pairwise_append.2 ⟨hs, List.pairwise_singleton _ _, fun x hx y hy => by
    obtain ⟨b, hb, rfl⟩ := List.mem_map.1 hx
    rw [List.mem_singleton.1 hy]
    exact hle b hb⟩

theorem Ordered.handleAccept {acc : Option Nat} {now : Nat} (hl : l.Inv) (ho : l.Ordered ms)
    (hms : ms ≤ now) (h : l.handleAccept acc now = .ok l') : l'.Ordered now := by
  obtain rfl | ⟨fd, -, -, rfl⟩ := handleAccept_cases h
  · exact ho.mono hms
  have hc : ∀ b ∈ l.idle, (l.newConn fd now).conns b = l.conns b := fun b hb => by
    obtain ⟨x, hx⟩ := Option.isSome_iff_exists.mp ((hl.idle b).1 hb)
    simp [(hl.lt_nextAddr hx).ne]
  refine ⟨?_, fun b y hy => ?_⟩
  · show ((l.idle ++ [l.nextAddr]).map (l.newConn fd now).lastActive).Pairwise _
    rw [List.map_append, map_lastActive_congr hc, List.map_singleton,
      lastActive_of (x := ⟨fd, now, Conn.fresh⟩) (by simp)]
    refine sorted_append_now ho.sorted fun b hb => ?_
    obtain ⟨x, hx⟩ := Option.isSome_iff_exists.mp ((hl.idle b).1 hb)
    rw [lastActive_of hx]
    exact (ho.clock b x hx).trans hms
  · simp only [newConn_conns] at hy
    split at hy
    · cases hy
      exact le_rfl
    · exact (ho.clock b y hy).trans hms

theorem Ordered.handleEntry {p : PollFd} {ev : ConnEvents} (hl : l.Inv) (ho : l.Ordered ms)
    (hms : ms ≤ ev.now) (h : l.handleEntry H p ev = .ok l') : l'.Ordered ev.now := by
  obtain rfl | ⟨a, x, s, c, -, hx, -, rfl⟩ := handleEntry_cases h
  · exact ho.mono hms
  have hna : a ∉ l.idle.erase a := hl.idle_nodup.not_mem_erase
  have hne : ∀ b ∈ l.idle.erase a, b ≠ a := fun b hb h => hna (h ▸ hb)
  have hclock : ∀ b y, (l.touch a ⟨x.fd, ev.now, c⟩).conns b = some y → y.lastActiveMs ≤ ev.now :=
    fun b y hy => by
      simp only [touch_conns] at hy
      split at hy
      · cases hy
        exact le_rfl
      · exact (ho.clock b y hy).trans hms
  split
  · refine ⟨?_, fun b y hy => ?_⟩
    · show (((l.idle.erase a ++ [a]).erase a).map _).Pairwise _
      rw [List.erase_append_right _ hna, List.erase_cons_head, List.append_nil]
      exact ho.sublist (List.erase_sublist _ _) fun b hb => by simp [hne b hb]
    · simp only [connDestroy_conns] at hy
      split at hy
      · cases hy
      · exact hclock b y hy
  · refine ⟨?_, hclock⟩
    show ((l.idle.erase a ++ [a]).map _).Pairwise _
    rw [List.map_append, List.map_singleton, lastActive_of (x := ⟨x.fd, ev.now, c⟩) (by simp)]
    refine sorted_append_now (ho.sublist (List.erase_sublist _ _) fun b hb => by
      simp [hne b hb]) fun b hb => ?_
    obtain ⟨y, hy⟩ := Option.isSome_iff_exists.mp ((hl.idle b).1 (List.mem_of_mem_erase hb))
    rw [lastActive_of (by simp [hne b hb, hy] : { l.touch a ⟨x.fd, ev.now, c⟩ with server := s }.conns b = some y)]
    exact (ho.clock b y hy).trans hms

theorem Inv.handleAccept {acc : Option Nat} {now : Nat} (hl : l.Inv)
    (h : l.handleAccept acc now = .ok l') : l'.Inv := by
  obtain rfl | ⟨fd, -, hnull, rfl⟩ := handleAccept_cases h
  · exact hl
  · exact hl.accept hnull now

/-- The loop over the entries, each touched connection active at its clock reading, keeps the
idle list in order when the readings do not go back. -/
theorem Ordered.handleEntries : ∀ (l : Loop) (ps : List PollFd) (evs : List ConnEvents)
    (ms T : Nat), l.Inv → l.Ordered ms → (ms :: (evs.map (·.now) ++ [T])).Pairwise (· ≤ ·) →
    l.handleEntries H ps evs = .ok l' → l'.Ordered T
  | l, p :: ps, ev :: evs, ms, T, hl, ho, hc, h => by
    simp only [Loop.handleEntries] at h
    obtain ⟨l₁, h₁, h⟩ := bind_eq_ok.mp h
    have hc' := List.pairwise_cons.mp hc
    exact Ordered.handleEntries l₁ ps evs ev.now T (hl.handleEntry h₁)
      (ho.handleEntry hl (hc'.1 _ (List.mem_cons_self _ _)) h₁) hc'.2 h
  | l, [], _, ms, T, _, ho, hc, h => by
    cases h
    exact ho.mono ((List.pairwise_cons.mp hc).1 T (by simp))
  | l, _ :: _, [], ms, T, _, ho, hc, h => by
    cases h
    exact ho.mono ((List.pairwise_cons.mp hc).1 T (by simp))

theorem Ordered.withServer {ms : Nat} (ho : l.Ordered ms) (s : Server) :
    { l with server := s }.Ordered ms :=
  ⟨ho.1, ho.2⟩

theorem Ordered.serveIter {t : Tick} (hl : l.Inv) (ho : l.Ordered ms)
    (hc : (ms :: t.acceptNow :: (t.conns.map (·.now) ++ [t.timerNow])).Pairwise (· ≤ ·))
    (h : serveIter H l t = .ok l') : l'.Ordered t.timerNow := by
  obtain ⟨ps, hps, -⟩ := pollArgs_spec hl
  simp only [KvServer.serveIter, hps, ok_bind, pure_bind] at h
  have hc' := List.pairwise_cons.mp hc
  have hms := hc'.1 _ (List.mem_cons_self _ _)
  split at h
  · obtain ⟨l₁, h₁, h⟩ := bind_eq_ok.mp h
    exact Ordered.handleEntries l₁ ps t.conns t.acceptNow t.timerNow (hl.handleAccept h₁)
      (ho.handleAccept hl hms h₁) hc'.2 h
  · exact Ordered.handleEntries l ps t.conns t.acceptNow t.timerNow hl (ho.mono hms) hc'.2 h

/-- The idle loop keeps the idle list in order: it only takes connections off its front. -/
theorem Swept.ordered {now T : Nat} (ho : l.Ordered ms) (hsw : Swept now l l') (hms : ms ≤ T) :
    l'.Ordered T := by
  obtain ⟨k, hk⟩ := hsw.idle
  refine ⟨?_, fun a x hx => (ho.clock a x (hsw.kept a x hx)).trans hms⟩
  rw [hk]
  refine ho.sublist (List.drop_sublist _ _) fun b hb => ?_
  obtain ⟨y, hy⟩ := Option.isSome_iff_exists.mp ((hsw.inv.idle b).1 (hk ▸ hb))
  rw [hy, hsw.kept b y hy]

/-- The connection at the front of an ordered idle list was active no later than any other. -/
theorem Ordered.head_le {h a : Nat} {rest : List Nat} (ho : l.Ordered ms)
    (hidle : l.idle = h :: rest) (ha : a ∈ l.idle) : l.lastActive h ≤ l.lastActive a := by
  have hs := ho.sorted
  rw [hidle, List.map_cons, List.pairwise_cons] at hs
  rw [hidle, List.mem_cons] at ha
  rcases ha with rfl | ha
  · exact le_rfl
  · exact hs.1 _ (List.mem_map_of_mem _ ha)

end Ordered

end Loop

/-- The environment of the iteration `t` after the clock reading `ms`: `get_monotonic_msec()`
never goes back, and `accept()` returns no descriptor of a live connection. -/
structure Tick.Sane (l : Loop) (ms : Nat) (t : Tick) : Prop where
  clock : (ms :: t.acceptNow :: (t.conns.map (·.now) ++ [t.timerNow])).Pairwise (· ≤ ·)
  accept : ∀ fd, t.accept = some fd → ∀ a x, l.conns a = some x → x.fd ≠ fd

/-- The runs of the event loop in a sane environment, `ms` the last clock reading. -/
inductive Loop.Run (H : HeapUpdate) : Nat → Loop → Prop
  | init (s : Server) : Run H 0 (Loop.init s)
  | iter {ms : Nat} {l l' : Loop} (t : Tick) :
      Run H ms l → t.Sane l ms → loopIter H l t = .ok l' → Run H t.timerNow l'

namespace Loop.Run

variable {H : HeapUpdate} {ms : Nat} {l : Loop}

theorem reachable (hr : l.Run H ms) : l.Reachable H := by
  induction hr with
  | init s => exact .init s
  | iter t _ _ h ih => exact .iter t ih h

theorem ordered (hr : l.Run H ms) : l.Ordered ms := by
  induction hr with
  | init s => exact .init s
  | iter t hr ht h ih =>
    obtain ⟨hl, hok⟩ := hr.reachable.inv
    obtain ⟨l₁, h₁, h⟩ := bind_eq_ok.mp h
    have hl₁ := ((serveIter_spec H hl hok t).2 l₁ h₁).1
    obtain ⟨l₂, s, hsw, rfl⟩ := Loop.processTimers_cases hl₁ h
    exact (hsw.ordered (ih.serveIter hl ht.clock h₁) le_rfl).withServer s

end Loop.Run

/-- One iteration from a state of a sane run stops at no `assert`. Its `process_timers` leaves
no live connection idle for more than `k_idle_timeout_ms`, and destroys only connections active
at its clock reading or before, whose `uint64_t` timer is below that reading. -/
theorem Loop.Run.next_iter {H : HeapUpdate} {ms : Nat} {l : Loop} (hr : l.Run H ms) {t : Tick}
    (ht : t.Sane l ms) :
    (∀ e, loopIter H l t = .error e → e = .undefined) ∧
    ∀ l₁ l', serveIter H l t = .ok l₁ → l₁.processTimers H t.timerNow = .ok l' →
      (∀ a x, l'.conns a = some x → ¬ x.lastActiveMs + kIdleTimeoutMs < t.timerNow) ∧
      ∀ a x, l₁.conns a = some x → l'.conns a = none →
        (x.lastActiveMs + kIdleTimeoutMs) % 2 ^ 64 < t.timerNow ∧ x.lastActiveMs ≤ t.timerNow := by
  obtain ⟨hl, hok⟩ := hr.reachable.inv
  refine ⟨fun e h => ?_, fun l₁ l' h₁ h => ?_⟩
  · obtain he | ⟨-, fd, a, x, hfd, hx, hxfd⟩ := (loopIter_spec H hl hok t).1 e h
    · exact he
    · exact absurd hxfd (ht.accept fd hfd a x hx)
  obtain ⟨hl₁, -⟩ := (serveIter_spec H hl hok t).2 l₁ h₁
  obtain ⟨l₂, s, hsw, rfl⟩ := Loop.processTimers_cases hl₁ h
  have ho₁ := hr.ordered.serveIter hl ht.clock h₁
  have ho₂ := hsw.ordered ho₁ le_rfl
  refine ⟨fun a x hx => ?_, fun a x hx hn => ⟨hsw.expired a x hx hn, ho₁.clock a x hx⟩⟩
  have ha := hsw.inv.mem_idle hx
  obtain ⟨h₀, rest, hidle⟩ : ∃ h₀ rest, l₂.idle = h₀ :: rest := List.exists_cons_of_ne_nil
    (List.ne_nil_of_mem ha)
  obtain ⟨y, hy⟩ := Option.isSome_iff_exists.mp ((hsw.inv.idle h₀).1 (by simp [hidle]))
  have hstop := hsw.stopped h₀ y (by simp [hidle]) hy
  have hle := ho₂.head_le hidle ha
  rw [Loop.lastActive_of hy, Loop.lastActive_of (l := l₂) hx] at hle
  have := Nat.mod_le (y.lastActiveMs + kIdleTimeoutMs) (2 ^ 64)
  omega

/-- On every run in which the clock never goes back and `accept()` returns no descriptor of a
live connection, at the top of the loop: `fd2conn[fd]` is the live connection whose
descriptor is `fd`, and null if there is none; the idle list holds each live connection once,
in order of `last_active_ms` from its front. The next iteration stops at no `assert`; its
`process_timers` leaves no live connection idle for more than `k_idle_timeout_ms`, and
destroys only connections whose timer, the `uint64_t` sum
`last_active_ms + k_idle_timeout_ms`, is below its clock reading. -/
theorem idle_timers_law {H : HeapUpdate} {ms : Nat} {l : Loop} (hr : l.Run H ms) :
    (∀ fd a, l.fd2conn.getD fd none = some a ↔ ∃ x, l.conns a = some x ∧ x.fd = fd) ∧
    l.idle.Nodup ∧ (∀ a, a ∈ l.idle ↔ (l.conns a).isSome) ∧
    (l.idle.map l.lastActive).Pairwise (· ≤ ·) ∧
    ∀ t, t.Sane l ms →
      (∀ e, loopIter H l t = .error e → e = .undefined) ∧
      ∀ l₁ l', serveIter H l t = .ok l₁ → l₁.processTimers H t.timerNow = .ok l' →
        (∀ a x, l'.conns a = some x → ¬ x.lastActiveMs + kIdleTimeoutMs < t.timerNow) ∧
        ∀ a x, l₁.conns a = some x → l'.conns a = none →
          (x.lastActiveMs + kIdleTimeoutMs) % 2 ^ 64 < t.timerNow := by
  obtain ⟨hl, -⟩ := hr.reachable.inv
  refine ⟨hl.fd2conn, hl.idle_nodup, hl.idle, hr.ordered.sorted, fun t ht => ?_⟩
  obtain ⟨hstop, hproc⟩ := hr.next_iter ht
  exact ⟨hstop, fun l₁ l' h₁ h =>
    (hproc l₁ l' h₁ h).imp_right fun hd a x hx hn => (hd a x hx hn).1⟩

/-- Three iterations from the start: `accept()` returns 4 at 0 ms, 5 at 3000 ms and 6 at
6000 ms, and the `process_timers` of the third destroys the first connection, idle since
0 ms. Two connections are left, in the idle list in the order they were accepted. -/
theorem Loop.Run.accept_three :
    ∃ l : Loop, l.Run HeapUpdate.sorted 6000 ∧ l.idle = [1, 2] ∧ l.conns 0 = none ∧
      l.fd2conn = [none, none, none, none, none, some 1, some 2] := by
  -- `accept()` returns a descriptor that `fd2conn` maps to null
  have hfree : ∀ {l : Loop} {fd : Nat}, l.Reachable HeapUpdate.sorted →
      l.fd2conn.getD fd none = none → ∀ a x, l.conns a = some x → x.fd ≠ fd :=
    fun hl hn a x hx hfd => by
      have h := (hl.inv.1.fd2conn _ a).mpr ⟨x, hx, hfd⟩
      rw [hn] at h
      cases h
  obtain ⟨l₁, l₂, l₃, h₁, h₂, h₃, hf₁, hf₂, hl₃⟩ : ∃ l₁ l₂ l₃, loopIter HeapUpdate.sorted
      (Loop.init ⟨Db.empty, ⟨false, false, 0, Buffer.new 1024, false, []⟩⟩)
      ⟨true, some 4, 0, [], 0⟩ = .ok l₁ ∧
      loopIter HeapUpdate.sorted l₁ ⟨true, some 5, 3000, [], 3000⟩ = .ok l₂ ∧
      loopIter HeapUpdate.sorted l₂ ⟨true, some 6, 6000, [], 6000⟩ = .ok l₃ ∧
      l₁.fd2conn.getD 5 none = none ∧ l₂.fd2conn.getD 6 none = none ∧
      l₃.idle = [1, 2] ∧ l₃.conns 0 = none ∧
      l₃.fd2conn = [none, none, none, none, none, some 1, some 2] :=
    ⟨_, _, _, rfl, rfl, rfl, rfl, rfl, rfl, rfl, rfl⟩
  have r₁ := Loop.Run.iter _ (.init _) ⟨by decide, fun _ _ _ _ h => by cases h⟩ h₁
  have r₂ := r₁.iter _ ⟨by decide, fun _ hfd => by cases hfd; exact hfree r₁.reachable hf₁⟩ h₂
  exact ⟨l₃, r₂.iter _ ⟨by decide, fun _ hfd => by cases hfd; exact hfree r₂.reachable hf₂⟩ h₃,
    hl₃⟩

/-- The law at the end of the run `Loop.Run.accept_three`, where two connections are live. -/
theorem idle_timers_law_three :
    ∃ l : Loop, l.Run HeapUpdate.sorted 6000 ∧ l.idle = [1, 2] ∧ l.conns 0 = none ∧
      ((∀ fd a, l.fd2conn.getD fd none = some a ↔ ∃ x, l.conns a = some x ∧ x.fd = fd) ∧
      l.idle.Nodup ∧ (∀ a, a ∈ l.idle ↔ (l.conns a).isSome) ∧
      (l.idle.map l.lastActive).Pairwise (· ≤ ·) ∧
      ∀ t, t.Sane l 6000 →
        (∀ e, loopIter HeapUpdate.sorted l t = .error e → e = .undefined) ∧
        ∀ l₁ l', serveIter HeapUpdate.sorted l t = .ok l₁ →
          l₁.processTimers HeapUpdate.sorted t.timerNow = .ok l' →
          (∀ a x, l'.conns a = some x → ¬ x.lastActiveMs + kIdleTimeoutMs < t.timerNow) ∧
          ∀ a x, l₁.conns a = some x → l'.conns a = none →
            (x.lastActiveMs + kIdleTimeoutMs) % 2 ^ 64 < t.timerNow) := by
  obtain ⟨l, hr, hi, hc, -⟩ := Loop.Run.accept_three
  exact ⟨l, hr, hi, hc, idle_timers_law hr⟩

/-- **Idle timers.** On every run in which the clock never goes back and `accept()` returns
no descriptor of a live connection, at the top of the loop, `fd2conn` and the idle list agree
with the live connections and the idle list is in order of `last_active_ms`, as in
`idle_timers_law`. When the clock reading of `process_timers` is below `2^64 - 5000` ms, so
that the `uint64_t` sum `last_active_ms + k_idle_timeout_ms` does not wrap, its destroys are
exactly the expired connections: it leaves none idle for more than `k_idle_timeout_ms`, and
every connection it destroys had `last_active_ms + k_idle_timeout_ms` below its reading. -/
theorem idle_timers_evict_expired {H : HeapUpdate} {ms : Nat} {l : Loop} (hr : l.Run H ms) :
    (∀ fd a, l.fd2conn.getD fd none = some a ↔ ∃ x, l.conns a = some x ∧ x.fd = fd) ∧
    l.idle.Nodup ∧ (∀ a, a ∈ l.idle ↔ (l.conns a).isSome) ∧
    (l.idle.map l.lastActive).Pairwise (· ≤ ·) ∧
    ∀ t, t.Sane l ms → t.timerNow + kIdleTimeoutMs < 2 ^ 64 →
      (∀ e, loopIter H l t = .error e → e = .undefined) ∧
      ∀ l₁ l', serveIter H l t = .ok l₁ → l₁.processTimers H t.timerNow = .ok l' →
        (∀ a x, l'.conns a = some x → ¬ x.lastActiveMs + kIdleTimeoutMs < t.timerNow) ∧
        ∀ a x, l₁.conns a = some x → l'.conns a = none →
          x.lastActiveMs + kIdleTimeoutMs < t.timerNow := by
  obtain ⟨hl, -⟩ := hr.reachable.inv
  refine ⟨hl.fd2conn, hl.idle_nodup, hl.idle, hr.ordered.sorted, fun t ht hb => ?_⟩
  obtain ⟨hstop, hproc⟩ := hr.next_iter ht
  refine ⟨hstop, fun l₁ l' h₁ h => (hproc l₁ l' h₁ h).imp_right fun hd a x hx hn => ?_⟩
  obtain ⟨hlt, hle⟩ := hd a x hx hn
  -- below `2^64` the sum does not wrap
  rwa [Nat.mod_eq_of_lt (by omega)] at hlt

/-- The same law at the end of the run `Loop.Run.accept_three`. -/
theorem idle_timers_evict_expired_three :
    ∃ l : Loop, l.Run HeapUpdate.sorted 6000 ∧ l.idle = [1, 2] ∧ l.conns 0 = none ∧
      ((∀ fd a, l.fd2conn.getD fd none = some a ↔ ∃ x, l.conns a = some x ∧ x.fd = fd) ∧
      l.idle.Nodup ∧ (∀ a, a ∈ l.idle ↔ (l.conns a).isSome) ∧
      (l.idle.map l.lastActive).Pairwise (· ≤ ·) ∧
      ∀ t, t.Sane l 6000 → t.timerNow + kIdleTimeoutMs < 2 ^ 64 →
        (∀ e, loopIter HeapUpdate.sorted l t = .error e → e = .undefined) ∧
        ∀ l₁ l', serveIter HeapUpdate.sorted l t = .ok l₁ →
          l₁.processTimers HeapUpdate.sorted t.timerNow = .ok l' →
          (∀ a x, l'.conns a = some x → ¬ x.lastActiveMs + kIdleTimeoutMs < t.timerNow) ∧
          ∀ a x, l₁.conns a = some x → l'.conns a = none →
            x.lastActiveMs + kIdleTimeoutMs < t.timerNow) := by
  obtain ⟨l, hr, hi, hc, -⟩ := Loop.Run.accept_three
  exact ⟨l, hr, hi, hc, idle_timers_evict_expired hr⟩

end KvServer
