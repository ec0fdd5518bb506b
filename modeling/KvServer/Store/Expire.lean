import KvServer.Store.Abstract

/-!
# The TTL pass of `process_timers`

`process_timers` deletes the entries whose deadline has passed by looking at the top of the
TTL heap, `heap[0]`, and deleting its entry while its deadline is before `now`, counting the
deletions in `nworks` and stopping once `nworks >= k_max_works`. On the abstract store this is
a `Sweep`: the keys of a list `D` leave the store, each with a deadline before `now` and none
with a later deadline than a key that stays.

Results:
1. `IsMinHeap.head_le`: the first item of a min-heap has the smallest deadline.
2. `expireLoop_sweep`: each run of the loop is a sweep of at most `k_max_works + 1 - nworks`
   keys, and of every key past its deadline when it stops short of that.
3. `process_timers_sweep`: the TTL pass on every reachable store.
4. `process_timers_deletes_past_limit`: a reachable store on which the pass deletes
   `k_max_works + 1` keys.
-/

namespace KvServer

open Function

/-! ## The top of the heap -/

/-- The first item of a min-heap is at or before every item. -/
theorem IsMinHeap.head_le {top : HeapItem} {rest : List HeapItem} (hh : IsMinHeap (top :: rest))
    {it : HeapItem} (hit : it ∈ top :: rest) : top.val ≤ it.val := by
  obtain ⟨i, hi, rfl⟩ := List.getElem_of_mem hit
  clear hit
  induction i using Nat.strong_induction_on with
  | _ i ih =>
    rcases Nat.eq_zero_or_pos i with rfl | hpos
    · exact le_rfl
    · have hp : heapParent i < (top :: rest).length := lt_trans (heapParent_lt hpos) hi
      exact (ih _ (heapParent_lt hpos) hp).trans
        (hh i _ _ hpos (List.getElem?_eq_getElem hp) (List.getElem?_eq_getElem hi))

namespace Db

/-- An entry of the table is the one a lookup for its key finds. -/
theorem hmLookup_of_mem {db : Db} (hw : db.WF) {a : Nat} (ha : a ∈ db.table) :
    db.hmLookup (db.ent a).key = some a := by
  cases h : db.hmLookup (db.ent a).key with
  | none => exact absurd rfl (hmLookup_none h hw.table_live a ha)
  | some b => exact congrArg some (hmLookup_unique hw h ha rfl).symm

/-- A deadline of the abstract store is the deadline of an item of the heap. -/
theorem mem_heap_of_abs {db : Db} {k : List UInt8} {v : AValue} {d : Nat}
    (h : db.abs k = some (v, some d)) : ∃ it ∈ db.heap, it.val = d := by
  obtain ⟨a, -, ha⟩ := Option.map_eq_some'.mp h
  obtain ⟨it, hit, hd⟩ := Option.map_eq_some'.mp (Prod.mk.inj ha).2
  exact ⟨it, List.mem_of_find?_eq_some hit, hd⟩

/-- The key of the entry an item of the heap points at has the item's deadline. -/
theorem abs_of_mem_heap {db : Db} (hw : db.WF) {it : HeapItem} (hit : it ∈ db.heap) :
    db.hmLookup (db.ent it.ref).key = some it.ref ∧
      db.abs (db.ent it.ref).key = some ((db.ent it.ref).value, some it.val) := by
  have hl := hmLookup_of_mem hw (hw.refs_table _ (List.mem_map_of_mem _ hit))
  have hb : byRef db.heap it.ref = some it :=
    (find?_ref_eq_some_iff hw.refs_nodup).mpr ⟨hit, rfl⟩
  exact ⟨hl, by rw [abs_of_hmLookup hl, deadline, hb]; rfl⟩

/-- A store whose only key has the deadline `d` has `d` at the top of its heap. -/
theorem heap_head_of_abs {db : Db} (hw : db.WF) {k : List UInt8} {v : AValue} {d : Nat}
    (hA : db.abs = update Db.empty.abs k (some (v, some d))) :
    db.heap.head?.map (·.val) = some d := by
  obtain ⟨it, hit, -⟩ := mem_heap_of_abs (by rw [hA, update_same])
  obtain ⟨top, rest, hh⟩ := List.exists_cons_of_ne_nil (List.ne_nil_of_mem hit)
  have htop := (abs_of_mem_heap hw (hh ▸ List.mem_cons_self top rest)).2
  rw [hA] at htop
  by_cases hk : (db.ent top.ref).key = k
  · rw [hk, update_same] at htop
    simp only [hh, List.head?_cons, Option.map_some', Option.some.injEq] at htop ⊢
    exact (Option.some.inj (Prod.mk.inj htop).2).symm
  · rw [update_noteq hk] at htop
    cases htop

end Db

/-! ## Sweeps of the abstract store -/

/-- A TTL pass at clock reading `now` takes the abstract store `A` to `A'` by deleting the
keys of `D`: each once, each with a deadline before `now`, and none with a later deadline than
a key that keeps one. -/
structure Sweep (now : Nat) (A : AStore) (D : List (List UInt8)) (A' : AStore) : Prop where
  nodup : D.Nodup
  expired : ∀ k ∈ D, ∃ v d, A k = some (v, some d) ∧ d < now
  removed : ∀ k, A' k = if k ∈ D then none else A k
  earliest : ∀ k ∈ D, ∀ k' v d v' d', A k = some (v, some d) → A' k' = some (v', some d') → d ≤ d'

theorem Sweep.nil (now : Nat) (A : AStore) : Sweep now A [] A :=
  ⟨List.nodup_nil, by simp, by simp, by simp⟩

/-- Deleting first a key with the smallest deadline, before `now`, then sweeping. -/
theorem Sweep.cons {now : Nat} {A A' : AStore} {D : List (List UInt8)} {k : List UInt8}
    {v : AValue} {d : Nat} (hk : A k = some (v, some d)) (hd : d < now)
    (hmin : ∀ k' v' d', A k' = some (v', some d') → d ≤ d')
    (hs : Sweep now (update A k none) D A') : Sweep now A (k :: D) A' := by
  have hkD : k ∉ D := fun h => by
    obtain ⟨v, d, hA, -⟩ := hs.expired k h
    simp at hA
  have hA : ∀ k', k' ≠ k → update A k none k' = A k' := fun k' h => update_noteq h _ _
  refine ⟨List.nodup_cons.mpr ⟨hkD, hs.nodup⟩, ?_, fun k' => ?_, ?_⟩
  · rintro k' (_ | ⟨_, hk'⟩)
    · exact ⟨v, d, hk, hd⟩
    · obtain ⟨v', d', hA', hd'⟩ := hs.expired k' hk'
      exact ⟨v', d', (hA k' (ne_of_mem_of_not_mem hk' hkD)).symm.trans hA', hd'⟩
  · rw [hs.removed k']
    by_cases h : k' = k
    · subst h
      simp [hkD]
    · simp [h, hA k' h]
  · rintro k₁ (_ | ⟨_, hk₁⟩) k' v₁ d₁ v' d' h₁ h'
    · rw [hk] at h₁
      cases h₁
      have h'' := hs.removed k'
      split_ifs at h'' with hk'
      · rw [h''] at h'
        cases h'
      · by_cases hkk : k' = k
        · subst hkk
          simp [h''] at h'
        · rw [h'', hA k' hkk] at h'
          exact hmin _ _ _ h'
    · exact hs.earliest k₁ hk₁ k' v₁ d₁ v' d'
        ((hA k₁ (ne_of_mem_of_not_mem hk₁ hkD)).trans h₁) h'

/-! ## The loop -/

section Loop

variable (H : HeapUpdate) (now : Nat)

/-- Every run of the TTL loop from `nworks ≤ k_max_works` deletions returns, keeps the
invariant, and is a sweep of at most `min fuel (k_max_works + 1 - nworks)` keys; when it
deletes fewer, no key past its deadline is left. -/
theorem expireLoop_sweep {fuel nworks : Nat} {db : Db} (hw : db.WF) (hn : nworks ≤ kMaxWorks) :
    ∃ db' D, db.expireLoop H now fuel nworks = some db' ∧ db'.WF ∧ Sweep now db.abs D db'.abs ∧
      D.length ≤ min fuel (kMaxWorks + 1 - nworks) ∧
      (D.length < min fuel (kMaxWorks + 1 - nworks) →
        ∀ k v d, db'.abs k = some (v, some d) → now ≤ d) := by
  induction fuel generalizing nworks db with
  | zero => exact ⟨db, [], rfl, hw, Sweep.nil now _, Nat.zero_le _, fun h => absurd h (by simp)⟩
  | succ fuel ih =>
    unfold Db.expireLoop
    split
    · rename_i hheap
      refine ⟨db, [], rfl, hw, Sweep.nil now _, Nat.zero_le _, fun _ k v d h => ?_⟩
      obtain ⟨it, hit, -⟩ := Db.mem_heap_of_abs h
      simp [hheap] at hit
    · rename_i top rest hheap
      have htop : top ∈ db.heap := hheap ▸ List.mem_cons_self top rest
      have hmin : ∀ k v d, db.abs k = some (v, some d) → top.val ≤ d := fun k v d h => by
        obtain ⟨it, hit, rfl⟩ := Db.mem_heap_of_abs h
        exact (hheap ▸ hw.ordered : IsMinHeap (top :: rest)).head_le (hheap ▸ hit)
      by_cases hlt : top.val < now
      · obtain ⟨hl, hA⟩ := Db.abs_of_mem_heap hw htop
        rw [if_pos hlt, Db.expireTop_eq H now hw htop]
        have hw' := hw.delete H (hw.refs_table _ (List.mem_map_of_mem _ htop)) now
        have habs := Db.abs_delete H now hw hl
        simp only [Option.bind_eq_bind, Option.some_bind]
        split_ifs with hk
        · -- the last unit of work: one key deleted, and the bound reached
          have h1 : 1 ≤ min (fuel + 1) (kMaxWorks + 1 - nworks) ∧
              ¬ 1 < min (fuel + 1) (kMaxWorks + 1 - nworks) := by omega
          exact ⟨_, [_], rfl, hw', Sweep.cons hA hlt hmin (by rw [← habs]; exact Sweep.nil now _),
            h1.1, fun h => absurd h h1.2⟩
        · obtain ⟨db', D, h, hw'', hs, hlen, hall⟩ := ih hw' (by omega : nworks + 1 ≤ kMaxWorks)
          refine ⟨db', _ :: D, h, hw'', Sweep.cons hA hlt hmin (by rwa [habs] at hs),
            by rw [List.length_cons]; omega, fun hD => hall (by rw [List.length_cons] at hD; omega)⟩
      · rw [if_neg hlt]
        exact ⟨db, [], rfl, hw, Sweep.nil now _, Nat.zero_le _,
          fun _ k v d h => le_trans (not_lt.mp hlt) (hmin k v d h)⟩

end Loop

/-- The TTL pass of `process_timers` on every reachable store, at every clock reading: it
returns and deletes the keys of a list `D` of at most `k_max_works + 1` keys, each once, each
with a deadline before `now` and none with a later deadline than a key left with one, and leaves
every other key as it was; when it deletes fewer than `k_max_works + 1` keys, no key past its
deadline is left. -/
theorem process_timers_sweep {H : HeapUpdate} {db : Db} (hr : db.Reachable H) (now : Nat) :
    ∃ db' D, db.processTtl H now = some db' ∧ Sweep now db.abs D db'.abs ∧
      D.length ≤ kMaxWorks + 1 ∧
      (D.length < kMaxWorks + 1 → ∀ k v d, db'.abs k = some (v, some d) → now ≤ d) := by
  obtain ⟨db', D, h, -, hs, hlen, hall⟩ :=
    @expireLoop_sweep H now (kMaxWorks + 1) 0 db hr.wf (Nat.zero_le _)
  simp only [Nat.sub_zero, min_self] at hlen hall
  exact ⟨db', D, h, hs, hlen, hall⟩

/-- The TTL pass at 7 ms after `set a v`, `pexpire a 10`, `set b v` and `pexpire b 5` at
0 ms: it deletes `b`, past its deadline, and keeps `a` with its deadline. -/
theorem process_timers_sweep_ttl :
    ∃ db : Db, db.Reachable HeapUpdate.sorted ∧ (db.abs (ascii "b")).isSome ∧
      (db.processTtl HeapUpdate.sorted 7).map
        (fun d => ((d.abs (ascii "b")).isNone, (d.abs (ascii "a")).map (·.2))) =
        some (true, some (some 10)) ∧
      ∃ db' D, db.processTtl HeapUpdate.sorted 7 = some db' ∧ Sweep 7 db.abs D db'.abs ∧
        D.length ≤ kMaxWorks + 1 ∧
        (D.length < kMaxWorks + 1 → ∀ k v d, db'.abs k = some (v, some d) → 7 ≤ d) := by
  have hr := ((((Db.Reachable.empty (H := HeapUpdate.sorted)).exec 0
    [ascii "set", ascii "a", ascii "v"]).exec 0 [ascii "pexpire", ascii "a", ascii "10"]).exec 0
    [ascii "set", ascii "b", ascii "v"]).exec 0 [ascii "pexpire", ascii "b", ascii "5"]
  exact ⟨_, hr, rfl, rfl, process_timers_sweep hr 7⟩

/-! ## More than `k_max_works` deletions -/

/-- `set k v` and then `pexpire k t` at clock reading 0 on a store without `k`, for a `t` that
reads as `n ≥ 0`: `k` holds the string `v` with the deadline `n`. -/
theorem abs_set_pexpire (H : HeapUpdate) {db : Db} (hw : db.WF) {k t : List UInt8} {n : Nat}
    (hk : db.abs k = none) (ht : str2int t = some (n : Int)) :
    (exec H 0 (exec H 0 db [ascii "set", k, ascii "v"]).1 [ascii "pexpire", k, t]).1.abs =
      update db.abs k (some (.str (ascii "v"), some n)) := by
  have h₁ : setSpec db.abs k (exec H 0 db [ascii "set", k, ascii "v"]).1.abs _ (ascii "v") :=
    exec_spec H 0 hw (by decide) [ascii "set", k, ascii "v"]
  have h₂ : pexpireSpec 0 (exec H 0 db [ascii "set", k, ascii "v"]).1.abs k
      (exec H 0 (exec H 0 db [ascii "set", k, ascii "v"]).1 [ascii "pexpire", k, t]).1.abs _ t :=
    exec_spec H 0 (exec_wf H 0 hw _) (by decide) [ascii "pexpire", k, t]
  simp only [setSpec, hk] at h₁
  rw [h₁.1] at h₂
  simp only [pexpireSpec, ht, update_same, if_neg (Int.not_lt.mpr (Int.ofNat_nonneg n)),
    Int.toNat_ofNat, Nat.zero_add] at h₂
  rw [h₂.1, update_idem]

/-- `set k v` and then `pexpire k 0` at clock reading 0, for each key of `K` in turn, reach a
store in which exactly the keys of `K` are there, each with the deadline 0. -/
theorem reachable_expired_keys (H : HeapUpdate) {K : List (List UInt8)} (hK : K.Nodup) :
    ∃ db : Db, db.Reachable H ∧
      db.abs = fun k => if k ∈ K then some (.str (ascii "v"), some 0) else none := by
  induction K with
  | nil => exact ⟨Db.empty, .empty, rfl⟩
  | cons k K ih =>
    obtain ⟨hk, hK⟩ := List.nodup_cons.mp hK
    obtain ⟨db, hr, hA⟩ := ih hK
    refine ⟨_, (hr.exec 0 [ascii "set", k, ascii "v"]).exec 0 [ascii "pexpire", k, ascii "0"], ?_⟩
    rw [abs_set_pexpire H hr.wf (by simp [hA, hk]) (t := ascii "0") (n := 0) rfl, hA]
    funext j
    by_cases hj : j = k
    · subst hj
      simp
    · simp [hj]

/-- A reachable store with `k_max_works + 1` keys past their deadline, the keys `""`, `"a"`,
`"aa"`, ...: one TTL pass of `process_timers` deletes every one of them, `k_max_works + 1`
keys, because the loop tests `nworks >= k_max_works` after each deletion. -/
theorem process_timers_deletes_past_limit (H : HeapUpdate) :
    ∃ db db' : Db, db.Reachable H ∧ db.processTtl H 1 = some db' ∧
      ∃ D : List (List UInt8), D.Nodup ∧ D.length = kMaxWorks + 1 ∧
        ∀ k ∈ D, (db.abs k).isSome ∧ db'.abs k = none := by
  have hK : ((List.range (kMaxWorks + 1)).map fun i => List.replicate i (97 : UInt8)).Nodup :=
    (List.nodup_range _).map fun i j h => by simpa using congrArg List.length h
  obtain ⟨db, hr, hA⟩ := reachable_expired_keys H hK
  obtain ⟨db', D, h, -, hs, hlen, hall⟩ :=
    @expireLoop_sweep H 1 (kMaxWorks + 1) 0 db hr.wf (Nat.zero_le _)
  simp only [Nat.sub_zero, min_self] at hlen hall
  refine ⟨db, db', hr, h, D, hs.nodup, le_antisymm hlen (not_lt.mp fun hD => ?_),
    fun k hk => ⟨?_, by simp [hs.removed k, hk]⟩⟩
  · have hsub : ((List.range (kMaxWorks + 1)).map fun i => List.replicate i (97 : UInt8)) ⊆ D :=
      fun k hk => by
        by_contra hkD
        have h' := hs.removed k
        simp only [if_neg hkD, hA, if_pos hk] at h'
        exact absurd (hall hD k _ _ h') (by decide)
    have := (List.subperm_of_subset hK hsub).length_le
    simp at this
    omega
  · obtain ⟨v, d, hk', -⟩ := hs.expired k hk
    simp [hk']

end KvServer
