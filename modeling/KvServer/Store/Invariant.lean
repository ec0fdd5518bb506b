import KvServer.Store.Commands

/-!
# The store invariant

`Db.WF` is the invariant of the store part of `g_data` that the TTL code relies on: the table
holds live entries with distinct keys, every heap item points at an entry of the table whose
`heap_idx` is the item's slot, every entry's `heap_idx` names its item, the heap is a min-heap,
and the entries handed to the thread pool are out of the table and the heap.

`HeapUpdate` is the contract of `heap_update` (section 6): it permutes the array and leaves a
min-heap when it was one except at the updated slot; `syncRefs` writes the back-pointers.

Results:
1. `heapDelete_perm`, `heapUpsert_perm`, `IsMinHeap.except`: the callers of `heap_update` hand
   it arrays that are heaps except at the slot they changed, holding the items they should.
2. `entrySetTtl_heapOk`, `entrySetTtl_refs`: `entry_set_ttl` keeps the heap and the
   back-pointers in agreement and adds or removes exactly the item of its entry.
3. `exec_wf`, `processTtl_wf`: every handler and every run of the TTL loop keep `Db.WF`;
   `processTtl_some`: the TTL loop never reads a dangling entry nor fails its assertion.
4. `Db.Reachable.wf`: the invariant of every store reachable from the empty one.
-/

namespace KvServer

/-! ## Heap arrays -/

/-- The references of a heap's items, slot by slot. -/
def refs (h : List HeapItem) : List Nat := h.map (·.ref)

theorem slotOf_eq_some_iff {h : List HeapItem} {a i : Nat} (hn : (refs h).Nodup) :
    slotOf h a = some i ↔ ∃ it, h[i]? = some it ∧ it.ref = a := by
  unfold slotOf
  rw [List.findIdx?_eq_some_iff_getElem]
  constructor
  · rintro ⟨hi, hp, -⟩
    exact ⟨_, List.getElem?_eq_getElem hi, by simpa using hp⟩
  · rintro ⟨it, hit, rfl⟩
    obtain ⟨hi, rfl⟩ := List.getElem?_eq_some_iff.mp hit
    refine ⟨hi, by simp, fun j hj hp => ?_⟩
    have hj' : j < (refs h).length := by simp [refs]; omega
    have hi' : i < (refs h).length := by simp [refs]; omega
    have hji : (refs h)[j] = (refs h)[i] := by simpa [refs] using hp
    exact absurd (hn.getElem_inj_iff.mp hji) (by omega)

theorem slotOf_eq_none_iff {h : List HeapItem} {a : Nat} : slotOf h a = none ↔ a ∉ refs h := by
  simp [slotOf, List.findIdx?_eq_none_iff, refs]

/-- An array whose items all sit at the same slots of a min-heap is a min-heap. -/
theorem IsMinHeap.mono {h a : List HeapItem} (hh : IsMinHeap h)
    (hag : ∀ (i : Nat) (c : HeapItem), a[i]? = some c → h[i]? = some c) : IsMinHeap a :=
  fun i _ _ hi hp hc => hh i _ _ hi (hag _ _ hp) (hag _ _ hc)

/-- An array that agrees with a min-heap off slot `p` is a min-heap except at `p`. -/
theorem IsMinHeap.except {h a : List HeapItem} {p : Nat} (hh : IsMinHeap h)
    (hag : ∀ i : Nat, i ≠ p → ∀ c : HeapItem, a[i]? = some c → h[i]? = some c) :
    HeapExcept a p := by
  refine ⟨fun i _ _ hi hip hpp hp hc => hh i _ _ hi (hag _ hpp _ hp) (hag _ hip _ hc), ?_⟩
  intro i g c hi hpi hp hg hc
  have hlt := heapParent_lt hi
  have hci := hag i (by omega) _ hc
  obtain ⟨x, hx⟩ : ∃ x, h[p]? = some x := by
    obtain ⟨hil, -⟩ := List.getElem?_eq_some_iff.mp hci
    exact ⟨_, List.getElem?_eq_getElem (by omega)⟩
  have hgx := hh p _ _ hp (hag _ (heapParent_lt hp).ne _ hg) hx
  have hxc := hh i _ _ hi (hpi ▸ hx) hci
  omega

/-- Overwriting slot `p`, which held `x`, with `t`. -/
theorem perm_set {h : List HeapItem} {p : Nat} {x : HeapItem} (t : HeapItem)
    (hx : h[p]? = some x) : (t :: h).Perm (x :: h.set p t) := by
  obtain ⟨hp, rfl⟩ := List.getElem?_eq_some_iff.mp hx
  have hsplit : h = h.take p ++ h[p] :: h.drop (p + 1) := by
    simp only [List.take_append_drop, ← List.drop_eq_getElem_cons hp]
  rw [List.set_eq_take_append_cons_drop, if_pos hp]
  conv => lhs; rw [hsplit]
  exact (List.perm_middle.cons t).trans ((List.Perm.swap _ t _).trans (List.perm_middle.symm.cons _))

/-- `a[pos] = a.back(); a.pop_back()` takes out the item at `pos`, which held `x`. -/
theorem perm_deleteSlot {h : List HeapItem} {p : Nat} {x : HeapItem} (d : HeapItem)
    (hx : h[p]? = some x) : h.Perm (x :: (h.set p (h.getLastD d)).dropLast) := by
  obtain ⟨l, y, rfl⟩ : ∃ l y, h = l ++ [y] := by
    rcases List.eq_nil_or_concat h with rfl | ⟨l, y, rfl⟩
    · simp at hx
    · exact ⟨l, y, by simp⟩
  have hlast : (l ++ [y]).getLastD d = y := by simp
  rw [hlast]
  rcases Nat.lt_or_ge p l.length with hp | hp
  · rw [List.set_append, if_pos hp, List.dropLast_concat]
    rw [List.getElem?_append_left hp] at hx
    exact (List.perm_append_singleton y l).trans (perm_set y hx)
  · have hpl : p = l.length := by
      have := (List.getElem?_eq_some_iff.mp hx).1
      simp only [List.length_append, List.length_singleton] at this
      omega
    subst hpl
    rw [List.getElem?_append_right le_rfl] at hx
    simp only [Nat.sub_self, List.getElem?_cons_zero, Option.some.injEq] at hx
    subst hx
    simp [List.perm_append_singleton]

/-- Slot `p`, which holds `x`, and the other items. -/
theorem perm_eraseIdx {h : List HeapItem} {p : Nat} {x : HeapItem} (hx : h[p]? = some x) :
    h.Perm (x :: h.eraseIdx p) := by
  obtain ⟨hp, rfl⟩ := List.getElem?_eq_some_iff.mp hx
  conv => lhs; rw [← List.take_append_drop p h, List.drop_eq_getElem_cons hp]
  rw [List.eraseIdx_eq_take_drop_succ]
  exact List.perm_middle

/-- Overwriting slot `p` with `t` replaces its item by `t`. -/
theorem perm_set_eraseIdx {h : List HeapItem} {p : Nat} {x : HeapItem} (t : HeapItem)
    (hx : h[p]? = some x) : (h.set p t).Perm (t :: h.eraseIdx p) := by
  obtain ⟨hp, rfl⟩ := List.getElem?_eq_some_iff.mp hx
  rw [List.set_eq_take_append_cons_drop, if_pos hp, List.eraseIdx_eq_take_drop_succ]
  exact List.perm_middle

/-- With distinct references, the item `find?` returns for a reference is its item. -/
theorem find?_ref_eq_some_iff {h : List HeapItem} {a : Nat} {it : HeapItem} (hn : (refs h).Nodup) :
    h.find? (·.ref == a) = some it ↔ it ∈ h ∧ it.ref = a := by
  constructor
  · intro hf
    exact ⟨List.mem_of_find?_eq_some hf, by simpa using List.find?_some hf⟩
  · rintro ⟨hit, rfl⟩
    obtain ⟨y, hy⟩ := Option.isSome_iff_exists.mp
      (List.find?_isSome.mpr ⟨it, hit, by simp⟩ : (h.find? (·.ref == it.ref)).isSome)
    have hyr : y.ref = it.ref := by simpa using List.find?_some hy
    rw [hy, List.inj_on_of_nodup_map hn (List.mem_of_find?_eq_some hy) hit hyr]

/-- The item of a reference does not depend on the order of a heap with distinct references. -/
theorem find?_ref_perm {h h' : List HeapItem} (hp : h.Perm h') (hn : (refs h).Nodup) (a : Nat) :
    h.find? (·.ref == a) = h'.find? (·.ref == a) := by
  have hn' : (refs h').Nodup := (hp.map _).nodup_iff.mp hn
  apply Option.ext
  intro it
  rw [Option.mem_def, Option.mem_def, find?_ref_eq_some_iff hn, find?_ref_eq_some_iff hn',
    hp.mem_iff]

/-- The item of a heap that points at `a`. -/
def byRef (h : List HeapItem) (a : Nat) : Option HeapItem := h.find? (·.ref == a)

theorem byRef_cons (y : HeapItem) (l : List HeapItem) (b : Nat) :
    byRef (y :: l) b = if y.ref = b then some y else byRef l b := by
  by_cases hy : y.ref = b <;> simp [byRef, List.find?_cons, hy]

theorem mem_refs_iff {h : List HeapItem} {b : Nat} : b ∈ refs h ↔ (byRef h b).isSome := by
  simp [refs, byRef, List.find?_isSome]

theorem refs_perm {h h' : List HeapItem} (hp : h.Perm h') : (refs h).Perm (refs h') := hp.map _

theorem byRef_perm {h h' : List HeapItem} (hp : h.Perm h') (hn : (refs h).Nodup) :
    byRef h = byRef h' :=
  funext (find?_ref_perm hp hn)

/-- Taking the item `x` out of a heap with distinct references. -/
theorem byRef_remove {h rest : List HeapItem} {x : HeapItem} (hn : (refs h).Nodup)
    (hh : h.Perm (x :: rest)) :
    (refs rest).Nodup ∧ ∀ b, byRef rest b = if b = x.ref then none else byRef h b := by
  have hn' : (x.ref :: refs rest).Nodup := (refs_perm hh).nodup_iff.mp hn
  refine ⟨(List.nodup_cons.mp hn').2, fun b => ?_⟩
  rw [byRef_perm hh hn, byRef_cons]
  by_cases hb : b = x.ref
  · subst hb
    simp only [if_true]
    exact Option.not_isSome_iff_eq_none.mp (mt mem_refs_iff.mpr (List.nodup_cons.mp hn').1)
  · simp [hb, Ne.symm hb]

/-- Putting the item `t` in a heap whose other items are `rest`. -/
theorem byRef_insert {rest h : List HeapItem} {t : HeapItem} (hn : (refs rest).Nodup)
    (ht : t.ref ∉ refs rest) (hh : h.Perm (t :: rest)) :
    (refs h).Nodup ∧ ∀ b, byRef h b = if b = t.ref then some t else byRef rest b := by
  have hnh : (refs h).Nodup := (refs_perm hh).nodup_iff.mpr (List.nodup_cons.mpr ⟨ht, hn⟩)
  refine ⟨hnh, fun b => ?_⟩
  rw [byRef_perm hh hnh, byRef_cons]
  by_cases hb : b = t.ref
  · simp [hb]
  · simp [hb, Ne.symm hb]

/-- Two heaps with distinct references put the item of `b` in the same slot when they hold
the items that point at `b` at the same slots. -/
theorem slotOf_congr {h h' : List HeapItem} {b : Nat} (hn : (refs h).Nodup)
    (hn' : (refs h').Nodup) (hag : ∀ (i : Nat) (it : HeapItem), it.ref = b → (h[i]? = some it ↔ h'[i]? = some it)) :
    slotOf h b = slotOf h' b := by
  apply Option.ext
  intro i
  rw [Option.mem_def, Option.mem_def, slotOf_eq_some_iff hn, slotOf_eq_some_iff hn']
  exact exists_congr fun it => ⟨fun ⟨h₁, h₂⟩ => ⟨(hag i it h₂).mp h₁, h₂⟩,
    fun ⟨h₁, h₂⟩ => ⟨(hag i it h₂).mpr h₁, h₂⟩⟩

/-! ## The heap and the back-pointers -/

/-- An entry without its `heap_idx`: what the TTL code never changes. -/
def Entry.body (e : Entry) : Entry := { e with heapIdx := none }

namespace Db

/-- `db'` holds the entries of `db` at the same addresses, `heap_idx` fields apart. -/
def SameBodies (db db' : Db) : Prop :=
  ∀ a, (db'.entries a).map Entry.body = (db.entries a).map Entry.body

theorem SameBodies.refl (db : Db) : SameBodies db db := fun _ => rfl

theorem SameBodies.trans {db₁ db₂ db₃ : Db} (h₁ : SameBodies db₁ db₂) (h₂ : SameBodies db₂ db₃) :
    SameBodies db₁ db₃ := fun a => (h₂ a).trans (h₁ a)

theorem SameBodies.isSome {db db' : Db} (h : SameBodies db db') (a : Nat) :
    (db'.entries a).isSome = (db.entries a).isSome := by
  simpa using congrArg Option.isSome (h a)

/-- The TTL heap and the `heap_idx` fields agree, and the heap is ordered. -/
structure HeapOk (db : Db) : Prop where
  refs_nodup : (refs db.heap).Nodup
  refs_live : ∀ a ∈ refs db.heap, (db.entries a).isSome
  sync : ∀ a e, db.entries a = some e → e.heapIdx = slotOf db.heap a
  ordered : IsMinHeap db.heap

@[simp] theorem syncRefs_heap (db : Db) : (syncRefs db).heap = db.heap := rfl
@[simp] theorem syncRefs_table (db : Db) : (syncRefs db).table = db.table := rfl
@[simp] theorem syncRefs_pool (db : Db) : (syncRefs db).pool = db.pool := rfl
@[simp] theorem syncRefs_nextAddr (db : Db) : (syncRefs db).nextAddr = db.nextAddr := rfl

theorem syncRefs_bodies (db : Db) : SameBodies db (syncRefs db) := by
  intro a
  simp only [syncRefs, Option.map_map]
  congr 1
  funext e
  simp only [Function.comp_apply]
  split <;> rfl

theorem syncRefs_heapIdx {db : Db} {b : Nat} {e : Entry} (h : (syncRefs db).entries b = some e)
    (hb : b ∈ refs db.heap) : e.heapIdx = slotOf (syncRefs db).heap b := by
  obtain ⟨i, hi⟩ := Option.ne_none_iff_exists'.mp (mt slotOf_eq_none_iff.mp (not_not.mpr hb))
  simp only [syncRefs, hi, Option.map_eq_some'] at h
  obtain ⟨_, -, rfl⟩ := h
  exact hi.symm

theorem syncRefs_of_not_mem {db : Db} {b : Nat} (hb : b ∉ refs db.heap) :
    (syncRefs db).entries b = db.entries b := by
  simp only [syncRefs, slotOf_eq_none_iff.mpr hb]
  cases db.entries b <;> rfl

@[simp] theorem setEntry_entries (db : Db) (a b : Nat) (e : Entry) :
    (db.setEntry a e).entries b = if b = a then some e else db.entries b := rfl

/-- `db'` differs from `db` at most in the heap and the `heap_idx` fields. -/
structure HeapFrame (db db' : Db) : Prop where
  bodies : SameBodies db db'
  table : db'.table = db.table
  pool : db'.pool = db.pool
  nextAddr : db'.nextAddr = db.nextAddr

theorem HeapFrame.refl (db : Db) : HeapFrame db db := ⟨SameBodies.refl db, rfl, rfl, rfl⟩

theorem HeapFrame.syncRefs (db : Db) (h : List HeapItem) :
    HeapFrame db (syncRefs { db with heap := h }) := ⟨syncRefs_bodies _, rfl, rfl, rfl⟩

section HeapOps

variable (H : HeapUpdate)

theorem heapDelete_frame (db : Db) (p : Nat) : HeapFrame db (heapDelete H db p) := by
  dsimp only [heapDelete]
  split
  · exact HeapFrame.syncRefs _ _
  · exact ⟨fun _ => rfl, rfl, rfl, rfl⟩

theorem heapDelete_perm {db : Db} {p : Nat} {x : HeapItem} (hx : db.heap[p]? = some x) :
    db.heap.Perm (x :: (heapDelete H db p).heap) := by
  have hd := perm_deleteSlot default hx
  dsimp only [heapDelete]
  split
  · exact hd.trans ((H.perm _ _).symm.cons x)
  · exact hd

theorem heapDelete_ordered {db : Db} (p : Nat) (hh : IsMinHeap db.heap) :
    IsMinHeap (heapDelete H db p).heap := by
  dsimp only [heapDelete]
  split
  · rename_i hp
    refine H.ordered _ _ hp (hh.except fun i hi c hc => ?_)
    rw [List.getElem?_dropLast] at hc
    split_ifs at hc
    rwa [List.getElem?_set_ne (Ne.symm hi)] at hc
  · rename_i hp
    refine hh.mono fun i c hc => ?_
    rw [List.getElem?_dropLast] at hc
    split_ifs at hc with hi
    rw [List.length_dropLast] at hp
    rwa [List.getElem?_set_ne (by omega)] at hc

/-- After `heap_delete`, the `heap_idx` of every entry but the one whose item left names its
item. -/
theorem heapDelete_sync {db : Db} {p : Nat} {x : HeapItem} (hok : db.HeapOk)
    (hx : db.heap[p]? = some x) {b : Nat} {e : Entry} (hb : b ≠ x.ref)
    (he : (heapDelete H db p).entries b = some e) :
    e.heapIdx = slotOf (heapDelete H db p).heap b := by
  obtain ⟨hn', hby⟩ := byRef_remove hok.refs_nodup (heapDelete_perm H hx)
  have hmem : b ∈ refs (heapDelete H db p).heap ↔ b ∈ refs db.heap := by
    rw [mem_refs_iff, mem_refs_iff, hby, if_neg hb]
  revert he hn' hmem
  dsimp only [heapDelete]
  split
  · intro he hn' hmem
    by_cases hbm : b ∈ refs (H.update (db.heap.set p (db.heap.getLastD default)).dropLast p)
    · exact syncRefs_heapIdx he hbm
    · rw [syncRefs_of_not_mem hbm] at he
      rw [hok.sync b e he, slotOf_eq_none_iff.mpr (mt hmem.mpr hbm)]
      exact (slotOf_eq_none_iff.mpr hbm).symm
  · rename_i hp
    intro he hn' _
    rw [hok.sync b e he]
    refine slotOf_congr hok.refs_nodup hn' fun i it hit => ?_
    rw [List.getElem?_dropLast]
    have hpl := (List.getElem?_eq_some_iff.mp hx).1
    simp only [List.length_dropLast, List.length_set] at hp ⊢
    split_ifs with hi
    · rw [List.getElem?_set_ne (by omega)]
    · refine ⟨fun hh => ?_, fun hh => nomatch hh⟩
      have hip : i = p := by have := (List.getElem?_eq_some_iff.mp hh).1; omega
      subst hip
      rw [hx, Option.some.injEq] at hh
      exact absurd (hh ▸ hit) (Ne.symm hb)

/-- `heap_upsert` ends with the back-pointer writes of `heap_update`. -/
theorem heapUpsert_syncRefs (db : Db) (pos : Option Nat) (t : HeapItem) :
    ∃ h, heapUpsert H db pos t = syncRefs { db with heap := h } := by
  unfold heapUpsert
  split
  · split <;> exact ⟨_, rfl⟩
  · exact ⟨_, rfl⟩

theorem heapUpsert_frame (db : Db) (pos : Option Nat) (t : HeapItem) :
    HeapFrame db (heapUpsert H db pos t) := by
  obtain ⟨h, hh⟩ := heapUpsert_syncRefs H db pos t
  exact hh ▸ HeapFrame.syncRefs _ _

/-- `heap_upsert` at the slot of `t`'s entry puts `t` in the place of that entry's item. -/
theorem heapUpsert_byRef {db : Db} {t : HeapItem} (hok : db.HeapOk) :
    (refs (heapUpsert H db (slotOf db.heap t.ref) t).heap).Nodup ∧
      ∀ b, byRef (heapUpsert H db (slotOf db.heap t.ref) t).heap b =
        if b = t.ref then some t else byRef db.heap b := by
  unfold heapUpsert
  split
  · rename_i p hp
    obtain ⟨x, hx, hxt⟩ := (slotOf_eq_some_iff hok.refs_nodup).mp hp
    have hpl := (List.getElem?_eq_some_iff.mp hx).1
    rw [if_pos hpl]
    simp only [syncRefs_heap]
    obtain ⟨hnE, hE⟩ := byRef_remove hok.refs_nodup (perm_eraseIdx hx)
    have htE : t.ref ∉ refs (db.heap.eraseIdx p) := by
      rw [mem_refs_iff, hE, if_pos hxt.symm]
      simp
    obtain ⟨hn, hnew⟩ := byRef_insert hnE htE ((H.perm _ _).trans (perm_set_eraseIdx t hx))
    refine ⟨hn, fun b => ?_⟩
    rw [hnew, hE, hxt]
    by_cases hb : b = t.ref <;> simp [hb]
  · rename_i hp
    have ht : t.ref ∉ refs db.heap := slotOf_eq_none_iff.mp hp
    simp only [syncRefs_heap]
    exact byRef_insert hok.refs_nodup ht
      ((H.perm _ _).trans (List.perm_append_singleton t db.heap))

theorem heapUpsert_ordered {db : Db} {t : HeapItem} (hok : db.HeapOk) :
    IsMinHeap (heapUpsert H db (slotOf db.heap t.ref) t).heap := by
  have hpush : IsMinHeap (H.update (db.heap ++ [t]) db.heap.length) :=
    H.ordered _ _ (by simp) (hok.ordered.except fun i hi c hc => by
      rcases Nat.lt_or_ge i db.heap.length with hl | hl
      · rwa [List.getElem?_append_left hl] at hc
      · rw [List.getElem?_append_right hl] at hc
        have := (List.getElem?_eq_some_iff.mp hc).1
        simp only [List.length_singleton] at this
        omega)
  unfold heapUpsert
  split
  · split
    · rename_i p _ hp
      exact H.ordered _ _ (by simpa using hp) (hok.ordered.except fun i hi c hc => by
        rwa [List.getElem?_set_ne (Ne.symm hi)] at hc)
    · exact hpush
  · exact hpush

/-- After `heap_upsert`, every entry's `heap_idx` names its item. -/
theorem heapUpsert_sync {db : Db} {t : HeapItem} (hok : db.HeapOk) {b : Nat} {e : Entry}
    (he : (heapUpsert H db (slotOf db.heap t.ref) t).entries b = some e) :
    e.heapIdx = slotOf (heapUpsert H db (slotOf db.heap t.ref) t).heap b := by
  obtain ⟨-, hby⟩ := heapUpsert_byRef H (t := t) hok
  have hmem : b ∈ refs (heapUpsert H db (slotOf db.heap t.ref) t).heap ↔
      b = t.ref ∨ b ∈ refs db.heap := by
    rw [mem_refs_iff, mem_refs_iff, hby]
    by_cases hb : b = t.ref <;> simp [hb]
  obtain ⟨h, hh⟩ := heapUpsert_syncRefs H db (slotOf db.heap t.ref) t
  rw [hh] at he hmem ⊢
  by_cases hbm : b ∈ refs h
  · exact syncRefs_heapIdx he hbm
  · rw [syncRefs_of_not_mem hbm] at he
    have hold : b ∉ refs db.heap := fun hb' => hbm (hmem.mpr (.inr hb'))
    rw [hok.sync b e he, slotOf_eq_none_iff.mpr hold]
    exact (slotOf_eq_none_iff.mpr hbm).symm

/-- The item `entry_set_ttl(a, ttl)` leaves for `a` at clock reading `now`. -/
def ttlItem (a : Nat) (ttl : Int) (now : Nat) : Option HeapItem :=
  if ttl < 0 then none else some ⟨(now + ttl.toNat) % 2 ^ 64, a⟩

/-- `entry_set_ttl` on a live entry keeps the heap and the back-pointers in agreement, changes
nothing but the heap and the `heap_idx` fields, and replaces the item of its entry only. -/
theorem entrySetTtl_spec {db : Db} {a : Nat} (ttl : Int) (now : Nat) (hok : db.HeapOk)
    (ha : (db.entries a).isSome) :
    (db.entrySetTtl H a ttl now).HeapOk ∧ HeapFrame db (db.entrySetTtl H a ttl now) ∧
      ∀ b, byRef (db.entrySetTtl H a ttl now).heap b =
        if b = a then ttlItem a ttl now else byRef db.heap b := by
  obtain ⟨e, he⟩ := Option.isSome_iff_exists.mp ha
  have hsync := hok.sync a e he
  unfold entrySetTtl
  rw [he]
  dsimp only
  split_ifs with httl
  · split
    · rename_i p hi
      have hp : slotOf db.heap a = some p := hi ▸ hsync.symm
      obtain ⟨x, hx, rfl⟩ := (slotOf_eq_some_iff hok.refs_nodup).mp hp
      have hfr := heapDelete_frame H db p
      obtain ⟨hn1, hby1⟩ := byRef_remove hok.refs_nodup (heapDelete_perm H hx)
      obtain ⟨e1, he1⟩ := Option.isSome_iff_exists.mp ((hfr.bodies.isSome x.ref).trans ha)
      have hx1 : x.ref ∉ refs (heapDelete H db p).heap := by
        rw [mem_refs_iff, hby1, if_pos rfl]
        simp
      have hby : ∀ b, byRef (heapDelete H db p).heap b =
          if b = x.ref then ttlItem x.ref ttl now else byRef db.heap b := by
        simpa [ttlItem, httl] using hby1
      rw [he1]
      dsimp only
      refine ⟨⟨hn1, fun r hr => ?_, fun b e' hb => ?_, heapDelete_ordered H p hok.ordered⟩,
        ⟨fun b => ?_, hfr.table, hfr.pool, hfr.nextAddr⟩, hby⟩
      · have hr' : r ≠ x.ref := fun h => hx1 (h ▸ hr)
        have hr'' : r ∈ refs db.heap := by
          have h1 := hby1 r
          rw [if_neg hr'] at h1
          rw [mem_refs_iff, ← h1]
          exact mem_refs_iff.mp hr
        simpa [hr', hfr.bodies.isSome r] using hok.refs_live r hr''
      · simp only [setEntry_entries] at hb ⊢
        split_ifs at hb with hbx
        · subst hbx
          cases hb
          exact (slotOf_eq_none_iff.mpr hx1).symm
        · exact heapDelete_sync H hok hx hbx hb
      · simp only [setEntry_entries]
        split_ifs with hbx
        · subst hbx
          simpa [he1, Entry.body] using hfr.bodies x.ref
        · exact hfr.bodies b
    · rename_i hi
      have ha' : a ∉ refs db.heap := slotOf_eq_none_iff.mp (hi ▸ hsync.symm)
      refine ⟨hok, HeapFrame.refl _, fun b => ?_⟩
      split_ifs with hb
      · subst hb
        simpa [ttlItem, httl] using mt mem_refs_iff.mpr ha'
      · rfl
  · have hpos : e.heapIdx = slotOf db.heap (⟨(now + ttl.toNat) % 2 ^ 64, a⟩ : HeapItem).ref :=
      hsync
    rw [hpos]
    obtain ⟨hn, hby⟩ := heapUpsert_byRef H (t := ⟨(now + ttl.toNat) % 2 ^ 64, a⟩) hok
    have hfr := heapUpsert_frame H db (slotOf db.heap a) ⟨(now + ttl.toNat) % 2 ^ 64, a⟩
    refine ⟨⟨hn, fun r hr => ?_, fun b e' h => heapUpsert_sync H hok h, heapUpsert_ordered H hok⟩,
      hfr, fun b => by rw [hby]; simp [ttlItem, httl]⟩
    rw [hfr.bodies.isSome]
    rw [mem_refs_iff, hby] at hr
    split_ifs at hr with hra
    · exact hra ▸ ha
    · exact hok.refs_live r (mem_refs_iff.mpr hr)

/-- What `entry_del(a)` leaves: the heap without the item of `a`, the other entries as they
were (`heap_idx` apart), and `a` freed or queued to the thread pool. -/
structure Deleted (db db' : Db) (a : Nat) : Prop where
  heapOk : db'.HeapOk
  table : db'.table = db.table
  nextAddr : db'.nextAddr = db.nextAddr
  bodies : ∀ b, b ≠ a → (db'.entries b).map Entry.body = (db.entries b).map Entry.body
  items : ∀ b, byRef db'.heap b = if b = a then none else byRef db.heap b
  freed : (db'.entries a = none ∧ db'.pool = db.pool) ∨
    ((db'.entries a).isSome ∧ db'.pool = db.pool ++ [a])

theorem entryDel_spec {db : Db} {a : Nat} (now : Nat) (hok : db.HeapOk)
    (ha : (db.entries a).isSome) : Deleted db (db.entryDel H a now) a := by
  obtain ⟨hok1, hfr, hby⟩ := entrySetTtl_spec H (-1) now hok ha
  have hby' : ∀ b, byRef (db.entrySetTtl H a (-1) now).heap b =
      if b = a then none else byRef db.heap b := by
    simpa [ttlItem] using hby
  obtain ⟨e1, he1⟩ := Option.isSome_iff_exists.mp ((hfr.bodies.isSome a).trans ha)
  unfold entryDel
  dsimp only
  rw [he1]
  dsimp only
  generalize (if e1.type = ValueType.zset then e1.zset.size else 0) = setSize
  split_ifs
  · exact ⟨⟨hok1.1, hok1.2, hok1.3, hok1.4⟩, hfr.table, hfr.nextAddr, fun b _ => hfr.bodies b,
      hby', .inr ⟨by simp [he1], by simp [hfr.pool]⟩⟩
  · have ha1 : a ∉ refs (db.entrySetTtl H a (-1) now).heap := by
      rw [mem_refs_iff, hby', if_pos rfl]
      simp
    refine ⟨⟨hok1.refs_nodup, fun r hr => ?_, fun b e hb => ?_, hok1.ordered⟩, hfr.table,
      hfr.nextAddr, fun b hb => ?_, hby', .inl ⟨by simp, hfr.pool⟩⟩
    · have hra : r ≠ a := fun h => ha1 (h ▸ hr)
      simpa [hra] using hok1.refs_live r hr
    · dsimp only at hb
      split_ifs at hb
      exact hok1.sync b e hb
    · simp [hb, hfr.bodies b]

end HeapOps

/-! ## The invariant -/

theorem ent_eq {db : Db} {a : Nat} {e : Entry} (h : db.entries a = some e) : db.ent a = e := by
  simp [ent, h]

theorem ent_modify (db : Db) (a b : Nat) (f : Entry → Entry) :
    (db.modify a f).ent b = if b = a then f (db.ent a) else db.ent b := by
  unfold modify ent
  simp only [setEntry_entries]
  split_ifs <;> rfl

/-- Entries with the same body have the same key, type and values. -/
theorem ent_body {db db' : Db} {b : Nat}
    (h : (db'.entries b).map Entry.body = (db.entries b).map Entry.body) :
    (db'.ent b).body = (db.ent b).body := by
  unfold ent
  cases h₁ : db'.entries b <;> cases h₂ : db.entries b <;> simp_all [Entry.body]

theorem ent_key {db db' : Db} {b : Nat}
    (h : (db'.entries b).map Entry.body = (db.entries b).map Entry.body) :
    (db'.ent b).key = (db.ent b).key :=
  congrArg (·.key) (ent_body h)

theorem ent_type {db db' : Db} {b : Nat}
    (h : (db'.entries b).map Entry.body = (db.entries b).map Entry.body) :
    (db'.ent b).type = (db.ent b).type :=
  congrArg (·.type) (ent_body h)

@[simp] theorem unlink_entries (db : Db) (a : Nat) : (db.unlink a).entries = db.entries := rfl
@[simp] theorem unlink_heap (db : Db) (a : Nat) : (db.unlink a).heap = db.heap := rfl
@[simp] theorem unlink_table (db : Db) (a : Nat) : (db.unlink a).table = db.table.erase a := rfl
@[simp] theorem unlink_pool (db : Db) (a : Nat) : (db.unlink a).pool = db.pool := rfl
@[simp] theorem unlink_nextAddr (db : Db) (a : Nat) : (db.unlink a).nextAddr = db.nextAddr := rfl

theorem HeapOk.unlink {db : Db} (h : db.HeapOk) (a : Nat) : (db.unlink a).HeapOk :=
  ⟨h.1, h.2, h.3, h.4⟩

theorem keyIs_iff {db : Db} {k : List UInt8} {a : Nat} :
    db.keyIs k a = true ↔ ∃ e, db.entries a = some e ∧ e.key = k := by
  unfold keyIs
  split <;> simp_all

theorem hmLookup_some {db : Db} {k : List UInt8} {a : Nat} (h : db.hmLookup k = some a) :
    a ∈ db.table ∧ (db.entries a).isSome ∧ (db.ent a).key = k := by
  obtain ⟨e, he, rfl⟩ := keyIs_iff.mp (List.find?_some h)
  exact ⟨List.mem_of_find?_eq_some h, by simp [he], by rw [ent_eq he]⟩

theorem hmLookup_none {db : Db} {k : List UInt8} (h : db.hmLookup k = none)
    (hl : ∀ a ∈ db.table, (db.entries a).isSome) : ∀ a ∈ db.table, (db.ent a).key ≠ k := by
  intro a ha hk
  obtain ⟨e, he⟩ := Option.isSome_iff_exists.mp (hl a ha)
  exact List.find?_eq_none.mp h a ha (keyIs_iff.mpr ⟨e, he, by rw [← ent_eq he, hk]⟩)

/-- The invariant of the store part of `g_data`. -/
structure WF (db : Db) extends db.HeapOk : Prop where
  /-- Every node of the table is a live entry, of type `T_STR` or `T_ZSET`. -/
  table_live : ∀ a ∈ db.table, (db.entries a).isSome
  typed : ∀ a ∈ db.table, (db.ent a).type ≠ .init
  /-- No two entries of the table have the same key. -/
  keys_nodup : (db.table.map fun a => (db.ent a).key).Nodup
  /-- Every heap item points at an entry of the table. -/
  refs_table : ∀ a ∈ refs db.heap, a ∈ db.table
  /-- `new Entry()` returns an address no entry has. -/
  fresh : ∀ a, db.nextAddr ≤ a → db.entries a = none
  /-- The entries queued to the thread pool are allocated and out of the table. -/
  pool_live : ∀ a ∈ db.pool, (db.entries a).isSome
  pool_detached : ∀ a ∈ db.pool, a ∉ db.table

theorem WF.table_nodup {db : Db} (hw : db.WF) : db.table.Nodup := hw.keys_nodup.of_map _

theorem WF.lt_nextAddr {db : Db} (hw : db.WF) {a : Nat} (ha : (db.entries a).isSome) :
    a < db.nextAddr :=
  Nat.lt_of_not_le fun h => by simp [hw.fresh a h] at ha

theorem WF.empty : Db.empty.WF where
  refs_nodup := List.nodup_nil
  refs_live := by simp [refs, Db.empty]
  sync := by simp [Db.empty]
  ordered := fun _ _ _ _ _ hc => by simp [Db.empty] at hc
  table_live := by simp [Db.empty]
  typed := by simp [Db.empty]
  keys_nodup := List.nodup_nil
  refs_table := by simp [refs, Db.empty]
  fresh := by simp [Db.empty]
  pool_live := by simp [Db.empty]
  pool_detached := by simp [Db.empty]

/-- A step that changes only the heap and the `heap_idx` fields, keeps them in agreement and
points only at entries of the table keeps the invariant. -/
theorem WF.of_heapFrame {db db' : Db} (hw : db.WF) (hf : HeapFrame db db') (hok : db'.HeapOk)
    (hrefs : ∀ a ∈ refs db'.heap, a ∈ db.table) : db'.WF where
  toHeapOk := hok
  table_live a ha := by rw [hf.bodies.isSome]; exact hw.table_live a (hf.table ▸ ha)
  typed a ha := by
    rw [ent_type (hf.bodies a)]
    exact hw.typed a (hf.table ▸ ha)
  keys_nodup := by
    rw [hf.table, List.map_congr_left fun a _ => ent_key (hf.bodies a)]
    exact hw.keys_nodup
  refs_table a ha := hf.table ▸ hrefs a ha
  fresh a ha := by
    have := hf.bodies.isSome a
    rw [hw.fresh a (hf.nextAddr ▸ ha)] at this
    simpa using this
  pool_live a ha := by rw [hf.bodies.isSome]; exact hw.pool_live a (hf.pool ▸ ha)
  pool_detached a ha := hf.table ▸ hw.pool_detached a (hf.pool ▸ ha)

theorem WF.entrySetTtl {db : Db} (H : HeapUpdate) (hw : db.WF) {a : Nat} (ha : a ∈ db.table)
    (ttl : Int) (now : Nat) : (db.entrySetTtl H a ttl now).WF := by
  obtain ⟨hok, hf, hby⟩ := entrySetTtl_spec H ttl now hw.toHeapOk (hw.table_live a ha)
  refine hw.of_heapFrame hf hok fun r hr => ?_
  rw [mem_refs_iff, hby] at hr
  split_ifs at hr with hra
  · exact hra ▸ ha
  · exact hw.refs_table r (mem_refs_iff.mpr hr)

/-- Taking an entry of the table out of it and deleting it keeps the invariant. -/
theorem WF.delete {db : Db} (H : HeapUpdate) (hw : db.WF) {a : Nat} (ha : a ∈ db.table)
    (now : Nat) : ((db.unlink a).entryDel H a now).WF := by
  have hd : Deleted (db.unlink a) ((db.unlink a).entryDel H a now) a :=
    entryDel_spec H now (hw.toHeapOk.unlink a) (hw.table_live a ha)
  generalize (db.unlink a).entryDel H a now = db' at hd
  have hnd := hw.table_nodup
  have htab : db'.table = db.table.erase a := hd.table
  have hne : ∀ b ∈ db'.table, b ≠ a := fun b hb h => hnd.not_mem_erase (h ▸ htab ▸ hb)
  have hmem : ∀ b ∈ db'.table, b ∈ db.table := fun b hb => List.mem_of_mem_erase (htab ▸ hb)
  have hlive : ∀ b, b ≠ a → (db'.entries b).isSome = (db.entries b).isSome := fun b hb => by
    simpa using congrArg Option.isSome (hd.bodies b hb)
  have hpool : ∀ b ∈ db'.pool, b ∈ db.pool ∨ b = a := by
    rcases hd.freed with ⟨-, hp⟩ | ⟨-, hp⟩ <;> simp_all
  have hlt := hw.lt_nextAddr (hw.table_live a ha)
  refine ⟨hd.heapOk, fun b hb => ?_, fun b hb => ?_, ?_, fun r hr => ?_, fun b hb => ?_,
    fun b hb => ?_, fun b hb => ?_⟩
  · rw [hlive b (hne b hb)]
    exact hw.table_live b (hmem b hb)
  · rw [ent_type (hd.bodies b (hne b hb))]
    exact hw.typed b (hmem b hb)
  · rw [List.map_congr_left fun b hb => ent_key (hd.bodies b (hne b hb)), htab]
    exact hw.keys_nodup.sublist ((List.erase_sublist a _).map _)
  · have hby := hd.items r
    have hra : r ≠ a := fun h => by
      rw [mem_refs_iff, hby, if_pos h] at hr
      simp at hr
    rw [if_neg hra] at hby
    rw [htab, List.mem_erase_of_ne hra]
    exact hw.refs_table r (mem_refs_iff.mpr (hby ▸ mem_refs_iff.mp hr))
  · have hb' : db.nextAddr ≤ b := hd.nextAddr ▸ hb
    have := hlive b (by omega)
    rw [hw.fresh b hb'] at this
    simpa using this
  · rcases hpool b hb with hp | rfl
    · rw [hlive b fun h => hw.pool_detached b hp (h ▸ ha)]
      exact hw.pool_live b hp
    · rcases hd.freed with ⟨-, hp⟩ | ⟨hs, -⟩
      · exact absurd ha (hw.pool_detached b (by simpa [hp] using hb))
      · exact hs
  · rcases hpool b hb with hp | rfl
    · exact fun h => hw.pool_detached b hp (hmem b h)
    · exact fun h => hne b h rfl

@[simp] theorem modify_entries (db : Db) (a b : Nat) (f : Entry → Entry) :
    (db.modify a f).entries b = if b = a then some (f (db.ent a)) else db.entries b := rfl
@[simp] theorem modify_heap (db : Db) (a : Nat) (f : Entry → Entry) :
    (db.modify a f).heap = db.heap := rfl
@[simp] theorem modify_table (db : Db) (a : Nat) (f : Entry → Entry) :
    (db.modify a f).table = db.table := rfl
@[simp] theorem modify_pool (db : Db) (a : Nat) (f : Entry → Entry) :
    (db.modify a f).pool = db.pool := rfl
@[simp] theorem modify_nextAddr (db : Db) (a : Nat) (f : Entry → Entry) :
    (db.modify a f).nextAddr = db.nextAddr := rfl

/-- Changing the value of an entry of the table keeps the invariant. -/
theorem WF.modify {db : Db} (hw : db.WF) {a : Nat} (ha : a ∈ db.table) {f : Entry → Entry}
    (hk : (f (db.ent a)).key = (db.ent a).key) (hi : (f (db.ent a)).heapIdx = (db.ent a).heapIdx)
    (ht : (f (db.ent a)).type = (db.ent a).type) : (db.modify a f).WF := by
  obtain ⟨e, he⟩ := Option.isSome_iff_exists.mp (hw.table_live a ha)
  have hlt := hw.lt_nextAddr (hw.table_live a ha)
  refine ⟨⟨hw.refs_nodup, fun r hr => ?_, fun b e' hb => ?_, hw.ordered⟩, fun b hb => ?_,
    fun b hb => ?_, ?_, hw.refs_table, fun b hb => ?_, fun b hb => ?_, hw.pool_detached⟩
  · rw [modify_entries]
    split_ifs <;> simp [hw.refs_live r hr]
  · rw [modify_entries] at hb
    split_ifs at hb with hba
    · cases hb
      subst hba
      rw [hi, ent_eq he]
      exact hw.sync _ e he
    · exact hw.sync b e' hb
  · rw [modify_entries]
    split_ifs <;> simp [hw.table_live b hb]
  · rw [ent_modify]
    split_ifs with hba
    · rw [ht]
      exact hw.typed a ha
    · exact hw.typed b hb
  · have hkeys : ∀ b ∈ db.table, ((db.modify a f).ent b).key = (db.ent b).key := fun b _ => by
      rw [ent_modify]
      split_ifs with hba
      · rw [hba, hk]
      · rfl
    rw [modify_table, List.map_congr_left hkeys]
    exact hw.keys_nodup
  · rw [modify_entries, if_neg (by rw [modify_nextAddr] at hb; omega)]
    exact hw.fresh b hb
  · rw [modify_entries]
    split_ifs <;> simp [hw.pool_live b hb]

theorem addEntry_eq (db : Db) (t : ValueType) (f : Entry → Entry) :
    db.addEntry t f =
      (⟨fun b => if b = db.nextAddr then some (f (Entry.blank t)) else db.entries b,
        db.nextAddr + 1, db.nextAddr :: db.table, db.heap, db.pool⟩, db.nextAddr) := by
  simp only [addEntry, entryNew, modify, hmInsert, setEntry, ent, if_pos, Option.getD_some]
  congr 2
  funext b
  split_ifs <;> rfl

/-- A new entry, of a key no entry has, without deadline, keeps the invariant. -/
theorem WF.addEntry {db : Db} (hw : db.WF) {t : ValueType} {f : Entry → Entry}
    (hk : db.hmLookup (f (Entry.blank t)).key = none) (hi : (f (Entry.blank t)).heapIdx = none)
    (ht : (f (Entry.blank t)).type ≠ .init) : (db.addEntry t f).1.WF := by
  rw [addEntry_eq]
  have hn : db.entries db.nextAddr = none := hw.fresh _ le_rfl
  have hnt : db.nextAddr ∉ db.table := fun h => by simpa [hn] using hw.table_live _ h
  have hnr : db.nextAddr ∉ refs db.heap := fun h => hnt (hw.refs_table _ h)
  have hent : ∀ b ∈ db.table, b ≠ db.nextAddr := fun b hb h => hnt (h ▸ hb)
  refine ⟨⟨hw.refs_nodup, fun r hr => ?_, fun b e hb => ?_, hw.ordered⟩, fun b hb => ?_,
    fun b hb => ?_, ?_, fun r hr => .tail _ (hw.refs_table r hr), fun b hb => ?_, fun b hb => ?_,
    fun b hb => ?_⟩
  · dsimp only
    split_ifs <;> simp [hw.refs_live r hr]
  · dsimp only at hb ⊢
    split_ifs at hb with hba
    · cases hb
      rw [hi, hba]
      exact (slotOf_eq_none_iff.mpr hnr).symm
    · exact hw.sync b e hb
  · dsimp only
    split_ifs
    · rfl
    · exact hw.table_live b (List.mem_of_ne_of_mem ‹_› hb)
  · simp only [ent]
    split_ifs with hba
    · exact ht
    · exact hw.typed b (List.mem_of_ne_of_mem hba hb)
  · simp only [ent, List.map_cons, if_pos, Option.getD_some]
    rw [List.map_congr_left fun b hb => by rw [if_neg (hent b hb)]]
    exact List.nodup_cons.mpr ⟨fun h => by
      obtain ⟨b, hb, hbk⟩ := List.mem_map.mp h
      exact hmLookup_none hk hw.table_live b hb hbk, hw.keys_nodup⟩
  · dsimp only at hb ⊢
    rw [if_neg (by omega)]
    exact hw.fresh b (by omega)
  · dsimp only
    split_ifs <;> simp [hw.pool_live b hb]
  · intro h
    rcases List.mem_cons.mp h with rfl | h
    · exact absurd (hw.pool_live _ hb) (by simp [hn])
    · exact hw.pool_detached b hb h

theorem expectZset_some {db : Db} {k : List UInt8} {a : Nat}
    (h : db.expectZset k = some (some a)) : a ∈ db.table ∧ (db.ent a).type = .zset := by
  unfold expectZset at h
  split at h
  · cases h
  · rename_i b hb
    split_ifs at h with ht
    cases h
    exact ⟨(hmLookup_some hb).1, ht⟩

/-- The TTL loop deletes the entry of the heap's first item: that entry is live and its node
is in the table, so neither the read of `container_of(heap[0].ref)` nor the assertion fails. -/
theorem expireTop_eq (H : HeapUpdate) (now : Nat) {db : Db} (hw : db.WF) {top : HeapItem}
    (htop : top ∈ db.heap) :
    db.expireTop H top now = some ((db.unlink top.ref).entryDel H top.ref now) := by
  have hr : top.ref ∈ db.table := hw.refs_table _ (List.mem_map_of_mem _ htop)
  obtain ⟨e, he⟩ := Option.isSome_iff_exists.mp (hw.table_live _ hr)
  simp [expireTop, he, hmDeleteNode, hr]

end Db

/-! ## Every handler keeps the invariant -/

section Handlers

variable (H : HeapUpdate) (now : Nat)

theorem doSet_wf {db : Db} (hw : db.WF) (cmd : Cmd) : (doSet db cmd).1.WF := by
  unfold doSet
  split
  · rename_i a ha
    split_ifs with ht
    · exact hw
    · dsimp only
      exact hw.modify (Db.hmLookup_some ha).1 rfl rfl rfl
  · exact hw.addEntry ‹_› rfl (by simp [Entry.blank])

theorem doDel_wf {db : Db} (hw : db.WF) (cmd : Cmd) : (doDel H now db cmd).1.WF := by
  unfold doDel Db.hmDelete
  split <;> rename_i h
  · split at h
    · cases h
      exact hw.delete H (Db.hmLookup_some ‹_›).1 now
    · cases h
  · split at h
    · cases h
    · cases h
      exact hw

theorem doExpire_wf {db : Db} (hw : db.WF) (cmd : Cmd) : (doExpire H now db cmd).1.WF := by
  unfold doExpire
  split
  · exact hw
  · split
    · exact hw.entrySetTtl H (Db.hmLookup_some ‹_›).1 _ now
    · exact hw

theorem zaddTo_wf {db : Db} (hw : db.WF) {a : Nat} (ha : a ∈ db.table) (name : List UInt8)
    (score : F64) : (zaddTo db a name score).1.WF := by
  rcases h : (db.ent a).zset.insert name score with ⟨z, added⟩
  simp only [zaddTo, h]
  exact hw.modify ha rfl rfl rfl

theorem doZadd_wf {db : Db} (hw : db.WF) (cmd : Cmd) : (doZadd db cmd).1.WF := by
  unfold doZadd
  split
  · exact hw
  · split
    · rename_i hk
      have hw' : (db.addEntry .zset fun e => { e with key := arg cmd 1 }).1.WF :=
        hw.addEntry hk rfl (by simp [Entry.blank])
      rw [Db.addEntry_eq] at hw' ⊢
      exact zaddTo_wf hw' (.head _) _ _
    · rename_i a ha
      split_ifs
      · exact hw
      · exact zaddTo_wf hw (Db.hmLookup_some ha).1 _ _

theorem doZrem_wf {db : Db} (hw : db.WF) (cmd : Cmd) : (doZrem db cmd).1.WF := by
  unfold doZrem
  split
  · exact hw
  · rename_i zs hz
    split
    · cases zs with
      | none => exact hw
      | some a =>
        dsimp only [Db.zsetDelete]
        exact hw.modify (Db.expectZset_some hz).1 rfl rfl rfl
    · exact hw

/-- Every branch of `do_request` keeps the store invariant. -/
theorem exec_wf {db : Db} (hw : db.WF) (cmd : Cmd) : (exec H now db cmd).1.WF := by
  unfold exec
  split
  · exact hw
  · exact doSet_wf hw cmd
  · exact doDel_wf H now hw cmd
  · exact doExpire_wf H now hw cmd
  · exact hw
  · exact hw
  · exact doZadd_wf hw cmd
  · exact doZrem_wf hw cmd
  · exact hw
  · exact hw
  · exact hw
  · exact hw

end Handlers

/-! ## The TTL loop -/

section Timers

variable (H : HeapUpdate) (now : Nat)

/-- Every run of the TTL loop returns, and keeps the invariant. -/
theorem expireLoop_wf {fuel nworks : Nat} {db : Db} (hw : db.WF) :
    ∃ db', Db.expireLoop H now fuel nworks db = some db' ∧ db'.WF := by
  induction fuel generalizing nworks db with
  | zero => exact ⟨db, rfl, hw⟩
  | succ fuel ih =>
    unfold Db.expireLoop
    split
    · exact ⟨db, rfl, hw⟩
    · rename_i top rest hheap
      have htop : top ∈ db.heap := hheap ▸ List.mem_cons_self top rest
      by_cases hlt : top.val < now
      · rw [if_pos hlt, Db.expireTop_eq H now hw htop]
        have hw' := hw.delete H (hw.refs_table _ (List.mem_map_of_mem _ htop)) now
        simp only [Option.bind_eq_bind, Option.some_bind]
        split_ifs
        · exact ⟨_, rfl, hw'⟩
        · exact ih hw'
      · rw [if_neg hlt]
        exact ⟨db, rfl, hw⟩

theorem processTtl_wf {db : Db} (hw : db.WF) :
    ∃ db', Db.processTtl H db now = some db' ∧ db'.WF :=
  expireLoop_wf H now hw

end Timers

/-! ## Reachable stores -/

/-- The stores the server reaches from the empty one: `do_request` and the TTL part of
`process_timers`, at any clock readings. -/
inductive Db.Reachable (H : HeapUpdate) : Db → Prop
  | empty : Db.Reachable H Db.empty
  | exec {db : Db} (now : Nat) (cmd : Cmd) : Db.Reachable H db → Db.Reachable H (exec H now db cmd).1
  | timers {db db' : Db} (now : Nat) :
    Db.Reachable H db → Db.processTtl H db now = some db' → Db.Reachable H db'

theorem Db.Reachable.wf {H : HeapUpdate} {db : Db} (h : db.Reachable H) : db.WF := by
  induction h with
  | empty => exact Db.WF.empty
  | exec now cmd _ ih => exact exec_wf H now ih cmd
  | timers now _ hp ih =>
    obtain ⟨db', h', hw'⟩ := processTtl_wf H now ih
    exact (Option.some.inj (hp.symm.trans h')) ▸ hw'

/-- The invariant of every reachable store, in the terms of the C++ objects: no two entries of
`g_data.db` have the same key; every heap slot points at an entry of the table whose
`heap_idx` is that slot; every entry with a `heap_idx` finds its item there; the heap is a
min-heap. Hence `process_timers` returns (`container_of(heap[0].ref)` is a live entry of the
table and `assert(node == &ent->node)` holds), and no entry handed to `entry_del`, freed or
queued, is reachable from the table or the heap. -/
theorem reachable_store_invariant {H : HeapUpdate} {db : Db} (hr : db.Reachable H) :
    (db.table.map fun a => (db.ent a).key).Nodup ∧
    (∀ i it, db.heap[i]? = some it →
      it.ref ∈ db.table ∧ ∃ e, db.entries it.ref = some e ∧ e.heapIdx = some i) ∧
    (∀ a ∈ db.table, ∀ e i, db.entries a = some e → e.heapIdx = some i →
      ∃ it, db.heap[i]? = some it ∧ it.ref = a) ∧
    IsMinHeap db.heap ∧
    (∀ now, ∃ db', db.processTtl H now = some db') ∧
    (∀ a, db.entries a = none ∨ a ∈ db.pool → a ∉ db.table ∧ a ∉ refs db.heap) := by
  have hw := hr.wf
  refine ⟨hw.keys_nodup, fun i it hi => ?_, fun a _ e i he hei => ?_, hw.ordered,
    fun now => (processTtl_wf H now hw).imp fun _ h => h.1, fun a ha => ?_⟩
  · have hmem : it.ref ∈ db.table :=
      hw.refs_table _ (List.mem_map_of_mem _ (List.getElem?_mem hi))
    obtain ⟨e, he⟩ := Option.isSome_iff_exists.mp (hw.table_live _ hmem)
    exact ⟨hmem, e, he, (hw.sync _ e he).trans
      ((slotOf_eq_some_iff hw.refs_nodup).mpr ⟨it, hi, rfl⟩)⟩
  · exact (slotOf_eq_some_iff hw.refs_nodup).mp ((hw.sync a e he).symm.trans hei)
  · have hnt : a ∉ db.table := by
      rcases ha with ha | ha
      · exact fun h => by simpa [ha] using hw.table_live a h
      · exact hw.pool_detached a ha
    exact ⟨hnt, fun h => hnt (hw.refs_table a h)⟩

/-- `set a v`, `pexpire a 10`, `set b v` and `pexpire b 5` at 0 ms, then a TTL pass at 7 ms,
which deletes `b`: the heap holds the item of `a`, and `b`'s entry is freed. -/
theorem reachable_store_invariant_ttl :
    ∃ db : Db, db.Reachable HeapUpdate.sorted ∧ db.heap.length = 1 ∧ (db.entries 1).isNone ∧
      ((db.table.map fun a => (db.ent a).key).Nodup ∧
      (∀ i it, db.heap[i]? = some it →
        it.ref ∈ db.table ∧ ∃ e, db.entries it.ref = some e ∧ e.heapIdx = some i) ∧
      (∀ a ∈ db.table, ∀ e i, db.entries a = some e → e.heapIdx = some i →
        ∃ it, db.heap[i]? = some it ∧ it.ref = a) ∧
      IsMinHeap db.heap ∧
      (∀ now, ∃ db', db.processTtl HeapUpdate.sorted now = some db') ∧
      (∀ a, db.entries a = none ∨ a ∈ db.pool → a ∉ db.table ∧ a ∉ refs db.heap)) := by
  have hr := (((((Db.Reachable.empty (H := HeapUpdate.sorted)).exec 0
    [ascii "set", ascii "a", ascii "v"]).exec 0 [ascii "pexpire", ascii "a", ascii "10"]).exec 0
    [ascii "set", ascii "b", ascii "v"]).exec 0 [ascii "pexpire", ascii "b", ascii "5"]).timers 7 rfl
  exact ⟨_, hr, rfl, rfl, reachable_store_invariant hr⟩

end KvServer
