import KvServer.Store.Containers

/-!
# Entries, the key table and the TTL heap

The store part of `g_data`: the `Entry` objects on the C++ heap, the hash table `db` of
their nodes, the TTL heap `heap` whose items point back at the entries' `heap_idx` fields,
and the entries handed to the thread pool for destruction.

An entry is identified by its address. The table holds addresses, a heap item's `ref` is the
address of the entry whose `heap_idx` it points to, and `new Entry()` returns a fresh
address; the model never reuses an address, which a C++ allocator may do.
-/

namespace KvServer

/-- `T_INIT`, `T_STR`, `T_ZSET`. -/
inductive ValueType
  | init
  | str
  | zset
  deriving DecidableEq, Repr

/-- `struct Entry`, without its hash-table node (the node is the entry's address). -/
structure Entry where
  key : List UInt8
  /-- `heap_idx`; `none` is `(size_t)-1`. -/
  heapIdx : Option Nat
  type : ValueType
  str : List UInt8
  zset : ZSet

/-- A `new Entry()` of type `type`. -/
def Entry.blank (type : ValueType) : Entry := ⟨[], none, type, [], ZSet.empty⟩

/-- The store part of `g_data`. -/
structure Db where
  /-- The live `Entry` objects, by address. -/
  entries : Nat → Option Entry
  /-- The address the next `new Entry()` returns. -/
  nextAddr : Nat
  /-- `g_data.db`: the addresses of the entries whose nodes are in the hash table. -/
  table : List Nat
  /-- `g_data.heap`. -/
  heap : List HeapItem
  /-- Entries queued to the thread pool's destructor. -/
  pool : List Nat

/-- `k_max_works`. -/
def kMaxWorks : Nat := 2000

/-- `k_large_container_size`. -/
def kLargeContainerSize : Nat := 1000

/-- The slot of the heap item that points at the entry at `a`. -/
def slotOf (heap : List HeapItem) (a : Nat) : Option Nat := heap.findIdx? (·.ref == a)

namespace Db

/-- The empty store. -/
def empty : Db := ⟨fun _ => none, 0, [], [], []⟩

/-- Overwrite the entry at `a`. -/
def setEntry (db : Db) (a : Nat) (e : Entry) : Db :=
  { db with entries := fun b => if b = a then some e else db.entries b }

/-- `container_of(node, Entry, node)`: the entry at `a`. The table and the heap hold only
addresses of live entries (`Db.WF`); a dangling address would read as a blank entry. -/
def ent (db : Db) (a : Nat) : Entry := (db.entries a).getD (Entry.blank .init)

/-- Change the entry at `a`. -/
def modify (db : Db) (a : Nat) (f : Entry → Entry) : Db := db.setEntry a (f (db.ent a))

/-- `entry_new(type)`: a new entry at a fresh address. -/
def entryNew (db : Db) (type : ValueType) : Db × Nat :=
  let db' := db.setEntry db.nextAddr (Entry.blank type)
  ({ db' with nextAddr := db.nextAddr + 1 }, db.nextAddr)

/-- `entry_eq` against a key. -/
def keyIs (db : Db) (key : List UInt8) (a : Nat) : Bool :=
  match db.entries a with
  | some e => e.key == key
  | none => false

/-- Modelled from the spec: `hm_lookup(&db, key, &entry_eq)`. -/
def hmLookup (db : Db) (key : List UInt8) : Option Nat := db.table.find? (db.keyIs key)

/-- Modelled from the spec: `hm_insert(&db, node)`. -/
def hmInsert (db : Db) (a : Nat) : Db := { db with table := a :: db.table }

/-- `entry_new(type)`, the writes `f` to the new entry's fields, then `hm_insert` of its
node: a new entry in the table. -/
def addEntry (db : Db) (type : ValueType) (f : Entry → Entry) : Db × Nat :=
  let (db, a) := db.entryNew type
  ((db.modify a f).hmInsert a, a)

/-- Take the node of the entry at `a` out of the table. -/
def unlink (db : Db) (a : Nat) : Db := { db with table := db.table.erase a }

/-- Modelled from the spec: `hm_delete(&db, key, &entry_eq)`. -/
def hmDelete (db : Db) (key : List UInt8) : Db × Option Nat :=
  match db.hmLookup key with
  | some a => (db.unlink a, some a)
  | none => (db, none)

/-- Modelled from the spec: `hm_delete(&db, &ent->node, &hnode_same)`. -/
def hmDeleteNode (db : Db) (a : Nat) : Db × Option Nat :=
  if a ∈ db.table then (db.unlink a, some a) else (db, none)

/-- The back-pointer writes of `heap_update`: for every slot `i`, `*heap[i].ref = i`. -/
def syncRefs (db : Db) : Db :=
  { db with entries := fun a => (db.entries a).map fun e =>
      match slotOf db.heap a with
      | some i => { e with heapIdx := some i }
      | none => e }

/-- `heap_delete(heap, pos)`: move the last item to `pos`, drop the last slot, and sift. -/
def heapDelete (H : HeapUpdate) (db : Db) (pos : Nat) : Db :=
  let a := (db.heap.set pos (db.heap.getLastD default)).dropLast
  if pos < a.length then syncRefs { db with heap := H.update a pos } else { db with heap := a }

/-- `heap_upsert(heap, pos, t)`: overwrite slot `pos` if there is one, else push, and sift. -/
def heapUpsert (H : HeapUpdate) (db : Db) (pos : Option Nat) (t : HeapItem) : Db :=
  match pos with
  | some p =>
    if p < db.heap.length then syncRefs { db with heap := H.update (db.heap.set p t) p }
    else syncRefs { db with heap := H.update (db.heap ++ [t]) db.heap.length }
  | none => syncRefs { db with heap := H.update (db.heap ++ [t]) db.heap.length }

/-- `entry_set_ttl(ent, ttl_ms)` at clock reading `now`: a negative TTL removes the entry's
heap item, any other sets its deadline to `now + ttl_ms` in `uint64_t` arithmetic. -/
def entrySetTtl (H : HeapUpdate) (db : Db) (a : Nat) (ttl : Int) (now : Nat) : Db :=
  match db.entries a with
  | none => db
  | some e =>
    if ttl < 0 then
      match e.heapIdx with
      | some p =>
        let db := heapDelete H db p
        match db.entries a with
        | some e => db.setEntry a { e with heapIdx := none }
        | none => db
      | none => db
    else heapUpsert H db e.heapIdx ⟨(now + ttl.toNat) % 2 ^ 64, a⟩

/-- `entry_del(ent)`: leave the heap, then free the entry, or queue it to the thread pool
when it is a sorted set of more than `k_large_container_size` members. -/
def entryDel (H : HeapUpdate) (db : Db) (a : Nat) (now : Nat) : Db :=
  let db := db.entrySetTtl H a (-1) now
  match db.entries a with
  | none => db
  | some e =>
    let setSize := if e.type = .zset then e.zset.size else 0
    if setSize > kLargeContainerSize then { db with pool := db.pool ++ [a] }
    else { db with entries := fun b => if b = a then none else db.entries b }

/-- One iteration of the TTL loop of `process_timers`: the entry of `heap[0]` leaves the
table (`assert(node == &ent->node)`) and is deleted. `none` when the item points at no live
entry (undefined behaviour) or the assertion fails. -/
def expireTop (H : HeapUpdate) (db : Db) (top : HeapItem) (now : Nat) : Option Db :=
  match db.entries top.ref with
  | none => none
  | some _ =>
    match db.hmDeleteNode top.ref with
    | (db, some a) => if a = top.ref then some (db.entryDel H a now) else none
    | (_, none) => none

/-- The TTL loop of `process_timers` with `nworks` deletions done; `fuel` bounds the
iterations, and `k_max_works + 1` is never exhausted. -/
def expireLoop (H : HeapUpdate) (now : Nat) : Nat → Nat → Db → Option Db
  | 0, _, db => some db
  | fuel + 1, nworks, db =>
    match db.heap with
    | [] => some db
    | top :: _ =>
      if top.val < now then do
        let db ← db.expireTop H top now
        if nworks ≥ kMaxWorks then some db else expireLoop H now fuel (nworks + 1) db
      else some db

/-- The TTL part of `process_timers` at clock reading `now`. -/
def processTtl (H : HeapUpdate) (db : Db) (now : Nat) : Option Db :=
  expireLoop H now (kMaxWorks + 1) 0 db

end Db

end KvServer
