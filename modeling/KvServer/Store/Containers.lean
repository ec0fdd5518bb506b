import KvServer.Codec.Numeric

/-!
# The containers the store is built on

`hashtable.h`, `zset.h` and `heap.h` are not part of the sources; the spec gives their
contracts (section 6) and this module models them from it.

* The sorted set is its list of members, names unique, ordered for range queries by
  `(score, name)`.
* The TTL heap is a list of `HeapItem`s. `heap_update` is a parameter, `HeapUpdate`: any
  function that permutes the items and turns an array that is a min-heap except at one
  position into a min-heap meets the contract. `HeapUpdate.sorted` is one.
* The hash table of entries is a list of entry addresses (in `Store.Db`).
-/

namespace KvServer

/-! ## Scores -/

namespace F64

/-- The sign bit. -/
def sign (d : F64) : Bool := 2 ^ 63 ≤ d.bits.toNat

/-- A key whose integer order is the IEEE-754 order of non-NaN doubles, `-0` equal to `+0`. -/
def orderKey (d : F64) : Int :=
  if d.sign then -((d.bits.toNat - 2 ^ 63 : Nat) : Int) else (d.bits.toNat : Int)

/-- `a < b` on doubles that are not NaN. -/
def lt (a b : F64) : Bool := a.orderKey < b.orderKey

/-- `a != b` on doubles that are not NaN. -/
def ne (a b : F64) : Bool := a.orderKey != b.orderKey

end F64

/-! ## The sorted set -/

/-- A member of a sorted set: `ZNode`'s name and score. -/
structure ZNode where
  name : List UInt8
  score : F64
  deriving DecidableEq, Repr

/-- Lexicographic order on byte strings: `memcmp` on the common length, then the length. -/
def bytesLt : List UInt8 → List UInt8 → Bool
  | [], [] => false
  | [], _ :: _ => true
  | _ :: _, [] => false
  | a :: as, b :: bs => if a = b then bytesLt as bs else a < b

/-- The order of a sorted set: score, then name. -/
def zless (a b : ZNode) : Bool :=
  if a.score.ne b.score then a.score.lt b.score else bytesLt a.name b.name

/-- Modelled from the spec: a sorted set (`ZSet` of `zset.h`), as its members. -/
structure ZSet where
  members : List ZNode
  deriving DecidableEq, Repr

namespace ZSet

/-- An empty sorted set, `k_empty_zset`. -/
def empty : ZSet := ⟨[]⟩

/-- Modelled from the spec: `zset_lookup(name)`. -/
def lookup (z : ZSet) (name : List UInt8) : Option ZNode := z.members.find? (·.name == name)

/-- Modelled from the spec: `zset_insert(name, score)`, `true` when the member is new; an
existing member gets the new score. -/
def insert (z : ZSet) (name : List UInt8) (score : F64) : ZSet × Bool :=
  match z.lookup name with
  | some _ => (⟨z.members.map fun n => if n.name = name then { n with score } else n⟩, false)
  | none => (⟨z.members ++ [⟨name, score⟩]⟩, true)

/-- Modelled from the spec: `zset_delete` of the member called `name`. -/
def delete (z : ZSet) (name : List UInt8) : ZSet := ⟨z.members.filter (·.name != name)⟩

/-- `hm_size(&zset.hmap)`: the number of members. -/
def size (z : ZSet) : Nat := z.members.length

/-- The members in `(score, name)` order: the in-order walk of the tree. -/
def sorted (z : ZSet) : List ZNode := z.members.mergeSort fun a b => !zless b a

/-- Modelled from the spec: `zset_seekge(score, name)`, as a rank in `sorted`: the first
member at or after `(score, name)`. -/
def seekGe (z : ZSet) (score : F64) (name : List UInt8) : Option Nat :=
  z.sorted.findIdx? fun n => !zless n ⟨name, score⟩

/-- Modelled from the spec: `znode_offset(node, delta)`, the member `delta` ranks away. -/
def offset (z : ZSet) (node : Option Nat) (delta : Int) : Option Nat :=
  node.bind fun r =>
    let r' := (r : Int) + delta
    if 0 ≤ r' ∧ r' < z.size then some r'.toNat else none

end ZSet

/-! ## The TTL heap -/

/-- `HeapItem`: a deadline and the address of the entry whose `heap_idx` field `ref`
points to. -/
structure HeapItem where
  val : Nat
  ref : Nat
  deriving DecidableEq, Repr, Inhabited

/-- The parent of a heap position. -/
def heapParent (i : Nat) : Nat := (i + 1) / 2 - 1

theorem heapParent_lt {i : Nat} (h : 0 < i) : heapParent i < i := by
  unfold heapParent; omega

/-- Every item is at or after its parent. -/
def IsMinHeap (a : List HeapItem) : Prop :=
  ∀ i p c, 0 < i → a[heapParent i]? = some p → a[i]? = some c → p.val ≤ c.val

/-- A min-heap except at `pos`: every parent and child pair off `pos` is in order, and the
children of `pos` are at or after its parent. `heap_update(a, pos, len)` starts from this. -/
def HeapExcept (a : List HeapItem) (pos : Nat) : Prop :=
  (∀ i p c, 0 < i → i ≠ pos → heapParent i ≠ pos →
    a[heapParent i]? = some p → a[i]? = some c → p.val ≤ c.val) ∧
  (∀ i g c, 0 < i → heapParent i = pos → 0 < pos →
    a[heapParent pos]? = some g → a[i]? = some c → g.val ≤ c.val)

/-- Modelled from the spec: `heap_update(a, pos, len)` of `heap.h`, by its contract. It
moves items only, and it leaves a min-heap when the array was one except at `pos`. Writing
back each moved item's position through its `ref` is done by the caller's model,
`Db.syncRefs`. -/
structure HeapUpdate where
  update : List HeapItem → Nat → List HeapItem
  perm : ∀ a pos, (update a pos).Perm a
  ordered : ∀ a pos, pos < a.length → HeapExcept a pos → IsMinHeap (update a pos)

/-- Sorting the array by deadline meets the contract of `heap_update`. The sort is insertion
sort, structurally recursive, so that runs of the store on concrete commands evaluate. -/
def HeapUpdate.sorted : HeapUpdate where
  update a _ := a.insertionSort fun x y => x.val ≤ y.val
  perm a _ := List.perm_insertionSort _ a
  ordered a _ _ _ := by
    intro i p c hi hp hc
    have : IsTotal HeapItem fun x y => x.val ≤ y.val := ⟨fun x y => le_total x.val y.val⟩
    have : IsTrans HeapItem fun x y => x.val ≤ y.val := ⟨fun _ _ _ => le_trans⟩
    have hs := List.pairwise_iff_getElem.mp
      (List.sorted_insertionSort (fun x y : HeapItem => x.val ≤ y.val) a)
    obtain ⟨hlt, rfl⟩ := List.getElem?_eq_some_iff.mp hc
    obtain ⟨hplt, rfl⟩ := List.getElem?_eq_some_iff.mp hp
    simpa using hs _ _ hplt hlt (heapParent_lt hi)

end KvServer
