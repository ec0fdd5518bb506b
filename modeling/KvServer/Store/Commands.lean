import KvServer.Codec.Response
import KvServer.Store.Db

/-!
# The command handlers

`do_get` … `do_zquery` of `server.cpp` on the store, each returning the store after it and
the serialisation calls it makes; `route` is the dispatch of `do_request`, and `exec` the store
part of `do_request` (its AOF hooks are in `Aof.Log`).

Every handler is called with the arity `do_request` checked, so `arg cmd i` is `cmd[i]`. The
handlers `swap` arguments out of `cmd`; `do_request` logs the command before that, and reads
nothing of it after, so the model passes `cmd` by value. One clock reading `now` stands for
every `get_monotonic_msec()` of one request.
-/

namespace KvServer

/-- `cmd[i]`. -/
def arg (cmd : Cmd) (i : Nat) : List UInt8 := cmd.getD i []

namespace Db

/-- `expect_zset(s)`: `some none` for `&k_empty_zset` (a missing key), `some (some a)` for
the sorted set of the entry at `a`, `none` (the null pointer) for an entry of another type. -/
def expectZset (db : Db) (key : List UInt8) : Option (Option Nat) :=
  match db.hmLookup key with
  | none => some none
  | some a => if (db.ent a).type = .zset then some (some a) else none

/-- The sorted set a result of `expect_zset` points to. -/
def zsetOf (db : Db) : Option Nat → ZSet
  | none => ZSet.empty
  | some a => (db.ent a).zset

/-- `zset_delete` of the member `name` of the sorted set a result of `expect_zset` points
to; `k_empty_zset` has no member. -/
def zsetDelete (db : Db) : Option Nat → List UInt8 → Db
  | none, _ => db
  | some a, name => db.modify a fun e => { e with zset := e.zset.delete name }

end Db

section Handlers

variable (H : HeapUpdate) (now : Nat)

/-- `do_get`. -/
def doGet (db : Db) (cmd : Cmd) : List Out :=
  match db.hmLookup (arg cmd 1) with
  | none => [.nil]
  | some a =>
    if (db.ent a).type ≠ .str then [.err errBadTyp (ascii "not a string value")]
    else [.str (db.ent a).str]

/-- `do_set`. -/
def doSet (db : Db) (cmd : Cmd) : Db × List Out :=
  match db.hmLookup (arg cmd 1) with
  | some a =>
    if (db.ent a).type ≠ .str then (db, [.err errBadTyp (ascii "a non-string value exists")])
    else (db.modify a fun e => { e with str := arg cmd 2 }, [.nil])
  | none => ((db.addEntry .str fun e => { e with key := arg cmd 1, str := arg cmd 2 }).1, [.nil])

/-- `do_del`. -/
def doDel (db : Db) (cmd : Cmd) : Db × List Out :=
  match db.hmDelete (arg cmd 1) with
  | (db, some a) => (db.entryDel H a now, [.int 1])
  | (db, none) => (db, [.int 0])

/-- `do_expire` (`pexpire key ttl_ms`). -/
def doExpire (db : Db) (cmd : Cmd) : Db × List Out :=
  match str2int (arg cmd 2) with
  | none => (db, [.err errBadArg (ascii "expect int64")])
  | some ttl =>
    match db.hmLookup (arg cmd 1) with
    | some a => (db.entrySetTtl H a ttl now, [.int 1])
    | none => (db, [.int 0])

/-- `do_ttl` (`pttl key`): the `uint64_t` difference is written by `out_int` as the
`int64_t` it converts to, which `i64Bytes` does. -/
def doTtl (db : Db) (cmd : Cmd) : List Out :=
  match db.hmLookup (arg cmd 1) with
  | none => [.int (-2)]
  | some a =>
    match (db.ent a).heapIdx with
    | none => [.int (-1)]
    | some i =>
      let expireAt := (db.heap.getD i default).val
      [.int (if expireAt > now then ((expireAt - now : Nat) : Int) else 0)]

/-- `do_keys`: the count, then every key in the order `hm_foreach` visits the table. -/
def doKeys (db : Db) : List Out :=
  .arr db.table.length :: db.table.map fun a => .str (db.ent a).key

/-- The tail of `do_zadd`: `zset_insert` into the sorted set of the entry at `a`. -/
def zaddTo (db : Db) (a : Nat) (name : List UInt8) (score : F64) : Db × List Out :=
  let (z, added) := (db.ent a).zset.insert name score
  (db.modify a fun e => { e with zset := z }, [.int (if added then 1 else 0)])

/-- `do_zadd` (`zadd key score name`). -/
def doZadd (db : Db) (cmd : Cmd) : Db × List Out :=
  match str2dbl (arg cmd 2) with
  | none => (db, [.err errBadArg (ascii "expect float")])
  | some score =>
    match db.hmLookup (arg cmd 1) with
    | none =>
      let (db, a) := db.addEntry .zset fun e => { e with key := arg cmd 1 }
      zaddTo db a (arg cmd 3) score
    | some a =>
      if (db.ent a).type ≠ .zset then (db, [.err errBadTyp (ascii "expect zset")])
      else zaddTo db a (arg cmd 3) score

/-- `do_zrem` (`zrem key name`). -/
def doZrem (db : Db) (cmd : Cmd) : Db × List Out :=
  match db.expectZset (arg cmd 1) with
  | none => (db, [.err errBadTyp (ascii "expect zset")])
  | some zs =>
    match (db.zsetOf zs).lookup (arg cmd 2) with
    | some _ => (db.zsetDelete zs (arg cmd 2), [.int 1])
    | none => (db, [.int 0])

/-- `do_zscore` (`zscore key name`). -/
def doZscore (db : Db) (cmd : Cmd) : List Out :=
  match db.expectZset (arg cmd 1) with
  | none => [.err errBadTyp (ascii "expect zset")]
  | some zs =>
    match (db.zsetOf zs).lookup (arg cmd 2) with
    | some n => [.dbl n.score]
    | none => [.nil]

/-- The output loop of `do_zquery` at rank `node` with `n` values written: a name and a score
per member while `n < limit`, the next member by `znode_offset(znode, +1)`. `fuel` bounds the
walk; the set's size is never exhausted. -/
def zqueryLoop (z : ZSet) (limit : Int) : Nat → Option Nat → Int → List Out × Int
  | 0, _, n => ([], n)
  | _ + 1, none, n => ([], n)
  | fuel + 1, some r, n =>
    if n < limit then
      let m := z.sorted.getD r ⟨[], ⟨0⟩⟩
      let (outs, n') := zqueryLoop z limit fuel (z.offset (some r) 1) (n + 2)
      (.str m.name :: .dbl m.score :: outs, n')
    else ([], n)

/-- `do_zquery` (`zquery key score name offset limit`). -/
def doZquery (db : Db) (cmd : Cmd) : List Out :=
  match str2dbl (arg cmd 2) with
  | none => [.err errBadArg (ascii "expect fp number")]
  | some score =>
    match str2int (arg cmd 4), str2int (arg cmd 5) with
    | some offset, some limit =>
      match db.expectZset (arg cmd 1) with
      | none => [.err errBadTyp (ascii "expect zset")]
      | some zs =>
        let z := db.zsetOf zs
        if limit ≤ 0 then [.arr 0]
        else
          let (items, n) := zqueryLoop z limit z.size (z.offset (z.seekGe score (arg cmd 3)) offset) 0
          .beginArr :: items ++ [.endArr n.toNat]
    | _, _ => [.err errBadArg (ascii "expect int")]

end Handlers

/-! ## Dispatch -/

/-- The branches of `do_request`. -/
inductive Route
  | get | set | del | pexpire | pttl | keys | zadd | zrem | zscore | zquery | bgrewriteaof
  | unknown
  deriving DecidableEq, Repr

/-- The branch of `do_request` a command takes: by its arity and its first string. -/
def route (cmd : Cmd) : Route :=
  let is (n : Nat) (name : String) : Bool := cmd.length == n && arg cmd 0 == ascii name
  if is 2 "get" then .get
  else if is 3 "set" then .set
  else if is 2 "del" then .del
  else if is 3 "pexpire" then .pexpire
  else if is 2 "pttl" then .pttl
  else if is 1 "keys" then .keys
  else if is 4 "zadd" then .zadd
  else if is 3 "zrem" then .zrem
  else if is 3 "zscore" then .zscore
  else if is 6 "zquery" then .zquery
  else if is 1 "bgrewriteaof" then .bgrewriteaof
  else .unknown

/-- `route` reads only the number of strings and the first. -/
theorem route_congr {p q : Cmd} (hl : p.length = q.length) (h0 : arg p 0 = arg q 0) :
    route p = route q := by
  simp only [route, hl, h0]

/-- The branches that log the command to the AOF (`if (g_data.aof_enabled)
aof_write_command(...)`) before running the handler. -/
def Route.logged : Route → Bool
  | .set | .del | .pexpire | .zadd | .zrem => true
  | _ => false

/-- The store part of `do_request` at clock reading `now`. `bgrewriteaof` reads the store and
does not change it; its reply is made from the AOF state, by `Aof.doRequest`. -/
def exec (H : HeapUpdate) (now : Nat) (db : Db) (cmd : Cmd) : Db × List Out :=
  match route cmd with
  | .get => (db, doGet db cmd)
  | .set => doSet db cmd
  | .del => doDel H now db cmd
  | .pexpire => doExpire H now db cmd
  | .pttl => (db, doTtl now db cmd)
  | .keys => (db, doKeys db)
  | .zadd => doZadd db cmd
  | .zrem => doZrem db cmd
  | .zscore => (db, doZscore db cmd)
  | .zquery => (db, doZquery db cmd)
  | .bgrewriteaof => (db, [])
  | .unknown => (db, [.err errUnknown (ascii "unknown command.")])

/-- Only the branches of `del` and `pexpire` call `heap_update`; the others do not depend on
it. -/
theorem exec_congr_heap (H H' : HeapUpdate) (now : Nat) (db : Db) (cmd : Cmd)
    (hd : route cmd ≠ .del) (hp : route cmd ≠ .pexpire) : exec H now db cmd = exec H' now db cmd := by
  unfold exec
  cases hr : route cmd
  case del => exact absurd hr hd
  case pexpire => exact absurd hr hp
  all_goals rfl

/-! ## The shape of every reply -/

theorem zqueryLoop_plain (z : ZSet) (limit : Int) (fuel : Nat) (r : Option Nat) (n : Int) :
    ∀ o ∈ (zqueryLoop z limit fuel r n).1, o.Plain := by
  induction fuel generalizing r n with
  | zero => simp [zqueryLoop]
  | succ fuel ih =>
    cases r with
    | none => simp [zqueryLoop]
    | some r =>
      unfold zqueryLoop
      split
      · simpa [Out.Plain] using ih _ _
      · simp

/-- Every handler makes plain calls, or one array: `do_keys` an `out_arr` and a string per
key, `do_zquery` an `out_begin_arr` … `out_end_arr`. -/
theorem exec_shaped (H : HeapUpdate) (now : Nat) (db : Db) (cmd : Cmd) :
    Out.Shaped (exec H now db cmd).2 := by
  unfold exec
  cases route cmd with
  | keys => exact .inl (by simp [doKeys, Out.Plain])
  | zquery =>
    dsimp only [doZquery]
    repeat' split
    all_goals first
      | exact Out.shaped_singleton rfl
      | exact .inr ⟨_, _, rfl, zqueryLoop_plain _ _ _ _ _⟩
  | bgrewriteaof => exact .inl (by simp)
  | _ =>
    dsimp only [doGet, doSet, doDel, doExpire, doTtl, doZadd, doZrem, doZscore, zaddTo]
    repeat' split
    all_goals exact Out.shaped_singleton rfl

/-! ## Numeric arguments

`str2int` and `str2dbl` accept the empty string, which `strtoll` and `strtod` read as 0 with
`endp` at the start, that is at the end; and `str2int` accepts a decimal beyond the `int64_t`
range, which `strtoll` clamps. The handlers read an argument only through its value.
-/

section NumericArgs

variable (H : HeapUpdate) (now : Nat) (db : Db) (k m : List UInt8)

/-- `pexpire k t` goes to `do_expire`, whatever `k` and `t` are. -/
theorem exec_pexpire_eq (t : List UInt8) :
    exec H now db [ascii "pexpire", k, t] = doExpire H now db [ascii "pexpire", k, t] := by
  have hr : route [ascii "pexpire", k, t] = .pexpire :=
    (route_congr (q := [ascii "pexpire", [], []]) rfl rfl).trans (by decide)
  unfold exec
  rw [hr]

/-- `pexpire` reads its time only through `str2int`. -/
theorem exec_pexpire_congr {t t' : List UInt8} (h : str2int t = str2int t') :
    exec H now db [ascii "pexpire", k, t] = exec H now db [ascii "pexpire", k, t'] := by
  rw [exec_pexpire_eq, exec_pexpire_eq]
  unfold doExpire
  rw [show arg [ascii "pexpire", k, t] 2 = t from rfl,
    show arg [ascii "pexpire", k, t'] 2 = t' from rfl, h]
  rfl

/-- `zadd` reads its score only through `str2dbl`. -/
theorem exec_zadd_congr {t t' : List UInt8} (h : str2dbl t = str2dbl t') :
    exec H now db [ascii "zadd", k, t, m] = exec H now db [ascii "zadd", k, t', m] := by
  have hr : ∀ u, route [ascii "zadd", k, u, m] = .zadd := fun u =>
    (route_congr (q := [ascii "zadd", [], [], []]) rfl rfl).trans (by decide)
  unfold exec
  rw [hr, hr]
  unfold doZadd
  rw [show arg [ascii "zadd", k, t, m] 2 = t from rfl,
    show arg [ascii "zadd", k, t', m] 2 = t' from rfl, h]
  rfl

/-- `zquery` reads its score through `str2dbl`, and its offset and limit through `str2int`. -/
theorem exec_zquery_congr {t t' o o' l l' : List UInt8} (ht : str2dbl t = str2dbl t')
    (ho : str2int o = str2int o') (hl : str2int l = str2int l') :
    exec H now db [ascii "zquery", k, t, m, o, l] =
      exec H now db [ascii "zquery", k, t', m, o', l'] := by
  have hr : ∀ u v w, route [ascii "zquery", k, u, m, v, w] = .zquery := fun u v w =>
    (route_congr (q := [ascii "zquery", [], [], [], [], []]) rfl rfl).trans (by decide)
  unfold exec
  rw [hr, hr]
  unfold doZquery
  rw [show arg [ascii "zquery", k, t, m, o, l] 2 = t from rfl,
    show arg [ascii "zquery", k, t', m, o', l'] 2 = t' from rfl,
    show arg [ascii "zquery", k, t, m, o, l] 4 = o from rfl,
    show arg [ascii "zquery", k, t', m, o', l'] 4 = o' from rfl,
    show arg [ascii "zquery", k, t, m, o, l] 5 = l from rfl,
    show arg [ascii "zquery", k, t', m, o', l'] 5 = l' from rfl, ht, ho, hl]
  rfl

/-- An empty numeric argument is read as 0, and a decimal beyond the `int64_t` range as the
bound: on every store, `pexpire`, `zadd` and `zquery` act on them as on `0` and on
`INT64_MAX`, and `pexpire k ""` replies whether `k` is there instead of `ERR(BAD_ARG)`. -/
theorem empty_numeric_arg_reads_zero :
    str2int [] = some 0 ∧ str2dbl [] = some ⟨0⟩ ∧
      str2int (ascii "9223372036854775808") = some (2 ^ 63 - 1) ∧
      exec H now db [ascii "pexpire", k, []] = exec H now db [ascii "pexpire", k, ascii "0"] ∧
      (exec H now db [ascii "pexpire", k, []]).2 =
        [.int (if (db.hmLookup k).isSome then 1 else 0)] ∧
      exec H now db [ascii "zadd", k, [], m] = exec H now db [ascii "zadd", k, ascii "0", m] ∧
      exec H now db [ascii "zquery", k, [], m, [], []] =
        exec H now db [ascii "zquery", k, ascii "0", m, ascii "0", ascii "0"] ∧
      exec H now db [ascii "pexpire", k, ascii "9223372036854775808"] =
        exec H now db [ascii "pexpire", k, ascii "9223372036854775807"] := by
  refine ⟨rfl, rfl, rfl, exec_pexpire_congr H now db k rfl, ?_, exec_zadd_congr H now db k m rfl,
    exec_zquery_congr H now db k m rfl rfl rfl, exec_pexpire_congr H now db k rfl⟩
  rw [exec_pexpire_eq]
  unfold doExpire
  rw [show str2int (arg [ascii "pexpire", k, []] 2) = some 0 from rfl,
    show arg [ascii "pexpire", k, []] 1 = k from rfl]
  cases db.hmLookup k <;> rfl

end NumericArgs

end KvServer
