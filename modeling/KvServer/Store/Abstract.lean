import KvServer.Store.Invariant

/-!
# The store as a finite map

Section 4.3 describes the commands on an abstract store: a finite map from keys to a value,
a string or a sorted set (a finite map from member names to scores), with an optional
deadline. `Db.abs` reads that map off a store: a key's entry is the one `hm_lookup` finds,
its deadline the `val` of the heap item that points at it. `Spec` is section 4.3 as a
relation between the abstract store before and after a command and the reply, for the command
that section 4.3's table names by the request's name and arity (`command`).

Results:
1. `ZSet.toMap_insert`, `ZSet.toMap_delete`: `zset_insert` and `zset_delete` as map updates.
2. `abs_modify`, `abs_addEntry`, `abs_delete`, `abs_entrySetTtl`: each primitive of the
   handlers as an update of the abstract store at one key.
3. `route_eq_command`: the chain of comparisons of `do_request` picks the command of the table.
4. `exec_spec`: on a store with `Db.WF`, every branch of `do_request` makes the reply and the
   change `Spec` allows; `doZquery_spec` for the errors and the array of `zquery`.
-/

namespace KvServer

open Function

/-- `List.find?` depends on its predicate only on the list's members. -/
theorem find?_congr_mem {α : Type} {l : List α} {p q : α → Bool} (h : ∀ x ∈ l, p x = q x) :
    l.find? p = l.find? q := by
  induction l with
  | nil => rfl
  | cons x l ih =>
    simp only [List.find?_cons, h x (.head _), ih fun y hy => h y (.tail _ hy)]

/-! ## Sorted sets as maps -/

namespace ZSet

/-- A sorted set as the map from member names to scores. -/
def toMap (z : ZSet) (name : List UInt8) : Option F64 := (z.lookup name).map (·.score)

@[simp] theorem toMap_empty : ZSet.empty.toMap = fun _ => none := rfl

theorem insert_added (z : ZSet) (name : List UInt8) (score : F64) :
    (z.insert name score).2 = (z.toMap name).isNone := by
  unfold insert toMap
  split <;> simp_all

theorem toMap_insert (z : ZSet) (name : List UInt8) (score : F64) :
    (z.insert name score).1.toMap = update z.toMap name (some score) := by
  funext n
  unfold insert
  split
  · rename_i m hm
    have hname : ((fun x : ZNode => x.name == n) ∘ fun x =>
        if x.name = name then { x with score } else x) = fun x => x.name == n := by
      funext x
      simp only [Function.comp_apply]
      split <;> rfl
    simp only [toMap, lookup, List.find?_map, hname]
    by_cases hn : n = name
    · subst hn
      rw [update_same]
      simp only [lookup] at hm
      simp [hm, (by simpa using List.find?_some hm : m.name = n)]
    · rw [update_noteq hn]
      simp only [toMap, lookup, Option.map_map]
      cases hf : z.members.find? (·.name == n) with
      | none => rfl
      | some x =>
        have hx : x.name = n := by simpa using List.find?_some hf
        simp [hx, hn]
  · rename_i hm
    by_cases hn : n = name
    · subst hn
      rw [update_same]
      simp [toMap, lookup, List.find?_append, show z.members.find? (·.name == n) = none from hm]
    · rw [update_noteq hn]
      simp [toMap, lookup, List.find?_append, Option.or, Ne.symm hn]
      cases z.members.find? (·.name == n) <;> simp [Ne.symm hn]

theorem toMap_delete (z : ZSet) (name : List UInt8) :
    (z.delete name).toMap = update z.toMap name none := by
  funext n
  by_cases hn : n = name
  · subst hn
    rw [update_same]
    simp [toMap, lookup, delete, List.find?_filter]
  · rw [update_noteq hn]
    simp only [toMap, lookup, delete, List.find?_filter]
    congr 2
    funext x
    by_cases hx : x.name = n <;> simp [hx, hn]

/-- The in-order walk visits every member once. -/
theorem length_sorted (z : ZSet) : z.sorted.length = z.size :=
  (List.mergeSort_perm _ _).length_eq

/-- Every member the in-order walk visits is in the set's map. -/
theorem toMap_isSome_of_mem_sorted {z : ZSet} {m : ZNode} (h : m ∈ z.sorted) :
    (z.toMap m.name).isSome := by
  simp only [toMap, lookup, Option.isSome_map']
  exact List.find?_isSome.mpr ⟨m, (List.mergeSort_perm _ _).mem_iff.mp h, by simp⟩

/-- `znode_offset(node, +1)`: the next rank, or null after the last member. -/
theorem offset_succ (z : ZSet) (r : Nat) :
    z.offset (some r) 1 = if r + 1 < z.size then some (r + 1) else none := by
  simp only [offset, Option.some_bind]
  by_cases h : r + 1 < z.size
  · rw [if_pos ⟨by omega, by omega⟩, if_pos h]
    simp
  · rw [if_neg (by omega), if_neg h]

/-- `znode_offset` stays inside the set. -/
theorem offset_lt {z : ZSet} {node : Option Nat} {delta : Int} {j : Nat}
    (h : z.offset node delta = some j) : j < z.size := by
  cases node with
  | none => cases h
  | some r =>
    simp only [offset, Option.some_bind] at h
    split_ifs at h with hr
    cases h
    omega

end ZSet

/-! ## The abstract store -/

/-- A value of the abstract store. -/
inductive AValue
  | str (s : List UInt8)
  | zset (m : List UInt8 → Option F64)

/-- The abstract store: a key's value and deadline, `none` for a missing key. -/
abbrev AStore := List UInt8 → Option (AValue × Option Nat)

/-- The value an entry holds. -/
def Entry.value (e : Entry) : AValue := if e.type = .zset then .zset e.zset.toMap else .str e.str

namespace Db

/-- The deadline of the entry at `a`: the `val` of the heap item that points at it. -/
def deadline (db : Db) (a : Nat) : Option Nat := (byRef db.heap a).map (·.val)

/-- The abstract store a store represents. -/
def abs (db : Db) : AStore := fun k => (db.hmLookup k).map fun a => ((db.ent a).value, db.deadline a)

theorem keyIs_congr {db db' : Db} {k : List UInt8} {a : Nat}
    (h : (db'.entries a).map (·.key) = (db.entries a).map (·.key)) :
    db'.keyIs k a = db.keyIs k a := by
  unfold keyIs
  cases h₁ : db'.entries a <;> cases h₂ : db.entries a <;> simp_all

theorem hmLookup_congr {db db' : Db} (k : List UInt8) (ht : db'.table = db.table)
    (h : ∀ a ∈ db.table, (db'.entries a).map (·.key) = (db.entries a).map (·.key)) :
    db'.hmLookup k = db.hmLookup k := by
  unfold hmLookup
  rw [ht]
  exact find?_congr_mem fun a ha => keyIs_congr (h a ha)

/-- The key of an entry found for `k` is `k`; with distinct keys, no other entry of the table
has it. -/
theorem hmLookup_unique {db : Db} (hw : db.WF) {k : List UInt8} {a b : Nat}
    (ha : db.hmLookup k = some a) (hb : b ∈ db.table) (hbk : (db.ent b).key = k) : b = a := by
  obtain ⟨ha', -, hak⟩ := hmLookup_some ha
  exact List.inj_on_of_nodup_map hw.keys_nodup hb ha' (hbk.trans hak.symm)

/-- The value of the entry a lookup finds, in the store's terms. -/
theorem abs_of_hmLookup {db : Db} {k : List UInt8} {a : Nat} (h : db.hmLookup k = some a) :
    db.abs k = some ((db.ent a).value, db.deadline a) := by
  simp [abs, h]

theorem abs_of_hmLookup_none {db : Db} {k : List UInt8} (h : db.hmLookup k = none) :
    db.abs k = none := by
  simp [abs, h]

/-- Changing the value of the entry a lookup for `k` finds changes `k` only. -/
theorem abs_modify {db : Db} {k : List UInt8} {a : Nat} (ha : db.hmLookup k = some a)
    {f : Entry → Entry} (hk : (f (db.ent a)).key = (db.ent a).key) :
    (db.modify a f).abs = update db.abs k (some ((f (db.ent a)).value, db.deadline a)) := by
  obtain ⟨hat, hal, hak⟩ := hmLookup_some ha
  have hl : ∀ k', (db.modify a f).hmLookup k' = db.hmLookup k' := fun k' =>
    hmLookup_congr k' rfl fun b _ => by
      rw [modify_entries]
      split_ifs with hba
      · subst hba
        obtain ⟨e, he⟩ := Option.isSome_iff_exists.mp hal
        rw [ent_eq he] at hk
        simp [he, ent_eq he, hk]
      · rfl
  funext k'
  by_cases hk' : k' = k
  · subst hk'
    rw [update_same]
    simp [abs, hl, ha, ent_modify, deadline]
  · rw [update_noteq hk']
    simp only [abs, hl]
    cases hb : db.hmLookup k' with
    | none => rfl
    | some b =>
      have hba : b ≠ a := fun h => hk' ((hmLookup_some hb).2.2.symm.trans (h ▸ hak))
      simp [ent_modify, hba, deadline]

theorem value_of_body {db db' : Db} {b : Nat}
    (h : (db'.entries b).map Entry.body = (db.entries b).map Entry.body) :
    (db'.ent b).value = (db.ent b).value :=
  congrArg (·.value) (ent_body h)

theorem hmLookup_of_bodies {db db' : Db} (k : List UInt8) (ht : db'.table = db.table)
    (h : SameBodies db db') : db'.hmLookup k = db.hmLookup k :=
  hmLookup_congr k ht fun a _ => by simpa using congrArg (Option.map (·.key)) (h a)

/-- A new entry for a key with no entry adds that key, without deadline. -/
theorem abs_addEntry {db : Db} (hw : db.WF) (t : ValueType) (f : Entry → Entry) :
    (db.addEntry t f).1.abs =
      update db.abs (f (Entry.blank t)).key (some ((f (Entry.blank t)).value, none)) := by
  rw [addEntry_eq]
  have hn : db.entries db.nextAddr = none := hw.fresh _ le_rfl
  have hnt : db.nextAddr ∉ db.table := fun h => by simpa [hn] using hw.table_live _ h
  have hbn : byRef db.heap db.nextAddr = none :=
    Option.not_isSome_iff_eq_none.mp (mt mem_refs_iff.mpr fun h => hnt (hw.refs_table _ h))
  have hne : ∀ b ∈ db.table, b ≠ db.nextAddr := fun b hb h => hnt (h ▸ hb)
  set db' : Db := ⟨fun b => if b = db.nextAddr then some (f (Entry.blank t)) else db.entries b,
    db.nextAddr + 1, db.nextAddr :: db.table, db.heap, db.pool⟩
  funext k'
  by_cases hk' : k' = (f (Entry.blank t)).key
  · subst hk'
    rw [update_same]
    simp [db', abs, hmLookup, List.find?_cons, keyIs, ent, deadline, hbn]
  · rw [update_noteq hk']
    have hl : db'.hmLookup k' = db.hmLookup k' := by
      have hkn : db'.keyIs k' db.nextAddr = false := by simp [db', keyIs, Ne.symm hk']
      simp only [hmLookup, List.find?_cons, hkn]
      exact find?_congr_mem fun b hb => by simp [db', keyIs, hne b hb]
    simp only [abs, hl]
    cases hb : db.hmLookup k' with
    | none => rfl
    | some b =>
      have hbn := hne b (hmLookup_some hb).1
      simp [db', ent, hbn, deadline]

/-- `List.erase` of an element the predicate rejects does not change `find?`. -/
theorem find?_erase_of_not {l : List Nat} {p : Nat → Bool} {a : Nat} (hp : p a = false) :
    (l.erase a).find? p = l.find? p := by
  induction l with
  | nil => rfl
  | cons x l ih =>
    by_cases hx : x = a
    · subst hx
      simp [hp]
    · simp [List.erase_cons, hx, List.find?_cons, ih]

/-- Deleting the entry a lookup for `k` finds removes `k` with its deadline. -/
theorem abs_delete (H : HeapUpdate) (now : Nat) {db : Db} (hw : db.WF) {k : List UInt8} {a : Nat}
    (ha : db.hmLookup k = some a) : ((db.unlink a).entryDel H a now).abs = update db.abs k none := by
  have hd : Deleted (db.unlink a) ((db.unlink a).entryDel H a now) a :=
    entryDel_spec H now (hw.toHeapOk.unlink a) (hw.table_live a (hmLookup_some ha).1)
  generalize (db.unlink a).entryDel H a now = db' at hd
  obtain ⟨hat, -, hak⟩ := hmLookup_some ha
  have hnd := hw.table_nodup
  have hne : ∀ b ∈ db.table.erase a, b ≠ a := fun b hb h => hnd.not_mem_erase (h ▸ hb)
  have hkeyIs : ∀ k', ∀ b ∈ db.table.erase a, db'.keyIs k' b = db.keyIs k' b := fun k' b hb =>
    keyIs_congr (by simpa using congrArg (Option.map (·.key)) (hd.bodies b (hne b hb)))
  have hlook : ∀ k', db'.hmLookup k' = (db.table.erase a).find? (db.keyIs k') := fun k' => by
    rw [hmLookup, hd.table]
    exact find?_congr_mem (hkeyIs k')
  funext k'
  by_cases hk' : k' = k
  · subst hk'
    rw [update_same]
    simp only [abs, hlook, Option.map_eq_none']
    refine List.find?_eq_none.mpr fun b hb hbk => hne b hb ?_
    obtain ⟨e, he, hek⟩ := keyIs_iff.mp hbk
    exact hmLookup_unique hw ha (List.mem_of_mem_erase hb) (by rw [ent_eq he, hek])
  · rw [update_noteq hk']
    have hka : db.keyIs k' a = false := by
      cases h : db.keyIs k' a
      · rfl
      · obtain ⟨e, he, hek⟩ := keyIs_iff.mp h
        exact absurd (hek.symm.trans ((ent_eq he) ▸ hak)) hk'
    have hl : db'.hmLookup k' = db.hmLookup k' := by
      rw [hlook, find?_erase_of_not hka]
      rfl
    simp only [abs, hl]
    cases hb : db.hmLookup k' with
    | none => rfl
    | some b =>
      have hba : b ≠ a := fun h => by
        have := List.find?_some hb
        rw [h, hka] at this
        exact absurd this (by decide)
      have hby := hd.items b
      rw [if_neg hba] at hby
      simp only [Option.map_some', deadline, hby]
      rw [value_of_body (hd.bodies b hba)]
      rfl

/-- `entry_set_ttl` on the entry a lookup for `k` finds changes the deadline of `k` only. -/
theorem abs_entrySetTtl (H : HeapUpdate) {db : Db} (hw : db.WF) {k : List UInt8} {a : Nat}
    (ha : db.hmLookup k = some a) (ttl : Int) (now : Nat) :
    (db.entrySetTtl H a ttl now).abs =
      update db.abs k (some ((db.ent a).value, (ttlItem a ttl now).map (·.val))) := by
  obtain ⟨-, hfr, hby⟩ := entrySetTtl_spec H ttl now hw.toHeapOk (hmLookup_some ha).2.1
  have hl := fun k' => hmLookup_of_bodies k' hfr.table hfr.bodies
  funext k'
  by_cases hk' : k' = k
  · subst hk'
    rw [update_same]
    simp [abs, hl, ha, deadline, hby, value_of_body (hfr.bodies a)]
  · rw [update_noteq hk']
    simp only [abs, hl]
    cases hb : db.hmLookup k' with
    | none => rfl
    | some b =>
      have hba : b ≠ a := fun h =>
        hk' ((hmLookup_some hb).2.2.symm.trans (h ▸ (hmLookup_some ha).2.2))
      simp [deadline, hby, hba, value_of_body (hfr.bodies b)]

end Db

/-! ## Section 4.3 -/

/-- The command table of section 4.3: each command's name and arity, the number of strings of
the request with the name. -/
def commandTable : List (String × Nat × Route) :=
  [("get", 2, .get), ("set", 3, .set), ("del", 2, .del), ("pexpire", 3, .pexpire),
    ("pttl", 2, .pttl), ("keys", 1, .keys), ("zadd", 4, .zadd), ("zrem", 3, .zrem),
    ("zscore", 3, .zscore), ("zquery", 6, .zquery), ("bgrewriteaof", 1, .bgrewriteaof)]

/-- The first entry of a table whose arity is the number of strings of the request and whose
name, case-sensitive, is its first string; `unknown` when none is. -/
def lookupCommand (cmd : Cmd) : List (String × Nat × Route) → Route
  | [] => .unknown
  | (name, arity, r) :: t =>
    if cmd.length == arity && cmd.head? == some (ascii name) then r else lookupCommand cmd t

/-- The command of section 4.3 a request names. -/
def command (cmd : Cmd) : Route := lookupCommand cmd commandTable

/-- The chain of comparisons of `do_request` picks the command of the table. -/
theorem route_eq_command : ∀ cmd : Cmd, route cmd = command cmd
  | [] => rfl
  | _ :: _ => rfl

section Spec

variable (now : Nat) (A : AStore) (k : List UInt8) (A' : AStore) (outs : List Out)

/-- `get k`: the string, `NIL` for a missing key, `ERR(BAD_TYP)` for a sorted set. -/
def getSpec : Prop :=
  A' = A ∧ outs = match A k with
    | none => [.nil]
    | some (.str s, _) => [.str s]
    | some (.zset _, _) => [.err errBadTyp (ascii "not a string value")]

/-- `set k v`: overwrite a string, keeping its deadline, or create it without one. -/
def setSpec (v : List UInt8) : Prop :=
  match A k with
  | some (.zset _, _) => A' = A ∧ outs = [.err errBadTyp (ascii "a non-string value exists")]
  | some (.str _, d) => A' = update A k (some (.str v, d)) ∧ outs = [.nil]
  | none => A' = update A k (some (.str v, none)) ∧ outs = [.nil]

/-- `del k`: remove the key with its deadline; 1 iff it existed. -/
def delSpec : Prop := A' = update A k none ∧ outs = [.int (if (A k).isSome then 1 else 0)]

/-- `pexpire k ms`: the deadline becomes `now + ms`, or none for a negative `ms`; 1 iff the
key exists. -/
def pexpireSpec (ms : List UInt8) : Prop :=
  match str2int ms with
  | none => A' = A ∧ outs = [.err errBadArg (ascii "expect int64")]
  | some ms =>
    match A k with
    | none => A' = A ∧ outs = [.int 0]
    | some (v, _) =>
      A' = update A k (some (v, if ms < 0 then none else some (now + ms.toNat))) ∧ outs = [.int 1]

/-- The reply of `pttl` for a key's deadline. -/
def pttlReply : Option (AValue × Option Nat) → Int
  | none => -2
  | some (_, none) => -1
  | some (_, some d) => if d > now then ((d - now : Nat) : Int) else 0

/-- `pttl k`: -2 for a missing key, -1 without deadline, else the time left, at least 0. -/
def pttlSpec : Prop := A' = A ∧ outs = [.int (pttlReply now (A k))]

/-- `keys`: every key once, in any order. -/
def keysSpec : Prop :=
  A' = A ∧ ∃ ks : List (List UInt8), ks.Nodup ∧ (∀ k, k ∈ ks ↔ (A k).isSome) ∧
    outs = .arr ks.length :: ks.map .str

/-- `zadd k score name`: add or update the member, creating the sorted set; 1 iff the member
is new. -/
def zaddSpec (score name : List UInt8) : Prop :=
  match str2dbl score with
  | none => A' = A ∧ outs = [.err errBadArg (ascii "expect float")]
  | some score =>
    match A k with
    | some (.str _, _) => A' = A ∧ outs = [.err errBadTyp (ascii "expect zset")]
    | none =>
      A' = update A k (some (.zset (update (fun _ => none) name (some score)), none)) ∧
        outs = [.int 1]
    | some (.zset m, d) =>
      A' = update A k (some (.zset (update m name (some score)), d)) ∧
        outs = [.int (if (m name).isSome then 0 else 1)]

/-- `zrem k name`: remove the member; 1 iff it was there. A missing key is an empty set. -/
def zremSpec (name : List UInt8) : Prop :=
  match A k with
  | some (.str _, _) => A' = A ∧ outs = [.err errBadTyp (ascii "expect zset")]
  | none => A' = A ∧ outs = [.int 0]
  | some (.zset m, d) =>
    A' = update A k (some (.zset (update m name none), d)) ∧
      outs = [.int (if (m name).isSome then 1 else 0)]

/-- `zscore k name`: the score, `NIL` for a missing member or key. -/
def zscoreSpec (name : List UInt8) : Prop :=
  A' = A ∧ outs = match A k with
    | some (.str _, _) => [.err errBadTyp (ascii "expect zset")]
    | none => [.nil]
    | some (.zset m, _) =>
      match m name with
      | some score => [.dbl score]
      | none => [.nil]

/-- The array `zquery` writes from the sorted set `m`: empty for a limit of at most 0, and
otherwise the names of members, each followed by a score, with the count of values. Which
members, and in which order, `Store.Zquery` states on the sorted set itself. -/
def zqueryArr (m : List UInt8 → Option F64) (limit : Int) (outs : List Out) : Prop :=
  if limit ≤ 0 then outs = [.arr 0]
  else ∃ ps : List (List UInt8 × F64), (∀ p ∈ ps, (m p.1).isSome) ∧
    outs = .beginArr :: ps.flatMap (fun p => [.str p.1, .dbl p.2]) ++ [.endArr (2 * ps.length)]

/-- `zquery k score name offset limit`: a read. A score that does not parse is
`ERR(BAD_ARG)`, and so is an offset or a limit that does not; a string value is
`ERR(BAD_TYP)`; a sorted set gives an array of its members, and a missing key the array of the
empty set. -/
def zquerySpec (score offset limit : List UInt8) : Prop :=
  A' = A ∧
    match str2dbl score, str2int offset, str2int limit with
    | none, _, _ => outs = [.err errBadArg (ascii "expect fp number")]
    | some _, some _, some limit =>
      match A k with
      | some (.str _, _) => outs = [.err errBadTyp (ascii "expect zset")]
      | some (.zset m, _) => zqueryArr m limit outs
      | none => zqueryArr (fun _ => none) limit outs
    | some _, _, _ => outs = [.err errBadArg (ascii "expect int")]

end Spec

/-- Section 4.3 on the abstract store at clock reading `now`: `Spec now A cmd A' outs` when
the command of the table that `cmd` names may take the store from `A` to `A'` with the reply
`outs`. Which members `zquery`'s array holds is left to `Store.Zquery`, and the reply of
`bgrewriteaof` depends on the AOF state. -/
def Spec (now : Nat) (A : AStore) (cmd : Cmd) (A' : AStore) (outs : List Out) : Prop :=
  match command cmd with
  | .get => getSpec A (arg cmd 1) A' outs
  | .set => setSpec A (arg cmd 1) A' outs (arg cmd 2)
  | .del => delSpec A (arg cmd 1) A' outs
  | .pexpire => pexpireSpec now A (arg cmd 1) A' outs (arg cmd 2)
  | .pttl => pttlSpec now A (arg cmd 1) A' outs
  | .keys => keysSpec A A' outs
  | .zadd => zaddSpec A (arg cmd 1) A' outs (arg cmd 2) (arg cmd 3)
  | .zrem => zremSpec A (arg cmd 1) A' outs (arg cmd 2)
  | .zscore => zscoreSpec A (arg cmd 1) A' outs (arg cmd 2)
  | .zquery => zquerySpec A (arg cmd 1) A' outs (arg cmd 2) (arg cmd 4) (arg cmd 5)
  | .bgrewriteaof => A' = A
  | .unknown => A' = A ∧ outs = [.err errUnknown (ascii "unknown command.")]

/-! ## The handlers refine section 4.3 -/

/-- `strtoll` clamps to `int64_t`: `str2int` never yields `2^63` or more. -/
theorem str2int_lt {s : List UInt8} {v : Int} (h : str2int s = some v) : v < 2 ^ 63 := by
  unfold str2int strtoll at h
  dsimp only at h
  split_ifs at h <;> simp only [Option.some.injEq] at h <;> omega

namespace Db

/-- What a lookup for `k` finds, in terms of the abstract store: nothing, or an entry of type
`T_STR` or `T_ZSET` and its value. -/
theorem abs_cases {db : Db} (hw : db.WF) (k : List UInt8) :
    (db.hmLookup k = none ∧ db.abs k = none) ∨
    ∃ a, db.hmLookup k = some a ∧ db.abs k = some ((db.ent a).value, db.deadline a) ∧
      (((db.ent a).type = .str ∧ (db.ent a).value = .str (db.ent a).str) ∨
        ((db.ent a).type = .zset ∧ (db.ent a).value = .zset (db.ent a).zset.toMap)) := by
  cases h : db.hmLookup k with
  | none => exact .inl ⟨rfl, abs_of_hmLookup_none h⟩
  | some a =>
    refine .inr ⟨a, rfl, abs_of_hmLookup h, ?_⟩
    have ht := hw.typed a (hmLookup_some h).1
    unfold Entry.value
    cases hty : (db.ent a).type <;> simp_all

/-- The deadline of an entry is the `val` of the heap slot its `heap_idx` names. -/
theorem deadline_of_heapIdx {db : Db} (hw : db.WF) {a : Nat} (ha : (db.entries a).isSome) :
    db.deadline a = ((db.ent a).heapIdx.map fun i => (db.heap.getD i default).val) := by
  obtain ⟨e, he⟩ := Option.isSome_iff_exists.mp ha
  rw [ent_eq he, hw.sync a e he, deadline]
  cases hs : slotOf db.heap a with
  | none =>
    have : byRef db.heap a = none :=
      Option.not_isSome_iff_eq_none.mp (mt mem_refs_iff.mpr (slotOf_eq_none_iff.mp hs))
    simp [this]
  | some i =>
    obtain ⟨it, hit, rfl⟩ := (slotOf_eq_some_iff hw.refs_nodup).mp hs
    have : byRef db.heap it.ref = some it :=
      (find?_ref_eq_some_iff hw.refs_nodup).mpr ⟨List.getElem?_mem hit, rfl⟩
    simp [this, List.getD_eq_getElem?_getD, hit]

end Db

section Refinement

variable (H : HeapUpdate) (now : Nat)

theorem update_of_eq {A : AStore} {k : List UInt8} {v : Option (AValue × Option Nat)}
    (h : A k = v) : update A k v = A :=
  h ▸ update_eq_self k A

theorem doGet_spec {db : Db} (hw : db.WF) (cmd : Cmd) :
    getSpec db.abs (arg cmd 1) db.abs (doGet db cmd) := by
  refine ⟨rfl, ?_⟩
  rcases Db.abs_cases hw (arg cmd 1) with ⟨hl, hA⟩ | ⟨a, hl, hA, ⟨ht, hv⟩ | ⟨ht, hv⟩⟩
  · simp [doGet, hl, hA]
  · simp [doGet, hl, hA, ht, hv]
  · simp [doGet, hl, hA, ht, hv]

theorem doSet_spec {db : Db} (hw : db.WF) (cmd : Cmd) :
    setSpec db.abs (arg cmd 1) (doSet db cmd).1.abs (doSet db cmd).2 (arg cmd 2) := by
  unfold setSpec
  rcases Db.abs_cases hw (arg cmd 1) with ⟨hl, hA⟩ | ⟨a, hl, hA, ⟨ht, hv⟩ | ⟨ht, hv⟩⟩
  · simp only [doSet, hl, hA, Db.abs_addEntry hw, and_true]
    rfl
  · simp only [doSet, hl, hA, hv, ht, ne_eq, not_true_eq_false, if_false, and_true]
    rw [Db.abs_modify hl rfl]
    simp [Entry.value, ht]
  · simp [doSet, hl, hA, hv, ht]

theorem doDel_spec {db : Db} (hw : db.WF) (cmd : Cmd) :
    delSpec db.abs (arg cmd 1) (doDel H now db cmd).1.abs (doDel H now db cmd).2 := by
  cases hl : db.hmLookup (arg cmd 1) with
  | none =>
    have hA := Db.abs_of_hmLookup_none hl
    simp [delSpec, doDel, Db.hmDelete, hl, hA, update_of_eq hA]
  | some a =>
    simp [delSpec, doDel, Db.hmDelete, hl, Db.abs_delete H now hw hl, Db.abs_of_hmLookup hl]

theorem doExpire_spec {db : Db} (hw : db.WF) (hnow : now < 2 ^ 63) (cmd : Cmd) :
    pexpireSpec now db.abs (arg cmd 1) (doExpire H now db cmd).1.abs (doExpire H now db cmd).2
      (arg cmd 2) := by
  unfold pexpireSpec doExpire
  cases hms : str2int (arg cmd 2) with
  | none => simp
  | some ms =>
    have hlt := str2int_lt hms
    cases hl : db.hmLookup (arg cmd 1) with
    | none => simp [Db.abs_of_hmLookup_none hl]
    | some a =>
      have hmod : (now + ms.toNat) % 2 ^ 64 = now + ms.toNat := Nat.mod_eq_of_lt (by omega)
      by_cases hms0 : ms < 0
      · simp [Db.abs_of_hmLookup hl, Db.abs_entrySetTtl H hw hl, Db.ttlItem, hms0]
      · simp only [Db.abs_of_hmLookup hl, Db.abs_entrySetTtl H hw hl, Db.ttlItem, hms0, if_false,
          Option.map_some', hmod, and_self]

theorem doTtl_spec {db : Db} (hw : db.WF) (cmd : Cmd) :
    pttlSpec now db.abs (arg cmd 1) db.abs (doTtl now db cmd) := by
  refine ⟨rfl, ?_⟩
  cases hl : db.hmLookup (arg cmd 1) with
  | none => simp [doTtl, hl, Db.abs_of_hmLookup_none hl, pttlReply]
  | some a =>
    rw [Db.abs_of_hmLookup hl, Db.deadline_of_heapIdx hw (Db.hmLookup_some hl).2.1]
    cases hi : (db.ent a).heapIdx <;> simp [doTtl, hl, hi, pttlReply]

theorem doKeys_spec {db : Db} (hw : db.WF) : keysSpec db.abs db.abs (doKeys db) := by
  refine ⟨rfl, db.table.map fun a => (db.ent a).key, hw.keys_nodup, fun k => ?_, by
    simp [doKeys]⟩
  constructor
  · intro hk
    obtain ⟨a, ha, rfl⟩ := List.mem_map.mp hk
    rcases Db.abs_cases hw (db.ent a).key with ⟨hl, -⟩ | ⟨b, -, hA, -⟩
    · exact absurd rfl (Db.hmLookup_none hl hw.table_live a ha)
    · simp [hA]
  · intro hk
    cases hl : db.hmLookup k with
    | none => simp [Db.abs_of_hmLookup_none hl] at hk
    | some a =>
      obtain ⟨ha, -, rfl⟩ := Db.hmLookup_some hl
      exact List.mem_map_of_mem _ ha

theorem zaddTo_spec {db : Db} {k : List UInt8} {a : Nat} (ha : db.hmLookup k = some a)
    (name : List UInt8) (score : F64) (hz : (db.ent a).type = .zset) :
    (zaddTo db a name score).1.abs = update db.abs k (some (.zset (update (db.ent a).zset.toMap
      name (some score)), db.deadline a)) ∧
    (zaddTo db a name score).2 = [.int (if ((db.ent a).zset.toMap name).isSome then 0 else 1)] := by
  rcases h : (db.ent a).zset.insert name score with ⟨z, added⟩
  have hz' := ZSet.toMap_insert (db.ent a).zset name score
  have hadd := ZSet.insert_added (db.ent a).zset name score
  rw [h] at hz' hadd
  simp only [zaddTo, h]
  rw [Db.abs_modify ha rfl]
  refine ⟨?_, ?_⟩
  · simp [Entry.value, hz, hz']
  · cases hm : ((db.ent a).zset.toMap name) <;> simp_all

theorem doZadd_spec {db : Db} (hw : db.WF) (cmd : Cmd) :
    zaddSpec db.abs (arg cmd 1) (doZadd db cmd).1.abs (doZadd db cmd).2 (arg cmd 2)
      (arg cmd 3) := by
  unfold zaddSpec doZadd
  cases hsc : str2dbl (arg cmd 2) with
  | none => simp
  | some score =>
    dsimp only
    rcases Db.abs_cases hw (arg cmd 1) with ⟨hl, hA⟩ | ⟨a, hl, hA, ⟨ht, hv⟩ | ⟨ht, hv⟩⟩
    · rcases hadd : db.addEntry .zset (fun e => { e with key := arg cmd 1 }) with ⟨db1, n⟩
      have habs := Db.abs_addEntry hw .zset fun e => { e with key := arg cmd 1 }
      rw [hadd] at habs
      have hl1 : db1.hmLookup (arg cmd 1) = some n := by
        rw [Db.addEntry_eq] at hadd
        cases hadd
        simp [Db.hmLookup, Db.keyIs, List.find?_cons]
      have hent : db1.ent n = { Entry.blank .zset with key := arg cmd 1 } := by
        rw [Db.addEntry_eq] at hadd
        cases hadd
        simp [Db.ent]
      have hd : db1.deadline n = none := by
        have := (Db.abs_of_hmLookup hl1).symm.trans (congrFun habs (arg cmd 1))
        simp only [update_same, Option.some.injEq, Prod.mk.injEq] at this
        exact this.2
      obtain ⟨h1, h2⟩ := zaddTo_spec hl1 (arg cmd 3) score (by rw [hent]; rfl)
      simp only [hl, hA, h1, h2, habs, hent, hd, update_idem]
      simp [Entry.blank]
    · simp [hl, hA, hv, ht]
    · simp only [hl, hA, hv, ht, ne_eq, not_true_eq_false, if_false]
      exact zaddTo_spec hl _ _ ht

theorem expectZset_cases {db : Db} (hw : db.WF) (k : List UInt8) :
    (db.expectZset k = some none ∧ db.abs k = none) ∨
    (db.expectZset k = none ∧ ∃ s d, db.abs k = some (.str s, d)) ∨
    ∃ a, db.hmLookup k = some a ∧ db.expectZset k = some (some a) ∧
      db.abs k = some (.zset (db.ent a).zset.toMap, db.deadline a) := by
  rcases Db.abs_cases hw k with ⟨hl, hA⟩ | ⟨a, hl, hA, ⟨ht, hv⟩ | ⟨ht, hv⟩⟩
  · exact .inl ⟨by simp [Db.expectZset, hl], hA⟩
  · exact .inr (.inl ⟨by simp [Db.expectZset, hl, ht], _, _, hA.trans (by rw [hv])⟩)
  · exact .inr (.inr ⟨a, hl, by simp [Db.expectZset, hl, ht], hA.trans (by rw [hv])⟩)

theorem doZrem_spec {db : Db} (hw : db.WF) (cmd : Cmd) :
    zremSpec db.abs (arg cmd 1) (doZrem db cmd).1.abs (doZrem db cmd).2 (arg cmd 2) := by
  unfold zremSpec doZrem
  rcases expectZset_cases hw (arg cmd 1) with ⟨hz, hA⟩ | ⟨hz, s, d, hA⟩ | ⟨a, hl, hz, hA⟩
  · simp [hz, hA, Db.zsetOf, ZSet.lookup, ZSet.empty]
  · simp [hz, hA]
  · simp only [hz, hA, Db.zsetOf]
    cases hm : (db.ent a).zset.lookup (arg cmd 2) with
    | none =>
      have hn : (db.ent a).zset.toMap (arg cmd 2) = none := by simp [ZSet.toMap, hm]
      have hu : update (db.ent a).zset.toMap (arg cmd 2) none = (db.ent a).zset.toMap :=
        update_eq_self_iff.mpr hn.symm
      simp [hn, hu, update_of_eq hA]
    | some m =>
      have hn : ((db.ent a).zset.toMap (arg cmd 2)).isSome := by simp [ZSet.toMap, hm]
      simp only [Db.zsetDelete, hn, if_true, and_true]
      rw [Db.abs_modify hl rfl]
      simp [Entry.value, (Db.expectZset_some hz).2, ZSet.toMap_delete]

theorem doZscore_spec {db : Db} (hw : db.WF) (cmd : Cmd) :
    zscoreSpec db.abs (arg cmd 1) db.abs (doZscore db cmd) (arg cmd 2) := by
  refine ⟨rfl, ?_⟩
  rcases expectZset_cases hw (arg cmd 1) with ⟨hz, hA⟩ | ⟨hz, s, d, hA⟩ | ⟨a, hl, hz, hA⟩
  · simp [doZscore, hz, hA, Db.zsetOf, ZSet.lookup, ZSet.empty]
  · simp [doZscore, hz, hA]
  · simp only [doZscore, hz, hA, Db.zsetOf, ZSet.toMap]
    cases (db.ent a).zset.lookup (arg cmd 2) <;> rfl

/-- The output loop of `do_zquery`, from a rank inside the set or from null, writes the name
and the score of members of the set and counts two values for each. -/
theorem zqueryLoop_members (z : ZSet) (limit : Int) :
    ∀ (fuel : Nat) (r : Option Nat) (n : Int), (∀ j, r = some j → j < z.size) →
      ∃ ps : List (List UInt8 × F64), (∀ p ∈ ps, (z.toMap p.1).isSome) ∧
        zqueryLoop z limit fuel r n = (ps.flatMap fun p => [.str p.1, .dbl p.2], n + 2 * ps.length)
  | 0, _, n, _ => ⟨[], nofun, by simp [zqueryLoop]⟩
  | _ + 1, none, n, _ => ⟨[], nofun, by simp [zqueryLoop]⟩
  | fuel + 1, some r, n, hr => by
    unfold zqueryLoop
    split
    · obtain ⟨ps, hps, he⟩ := zqueryLoop_members z limit fuel (z.offset (some r) 1) (n + 2)
        fun _ => ZSet.offset_lt
      have hmem : z.sorted.getD r ⟨[], ⟨0⟩⟩ ∈ z.sorted := by
        rw [List.getD_eq_getElem _ _ (by rw [ZSet.length_sorted]; exact hr r rfl)]
        exact List.getElem_mem _
      refine ⟨((z.sorted.getD r ⟨[], ⟨0⟩⟩).name, (z.sorted.getD r ⟨[], ⟨0⟩⟩).score) :: ps,
        fun p hp => ?_, ?_⟩
      · rcases List.mem_cons.mp hp with rfl | hp
        exacts [ZSet.toMap_isSome_of_mem_sorted hmem, hps p hp]
      · rw [he]
        simp only [List.flatMap_cons, List.length_cons, List.cons_append, List.nil_append,
          Prod.mk.injEq, true_and]
        omega
    · exact ⟨[], nofun, by simp⟩

/-- `do_zquery`'s array on a sorted set, from a rank inside it or from null. -/
theorem zqueryArr_of_loop (z : ZSet) (limit : Int) {r : Option Nat}
    (hr : ∀ j, r = some j → j < z.size) :
    zqueryArr z.toMap limit (if limit ≤ 0 then [.arr 0] else
      let (items, n) := zqueryLoop z limit z.size r 0
      .beginArr :: items ++ [.endArr n.toNat]) := by
  unfold zqueryArr
  split_ifs
  · rfl
  · obtain ⟨ps, hps, he⟩ := zqueryLoop_members z limit z.size r 0 hr
    refine ⟨ps, hps, ?_⟩
    rw [he]
    dsimp only
    rw [Int.zero_add, show (2 * (ps.length : Int)).toNat = 2 * ps.length by omega]

theorem doZquery_spec {db : Db} (hw : db.WF) (cmd : Cmd) :
    zquerySpec db.abs (arg cmd 1) db.abs (doZquery db cmd) (arg cmd 2) (arg cmd 4)
      (arg cmd 5) := by
  refine ⟨rfl, ?_⟩
  unfold doZquery
  cases str2dbl (arg cmd 2) with
  | none => rfl
  | some score =>
    cases str2int (arg cmd 4) with
    | none => rfl
    | some offset =>
      cases str2int (arg cmd 5) with
      | none => rfl
      | some limit =>
        rcases expectZset_cases hw (arg cmd 1) with ⟨hz, hA⟩ | ⟨hz, s, d, hA⟩ | ⟨a, -, hz, hA⟩
        · -- a missing key is the empty set
          have h := zqueryArr_of_loop ZSet.empty limit
            (r := ZSet.empty.offset (ZSet.empty.seekGe score (arg cmd 3)) offset)
            fun _ => ZSet.offset_lt
          rw [ZSet.toMap_empty] at h
          simpa only [hz, hA, Db.zsetOf] using h
        · simp only [hz, hA]
        · simp only [hz, hA, Db.zsetOf]
          exact zqueryArr_of_loop _ _ fun _ => ZSet.offset_lt

/-- On a store with `Db.WF`, every branch of `do_request` makes a reply and a change that
section 4.3 allows; only `pexpire` needs the clock reading below `2^63`. -/
theorem exec_spec_of {db : Db} (hw : db.WF) {cmd : Cmd} (hnow : route cmd = .pexpire → now < 2 ^ 63) :
    Spec now db.abs cmd (exec H now db cmd).1.abs (exec H now db cmd).2 := by
  unfold Spec exec
  rw [← route_eq_command]
  -- `bgrewriteaof` leaves the store alone, which `dsimp` closes
  cases hr : route cmd <;> dsimp only
  case get => exact doGet_spec hw cmd
  case set => exact doSet_spec hw cmd
  case del => exact doDel_spec H now hw cmd
  case pexpire => exact doExpire_spec H now hw (hnow hr) cmd
  case pttl => exact doTtl_spec now hw cmd
  case keys => exact doKeys_spec hw
  case zadd => exact doZadd_spec hw cmd
  case zrem => exact doZrem_spec hw cmd
  case zscore => exact doZscore_spec hw cmd
  case zquery => exact doZquery_spec hw cmd
  case unknown => exact ⟨rfl, rfl⟩

/-- On a store with `Db.WF`, every branch of `do_request` makes a reply and a change that
section 4.3 allows. -/
theorem exec_spec {db : Db} (hw : db.WF) (hnow : now < 2 ^ 63) (cmd : Cmd) :
    Spec now db.abs cmd (exec H now db cmd).1.abs (exec H now db cmd).2 :=
  exec_spec_of H now hw fun _ => hnow

end Refinement

/-- The store refines section 4.3: on every store reachable from the empty one, at a clock
reading below `2^63` ms, every command vector gets the reply and makes the change of the
abstract store that section 4.3 gives (`keys` in any order; `zquery`'s array apart). -/
theorem request_refines_spec {H : HeapUpdate} {db : Db} (hr : db.Reachable H) {now : Nat}
    (hnow : now < 2 ^ 63) (cmd : Cmd) :
    Spec now db.abs cmd (exec H now db cmd).1.abs (exec H now db cmd).2 :=
  exec_spec H now hr.wf hnow cmd

/-- `set a w` at 3 ms on the store where `a` holds `v` with the deadline 10 ms and `b` holds `u`
without one: the new string keeps the deadline. -/
theorem request_refines_spec_set :
    ∃ db : Db, db.Reachable HeapUpdate.sorted ∧ (db.abs (ascii "a")).map (·.2) = some (some 10) ∧
      (db.abs (ascii "b")).map (·.2) = some none ∧
      ((exec HeapUpdate.sorted 3 db [ascii "set", ascii "a", ascii "w"]).1.abs (ascii "a")).map
        (·.2) = some (some 10) ∧
      3 < 2 ^ 63 ∧ Spec 3 db.abs [ascii "set", ascii "a", ascii "w"]
        (exec HeapUpdate.sorted 3 db [ascii "set", ascii "a", ascii "w"]).1.abs
        (exec HeapUpdate.sorted 3 db [ascii "set", ascii "a", ascii "w"]).2 := by
  have hr := (((Db.Reachable.empty (H := HeapUpdate.sorted)).exec 0
    [ascii "set", ascii "a", ascii "v"]).exec 0 [ascii "pexpire", ascii "a", ascii "10"]).exec 0
    [ascii "set", ascii "b", ascii "u"]
  exact ⟨_, hr, rfl, rfl, rfl, by decide, request_refines_spec hr (by decide) _⟩

end KvServer
