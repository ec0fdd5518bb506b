import KvServer.Server.Request
import KvServer.Server.Response

/-!
# Every reply is one tagged value

A handler writes its reply with the `out_*` calls, and `response_end` frames it with its
length. A client reads the frame's body as one tagged value of section 4.2. This module gives
that reader, `Val.read`, built from the cursor readers `read_u32` and `read_str` of
`parse_req`. It shows that the reader reads back every tagged value whose lengths and counts
fit their `uint32_t` fields and whose integers fit an `int64_t`, and that every reply of
`do_request` is the bytes of such a value, on a store whose strings and sizes fit.

What the handlers must get right is the count of an array. `do_keys` writes `hm_size` and
then one string per key. `do_zquery` writes the count `n` its loop kept, which goes up by two
for each name and score.

Results:
1. `Val.read_bytes`: the reader reads back every well-formed value from its bytes and stops
   at their end.
2. `zqueryLoop_count`: `do_zquery`'s `n` is the number of calls its loop made.
3. `exec_oneValue`, `doAofRewrite_oneValue`: each handler's calls make one value (`OneValue`):
   one call, `out_arr(n)` and `n` calls, or `out_begin_arr`, calls and `out_end_arr(n)`.
4. `reply_reads_back`: on a store whose strings and sizes fit, every reply of `do_request` is
   the bytes of one well-formed value, and the reader reads that value back from them.
-/

namespace KvServer

/-! ## Reading tagged values -/

mutual

/-- A tagged value whose lengths and counts fit their `uint32_t` fields and whose integer fits
an `int64_t`. -/
def Val.wf : Val → Bool
  | .nil | .dbl _ => true
  | .err code msg => code < 2 ^ 32 && msg.length < 2 ^ 32
  | .str s => s.length < 2 ^ 32
  | .int v => -2 ^ 63 ≤ v && v < 2 ^ 63
  | .arr vs => vs.length < 2 ^ 32 && Val.listWf vs

/-- Every value of a list is well formed. -/
def Val.listWf : List Val → Bool
  | [] => true
  | v :: vs => v.wf && Val.listWf vs

end

/-- `n` items read one after the other by `f`. -/
def readMany {α : Type} (f : List UInt8 → Option (α × List UInt8)) :
    Nat → List UInt8 → Option (List α × List UInt8)
  | 0, cur => some ([], cur)
  | n + 1, cur => do
    let (x, cur) ← f cur
    let (xs, cur) ← readMany f n cur
    pure (x :: xs, cur)

/-- The reader of the tagged values of section 4.2, as a client reads a reply: the tag, then
its payload with `read_u32` and `read_str`. `fuel` bounds the nesting of arrays. -/
def Val.read : Nat → List UInt8 → Option (Val × List UInt8)
  | 0, _ | _ + 1, [] => none
  | fuel + 1, t :: cur =>
    if t = tagNil then some (.nil, cur)
    else if t = tagErr then do
      let (code, cur) ← readU32 cur
      let (len, cur) ← readU32 cur
      let (msg, cur) ← readStr cur len.toNat
      pure (.err code.toNat msg, cur)
    else if t = tagStr then do
      let (len, cur) ← readU32 cur
      let (s, cur) ← readStr cur len.toNat
      pure (.str s, cur)
    else if t = tagInt then do
      let (x, cur) ← readStr cur 8
      pure (.int (toInt64 (leValue x)), cur)
    else if t = tagDbl then do
      let (x, cur) ← readStr cur 8
      pure (.dbl ⟨UInt64.ofNat (leValue x)⟩, cur)
    else if t = tagArr then do
      let (n, cur) ← readU32 cur
      let (vs, cur) ← readMany (Val.read fuel) n.toNat cur
      pure (.arr vs, cur)
    else none

/-- The reader on a whole input: every value takes at least its tag byte, so the input's
length bounds the nesting. -/
def Val.decode (bs : List UInt8) : Option (Val × List UInt8) := Val.read bs.length bs

theorem toInt64_i64Bytes {v : Int} (h₁ : -2 ^ 63 ≤ v) (h₂ : v < 2 ^ 63) :
    toInt64 (leValue (i64Bytes v)) = v := by
  have hm : leValue (i64Bytes v) = (v % 2 ^ 64).toNat := by
    rw [i64Bytes, leValue_leBytes]
    exact Nat.mod_eq_of_lt (by omega)
  rw [hm, toInt64]
  split <;> omega

theorem readMany_cons {α : Type} (f : List UInt8 → Option (α × List UInt8)) (n : Nat)
    {cur cur' : List UInt8} {x : α} (h : f cur = some (x, cur')) :
    readMany f (n + 1) cur = (readMany f n cur').map fun p => (x :: p.1, p.2) := by
  simp only [readMany, h, Option.bind_eq_bind, Option.some_bind, Option.pure_def]
  cases readMany f n cur' <;> rfl

theorem Val.length_bytes_le_of_mem {v : Val} :
    ∀ {vs : List Val}, v ∈ vs → v.bytes.length ≤ (Val.listBytes vs).length
  | _ :: _, .head _ => by simp [Val.listBytes]
  | _ :: _, .tail _ h => by
    have := Val.length_bytes_le_of_mem h
    simp only [Val.listBytes, List.length_append]
    omega

mutual

/-- The reader reads back a well-formed value from its bytes, with any bytes after them. -/
theorem Val.read_bytes : ∀ {v : Val}, v.wf → ∀ {fuel : Nat}, v.bytes.length ≤ fuel →
    ∀ rest, Val.read fuel (v.bytes ++ rest) = some (v, rest)
  | v, _, 0, hlen, _ => absurd hlen (by cases v <;> simp [Val.bytes])
  | .nil, _, _ + 1, _, _ => rfl
  | .err code msg, hw, _ + 1, _, rest => by
    simp only [Val.wf, Bool.and_eq_true, decide_eq_true_eq] at hw
    simp [Val.read, Val.bytes, tagNil, tagErr, u32Len, u32Len_toNat hw.1, u32Len_toNat hw.2]
  | .str s, hw, _ + 1, _, rest => by
    simp only [Val.wf, decide_eq_true_eq] at hw
    simp [Val.read, Val.bytes, tagNil, tagErr, tagStr, u32Len, u32Len_toNat hw]
  | .int v, hw, _ + 1, _, rest => by
    simp only [Val.wf, Bool.and_eq_true, decide_eq_true_eq] at hw
    simp [Val.read, Val.bytes, tagNil, tagErr, tagStr, tagInt, readStr,
      toInt64_i64Bytes hw.1 hw.2]
  | .dbl d, _, _ + 1, _, rest => by
    have hd : UInt64.ofNat (leValue (dblBytes d)) = d.bits := by
      have hb : d.bits.toNat < 256 ^ 8 := UInt64.toNat_lt_size d.bits
      rw [dblBytes, leValue_leBytes, Nat.mod_eq_of_lt hb]
      exact UInt64.toNat.inj (UInt64.toNat_ofNat_of_lt hb)
    simp [Val.read, Val.bytes, tagNil, tagErr, tagStr, tagInt, tagDbl, readStr, hd]
  | .arr vs, hw, fuel + 1, hlen, rest => by
    simp only [Val.wf, Bool.and_eq_true, decide_eq_true_eq] at hw
    have hle : ∀ v ∈ vs, v.bytes.length ≤ fuel := fun v hv => by
      have := Val.length_bytes_le_of_mem hv
      simp only [Val.bytes, List.length_cons, List.length_append] at hlen
      omega
    simp [Val.read, Val.bytes, tagNil, tagErr, tagStr, tagInt, tagDbl, tagArr,
      u32Len, u32Len_toNat hw.1, Val.readMany_listBytes hw.2 hle]

/-- The reader reads back well-formed values one after the other. -/
theorem Val.readMany_listBytes : ∀ {vs : List Val}, Val.listWf vs → ∀ {fuel : Nat},
    (∀ v ∈ vs, v.bytes.length ≤ fuel) →
    ∀ rest, readMany (Val.read fuel) vs.length (Val.listBytes vs ++ rest) = some (vs, rest)
  | [], _, _, _, _ => rfl
  | v :: vs, hw, _, hle, rest => by
    simp only [Val.listWf, Bool.and_eq_true] at hw
    rw [List.length_cons, Val.listBytes, List.append_assoc,
      readMany_cons _ _ (Val.read_bytes hw.1 (hle v (List.mem_cons_self _ _)) _),
      Val.readMany_listBytes hw.2 (fun w hw => hle w (List.mem_cons_of_mem _ hw))]
    rfl

end

/-- A client decoding a well-formed value's bytes, with any bytes after them, gets the value
and the bytes after it. -/
theorem Val.decode_bytes {v : Val} (hw : v.wf) (rest : List UInt8) :
    Val.decode (v.bytes ++ rest) = some (v, rest) :=
  Val.read_bytes hw (by simp) rest

theorem toInt64_emod {n : Nat} (h : n < 2 ^ 64) : toInt64 n % 2 ^ 64 = n := by
  unfold toInt64
  split <;> omega

theorem toInt64_range {n : Nat} (h : n < 2 ^ 64) : -2 ^ 63 ≤ toInt64 n ∧ toInt64 n < 2 ^ 63 := by
  unfold toInt64
  split <;> omega

/-! ## The calls of one reply -/

namespace Out

/-- A call that writes one whole value, its lengths fitting their `uint32_t` fields. -/
def scalar : Out → Bool
  | nil | int _ | dbl _ => true
  | str s => s.length < 2 ^ 32
  | err code msg => code < 2 ^ 32 && msg.length < 2 ^ 32
  | arr _ | beginArr | endArr _ => false

/-- The value a scalar call writes; `out_int` writes its argument as an `int64_t`. -/
def toVal : Out → Val
  | nil => .nil
  | str s => .str s
  | int v => .int (toInt64 (v % 2 ^ 64).toNat)
  | dbl v => .dbl v
  | err code msg => .err code msg
  | arr _ | beginArr | endArr _ => .nil

theorem plain_of_scalar {o : Out} (h : o.scalar) : o.Plain := by
  cases o <;> first | rfl | cases h

theorem toVal_bytes {o : Out} (h : o.scalar) : o.toVal.wf ∧ o.toVal.bytes = o.bytes := by
  cases o with
  | int v =>
    have hlt : (v % 2 ^ 64).toNat < 2 ^ 64 := by omega
    refine ⟨by simpa [toVal, Val.wf] using toInt64_range hlt, ?_⟩
    simp only [toVal, Val.bytes, bytes, i64Bytes]
    rw [toInt64_emod hlt, Int.toNat_ofNat]
  | arr | beginArr | endArr => cases h
  | nil | dbl _ => exact ⟨rfl, rfl⟩
  | str _ | err _ _ => simpa [scalar, toVal, Val.wf, Val.bytes, bytes] using h

theorem listBytes_map_toVal {items : List Out} (h : ∀ o ∈ items, o.scalar) :
    Val.listWf (items.map toVal) ∧ Val.listBytes (items.map toVal) = items.flatMap bytes := by
  induction items with
  | nil => exact ⟨rfl, rfl⟩
  | cons o items ih =>
    obtain ⟨hw, hb⟩ := toVal_bytes (h o (List.mem_cons_self _ _))
    obtain ⟨hws, hbs⟩ := ih fun o ho => h o (List.mem_cons_of_mem _ ho)
    simp [Val.listWf, Val.listBytes, hw, hb, hws, hbs]

/-- The calls of a reply that write one tagged value: a scalar call; `out_arr(n)` and `n`
scalar calls; or `out_begin_arr`, `n` scalar calls and `out_end_arr(n)`. -/
inductive OneValue : List Out → Prop
  | scalar {o : Out} : o.scalar → OneValue [o]
  | arr {items : List Out} {n : Nat} : n = items.length → n < 2 ^ 32 →
      (∀ o ∈ items, o.scalar) → OneValue (arr n :: items)
  | patched {items : List Out} {n : Nat} : n = items.length → n < 2 ^ 32 →
      (∀ o ∈ items, o.scalar) → OneValue (beginArr :: items ++ [endArr n])

/-- The calls of one value write its bytes, the count patched in. -/
theorem OneValue.reply {outs : List Out} (h : OneValue outs) :
    ∃ v : Val, v.wf ∧ replyBytes outs = v.bytes := by
  match h with
  | .scalar ho =>
    obtain ⟨hw, hb⟩ := toVal_bytes ho
    exact ⟨_, hw, by simp [replyBytes, outsOnList, onList_plain (plain_of_scalar ho), hb]⟩
  | @OneValue.arr items _ hn hlt hs =>
    obtain ⟨hw, hb⟩ := listBytes_map_toVal hs
    subst hn
    refine ⟨.arr (items.map toVal), by simpa [Val.wf, hw] using hlt, ?_⟩
    simp [replyBytes, outsOnList, foldl_onList_plain (fun o ho => plain_of_scalar (hs o ho)),
      onList, bytes, Val.bytes, hb]
  | @OneValue.patched items _ hn hlt hs =>
    obtain ⟨hw, hb⟩ := listBytes_map_toVal hs
    subst hn
    refine ⟨.arr (items.map toVal), by simpa [Val.wf, hw] using hlt, ?_⟩
    rw [replyBytes, outsOnList_arr [] (fun o ho => plain_of_scalar (hs o ho))]
    simp [Val.bytes, hb]

end Out

/-! ## Every handler's reply -/

/-- A store whose replies fit the `uint32_t` fields of section 4.2: fewer than `2^32` keys;
every key, string and member name shorter than `2^32` bytes; every sorted set of fewer than
`2^31` members, so that `zquery`'s count of names and scores fits. -/
def Db.Replyable (db : Db) : Prop :=
  db.table.length < 2 ^ 32 ∧ ∀ a ∈ db.table, (db.ent a).key.length < 2 ^ 32 ∧
    (db.ent a).str.length < 2 ^ 32 ∧ 2 * (db.ent a).zset.size < 2 ^ 32 ∧
    ∀ m ∈ (db.ent a).zset.members, m.name.length < 2 ^ 32

instance (db : Db) : Decidable db.Replyable := inferInstanceAs (Decidable (_ ∧ _))

/-- The sorted set `expect_zset` finds in such a store fits too. -/
theorem Db.Replyable.zsetOf {db : Db} (hr : db.Replyable) {k : List UInt8} {zs : Option Nat}
    (h : db.expectZset k = some zs) :
    2 * (db.zsetOf zs).size < 2 ^ 32 ∧ ∀ m ∈ (db.zsetOf zs).members, m.name.length < 2 ^ 32 := by
  cases zs with
  | none => exact ⟨by simp [Db.zsetOf, ZSet.size, ZSet.empty], fun _ hm => by cases hm⟩
  | some a => exact (hr.2 a (Db.expectZset_some h).1).2.2

/-- `do_zquery`'s loop writes a name and a score per member while `n < limit`, and adds 2 to
`n` for each pair: `n` ends as its start plus the number of calls. -/
theorem zqueryLoop_count (z : ZSet) (limit : Int)
    (hz : ∀ m ∈ z.members, m.name.length < 2 ^ 32) :
    ∀ (fuel : Nat) (r : Option Nat) (n : Int),
      (zqueryLoop z limit fuel r n).2 = n + (zqueryLoop z limit fuel r n).1.length ∧
        (zqueryLoop z limit fuel r n).1.length ≤ 2 * fuel ∧
        ∀ o ∈ (zqueryLoop z limit fuel r n).1, o.scalar
  | 0, _, n => by simp [zqueryLoop]
  | _ + 1, none, n => by simp [zqueryLoop]
  | fuel + 1, some r, n => by
    obtain ⟨hc, hl, hs⟩ := zqueryLoop_count z limit hz fuel (z.offset (some r) 1) (n + 2)
    have hm : (z.sorted.getD r ⟨[], ⟨0⟩⟩).name.length < 2 ^ 32 := by
      rw [List.getD_eq_getElem?_getD]
      cases h : z.sorted[r]? with
      | none => decide
      | some m => exact hz m ((List.mergeSort_perm _ _).mem_iff.mp (List.getElem?_mem h))
    unfold zqueryLoop
    split
    · refine ⟨by simp only [List.length_cons]; push_cast; omega, by simp only [List.length_cons]; omega, ?_⟩
      simp only [List.mem_cons]
      rintro o (rfl | rfl | ho)
      exacts [by simpa [Out.scalar] using hm, rfl, hs o ho]
    · simp

section Handlers

variable (H : HeapUpdate) (now : Nat) {db : Db} (hr : db.Replyable)
include hr

/-- Every handler of the store writes one value. -/
theorem exec_oneValue {cmd : Cmd} (hb : route cmd ≠ .bgrewriteaof) :
    Out.OneValue (exec H now db cmd).2 := by
  unfold exec
  cases hroute : route cmd with
  | get =>
    dsimp only [doGet]
    split
    · exact .scalar rfl
    · rename_i a ha
      split
      · exact .scalar (by decide)
      · exact .scalar (by simpa [Out.scalar] using (hr.2 a (Db.hmLookup_some ha).1).2.1)
  | keys =>
    refine .arr (by simp) hr.1 ?_
    simp only [List.mem_map]
    rintro o ⟨a, ha, rfl⟩
    simpa [Out.scalar] using (hr.2 a ha).1
  | zquery =>
    dsimp only [doZquery]
    split
    · exact .scalar (by decide)
    · split
      · rename_i zs hz
        split
        · exact .scalar (by decide)
        · rename_i zs hz
          obtain ⟨hsize, hnames⟩ := hr.zsetOf hz
          split
          · exact .arr rfl (by decide) fun _ h => by cases h
          · obtain ⟨hc, hl, hs⟩ := zqueryLoop_count _ _ hnames _ _ 0
            refine .patched (by omega) (by omega) hs
      · exact .scalar (by decide)
  | bgrewriteaof => exact absurd hroute hb
  | _ =>
    dsimp only [doSet, doDel, doExpire, doTtl, doZadd, doZrem, doZscore, zaddTo]
    repeat' split
    all_goals exact .scalar rfl

end Handlers

/-- `bgrewriteaof` writes one value. -/
theorem doAofRewrite_oneValue {env : Env} {db : Db} {a a' : Aof} {outs : List Out}
    {w : List UInt8} (h : doAofRewrite env db a = some (a', outs, w)) : Out.OneValue outs := by
  unfold doAofRewrite at h
  split_ifs at h
  · cases h; exact .scalar (by decide)
  · cases h; exact .scalar (by decide)
  · obtain ⟨⟨a₁, w₁, ok⟩, -, h⟩ := Option.bind_eq_some.mp h
    cases h
    split
    · exact .scalar rfl
    · exact .scalar (by decide)

/-- **Every reply is one tagged value.** On a store whose strings and sizes fit their
`uint32_t` fields, every reply of `do_request` is the bytes of one well-formed tagged value,
and a client decoding the reply, with any bytes after it, reads that value and stops at the
end of the reply. -/
theorem reply_reads_back {H : HeapUpdate} {env : Env} {s s' : Server} {cmd : Cmd}
    {outs : List Out} {w : List UInt8} (hr : s.db.Replyable)
    (h : doRequest H env s cmd = some (s', outs, w)) :
    ∃ v, v.wf ∧ replyBytes outs = v.bytes ∧
      ∀ rest, Val.decode (replyBytes outs ++ rest) = some (v, rest) := by
  have hone : Out.OneValue outs := by
    unfold doRequest at h
    split at h
    · obtain ⟨⟨a, outs', w'⟩, ha, h⟩ := Option.bind_eq_some.mp h
      cases h
      exact doAofRewrite_oneValue ha
    · rename_i hb
      split at h
      · obtain ⟨buf, -, h⟩ := Option.bind_eq_some.mp h
        obtain ⟨⟨aof, w'⟩, -, h⟩ := Option.bind_eq_some.mp h
        cases h
        exact exec_oneValue H env.now hr hb
      · cases h
        exact exec_oneValue H env.now hr hb
  obtain ⟨v, hw, hv⟩ := hone.reply
  exact ⟨v, hw, hv, fun rest => hv ▸ Val.decode_bytes hw rest⟩

/-- `keys` on the store holding `k = v`: one array of one string. -/
theorem reply_reads_back_keys :
    ∃ s' outs w,
      (exec HeapUpdate.sorted 0 Db.empty [ascii "set", ascii "k", ascii "v"]).1.Replyable ∧
      doRequest HeapUpdate.sorted ⟨0, some, true, true, true⟩
        ⟨(exec HeapUpdate.sorted 0 Db.empty [ascii "set", ascii "k", ascii "v"]).1,
          ⟨false, false, 0, Buffer.new, false, []⟩⟩ [ascii "keys"] = some (s', outs, w) ∧
      ∃ v, v.wf ∧ replyBytes outs = v.bytes ∧
        ∀ rest, Val.decode (replyBytes outs ++ rest) = some (v, rest) := by
  have hr : (exec HeapUpdate.sorted 0 Db.empty [ascii "set", ascii "k", ascii "v"]).1.Replyable := by
    decide
  have h : doRequest HeapUpdate.sorted ⟨0, some, true, true, true⟩
      ⟨(exec HeapUpdate.sorted 0 Db.empty [ascii "set", ascii "k", ascii "v"]).1,
        ⟨false, false, 0, Buffer.new, false, []⟩⟩ [ascii "keys"] = some (_, _, _) := rfl
  exact ⟨_, _, _, hr, h, reply_reads_back hr h⟩

end KvServer
