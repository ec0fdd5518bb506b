import KvServer.Store.Abstract

/-!
# `zquery`

`do_zquery` seeks the first member at or after `(score, name)`, moves `offset` ranks with
`znode_offset`, and writes members while `n < limit`, adding 2 to `n` for the name and the score
of each. Section 6 gives the contracts of `zset_seekge` and `znode_offset`, which the model of
the sorted set follows (`ZSet.seekGe`, `ZSet.offset`, ranks in `ZSet.sorted`).

Results:
1. `zqueryLoop_spec`: the output loop writes `min (|Z| - r) (⌈limit / 2⌉)` members from rank `r`.
2. `zquery_reply`: the reply of `do_zquery` for every set, seek key, offset and limit.
3. `zquery_limit_counts_values`: a set of two members and the limit 2 give one member.
-/

namespace KvServer

/-- The output loop ends at once on the null node. -/
theorem zqueryLoop_none (z : ZSet) (limit : Int) (fuel : Nat) (n : Int) :
    zqueryLoop z limit fuel none n = ([], n) := by
  cases fuel <;> rfl

/-- The output loop of `do_zquery` from rank `r` with `2 * i` values written and the limit
`L`: it writes the name and the score of the members from rank `r` on while fewer than `L`
values are written, and stops after the last member, so it writes `min (|Z| - r)
(⌈L / 2⌉ - i)` members. -/
theorem zqueryLoop_spec (z : ZSet) (L : Nat) :
    ∀ (fuel r i : Nat), r < z.size → z.size - r ≤ fuel →
      zqueryLoop z L fuel (some r) ((2 * i : Nat) : Int) =
        (((z.sorted.drop r).take (min (z.size - r) ((L + 1) / 2 - i))).flatMap
            (fun m => [Out.str m.name, .dbl m.score]),
          ((2 * (i + min (z.size - r) ((L + 1) / 2 - i)) : Nat) : Int))
  | 0, r, i, hr, hf => by omega
  | fuel + 1, r, i, hr, hf => by
    have hlen := z.length_sorted
    unfold zqueryLoop
    by_cases hi : ((2 * i : Nat) : Int) < (L : Int)
    · rw [if_pos hi, ZSet.offset_succ]
      have hk : min (z.size - r) ((L + 1) / 2 - i) =
          min (z.size - (r + 1)) ((L + 1) / 2 - (i + 1)) + 1 := by omega
      have hd : z.sorted.drop r = z.sorted[r] :: z.sorted.drop (r + 1) := by
        rw [List.drop_eq_getElem_cons (by omega)]
      split_ifs with hr'
      · rw [show ((2 * i : Nat) : Int) + 2 = ((2 * (i + 1) : Nat) : Int) by omega,
          zqueryLoop_spec z L fuel (r + 1) (i + 1) hr' (by omega), hk, hd]
        simp only [List.take_succ_cons, List.flatMap_cons, List.cons_append, List.nil_append,
          List.getD_eq_getElem?_getD, List.getElem?_eq_getElem (show r < z.sorted.length by omega),
          Option.getD_some, Prod.mk.injEq, true_and]
        omega
      · have hk1 : min (z.size - r) ((L + 1) / 2 - i) = 0 + 1 := by omega
        rw [zqueryLoop_none, hk1, hd]
        simp only [List.take_succ_cons, List.take_zero, List.flatMap_cons, List.flatMap_nil,
          List.cons_append, List.nil_append, List.append_nil, List.getD_eq_getElem?_getD,
          List.getElem?_eq_getElem (show r < z.sorted.length by omega), Option.getD_some,
          Prod.mk.injEq, true_and]
        omega
    · rw [if_neg hi]
      have hk : min (z.size - r) ((L + 1) / 2 - i) = 0 := by omega
      simp [hk]

/-- `do_zquery` on arguments that parse: an empty array for a limit of at most 0, else the
output loop from the rank that the seek and the offset give. -/
theorem doZquery_parsed {db : Db} {cmd : Cmd} {score : F64} {offset limit : Int}
    {zs : Option Nat} (hs : str2dbl (arg cmd 2) = some score) (ho : str2int (arg cmd 4) = some offset)
    (hl : str2int (arg cmd 5) = some limit) (hz : db.expectZset (arg cmd 1) = some zs) :
    doZquery db cmd = if limit ≤ 0 then [.arr 0] else
      .beginArr :: (zqueryLoop (db.zsetOf zs) limit (db.zsetOf zs).size
        ((db.zsetOf zs).offset ((db.zsetOf zs).seekGe score (arg cmd 3)) offset) 0).1 ++
        [.endArr (zqueryLoop (db.zsetOf zs) limit (db.zsetOf zs).size
          ((db.zsetOf zs).offset ((db.zsetOf zs).seekGe score (arg cmd 3)) offset) 0).2.toNat] := by
  simp only [doZquery, hs, ho, hl, hz]

/-- `do_zquery` on arguments that parse, for a sorted set or a missing key (the empty set):
a `limit` of at most 0 gives an empty array. Otherwise let `j` be the rank of the first member at
or after `(score, name)`, moved by `offset`. There is no such member, or `j` is outside the set:
an empty array. Else the array holds the name and the score of the members of ranks `j`,
`j + 1`, ..., at most `⌈limit / 2⌉` of them, because the loop counts values, two per member. -/
theorem zquery_reply {db : Db} {cmd : Cmd} {score : F64} {offset limit : Int}
    {zs : Option Nat} (hs : str2dbl (arg cmd 2) = some score) (ho : str2int (arg cmd 4) = some offset)
    (hl : str2int (arg cmd 5) = some limit) (hz : db.expectZset (arg cmd 1) = some zs) :
    (limit ≤ 0 → doZquery db cmd = [.arr 0]) ∧
    (0 < limit → (db.zsetOf zs).offset ((db.zsetOf zs).seekGe score (arg cmd 3)) offset = none →
      doZquery db cmd = [.beginArr, .endArr 0]) ∧
    (0 < limit → ∀ j, (db.zsetOf zs).offset ((db.zsetOf zs).seekGe score (arg cmd 3)) offset = some j →
      doZquery db cmd = .beginArr ::
        (((db.zsetOf zs).sorted.drop j).take
          (min ((db.zsetOf zs).size - j) ((limit.toNat + 1) / 2))).flatMap
          (fun m => [.str m.name, .dbl m.score]) ++
        [.endArr (2 * min ((db.zsetOf zs).size - j) ((limit.toNat + 1) / 2))]) := by
  have hd := doZquery_parsed hs ho hl hz
  refine ⟨fun h => by rw [hd, if_pos h], fun h hn => ?_, fun h j hj => ?_⟩
  · rw [hd, if_neg (by omega), hn, zqueryLoop_none]
    rfl
  obtain ⟨L, rfl⟩ : ∃ L : Nat, limit = L := ⟨limit.toNat, (Int.toNat_of_nonneg h.le).symm⟩
  rw [hd, if_neg (by omega), hj, show (0 : Int) = ((2 * 0 : Nat) : Int) from rfl,
    zqueryLoop_spec _ L _ j 0 (ZSet.offset_lt hj) (Nat.sub_le _ _)]
  simp only [Nat.mul_zero, Nat.zero_add, Nat.sub_zero, Int.toNat_ofNat]

/-- `zquery z 0 "" 0 2` on the sorted set `z = {(a, 1), (b, 2)}` made by two `zadd`s: the seek
and the offset give rank 0, so the walk runs from the first member. -/
theorem zquery_reply_pair :
    ∃ db : Db, db.Reachable HeapUpdate.sorted ∧
      (db.zsetOf (some 0)).offset ((db.zsetOf (some 0)).seekGe ⟨0⟩
        (arg [ascii "zquery", ascii "z", ascii "0", [], ascii "0", ascii "2"] 3)) 0 = some 0 ∧
      str2dbl (arg [ascii "zquery", ascii "z", ascii "0", [], ascii "0", ascii "2"] 2) = some ⟨0⟩ ∧
      str2int (arg [ascii "zquery", ascii "z", ascii "0", [], ascii "0", ascii "2"] 4) = some 0 ∧
      str2int (arg [ascii "zquery", ascii "z", ascii "0", [], ascii "0", ascii "2"] 5) = some 2 ∧
      db.expectZset (arg [ascii "zquery", ascii "z", ascii "0", [], ascii "0", ascii "2"] 1) =
        some (some 0) ∧
      ((2 : Int) ≤ 0 →
        doZquery db [ascii "zquery", ascii "z", ascii "0", [], ascii "0", ascii "2"] = [.arr 0]) ∧
      ((0 : Int) < 2 → (db.zsetOf (some 0)).offset ((db.zsetOf (some 0)).seekGe ⟨0⟩
          (arg [ascii "zquery", ascii "z", ascii "0", [], ascii "0", ascii "2"] 3)) 0 = none →
        doZquery db [ascii "zquery", ascii "z", ascii "0", [], ascii "0", ascii "2"] =
          [.beginArr, .endArr 0]) ∧
      ((0 : Int) < 2 → ∀ j, (db.zsetOf (some 0)).offset ((db.zsetOf (some 0)).seekGe ⟨0⟩
          (arg [ascii "zquery", ascii "z", ascii "0", [], ascii "0", ascii "2"] 3)) 0 = some j →
        doZquery db [ascii "zquery", ascii "z", ascii "0", [], ascii "0", ascii "2"] =
          .beginArr :: (((db.zsetOf (some 0)).sorted.drop j).take
            (min ((db.zsetOf (some 0)).size - j) (((2 : Int).toNat + 1) / 2))).flatMap
            (fun m => [.str m.name, .dbl m.score]) ++
          [.endArr (2 * min ((db.zsetOf (some 0)).size - j) (((2 : Int).toNat + 1) / 2))]) := by
  have hr := ((Db.Reachable.empty (H := HeapUpdate.sorted)).exec 0
    [ascii "zadd", ascii "z", ascii "1", ascii "a"]).exec 0 [ascii "zadd", ascii "z", ascii "2", ascii "b"]
  have hz : Db.zsetOf (exec HeapUpdate.sorted 0 (exec HeapUpdate.sorted 0 Db.empty
      [ascii "zadd", ascii "z", ascii "1", ascii "a"]).1
      [ascii "zadd", ascii "z", ascii "2", ascii "b"]).1 (some 0) =
      ⟨[⟨ascii "a", ⟨0x3FF0000000000000⟩⟩, ⟨ascii "b", ⟨0x4000000000000000⟩⟩]⟩ := rfl
  have hj : (ZSet.mk [⟨ascii "a", ⟨0x3FF0000000000000⟩⟩, ⟨ascii "b", ⟨0x4000000000000000⟩⟩]).offset
      ((ZSet.mk [⟨ascii "a", ⟨0x3FF0000000000000⟩⟩, ⟨ascii "b", ⟨0x4000000000000000⟩⟩]).seekGe
        ⟨0⟩ []) 0 = some 0 := by
    simp [ZSet.seekGe, ZSet.sorted, List.mergeSort, List.merge]
    decide
  exact ⟨_, hr, by rw [hz]; exact hj, rfl, rfl, rfl, rfl, zquery_reply rfl rfl rfl rfl⟩

/-- The sorted set `z = {(a, 1), (b, 2)}` made by two `zadd`s, and `zquery z 0 "" 0 2`: both
members are at or after `(0, "")` and the limit is 2, but the reply holds one member, two
values. -/
theorem zquery_limit_counts_values (H : HeapUpdate) :
    ∃ db : Db, db.Reachable H ∧
      (exec H 0 db [ascii "zscore", ascii "z", ascii "a"]).2 = [.dbl ⟨0x3FF0000000000000⟩] ∧
      (exec H 0 db [ascii "zscore", ascii "z", ascii "b"]).2 = [.dbl ⟨0x4000000000000000⟩] ∧
      (exec H 0 db [ascii "zquery", ascii "z", ascii "0", [], ascii "0", ascii "2"]).2 =
        [.beginArr, .str (ascii "a"), .dbl ⟨0x3FF0000000000000⟩, .endArr 2] := by
  have hr := ((Db.Reachable.empty (H := H)).exec 0 [ascii "zadd", ascii "z", ascii "1", ascii "a"]).exec
    0 [ascii "zadd", ascii "z", ascii "2", ascii "b"]
  simp (disch := decide) only [exec_congr_heap H HeapUpdate.sorted] at hr
  refine ⟨_, hr, ?_, ?_, ?_⟩ <;> simp (disch := decide) only [exec_congr_heap H HeapUpdate.sorted]
  · decide
  · decide
  have hz : (Db.zsetOf (exec HeapUpdate.sorted 0 (exec HeapUpdate.sorted 0 Db.empty
      [ascii "zadd", ascii "z", ascii "1", ascii "a"]).1
      [ascii "zadd", ascii "z", ascii "2", ascii "b"]).1 (some 0)) =
      ⟨[⟨ascii "a", ⟨0x3FF0000000000000⟩⟩, ⟨ascii "b", ⟨0x4000000000000000⟩⟩]⟩ := rfl
  have hsort : (ZSet.mk [⟨ascii "a", ⟨0x3FF0000000000000⟩⟩, ⟨ascii "b", ⟨0x4000000000000000⟩⟩]).sorted =
      [⟨ascii "a", ⟨0x3FF0000000000000⟩⟩, ⟨ascii "b", ⟨0x4000000000000000⟩⟩] := by
    simp [ZSet.sorted, List.mergeSort, List.merge]
    decide
  have hj : (ZSet.mk [⟨ascii "a", ⟨0x3FF0000000000000⟩⟩, ⟨ascii "b", ⟨0x4000000000000000⟩⟩]).offset
      ((ZSet.mk [⟨ascii "a", ⟨0x3FF0000000000000⟩⟩, ⟨ascii "b", ⟨0x4000000000000000⟩⟩]).seekGe
        ⟨0⟩ []) 0 = some 0 := by
    simp only [ZSet.seekGe, hsort]
    decide
  have hs : str2dbl (arg [ascii "zquery", ascii "z", ascii "0", [], ascii "0", ascii "2"] 2) =
      some ⟨0⟩ := rfl
  have ho : str2int (arg [ascii "zquery", ascii "z", ascii "0", [], ascii "0", ascii "2"] 4) =
      some 0 := rfl
  have hl : str2int (arg [ascii "zquery", ascii "z", ascii "0", [], ascii "0", ascii "2"] 5) =
      some 2 := rfl
  have he : Db.expectZset (exec HeapUpdate.sorted 0 (exec HeapUpdate.sorted 0 Db.empty
      [ascii "zadd", ascii "z", ascii "1", ascii "a"]).1
      [ascii "zadd", ascii "z", ascii "2", ascii "b"]).1
      (arg [ascii "zquery", ascii "z", ascii "0", [], ascii "0", ascii "2"] 1) = some (some 0) := rfl
  refine (doZquery_parsed hs ho hl he).trans ?_
  rw [if_neg (by decide), hz, show arg [ascii "zquery", ascii "z",
    ascii "0", [], ascii "0", ascii "2"] 3 = [] from rfl, hj, show (0 : Int) = ((2 * 0 : Nat) : Int) from rfl,
    show (2 : Int) = ((2 : Nat) : Int) from rfl,
    zqueryLoop_spec _ 2 _ 0 0 (by decide) (by decide), hsort]
  rfl

end KvServer
