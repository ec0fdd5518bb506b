import KvServer.Buffer.Refine

/-!
# The ring at the end of its storage

Section 4.1 states the invariant of `Buffer` as `tail = (head + size) mod capacity`, describes
`get_continuous_data(pos)` as the largest span from `pos` that does not cross the wrap, and has
`insert` extend the size and grow the block when a write runs past the end. The code departs
from each at the end of the storage block.

* `append` sets `tail = tail + len` when the bytes end exactly at the end of the block, so
  `tail` can be `capacity` and not 0.
* `get_continuous_data(pos)` tests `real_pos + size`, not `real_pos + (size - pos)`, against the
  capacity: for `pos > 0` its span can run past the bytes in use to the end of the block.
* `insert` past the end sets `size` and `tail` before `resize`, which then copies `size` bytes
  of the old block; and it sets `tail = (head + size) mod capacity`, which is 0 when the bytes
  end at the end of the block.

Results:
1. `buffer_tail_mod_capacity`: along every run from a fresh buffer, `tail` is
   `(head + size) mod capacity` or `capacity`; `buffer_tail_reaches_capacity` reaches the second.
2. `continuous_span_bounds`: the span `get_continuous_data(pos)` reports, on every buffer with
   the invariant; `continuous_span_past_size` reaches a span past the bytes in use.
3. `insert_extend_spec`: an extension inside the block that does not end at its end;
   `insert_extension_breaks` reaches the two other cases.
-/

namespace KvServer

namespace Buffer

/-! ## `tail` at the end of the block -/

/-- Appending `c` bytes to a fresh `Buffer(c)` fills it: `tail + len` is not above `capacity`,
so `append` sets `tail` to `capacity` itself. -/
theorem append_fills_fresh (c : Nat) (src : List UInt8) (hs : src.length = c) :
    ∃ b, (Buffer.new c).append src = some b ∧
      b.head = 0 ∧ b.tail = c ∧ b.size = c ∧ b.capacity = c := by
  simp [append, reserve, putTail, writeWrapped, memcpyTo, Buffer.new, hs]

/-- Along every run from a fresh buffer the literal invariant of section 4.1 holds except at
`tail`: `head < capacity`, `size ≤ capacity`, and `tail` is `(head + size) mod capacity` or,
where that is 0, `capacity` itself. -/
theorem buffer_tail_mod_capacity {c : Nat} (hc : 0 < c) {ops : List Op} {b : Buffer}
    (hrun : Run (Buffer.new c) ops b) :
    b.head < b.capacity ∧ b.size ≤ b.capacity ∧
      (b.tail = (b.head + b.size) % b.capacity ∨
        b.tail = b.capacity ∧ (b.head + b.size) % b.capacity = 0) := by
  have h := (hrun.inv_content (new_inv hc)).1
  have hm := h.tail_mod
  have := h.tail_le
  refine ⟨h.head_lt, h.size_le, ?_⟩
  rcases Nat.lt_or_eq_of_le h.tail_le with hlt | heq
  · exact .inl (by rw [← hm, Nat.mod_eq_of_lt hlt])
  · exact .inr ⟨heq, by rw [← hm, heq, Nat.mod_self]⟩

/-- On a block of 8 bytes: 6 bytes in, 4 out, then 2 more, which end at the end of the block:
`tail` is `capacity`, the second case. -/
theorem buffer_tail_mod_capacity_refill :
    0 < 8 ∧ ∃ b, Run (Buffer.new 8) [.append [1, 2, 3, 4, 5, 6], .consume 4, .append [7, 8]] b ∧
      b.tail = b.capacity ∧
      (b.head < b.capacity ∧ b.size ≤ b.capacity ∧
        (b.tail = (b.head + b.size) % b.capacity ∨
          b.tail = b.capacity ∧ (b.head + b.size) % b.capacity = 0)) := by
  have hrun : Run (Buffer.new 8) [.append [1, 2, 3, 4, 5, 6], .consume 4, .append [7, 8]] _ :=
    .cons trivial rfl (.cons (show 4 ≤ 6 by decide) rfl (.cons trivial rfl .nil))
  exact ⟨by decide, _, hrun, rfl, buffer_tail_mod_capacity (by decide) hrun⟩

/-- `Buffer()` and one `append` of 1024 bytes: `tail` is `capacity`, not
`(head + size) mod capacity = 0`. -/
theorem buffer_tail_reaches_capacity :
    ∃ b, Run (Buffer.new 1024) [.append (List.replicate 1024 0)] b ∧
      b.tail = b.capacity ∧ b.tail ≠ (b.head + b.size) % b.capacity := by
  obtain ⟨b, hb, hh, ht, hs, hc⟩ := append_fills_fresh 1024 (List.replicate 1024 0) (List.length_replicate _ _)
  refine ⟨b, .cons trivial hb .nil, by rw [ht, hc], ?_⟩
  rw [ht, hh, hs, hc]
  decide

/-! ## `get_continuous_data(pos)` -/

/-- `get_continuous_data(pos)` for an offset inside the bytes in use, on every buffer with the
invariant: the span starts at the cell of logical byte `pos`, never runs past the end of the
block, and covers at least the bytes from `pos` to the end of the content or of the block,
whichever comes first. It is exactly the bytes to the end of the content when the cell plus
`size` fits in the block, and runs to the end of the block otherwise. -/
theorem continuous_span_bounds {b : Buffer} (h : b.Inv) {pos : Nat} (hp : pos < b.size) :
    ∃ n, b.getContinuousData pos = (some (b.index pos), n) ∧
      min (b.size - pos) (b.capacity - b.index pos) ≤ n ∧ n ≤ b.capacity - b.index pos ∧
      n = if b.index pos + b.size ≤ b.capacity then b.size - pos else b.capacity - b.index pos := by
  have hlay := h.layout
  have hh := h.head_lt
  have hs := h.size_le
  have hw := mod_wrap (n := b.head + pos) (c := b.capacity) (by omega)
  unfold TailLayout at hlay
  unfold getContinuousData subT
  rw [if_neg (by omega)]
  simp only [index]
  split_ifs <;> exact ⟨_, rfl, by omega⟩

/-- Ten bytes from cell 0 of a 16-byte block, and the span from offset 8. -/
theorem continuous_span_bounds_ten :
    (⟨0, 10, 16, 10, Block.fresh⟩ : Buffer).Inv ∧ 8 < (⟨0, 10, 16, 10, Block.fresh⟩ : Buffer).size ∧
      ∃ n, (⟨0, 10, 16, 10, Block.fresh⟩ : Buffer).getContinuousData 8 =
          (some ((⟨0, 10, 16, 10, Block.fresh⟩ : Buffer).index 8), n) ∧
        min ((⟨0, 10, 16, 10, Block.fresh⟩ : Buffer).size - 8)
          ((⟨0, 10, 16, 10, Block.fresh⟩ : Buffer).capacity -
            (⟨0, 10, 16, 10, Block.fresh⟩ : Buffer).index 8) ≤ n ∧
        n ≤ (⟨0, 10, 16, 10, Block.fresh⟩ : Buffer).capacity -
          (⟨0, 10, 16, 10, Block.fresh⟩ : Buffer).index 8 ∧
        n = if (⟨0, 10, 16, 10, Block.fresh⟩ : Buffer).index 8 +
            (⟨0, 10, 16, 10, Block.fresh⟩ : Buffer).size ≤
            (⟨0, 10, 16, 10, Block.fresh⟩ : Buffer).capacity
          then (⟨0, 10, 16, 10, Block.fresh⟩ : Buffer).size - 8
          else (⟨0, 10, 16, 10, Block.fresh⟩ : Buffer).capacity -
            (⟨0, 10, 16, 10, Block.fresh⟩ : Buffer).index 8 :=
  have h : (⟨0, 10, 16, 10, Block.fresh⟩ : Buffer).Inv :=
    ⟨by decide, by decide, by decide, by decide, by decide, fun _ _ => rfl⟩
  ⟨h, by decide, continuous_span_bounds h (by decide)⟩

/-- `Buffer(16)` holding 10 bytes from cell 0: `get_continuous_data(8)` reports 8 bytes, to the
end of the block, where the bytes in use from offset 8 are 2. -/
theorem continuous_span_past_size :
    ∃ b, Run (Buffer.new 16) [.append (List.replicate 10 0)] b ∧ 8 < b.size ∧
      b.getContinuousData 8 = (some (b.index 8), 8) ∧
      min (b.size - 8) (b.capacity - b.index 8) = 2 := by
  refine ⟨_, .cons trivial rfl .nil, by decide, by decide, by decide⟩

/-! ## `insert` past the end -/

/-- An `insert` that runs past the end of the bytes in use, stays inside the block, and does
not end exactly at its end: the size becomes `pos + len`, the content is the first `pos` bytes
followed by `src`, and the invariant holds. -/
theorem insert_extend_spec {b : Buffer} (h : b.Inv) {src : List UInt8} {pos : Nat}
    (hp : pos < b.size) (hext : b.size < pos + src.length) (hcap : pos + src.length ≤ b.capacity)
    (hend : b.head + pos + src.length ≠ b.capacity) :
    ∃ b', b.insert src pos = some b' ∧ b'.Inv ∧ b'.size = pos + src.length ∧
      b'.content = b.content.take pos ++ src := by
  have hh := h.head_lt
  have he : b.insertExtend pos src.length =
      { b with size := pos + src.length, tail := (b.head + (pos + src.length)) % b.capacity } := by
    unfold insertExtend
    rw [if_pos hext]
  have hw := mod_wrap (n := b.head + (pos + src.length)) (c := b.capacity) (by omega)
  have hei : (b.insertExtend pos src.length).Inv := by
    rw [he]
    refine Inv.of_layout h.capacity_pos hh hcap ?_
    unfold TailLayout
    dsimp only
    omega
  obtain ⟨d, hd, hi, hc⟩ := writeWrapped_content hei
    (by rw [he] : pos + src.length ≤ (b.insertExtend pos src.length).size)
  refine ⟨_, ?_, hi, by rw [he], ?_⟩
  · unfold insert
    rw [if_neg (by omega)]
    dsimp only
    rw [if_neg (by rw [he]; dsimp only; omega)]
    rw [show (b.head + pos) % b.capacity = (b.insertExtend pos src.length).index pos by rw [he]; rfl, hd]
    rfl
  · rw [hc, he]
    simp only [content, index]
    rw [List.drop_eq_nil_of_le (by simp), List.append_nil, ← List.map_take, ← List.map_take,
      List.take_range, List.take_range, Nat.min_eq_left (by omega), Nat.min_eq_left (by omega)]

/-- Four bytes at offset 8 of ten bytes from cell 0 of a 16-byte block. -/
theorem insert_extend_spec_ten :
    (⟨0, 10, 16, 10, Block.fresh⟩ : Buffer).Inv ∧ 8 < (⟨0, 10, 16, 10, Block.fresh⟩ : Buffer).size ∧
      (⟨0, 10, 16, 10, Block.fresh⟩ : Buffer).size < 8 + (List.replicate 4 1).length ∧
      8 + (List.replicate 4 1).length ≤ (⟨0, 10, 16, 10, Block.fresh⟩ : Buffer).capacity ∧
      (⟨0, 10, 16, 10, Block.fresh⟩ : Buffer).head + 8 + (List.replicate 4 1).length ≠
        (⟨0, 10, 16, 10, Block.fresh⟩ : Buffer).capacity ∧
      ∃ b', (⟨0, 10, 16, 10, Block.fresh⟩ : Buffer).insert (List.replicate 4 1) 8 = some b' ∧
        b'.Inv ∧ b'.size = 8 + (List.replicate 4 1).length ∧
        b'.content = (⟨0, 10, 16, 10, Block.fresh⟩ : Buffer).content.take 8 ++ List.replicate 4 1 :=
  have h : (⟨0, 10, 16, 10, Block.fresh⟩ : Buffer).Inv :=
    ⟨by decide, by decide, by decide, by decide, by decide, fun _ _ => rfl⟩
  ⟨h, by decide, by decide, by decide, by decide,
    insert_extend_spec h (by decide) (by decide) (by decide) (by decide)⟩

/-- Two `insert`s past the end, from runs of `Buffer(16)`. Writing 10 bytes at offset 8 of 10
bytes in use needs 18 bytes: `resize` then copies 18 bytes out of the 16-byte block, undefined
behaviour. Writing 6 bytes at offset 6 of 8 bytes in use from cell 4 ends at the end of the
block: `tail` becomes 0, the invariant fails, and `get_continuous_data(0)` reports a span of
`2^64 - 4` bytes. -/
theorem insert_extension_breaks :
    (∃ b, Run (Buffer.new 16) [.append (List.replicate 10 0)] b ∧ 8 < b.size ∧
      b.size < 8 + 10 ∧ b.insert (List.replicate 10 1) 8 = none) ∧
    (∃ b b', Run (Buffer.new 16) [.append (List.replicate 12 0), .consume 4] b ∧ 6 < b.size ∧
      b.size < 6 + 6 ∧ b.insert (List.replicate 6 1) 6 = some b' ∧ b'.tail = 0 ∧
      b'.head + b'.size = b'.capacity ∧ ¬ b'.Inv ∧
      b'.getContinuousData 0 = (some 4, 2 ^ 64 - 4)) := by
  refine ⟨⟨_, .cons trivial rfl .nil, by decide, by decide, Option.isNone_iff_eq_none.mp (by decide)⟩,
    ⟨_, _, .cons trivial rfl (.cons (show 4 ≤ 12 by decide) rfl .nil), by decide, by decide, rfl, by decide, by decide, fun h => ?_, by decide⟩⟩
  exact absurd (h.tail_eq (by decide) (by decide)) (by decide)

end Buffer

end KvServer
