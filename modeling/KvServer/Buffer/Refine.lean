import KvServer.Buffer.Basic

/-!
# `Buffer` refines a byte FIFO

The abstraction function is `Buffer.content`: the `size` bytes of the block read from `head`
on, wrapping at the end. The representation invariant `Buffer.Inv` is the one of the spec:
`head < capacity`, `size ≤ capacity`, `tail ≤ capacity`, `tail ≡ head + size` modulo the
capacity, and `tail = head + size` when the bytes in use are non-empty and do not wrap.

Every index fact reduces to one wrap of the block: a sum of two offsets below the capacity
is reduced modulo it by at most one subtraction (`mod_of_lt_two_mul`).

Results:
1. `Buffer.resize_spec`, `Buffer.append_spec`, `Buffer.consume_spec`, `Buffer.insert_spec`,
   `Buffer.peek_spec`: one specification per operation, under the invariant.
2. `Buffer.Op.run_spec`: each operation of `Op` (`append` of bytes and of each fixed width,
   `consume`, `resize` and `insert`), within its precondition, is defined, keeps the invariant
   and acts on the content as the FIFO operation does.
3. `Buffer.buffer_refines_fifo`: the same in every state reached from a fresh buffer.
-/

namespace KvServer

/-! ## One wrap of the block -/

theorem mod_of_lt_two_mul {a c : Nat} (h : a < 2 * c) : a % c = if a < c then a else a - c := by
  split
  · exact Nat.mod_eq_of_lt ‹_›
  · rw [Nat.mod_eq_sub_mod (by omega), Nat.mod_eq_of_lt (by omega)]

/-- A sum below twice the capacity wraps at most once. -/
theorem mod_wrap {n c : Nat} (h : n < 2 * c) : n % c = n ∧ n < c ∨ n % c + c = n := by
  rw [mod_of_lt_two_mul h]
  split <;> omega

/-- How far physical cell `p` lies after the physical start `start`, going round the block. -/
def ringOff (cap start p : Nat) : Nat := if start ≤ p then p - start else p + cap - start

/-- Measured from the cell of logical offset `s`, the cell of logical offset `a` lies
`a - s` further on, modulo the capacity. -/
theorem ringOff_congr {cap head start s a : Nat} (hh : head < cap) (hstart : start ≤ cap)
    (hs : s ≤ cap) (ha : a < cap) (hmod : start % cap = (head + s) % cap) :
    ringOff cap start ((head + a) % cap) = if s ≤ a then a - s else a + cap - s := by
  have := mod_wrap (n := start) (c := cap) (by omega)
  have := mod_wrap (n := head + s) (c := cap) (by omega)
  have := mod_wrap (n := head + a) (c := cap) (by omega)
  unfold ringOff
  split_ifs <;> omega

/-! ## `memcpy` within bounds -/

theorem memcpyTo_eq {cap off : Nat} {dst : Block} {src : List UInt8}
    (h : off + src.length ≤ cap) :
    memcpyTo cap dst off src = some fun p =>
      if off ≤ p ∧ p < off + src.length then src.getD (p - off) 0 else dst p := by
  simp [memcpyTo, h]

/-- A copy into a block that the bytes do not fit is undefined. -/
theorem blockCopy_none {scap soff dcap doff n : Nat} {src dst : Block} (hd : dcap < doff + n) :
    blockCopy scap src soff dcap dst doff n = none := by
  unfold blockCopy memcpyFrom
  split
  · simp [memcpyTo, show ¬doff + n ≤ dcap by omega]
  · rfl

theorem memcpyFrom_eq {cap off n : Nat} {src : Block} (h : off + n ≤ cap) :
    memcpyFrom cap src off n = some ((List.range n).map fun i => src (off + i)) := by
  simp [memcpyFrom, h]

/-- The wrapped write puts byte `j` of `src` in the cell `j` after `pos`, round the block,
and leaves every other cell alone. -/
theorem writeWrapped_eq {cap pos : Nat} {d : Block} {src : List UInt8} (hpos : pos ≤ cap)
    (hlen : src.length ≤ cap) :
    writeWrapped cap d pos src = some fun p =>
      if p < cap ∧ ringOff cap pos p < src.length then src.getD (ringOff cap pos p) 0
      else d p := by
  unfold writeWrapped
  split
  · dsimp only
    rw [memcpyTo_eq (by simp; omega), Option.bind_eq_bind, Option.some_bind,
      memcpyTo_eq (by simp; omega)]
    congr 1
    funext p
    simp only [List.length_take, List.length_drop, List.getD_eq_getElem?_getD, Nat.zero_le,
      true_and, Nat.zero_add, Nat.sub_zero, min_self]
    -- the bytes past the end of the block, from cell 0 on
    by_cases h₁ : p < src.length - (cap - pos)
    · have hr : ringOff cap pos p = cap - pos + p := by rw [ringOff, if_neg (by omega)]; omega
      rw [if_pos h₁, List.getElem?_take_of_lt h₁, List.getElem?_drop, hr,
        if_pos ⟨by omega, by omega⟩]
    rw [if_neg h₁]
    -- the bytes up to the end of the block
    by_cases h₂ : pos ≤ p ∧ p < pos + min (cap - pos) src.length
    · have hr : ringOff cap pos p = p - pos := if_pos h₂.1
      rw [if_pos h₂, List.getElem?_take_of_lt (by omega), hr, if_pos ⟨by omega, by omega⟩]
    -- every other cell is left alone
    rw [if_neg h₂, if_neg]
    unfold ringOff
    split_ifs <;> omega
  · rw [memcpyTo_eq (by omega)]
    congr 1
    funext p
    by_cases h₁ : pos ≤ p ∧ p < pos + src.length
    · have hr : ringOff cap pos p = p - pos := if_pos h₁.1
      rw [if_pos h₁, hr, if_pos ⟨by omega, by omega⟩]
    rw [if_neg h₁, if_neg]
    unfold ringOff
    split_ifs <;> omega

/-- The wrapped read returns the `len` cells from `pos` on, round the block. -/
theorem readWrapped_eq {cap pos len : Nat} {d : Block} (hpos : pos < cap) (hlen : len ≤ cap) :
    readWrapped cap d pos len = some ((List.range len).map fun i => d ((pos + i) % cap)) := by
  unfold readWrapped
  split
  · rw [memcpyFrom_eq ‹_›]
    congr 1
    refine List.map_congr_left fun i hi => ?_
    rw [List.mem_range] at hi
    rw [Nat.mod_eq_of_lt (by omega)]
  · dsimp only
    rw [memcpyFrom_eq (by omega), memcpyFrom_eq (by omega)]
    simp only [Option.pure_def, Option.bind_eq_bind, Option.some_bind, Option.some.injEq]
    apply List.ext_getElem (by simp; omega)
    intro i h₁ h₂
    simp only [List.length_append, List.length_map, List.length_range] at h₁
    rw [List.getElem_map, List.getElem_range, mod_of_lt_two_mul (by omega)]
    by_cases hi : i < cap - pos
    · rw [List.getElem_append_left (by simpa using hi)]
      simp [if_pos (by omega : pos + i < cap)]
    · rw [List.getElem_append_right (by simpa using hi)]
      simp only [List.getElem_map, List.getElem_range, List.length_map, List.length_range]
      rw [if_neg (by omega)]
      congr 1
      omega

theorem blockCopy_eq {scap soff dcap doff n : Nat} {src dst : Block} (hs : soff + n ≤ scap)
    (hd : doff + n ≤ dcap) :
    blockCopy scap src soff dcap dst doff n = some fun p =>
      if doff ≤ p ∧ p < doff + n then src (soff + (p - doff)) else dst p := by
  rw [blockCopy, memcpyFrom_eq hs, Option.bind_eq_bind, Option.some_bind,
    memcpyTo_eq (by simpa using hd)]
  congr 1
  funext p
  simp only [List.length_map, List.length_range]
  split_ifs with h
  · simp [show p - doff < n by omega]
  · rfl

namespace Buffer

/-! ## Abstraction function and invariant -/

/-- The logical content: the byte at `operator[](i)` for every `i < size`. -/
def content (b : Buffer) : List UInt8 := (List.range b.size).map fun i => b.data (b.index i)

@[simp] theorem length_content (b : Buffer) : b.content.length = b.size := by simp [content]

theorem getElem_content (b : Buffer) {i : Nat} (h : i < b.content.length) :
    b.content[i] = b.data (b.index i) := by simp [content]

/-- The representation invariant of section 4.1, with the exact position of `tail`. -/
structure Inv (b : Buffer) : Prop where
  capacity_pos : 0 < b.capacity
  head_lt : b.head < b.capacity
  size_le : b.size ≤ b.capacity
  tail_le : b.tail ≤ b.capacity
  tail_mod : b.tail % b.capacity = (b.head + b.size) % b.capacity
  tail_eq : 0 < b.size → b.head + b.size ≤ b.capacity → b.tail = b.head + b.size

/-- Where `tail` sits: right after the bytes in use when they do not wrap, after their wrapped
part when they do, or at the end of the block in an empty buffer whose head came back to 0. -/
def TailLayout (b : Buffer) : Prop :=
  (b.head + b.size ≤ b.capacity ∧ b.tail = b.head + b.size) ∨
  (b.capacity < b.head + b.size ∧ b.tail + b.capacity = b.head + b.size) ∨
  (b.size = 0 ∧ b.head = 0 ∧ b.tail = b.capacity)

theorem Inv.layout {b : Buffer} (h : b.Inv) : b.TailLayout := by
  have htm := h.tail_mod
  have := h.tail_le
  have := h.head_lt
  have := h.size_le
  rcases Nat.eq_zero_or_pos b.size with hs | hs
  · rw [hs, Nat.add_zero, Nat.mod_eq_of_lt h.head_lt] at htm
    rcases mod_wrap (n := b.tail) (c := b.capacity) (by omega) with ⟨h1, -⟩ | h1
    · exact .inl ⟨by omega, by omega⟩
    · exact .inr (.inr ⟨hs, by omega, by omega⟩)
  by_cases hw : b.head + b.size ≤ b.capacity
  · exact .inl ⟨hw, h.tail_eq hs hw⟩
  · refine .inr (.inl ⟨by omega, ?_⟩)
    rcases mod_wrap (n := b.tail) (c := b.capacity) (by omega) with ⟨h1, -⟩ | h1 <;>
    rcases mod_wrap (n := b.head + b.size) (c := b.capacity) (by omega) with ⟨h2, -⟩ | h2 <;> omega

theorem Inv.of_layout {b : Buffer} (hc : 0 < b.capacity) (hh : b.head < b.capacity)
    (hs : b.size ≤ b.capacity) (hl : b.TailLayout) : b.Inv := by
  rcases hl with ⟨h1, h2⟩ | ⟨h1, h2⟩ | ⟨h1, h2, h3⟩
  · exact ⟨hc, hh, hs, by omega, by rw [h2], fun _ _ => h2⟩
  · exact ⟨hc, hh, hs, by omega, by rw [← h2, Nat.add_mod_right], fun _ _ => by omega⟩
  · exact ⟨hc, hh, hs, by omega, by simp [h1, h2, h3], fun _ => by omega⟩

theorem index_lt {b : Buffer} (h : b.Inv) (i : Nat) : b.index i < b.capacity :=
  Nat.mod_lt _ h.capacity_pos

theorem new_inv {c : Nat} (hc : 0 < c) : (Buffer.new c).Inv :=
  Inv.of_layout hc hc (Nat.zero_le _) (.inl ⟨Nat.zero_le _, rfl⟩)

@[simp] theorem content_new (c : Nat) : (Buffer.new c).content = [] := rfl

/-! ## One specification per operation -/

/-- The copies of `resize` succeed when the new block holds the old one, and put logical byte
`p` at cell `p`. -/
theorem unwrapTo_spec {b : Buffer} {m : Nat} (h : b.Inv) (hm : b.capacity ≤ m) :
    ∃ d, b.unwrapTo m = some d ∧ ∀ p < b.size, d p = b.data (b.index p) := by
  have hlay := h.layout
  have hh := h.head_lt
  have hs := h.size_le
  unfold TailLayout at hlay
  unfold unwrapTo index
  split
  · rw [blockCopy_eq (by omega) (by omega)]
    refine ⟨_, rfl, fun p hp => ?_⟩
    rw [if_pos (by omega), Nat.mod_eq_of_lt (by omega), Nat.sub_zero]
  · dsimp only
    rw [blockCopy_eq (by omega) (by omega), Option.bind_eq_bind, Option.some_bind,
      blockCopy_eq (by omega) (by omega)]
    refine ⟨_, rfl, fun p hp => ?_⟩
    rw [mod_of_lt_two_mul (by omega)]
    split_ifs <;> first | omega | rfl | (congr 1; omega)

/-- `resize` to a capacity at least the current one keeps the content and unwraps it. -/
theorem resize_spec {b : Buffer} {m : Nat} (h : b.Inv) (hm : b.capacity ≤ m) :
    ∃ b', b.resize m = some b' ∧ b'.Inv ∧ b'.content = b.content ∧ b'.capacity = m ∧
      b'.head = 0 ∧ b'.tail = b'.size := by
  obtain ⟨d, hd, hdata⟩ := b.unwrapTo_spec h hm
  have hc := h.capacity_pos
  have hs := h.size_le
  refine ⟨⟨0, b.size, m, b.size, d⟩, by rw [resize, hd]; rfl, ?_, ?_, rfl, rfl, rfl⟩
  · exact Inv.of_layout (show 0 < m by omega) (show 0 < m by omega) (show b.size ≤ m by omega)
      (.inl ⟨show 0 + b.size ≤ m by omega, show b.size = 0 + b.size by omega⟩)
  · apply List.ext_getElem (by simp)
    intro i h₁ h₂
    simp only [length_content] at h₁
    rw [getElem_content, getElem_content, ← hdata i h₁]
    show d ((0 + i) % m) = d i
    rw [Nat.zero_add, Nat.mod_eq_of_lt (by omega)]

/-- `resize` to fewer bytes than are in use copies them past the end of the new block: it is
undefined in every state. -/
theorem resize_shrink_none {b : Buffer} {m : Nat} (h : b.Inv) (hm : m < b.size) :
    b.resize m = none := by
  have hlay := h.layout
  have hh := h.head_lt
  unfold TailLayout at hlay
  unfold resize unwrapTo
  split
  · rw [blockCopy_none (by omega)]
    rfl
  · dsimp only
    by_cases hr : m < b.capacity - b.head
    · rw [blockCopy_none (by omega)]
      rfl
    · rw [blockCopy_eq (by omega) (by omega)]
      simp [blockCopy_none (show m < b.capacity - b.head + b.tail by omega)]

/-- The growth step of `append` keeps the content and leaves room for `len` more bytes. -/
theorem reserve_spec {b : Buffer} (len : Nat) (h : b.Inv) :
    ∃ b', b.reserve len = some b' ∧ b'.Inv ∧ b'.content = b.content ∧
      len + b'.size ≤ b'.capacity := by
  unfold reserve
  split
  · have hgrow : b.capacity ≤ growCapacity (len + b.size) := by
      unfold growCapacity; split <;> omega
    obtain ⟨b', hb', hinv, hc, hcap, -, -⟩ := b.resize_spec h hgrow
    refine ⟨b', hb', hinv, hc, ?_⟩
    have hsize : b'.size = b.size := by simpa using congrArg List.length hc
    rw [hcap, hsize]
    unfold growCapacity
    split <;> omega
  · exact ⟨b, rfl, h, rfl, by omega⟩

/-- The copy step of `append`, given room, appends the bytes to the content. -/
theorem putTail_spec {b : Buffer} (src : List UInt8) (h : b.Inv)
    (hfit : src.length + b.size ≤ b.capacity) :
    ∃ b', b.putTail src = some b' ∧ b'.Inv ∧ b'.content = b.content ++ src := by
  have hlay := h.layout
  have hh := h.head_lt
  have hc := h.capacity_pos
  unfold TailLayout at hlay
  unfold putTail
  rw [writeWrapped_eq h.tail_le (by omega), Option.bind_eq_bind, Option.some_bind]
  refine ⟨_, rfl, ?_, ?_⟩
  · refine Inv.of_layout (show 0 < b.capacity from hc) (show b.head < b.capacity from hh)
      (show b.size + src.length ≤ b.capacity by omega) ?_
    unfold TailLayout
    dsimp only
    rcases hlay with hl | hl | hl <;> split <;> omega
  · apply List.ext_getElem (by simp)
    intro i h₁ h₂
    have hi : i < b.size + src.length := by simpa using h₁
    rw [getElem_content]
    dsimp only [index]
    rw [ringOff_congr hh h.tail_le h.size_le (by omega) h.tail_mod]
    by_cases hi : b.size ≤ i
    · rw [if_pos hi, if_pos ⟨Nat.mod_lt _ hc, by omega⟩,
        List.getElem_append_right (by simpa using hi)]
      simp [List.getElem?_eq_getElem (show i - b.size < src.length by omega)]
    · rw [if_neg hi, if_neg (by omega), List.getElem_append_left (by simpa using hi),
        getElem_content]
      rfl

/-- `append` appends the bytes to the content, growing the block when they do not fit. -/
theorem append_spec {b : Buffer} (src : List UInt8) (h : b.Inv) :
    ∃ b', b.append src = some b' ∧ b'.Inv ∧ b'.content = b.content ++ src := by
  obtain ⟨r, hr, hri, hrc, hfit⟩ := b.reserve_spec src.length h
  obtain ⟨b', hb', hi', hc'⟩ := r.putTail_spec src hri hfit
  exact ⟨b', by rw [append, hr]; exact hb', hi', by rw [hc', hrc]⟩

/-- `consume` drops bytes from the front of the content. -/
theorem consume_spec {b : Buffer} {n : Nat} (h : b.Inv) (hn : n ≤ b.size) :
    (b.consume n).Inv ∧ (b.consume n).content = b.content.drop n := by
  have hlay := h.layout
  have hh := h.head_lt
  have hc := h.capacity_pos
  have hs := h.size_le
  unfold TailLayout at hlay
  constructor
  · refine Inv.of_layout (show 0 < b.capacity from hc)
      (show (b.head + n) % b.capacity < b.capacity from Nat.mod_lt _ hc)
      (show b.size - n ≤ b.capacity by omega) ?_
    unfold TailLayout consume
    dsimp only
    rcases mod_wrap (n := b.head + n) (c := b.capacity) (by omega) with hm | hm <;>
      rcases hlay with hl | hl | hl <;> omega
  · apply List.ext_getElem (by simp [consume])
    intro i h₁ h₂
    rw [getElem_content, List.getElem_drop, getElem_content]
    show b.data (((b.head + n) % b.capacity + i) % b.capacity) = _
    rw [Nat.mod_add_mod, Nat.add_assoc]
    rfl

/-- Writing `src` round the block from the cell of logical offset `pos`, inside the bytes in
use, overwrites the bytes at `[pos, pos + len)` of the content and nothing else. -/
theorem writeWrapped_content {b : Buffer} {src : List UInt8} {pos : Nat} (h : b.Inv)
    (hfit : pos + src.length ≤ b.size) :
    ∃ d, writeWrapped b.capacity b.data (b.index pos) src = some d ∧
      ({ b with data := d } : Buffer).Inv ∧
      ({ b with data := d } : Buffer).content =
        b.content.take pos ++ src ++ b.content.drop (pos + src.length) := by
  have hh := h.head_lt
  have hc := h.capacity_pos
  have hs := h.size_le
  refine ⟨_, writeWrapped_eq (index_lt h pos).le (by omega),
    ⟨hc, hh, hs, h.tail_le, h.tail_mod, h.tail_eq⟩, ?_⟩
  apply List.ext_getElem (by simp; omega)
  intro i h₁ h₂
  simp only [length_content] at h₁
  rw [getElem_content]
  dsimp only [index]
  rw [ringOff_congr hh (Nat.mod_lt _ hc).le (by omega) (by omega) (Nat.mod_mod _ _)]
  have htake : (b.content.take pos).length = pos := List.length_take_of_le (by simp; omega)
  by_cases hlo : i < pos
  · rw [if_neg (show ¬pos ≤ i by omega), if_neg (by omega),
      List.getElem_append_left (by rw [List.length_append, htake]; omega),
      List.getElem_append_left (by rw [htake]; omega), List.getElem_take, getElem_content]
    rfl
  by_cases hhi : i < pos + src.length
  · rw [if_pos (show pos ≤ i by omega), if_pos ⟨Nat.mod_lt _ hc, by omega⟩,
      List.getElem_append_left (by rw [List.length_append, htake]; omega),
      List.getElem_append_right (by rw [htake]; omega)]
    simp [htake, List.getElem?_eq_getElem (show i - pos < src.length by omega)]
  · rw [if_pos (show pos ≤ i by omega), if_neg (by omega),
      List.getElem_append_right (by rw [List.length_append, htake]; omega),
      List.getElem_drop, getElem_content]
    simp only [List.length_append, htake, index]
    congr 2
    omega

/-- An in-range `insert` overwrites the bytes at `[pos, pos + len)` and nothing else. -/
theorem insert_spec {b : Buffer} {src : List UInt8} {pos : Nat} (h : b.Inv)
    (hpos : pos < b.size) (hfit : pos + src.length ≤ b.size) :
    ∃ b', b.insert src pos = some b' ∧ b'.Inv ∧
      b'.content = b.content.take pos ++ src ++ b.content.drop (pos + src.length) := by
  have he : b.insertExtend pos src.length = b := by
    unfold insertExtend
    rw [if_neg (by omega)]
  obtain ⟨d, hd, hi, hc⟩ := writeWrapped_content h hfit
  refine ⟨_, ?_, hi, hc⟩
  unfold insert
  rw [if_neg (by omega)]
  dsimp only
  rw [he, if_neg (by have := h.size_le; omega), show (b.head + pos) % b.capacity = b.index pos
    from rfl, hd]
  rfl

/-- A `memcpy` from the cell of logical offset `pos` that stays inside the block and inside
the bytes in use overwrites the bytes at `[pos, pos + len)` of the content. -/
theorem memcpyTo_content {b : Buffer} {src : List UInt8} {pos : Nat} {d : Block} (h : b.Inv)
    (hfit : pos + src.length ≤ b.size) (hd : memcpyTo b.capacity b.data (b.index pos) src = some d) :
    ({ b with data := d } : Buffer).Inv ∧
      ({ b with data := d } : Buffer).content =
        b.content.take pos ++ src ++ b.content.drop (pos + src.length) := by
  have hcap : b.index pos + src.length ≤ b.capacity := by
    by_contra hc
    simp [memcpyTo, hc] at hd
  obtain ⟨d', hd', hi, hc⟩ := writeWrapped_content h hfit
  rw [writeWrapped, if_neg (by omega), hd] at hd'
  cases hd'
  exact ⟨hi, hc⟩

/-- `peek` of an in-range window copies those bytes of the content. -/
theorem peek_spec {b : Buffer} {dst : List UInt8} {pos len : Nat} (h : b.Inv)
    (hle : pos + len ≤ b.size) (hdst : dst.length = len) :
    b.peek dst pos len = some ((b.content.drop pos).take len) := by
  have hc := h.capacity_pos
  have hs := h.size_le
  unfold peek
  split
  · have hlen : len = 0 := by omega
    subst hlen
    rw [List.length_eq_zero.mp hdst, List.take_zero]
  · rw [readWrapped_eq (Nat.mod_lt _ hc) (by omega)]
    congr 1
    apply List.ext_getElem (by simp; omega)
    intro i h₁ h₂
    simp only [List.length_map, List.length_range] at h₁
    rw [List.getElem_map, List.getElem_range, List.getElem_take, List.getElem_drop,
      getElem_content, Nat.mod_add_mod, Nat.add_assoc]
    rfl

/-- `get_continuous_data(0)` of a non-empty buffer: `head`, and the bytes from there to the end
of the content or, when the content wraps, to the end of the block. -/
theorem getContinuousData_zero {b : Buffer} (h : b.Inv) (hs : 0 < b.size) :
    ∃ n, b.getContinuousData 0 = (some b.head, n) ∧ 0 < n ∧ n ≤ b.size ∧
      b.head + n ≤ b.capacity ∧ (n = b.size ↔ b.head + b.size ≤ b.capacity) := by
  have hlay := h.layout
  have hh := h.head_lt
  unfold TailLayout at hlay
  unfold getContinuousData subT
  dsimp only
  rw [if_neg (by omega), Nat.add_zero, Nat.mod_eq_of_lt hh]
  split_ifs <;> exact ⟨_, rfl, by omega⟩

/-- The `n` bytes from `head`, when they stay inside the block, are the first `n` of the
content. -/
theorem memcpyFrom_head {b : Buffer} {n : Nat} (hn : n ≤ b.size)
    (hcap : b.head + n ≤ b.capacity) :
    memcpyFrom b.capacity b.data b.head n = some (b.content.take n) := by
  rw [memcpyFrom_eq hcap]
  congr 1
  apply List.ext_getElem (by simp; omega)
  intro i h₁ h₂
  simp only [List.length_map, List.length_range] at h₁
  rw [List.getElem_map, List.getElem_range, List.getElem_take, getElem_content]
  simp only [index, Nat.mod_eq_of_lt (show b.head + i < b.capacity by omega)]

/-! ## Every run from a fresh buffer -/

/-- The operations of `buffer.h` that change a buffer, with their arguments. -/
inductive Op
  | append (src : List UInt8)
  | appendU8 (v : UInt8)
  | appendU32 (v : UInt32)
  | appendI64 (v : Int)
  | appendDbl (v : F64)
  | consume (n : Nat)
  | resize (m : Nat)
  | insert (src : List UInt8) (pos : Nat)

namespace Op

/-- The precondition of each operation, as the server's callers meet it: `consume` at most
the size, `resize` to grow, `insert` within the bytes in use. -/
def Allowed (b : Buffer) : Op → Prop
  | consume n => n ≤ b.size
  | resize m => b.capacity ≤ m
  | insert src pos => pos < b.size ∧ pos + src.length ≤ b.size
  | _ => True

/-- The operation on the buffer. -/
def run (b : Buffer) : Op → Option Buffer
  | append src => b.append src
  | appendU8 v => b.appendU8 v
  | appendU32 v => b.appendU32 v
  | appendI64 v => b.appendI64 v
  | appendDbl v => b.appendDbl v
  | consume n => some (b.consume n)
  | resize m => b.resize m
  | insert src pos => b.insert src pos

/-- The operation on the byte FIFO. -/
def apply (q : List UInt8) : Op → List UInt8
  | append src => q ++ src
  | appendU8 v => q ++ [v]
  | appendU32 v => q ++ u32Bytes v
  | appendI64 v => q ++ i64Bytes v
  | appendDbl v => q ++ dblBytes v
  | consume n => q.drop n
  | resize _ => q
  | insert src pos => q.take pos ++ src ++ q.drop (pos + src.length)

/-- One step: an operation within its precondition is defined, keeps the invariant and acts
on the content as on the FIFO. -/
theorem run_spec {b : Buffer} (h : b.Inv) : ∀ {op : Op}, op.Allowed b →
    ∃ b', op.run b = some b' ∧ b'.Inv ∧ b'.content = op.apply b.content
  | append src, _ => append_spec src h
  | appendU8 v, _ => append_spec [v] h
  | appendU32 _, _ => append_spec _ h
  | appendI64 _, _ => append_spec _ h
  | appendDbl _, _ => append_spec _ h
  | consume _, hn => ⟨_, rfl, consume_spec h hn⟩
  | resize _, hm =>
    let ⟨b', hb, hi, hc, _⟩ := resize_spec h hm
    ⟨b', hb, hi, hc⟩
  | insert _ _, ⟨hp, hf⟩ => insert_spec h hp hf

end Op

/-- `Run b ops b'`: the operations `ops`, each within its precondition, take `b` to `b'`. -/
inductive Run : Buffer → List Op → Buffer → Prop
  | nil {b : Buffer} : Run b [] b
  | cons {b b₁ b₂ : Buffer} {op : Op} {ops : List Op} :
      op.Allowed b → op.run b = some b₁ → Run b₁ ops b₂ → Run b (op :: ops) b₂

/-- The run lemma: along any run the invariant holds and the content follows the FIFO. -/
theorem Run.inv_content {b b' : Buffer} {ops : List Op} (hrun : Run b ops b') (h : b.Inv) :
    b'.Inv ∧ b'.content = ops.foldl Op.apply b.content := by
  induction hrun with
  | nil => exact ⟨h, rfl⟩
  | cons hallow hstep _ ih =>
    obtain ⟨b₁', hrun₁, hinv₁, hcontent₁⟩ := Op.run_spec h hallow
    rw [hstep] at hrun₁
    cases hrun₁
    obtain ⟨hinv, hcontent⟩ := ih hinv₁
    exact ⟨hinv, by rw [hcontent, hcontent₁]; rfl⟩

/-- `Buffer` refines a byte FIFO: after any sequence of operations within their
preconditions from `Buffer(c)`, `c > 0`, the representation invariant holds, the content is
what the same operations give on a list, the next operation is again defined (no `memcpy`
leaves the storage) and acts on the content as on the list, and `peek` of an in-range window
copies exactly those bytes. -/
theorem buffer_refines_fifo {c : Nat} (hc : 0 < c) {ops : List Op} {b : Buffer}
    (hrun : Run (Buffer.new c) ops b) :
    b.Inv ∧ b.content = ops.foldl Op.apply [] ∧
    (∀ op : Op, op.Allowed b →
      ∃ b', op.run b = some b' ∧ b'.Inv ∧ b'.content = op.apply b.content) ∧
    (∀ (dst : List UInt8) (pos len : Nat), pos + len ≤ b.size → dst.length = len →
      b.peek dst pos len = some ((b.content.drop pos).take len)) := by
  obtain ⟨hinv, hcontent⟩ := hrun.inv_content (new_inv hc)
  exact ⟨hinv, hcontent, fun _ => Op.run_spec hinv, fun _ _ _ => peek_spec hinv⟩

/-- On a block of 8 bytes: 6 bytes in, 4 out, then 4 more, which wrap round the end of the
block (`tail` ends at 2, before `head` at 4). -/
theorem buffer_refines_fifo_wrap :
    0 < 8 ∧ ∃ b, Run (Buffer.new 8)
        [.append [1, 2, 3, 4, 5, 6], .consume 4, .append [7, 8, 9, 10]] b ∧ b.tail < b.head ∧
      (b.Inv ∧
        b.content = [Op.append [1, 2, 3, 4, 5, 6], .consume 4, .append [7, 8, 9, 10]].foldl
          Op.apply [] ∧
        (∀ op : Op, op.Allowed b →
          ∃ b', op.run b = some b' ∧ b'.Inv ∧ b'.content = op.apply b.content) ∧
        (∀ (dst : List UInt8) (pos len : Nat), pos + len ≤ b.size → dst.length = len →
          b.peek dst pos len = some ((b.content.drop pos).take len))) := by
  have hrun : Run (Buffer.new 8)
      [.append [1, 2, 3, 4, 5, 6], .consume 4, .append [7, 8, 9, 10]] _ :=
    .cons trivial rfl (.cons (show 4 ≤ 6 by decide) rfl (.cons trivial rfl .nil))
  exact ⟨by decide, _, hrun, by decide, buffer_refines_fifo (by decide) hrun⟩

end Buffer

end KvServer
