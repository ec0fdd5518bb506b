import KvServer.Codec.Request

/-!
# Responses: the serialisation calls

A command handler writes its reply into the connection's outgoing `Buffer` through the
`out_*` functions of `server.cpp`. `Out` is one such call, and a handler's model returns the
list of calls it makes, in order; `runOuts` makes them on a `Buffer`, and `Out.onList` on the
buffer's content.

`out_begin_arr` reserves four zero bytes for an array count and returns their logical offset
`ctx`; `out_end_arr` later copies the count there with one `memcpy` through `operator[]`,
which is the address of the single cell `ctx` and so does not wrap.

`Val` is the tagged-value grammar of section 4.2.

Results:
1. `runOuts_spec`: for the call lists the handlers make (`Out.Shaped`: plain calls, or one
   array), `runOuts` on a buffer, when defined, acts on its content as `outsOnList` does.
2. `outsOnList_arr`, `outsOnList_shaped`: such a reply is appended whole after what the
   buffer held, the array count patched over the zeros `out_begin_arr` reserved.
-/

namespace KvServer

/-- `ERR_UNKNOWN`. -/
def errUnknown : Nat := 1
/-- `ERR_TOO_BIG`. -/
def errTooBig : Nat := 2
/-- `ERR_BAD_TYP`. -/
def errBadTyp : Nat := 3
/-- `ERR_BAD_ARG`. -/
def errBadArg : Nat := 4

/-- `TAG_NIL`. -/
def tagNil : UInt8 := 0
/-- `TAG_ERR`. -/
def tagErr : UInt8 := 1
/-- `TAG_STR`. -/
def tagStr : UInt8 := 2
/-- `TAG_INT`. -/
def tagInt : UInt8 := 3
/-- `TAG_DBL`. -/
def tagDbl : UInt8 := 4
/-- `TAG_ARR`. -/
def tagArr : UInt8 := 5

/-- A serialisation call: `out_nil`, `out_str`, `out_int`, `out_dbl`, `out_err`, `out_arr`,
`out_begin_arr` and `out_end_arr`. -/
inductive Out
  | nil
  | str (s : List UInt8)
  | int (v : Int)
  | dbl (v : F64)
  | err (code : Nat) (msg : List UInt8)
  | arr (n : Nat)
  | beginArr
  | endArr (n : Nat)
  deriving DecidableEq, Repr

namespace Out

/-- The bytes a call appends (`out_end_arr` appends none). -/
def bytes : Out → List UInt8
  | nil => [tagNil]
  | str s => tagStr :: u32Len s.length ++ s
  | int v => tagInt :: i64Bytes v
  | dbl v => tagDbl :: dblBytes v
  | err code msg => tagErr :: u32Len code ++ u32Len msg.length ++ msg
  | arr n => tagArr :: u32Len n
  | beginArr => tagArr :: u32Len 0
  | endArr _ => []

/-- The calls on the content of the buffer, with the `ctx` of the last `out_begin_arr`. -/
def onList : List UInt8 × Nat → Out → List UInt8 × Nat
  | (q, _), beginArr => (q ++ beginArr.bytes, q.length + 1)
  | (q, ctx), endArr n => (q.take ctx ++ u32Len n ++ q.drop (ctx + 4), ctx)
  | (q, ctx), o => (q ++ o.bytes, ctx)

end Out

/-- `out_end_arr(out, ctx, n)`: `assert(out[ctx - 1] == TAG_ARR)`, then
`memcpy(&out[ctx], &n, 4)` into the block from the cell of logical offset `ctx` on. -/
def outEndArr (b : Buffer) (ctx n : Nat) : Option Buffer :=
  if b.data (b.index (ctx - 1)) ≠ tagArr then none
  else (memcpyTo b.capacity b.data (b.index ctx) (u32Len n)).map fun d => { b with data := d }

namespace Out

/-- A call on the buffer, with the `ctx` of the last `out_begin_arr`. -/
def run (b : Buffer) (ctx : Nat) : Out → Option (Buffer × Nat)
  | nil => do
    let b ← b.appendU8 tagNil
    pure (b, ctx)
  | str s => do
    let b ← b.appendU8 tagStr
    let b ← b.appendU32 (UInt32.ofNat s.length)
    let b ← b.append s
    pure (b, ctx)
  | int v => do
    let b ← b.appendU8 tagInt
    let b ← b.appendI64 v
    pure (b, ctx)
  | dbl v => do
    let b ← b.appendU8 tagDbl
    let b ← b.appendDbl v
    pure (b, ctx)
  | err code msg => do
    let b ← b.appendU8 tagErr
    let b ← b.appendU32 (UInt32.ofNat code)
    let b ← b.appendU32 (UInt32.ofNat msg.length)
    let b ← b.append msg
    pure (b, ctx)
  | arr n => do
    let b ← b.appendU8 tagArr
    let b ← b.appendU32 (UInt32.ofNat n)
    pure (b, ctx)
  | beginArr => do
    let b ← b.appendU8 tagArr
    let b ← b.appendU32 0
    pure (b, b.size - 4)
  | endArr n => do
    let b ← outEndArr b ctx n
    pure (b, ctx)

end Out

/-- A handler's calls on the buffer, from `ctx = 0`. -/
def runOuts (b : Buffer) (outs : List Out) : Option Buffer :=
  (outs.foldlM (fun (p : Buffer × Nat) o => Out.run p.1 p.2 o) (b, 0)).map Prod.fst

/-- A handler's calls on the content. -/
def outsOnList (q : List UInt8) (outs : List Out) : List UInt8 :=
  (outs.foldl Out.onList (q, 0)).1

namespace Out

/-- The calls that only append: all but `out_begin_arr` and `out_end_arr`. -/
def Plain : Out → Bool
  | beginArr | endArr _ => false
  | _ => true

/-- The call lists the handlers make: plain calls, or one array, as `out_begin_arr`, plain
calls and the `out_end_arr` that patches the count in. -/
def Shaped (outs : List Out) : Prop :=
  (∀ o ∈ outs, o.Plain) ∨ ∃ items n, outs = beginArr :: items ++ [endArr n] ∧ ∀ o ∈ items, o.Plain

theorem shaped_singleton {o : Out} (ho : o.Plain) : Shaped [o] :=
  .inl fun _ h => (List.mem_singleton.mp h) ▸ ho

theorem onList_plain {o : Out} (ho : o.Plain) (q : List UInt8) (ctx : Nat) :
    onList (q, ctx) o = (q ++ o.bytes, ctx) := by
  cases o <;> first | rfl | cases ho

theorem foldl_onList_plain {items : List Out} (hp : ∀ o ∈ items, o.Plain) (q : List UInt8)
    (ctx : Nat) : items.foldl onList (q, ctx) = (q ++ items.flatMap bytes, ctx) := by
  induction items generalizing q with
  | nil => simp
  | cons o items ih =>
    rw [List.foldl_cons, onList_plain (hp o (List.mem_cons_self _ _)),
      ih fun o h => hp o (List.mem_cons_of_mem _ h)]
    simp

/-- A plain call appends its bytes, and is always defined. -/
theorem run_plain {b : Buffer} {o : Out} (h : b.Inv) (ho : o.Plain) (ctx : Nat) :
    ∃ b', o.run b ctx = some (b', ctx) ∧ b'.Inv ∧ b'.content = b.content ++ o.bytes := by
  cases o with
  | nil =>
    obtain ⟨b₁, e₁, i₁, c₁⟩ := b.append_spec [tagNil] h
    exact ⟨b₁, by simp [run, Buffer.appendU8, e₁], i₁, c₁⟩
  | str s =>
    obtain ⟨b₁, e₁, i₁, c₁⟩ := b.append_spec [tagStr] h
    obtain ⟨b₂, e₂, i₂, c₂⟩ := b₁.append_spec (u32Bytes (UInt32.ofNat s.length)) i₁
    obtain ⟨b₃, e₃, i₃, c₃⟩ := b₂.append_spec s i₂
    exact ⟨b₃, by simp [run, Buffer.appendU8, Buffer.appendU32, e₁, e₂, e₃], i₃,
      by simp [c₃, c₂, c₁, bytes, u32Len]⟩
  | int v =>
    obtain ⟨b₁, e₁, i₁, c₁⟩ := b.append_spec [tagInt] h
    obtain ⟨b₂, e₂, i₂, c₂⟩ := b₁.append_spec (i64Bytes v) i₁
    exact ⟨b₂, by simp [run, Buffer.appendU8, Buffer.appendI64, e₁, e₂], i₂,
      by simp [c₂, c₁, bytes]⟩
  | dbl v =>
    obtain ⟨b₁, e₁, i₁, c₁⟩ := b.append_spec [tagDbl] h
    obtain ⟨b₂, e₂, i₂, c₂⟩ := b₁.append_spec (dblBytes v) i₁
    exact ⟨b₂, by simp [run, Buffer.appendU8, Buffer.appendDbl, e₁, e₂], i₂,
      by simp [c₂, c₁, bytes]⟩
  | err code msg =>
    obtain ⟨b₁, e₁, i₁, c₁⟩ := b.append_spec [tagErr] h
    obtain ⟨b₂, e₂, i₂, c₂⟩ := b₁.append_spec (u32Bytes (UInt32.ofNat code)) i₁
    obtain ⟨b₃, e₃, i₃, c₃⟩ := b₂.append_spec (u32Bytes (UInt32.ofNat msg.length)) i₂
    obtain ⟨b₄, e₄, i₄, c₄⟩ := b₃.append_spec msg i₃
    exact ⟨b₄, by simp [run, Buffer.appendU8, Buffer.appendU32, e₁, e₂, e₃, e₄], i₄,
      by simp [c₄, c₃, c₂, c₁, bytes, u32Len]⟩
  | arr n =>
    obtain ⟨b₁, e₁, i₁, c₁⟩ := b.append_spec [tagArr] h
    obtain ⟨b₂, e₂, i₂, c₂⟩ := b₁.append_spec (u32Bytes (UInt32.ofNat n)) i₁
    exact ⟨b₂, by simp [run, Buffer.appendU8, Buffer.appendU32, e₁, e₂], i₂,
      by simp [c₂, c₁, bytes, u32Len]⟩
  | beginArr | endArr _ => cases ho

theorem foldlM_run_plain {items : List Out} (hp : ∀ o ∈ items, o.Plain) {b : Buffer}
    (h : b.Inv) (ctx : Nat) :
    ∃ b', items.foldlM (fun (p : Buffer × Nat) o => run p.1 p.2 o) (b, ctx) = some (b', ctx) ∧
      b'.Inv ∧ b'.content = b.content ++ items.flatMap bytes := by
  induction items generalizing b with
  | nil => exact ⟨b, rfl, h, by simp⟩
  | cons o items ih =>
    obtain ⟨b₁, e₁, i₁, c₁⟩ := run_plain h (hp o (List.mem_cons_self _ _)) ctx
    obtain ⟨b₂, e₂, i₂, c₂⟩ := ih (fun o h => hp o (List.mem_cons_of_mem _ h)) i₁
    exact ⟨b₂, by simp only [List.foldlM_cons, e₁, Option.bind_eq_bind, Option.some_bind, e₂],
      i₂, by simp [c₂, c₁]⟩

end Out

/-- An `out_end_arr` whose four cells lie in the bytes in use, when defined, writes the count
over them. -/
theorem outEndArr_spec {b b' : Buffer} {ctx n : Nat} (h : b.Inv) (hctx : ctx + 4 ≤ b.size)
    (he : outEndArr b ctx n = some b') :
    b'.Inv ∧ b'.content = b.content.take ctx ++ u32Len n ++ b.content.drop (ctx + 4) := by
  unfold outEndArr at he
  split at he
  · cases he
  · obtain ⟨d, hd, rfl⟩ := Option.map_eq_some'.mp he
    simpa [u32Len] using Buffer.memcpyTo_content h (by simpa [u32Len] using hctx) hd

/-- The count written over the four zeros reserved after an array's tag. -/
theorem patch_count (q rest : List UInt8) (n : Nat) :
    (q ++ (tagArr :: u32Len 0 ++ rest)).take (q.length + 1) ++ u32Len n ++
        (q ++ (tagArr :: u32Len 0 ++ rest)).drop (q.length + 1 + 4) =
      q ++ (tagArr :: u32Len n ++ rest) := by
  have h0 : u32Len 0 = [0, 0, 0, 0] := rfl
  simp [h0, List.take_append_eq_append_take, List.drop_append_eq_append_drop, Nat.add_assoc,
    List.take_of_length_le, List.drop_of_length_le]

/-- A handler's calls on the content: an array's count is patched over the zeros
`out_begin_arr` reserved. -/
theorem outsOnList_arr (q : List UInt8) {items : List Out} (hp : ∀ o ∈ items, o.Plain)
    (n : Nat) :
    outsOnList q (.beginArr :: items ++ [.endArr n]) =
      q ++ (tagArr :: u32Len n ++ items.flatMap Out.bytes) := by
  simp only [outsOnList, List.cons_append, List.foldl_cons, List.foldl_append, Out.onList,
    Out.bytes, Out.foldl_onList_plain hp, List.foldl_nil]
  simpa using patch_count q (items.flatMap Out.bytes) n

theorem outsOnList_shaped {outs : List Out} (hs : Out.Shaped outs) (q : List UInt8) :
    outsOnList q outs = q ++ outsOnList [] outs := by
  rcases hs with hp | ⟨items, n, rfl, hp⟩
  · simp [outsOnList, Out.foldl_onList_plain hp]
  · rw [outsOnList_arr q hp, outsOnList_arr [] hp, List.nil_append]

/-- `runOuts` refines the calls on the content, for the call lists the handlers make. -/
theorem runOuts_spec {b b' : Buffer} {outs : List Out} (h : b.Inv) (hs : Out.Shaped outs)
    (hr : runOuts b outs = some b') : b'.Inv ∧ b'.content = outsOnList b.content outs := by
  rcases hs with hp | ⟨items, n, rfl, hp⟩
  · obtain ⟨b₁, e₁, i₁, c₁⟩ := Out.foldlM_run_plain hp h 0
    rw [runOuts, e₁] at hr
    cases hr
    simp [outsOnList, Out.foldl_onList_plain hp, c₁, i₁]
  · obtain ⟨b₁, e₁, i₁, c₁⟩ := b.append_spec [tagArr] h
    obtain ⟨b₂, e₂, i₂, c₂⟩ := b₁.append_spec (u32Bytes 0) i₁
    obtain ⟨b₃, e₃, i₃, c₃⟩ := Out.foldlM_run_plain hp i₂ (b₂.size - 4)
    have hfold : (Out.beginArr :: items ++ [Out.endArr n]).foldlM
        (fun (p : Buffer × Nat) o => Out.run p.1 p.2 o) (b, 0) =
          (outEndArr b₃ (b₂.size - 4) n).map (·, b₂.size - 4) := by
      have hb : Out.beginArr.run b 0 = some (b₂, b₂.size - 4) := by
        simp [Out.run, Buffer.appendU8, Buffer.appendU32, e₁, e₂]
      simp only [List.cons_append, List.foldlM_cons, List.foldlM_append, hb, e₃,
        Option.bind_eq_bind, Option.some_bind, List.foldlM_nil]
      simp only [Out.run, Option.pure_def, Option.bind_eq_bind]
      cases outEndArr b₃ (b₂.size - 4) n <;> rfl
    rw [runOuts, hfold, Option.map_map] at hr
    obtain ⟨b₄, e₄, rfl⟩ := Option.map_eq_some'.mp hr
    have hs₂ : b₂.size = b.size + 5 := by
      rw [← Buffer.length_content, c₂, c₁]; simp
    have hs₃ : b₂.size + (items.flatMap Out.bytes).length = b₃.size := by
      rw [← Buffer.length_content b₃, c₃]; simp
    obtain ⟨i₄, c₄⟩ := outEndArr_spec i₃ (by omega) e₄
    dsimp only [Function.comp_apply]
    refine ⟨i₄, ?_⟩
    rw [c₄, outsOnList_arr _ hp, c₃, c₂, c₁, hs₂, ← Buffer.length_content b,
      ← patch_count b.content _ n]
    simp only [List.append_assoc, List.cons_append]
    rfl

/-! ## The tagged values of section 4.2 -/

/-- A tagged value. -/
inductive Val
  | nil
  | err (code : Nat) (msg : List UInt8)
  | str (s : List UInt8)
  | int (v : Int)
  | dbl (v : F64)
  | arr (vs : List Val)

mutual

/-- The bytes of a tagged value. -/
def Val.bytes : Val → List UInt8
  | .nil => [tagNil]
  | .err code msg => tagErr :: u32Len code ++ u32Len msg.length ++ msg
  | .str s => tagStr :: u32Len s.length ++ s
  | .int v => tagInt :: i64Bytes v
  | .dbl v => tagDbl :: dblBytes v
  | .arr vs => tagArr :: u32Len vs.length ++ Val.listBytes vs

/-- The bytes of tagged values one after the other. -/
def Val.listBytes : List Val → List UInt8
  | [] => []
  | v :: vs => v.bytes ++ Val.listBytes vs

end

end KvServer
