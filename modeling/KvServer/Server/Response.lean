import KvServer.Store.Commands

/-!
# Response frames: `response_begin` and `response_end`

`try_one_request` reserves a length header with `response_begin`, lets the handler append its
reply, and patches the header in with `response_end`, which first replaces a reply of more than
`k_max_msg` bytes by `ERR(TOO_BIG)`. `respond` is the three together on the outgoing buffer.

Results:
1. `respond_spec`: `respond`, when defined, appends `respFrame outs`, the reply's length and
   then the reply, to the content of the outgoing buffer.
2. `response_end_oversized_undefined`: the `TOO_BIG` path of `response_end` shrinks the buffer
   with `Buffer::resize`, which copies the bytes in use past the end of the new block: for every
   buffer state and every reply over `k_max_msg` bytes, the path is undefined.
3. `zquery_count_patch_out_of_bounds`: on a connection whose earlier replies, written out in
   full, took 1016 bytes of its 1024-byte outgoing ring, `zquery` of a missing key puts its
   array count in the last three cells of the block and one past it; `out_end_arr` copies the
   count with one `memcpy` from that cell on, out of the block.
-/

namespace KvServer

/-- `k_max_msg`. -/
def kMaxMsg : Nat := 32 <<< 20

/-- `response_begin(out, &header)`: the header's offset, and four zero bytes reserved there. -/
def responseBegin (out : Buffer) : Option (Buffer × Nat) := do
  let header := out.size
  let out ← out.appendU32 0
  pure (out, header)

/-- `response_size(out, header)`. -/
def responseSize (out : Buffer) (header : Nat) : Nat := out.size - header - 4

/-- `response_end(out, header)`. -/
def responseEnd (out : Buffer) (header : Nat) : Option Buffer := do
  let msgSize := responseSize out header
  let (out, msgSize) ← if msgSize > kMaxMsg then do
      let out ← out.resize (header + 4)
      let out ← runOuts out [.err errTooBig (ascii "response is too big.")]
      pure (out, responseSize out header)
    else pure (out, msgSize)
  out.insert (u32Len msgSize) header

/-- `response_begin`, the handler's calls `outs`, then `response_end`, on the outgoing buffer. -/
def respond (out : Buffer) (outs : List Out) : Option Buffer := do
  let (out, header) ← responseBegin out
  let out ← runOuts out outs
  responseEnd out header

/-- The reply a handler's calls make on their own, the array count patched in. -/
def replyBytes (outs : List Out) : List UInt8 := outsOnList [] outs

/-- A response frame: the reply's length, then the reply. -/
def respFrame (outs : List Out) : List UInt8 := u32Len (replyBytes outs).length ++ replyBytes outs

/-- `respond`, when defined, appends the response frame of the handler's calls, and their reply
is at most `k_max_msg` bytes: a longer one takes the undefined `TOO_BIG` path. -/
theorem respond_spec {out out' : Buffer} {outs : List Out} (h : out.Inv) (hs : Out.Shaped outs)
    (hr : respond out outs = some out') :
    out'.Inv ∧ out'.content = out.content ++ respFrame outs ∧
      (replyBytes outs).length ≤ kMaxMsg := by
  obtain ⟨b₁, e₁, i₁, c₁⟩ := out.append_spec (u32Bytes 0) h
  simp only [respond, responseBegin, Buffer.appendU32, e₁, Option.bind_eq_bind,
    Option.some_bind, Option.pure_def] at hr
  obtain ⟨b₂, e₂, hr⟩ := Option.bind_eq_some.mp hr
  obtain ⟨i₂, c₂⟩ := runOuts_spec i₁ hs e₂
  rw [outsOnList_shaped hs, c₁, List.append_assoc] at c₂
  have hsize : responseSize b₂ out.size = (replyBytes outs).length := by
    rw [responseSize, ← Buffer.length_content b₂, c₂, replyBytes]
    simp
  have hle : (replyBytes outs).length ≤ kMaxMsg := by
    by_contra hbig
    have hk : 0 < kMaxMsg := by decide
    have hshrink : b₂.resize (out.size + 4) = none :=
      Buffer.resize_shrink_none i₂ (by unfold responseSize at hsize; omega)
    simp [responseEnd, hsize, if_pos (show kMaxMsg < (replyBytes outs).length by omega),
      hshrink] at hr
  simp only [responseEnd, hsize, if_neg (show ¬kMaxMsg < (replyBytes outs).length by omega),
    Option.pure_def, Option.bind_eq_bind, Option.some_bind] at hr
  have hpos : out.size + (u32Len (replyBytes outs).length).length ≤ b₂.size := by
    rw [← Buffer.length_content b₂, c₂]; simp [u32Len]
  obtain ⟨b₃, e₃, i₃, c₃⟩ := Buffer.insert_spec i₂ (by simp [u32Len] at hpos; omega) hpos
  rw [e₃] at hr
  cases hr
  refine ⟨i₃, ?_, hle⟩
  rw [c₃, c₂, ← Buffer.length_content out]
  simp [respFrame, replyBytes, u32Len, List.take_append_eq_append_take,
    List.drop_append_eq_append_drop, List.take_of_length_le, List.drop_of_length_le]

/-- The `TOO_BIG` path of `response_end` is undefined in every buffer state: its
`out.resize(header + 4)` copies the `size` bytes in use into a block of `header + 4` bytes. -/
theorem response_end_oversized_undefined {out : Buffer} {header : Nat} (h : out.Inv)
    (hbig : kMaxMsg < responseSize out header) : responseEnd out header = none := by
  have hshrink : out.resize (header + 4) = none :=
    Buffer.resize_shrink_none h (by unfold responseSize at hbig; omega)
  simp [responseEnd, if_pos hbig, hshrink]

/-- A 40 MiB reply, after an empty buffer's header, at the start of a 64 MiB block. -/
theorem response_end_oversized_undefined_40mib :
    (⟨0, 40 <<< 20, 64 <<< 20, 40 <<< 20, Block.fresh⟩ : Buffer).Inv ∧
      kMaxMsg < responseSize ⟨0, 40 <<< 20, 64 <<< 20, 40 <<< 20, Block.fresh⟩ 0 ∧
      responseEnd ⟨0, 40 <<< 20, 64 <<< 20, 40 <<< 20, Block.fresh⟩ 0 = none :=
  have h : (⟨0, 40 <<< 20, 64 <<< 20, 40 <<< 20, Block.fresh⟩ : Buffer).Inv :=
    ⟨by decide, by decide, by decide, by decide, by decide, fun _ _ => by decide⟩
  ⟨h, by decide, response_end_oversized_undefined h (by decide)⟩

set_option maxRecDepth 8000 in
/-- `zquery k 0 "" 0 10` of a missing key on a connection whose 1016 bytes of earlier
replies were written out: after `response_begin` and `out_begin_arr`, `ctx` is 5, the
assertion `out[ctx - 1] == TAG_ARR` holds, and the count's cell is 1021 of a 1024-byte block,
so `memcpy(&out[ctx], &n, 4)` writes past the end of the block. The buffer is reachable: it is
what 1016 bytes of replies leave once written out. -/
theorem zquery_count_patch_out_of_bounds :
    ∃ out mid, Buffer.Run (Buffer.new 1024)
        [.append (List.replicate 1016 0), .consume 1016] out ∧
      out.head = 1016 ∧ out.size = 0 ∧
      (responseBegin out).bind (fun p => Out.beginArr.run p.1 0) = some (mid, 5) ∧
      mid.data (mid.index 4) = tagArr ∧ mid.capacity < mid.index 5 + 4 ∧
      (respond out (doZquery Db.empty [ascii "zquery", ascii "k", ascii "0", [], ascii "0",
        ascii "10"])).isNone :=
  ⟨_, _, .cons trivial rfl (.cons (by simp [Buffer.Op.Allowed, Buffer.new]) rfl .nil), rfl, rfl,
    rfl, by decide, by decide, by decide⟩

end KvServer
