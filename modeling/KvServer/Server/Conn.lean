import KvServer.Server.Response
import KvServer.Server.Request

/-!
# Connections: `try_one_request`, `handle_read` and `handle_write`

A connection reads bytes into `incoming`; `try_one_request` cuts the frame
`u32(len) ++ body` at its front, decodes the body with `parse_req`, hands the command to
`do_request` and appends the response frame to `outgoing` with `response_begin` and
`response_end`; `handle_read` calls it until it returns `false` (pipelining), and
`handle_write` writes the contiguous span at the head of `outgoing`. The system calls are the
environment's: `read()` and `write()` return what a `ReadResult` and a `WriteResult` say, and
the `i`-th `do_request` of a `handle_read` runs with the outcomes `env i`.

Results:
1. `conn_serves_requests_in_order`: over every run of a connection in which each
   `handle_read` and `handle_write` is defined, the requests handed to `do_request` are those
   of the frames at the front of the bytes read, in order, up to a frame not yet whole or a
   rejected one; and the bytes written are a prefix of the response frames of the replies
   `do_request` made to those requests, in the same order, all of them once `outgoing` is
   empty. It rests on one lemma per step:
   `tryOneRequest_spec` reads the step off `front`, the spec's framing of the input, and
   `respond_spec` appends one response frame per request.
2. `conn_reply_count_out_of_bounds`: three `read()`s of whole frames on a fresh connection,
   each reply written out in full: `set k` with a 1002-byte value, `get k`, then `zquery` of a
   missing key. The first two replies take 1016 bytes of the 1024-byte outgoing ring, and
   the third `handle_read` is undefined: the array count of the `zquery` reply is copied past
   the end of the ring's block.
3. `Conn.Run.wants`: a connection that is not closing wants exactly one of reading and
   writing, writing exactly when `outgoing` holds bytes.
-/

namespace KvServer

/-- `struct Conn`: the intentions and the two buffers. The descriptor, `last_active_ms` and
`idle_node` are the event loop's, and the handlers do not read them. -/
structure Conn where
  wantRead : Bool
  wantWrite : Bool
  wantClose : Bool
  incoming : Buffer
  outgoing : Buffer

/-- The `Conn` that `handle_accept` creates. -/
def Conn.fresh : Conn := ⟨true, false, false, Buffer.new 1024, Buffer.new 1024⟩

/-- A request frame as a client sends it: the body's length, then the body. -/
def reqFrame (cmd : Cmd) : List UInt8 := u32Len (reqBody cmd).length ++ reqBody cmd

/-- What `read()` on the socket returns. -/
inductive ReadResult
  /-- `EAGAIN`. -/
  | again
  /-- Any other error. -/
  | error
  /-- End of file. -/
  | eof
  /-- The bytes read. -/
  | data (bytes : List UInt8)

/-- What `write()` on the socket returns. -/
inductive WriteResult
  /-- `EAGAIN`. -/
  | again
  /-- Any other error. -/
  | error
  /-- `min r n` of the `n` bytes offered were taken. -/
  | wrote (r : Nat)

/-- `try_one_request(conn)`, its `do_request` with the outcomes `env`: `none` for undefined
behaviour; otherwise the command handed to `do_request` when it returns `true`, the global
state and the connection. -/
def tryOneRequest (H : HeapUpdate) (env : Env) (s : Server) (c : Conn) :
    Option (Option Cmd × Server × Conn) :=
  if c.incoming.size < 4 then some (none, s, c)
  else do
    let len ← c.incoming.peekU32 0
    if len.toNat > kMaxMsg then some (none, s, { c with wantClose := true })
    else if 4 + len.toNat > c.incoming.size then some (none, s, c)
    else do
      let request ← c.incoming.peek (List.replicate len.toNat 0) 4 len.toNat
      match parseReq request with
      | none => some (none, s, { c with wantClose := true })
      | some cmd => do
        let (s, outs, _) ← doRequest H env s cmd
        let outgoing ← respond c.outgoing outs
        pure (some cmd, s, { c with outgoing, incoming := c.incoming.consume (4 + len.toNat) })

/-- `while (try_one_request(conn)) {}`, at most `fuel` iterations, the `i`-th `do_request`
with the outcomes `env i`. Also returns the commands handed to `do_request`, in order. -/
def serveLoop (H : HeapUpdate) (env : Nat → Env) :
    Nat → Nat → Server → Conn → Option (Server × Conn × List Cmd)
  | 0, _, s, c => some (s, c, [])
  | fuel + 1, i, s, c => do
    let (cmd, s, c) ← tryOneRequest H (env i) s c
    match cmd with
    | none => some (s, c, [])
    | some cmd => do
      let (s, c, cmds) ← serveLoop H env fuel (i + 1) s c
      pure (s, c, cmd :: cmds)

/-- `handle_write(conn)` with the outcome `r` of its `write()`: `none` when
`assert(conn->outgoing.size() > 0)` fails or the span is read out of bounds; otherwise the
connection and the bytes `write()` took. -/
def handleWrite (c : Conn) (r : WriteResult) : Option (Conn × List UInt8) :=
  if c.outgoing.size = 0 then none
  else
    let (data, dataSize) := c.outgoing.getContinuousData 0
    match r with
    | .again => some (c, [])
    | .error => some ({ c with wantClose := true }, [])
    | .wrote n => do
      let rv := min n dataSize
      let bytes ← memcpyFrom c.outgoing.capacity c.outgoing.data (data.getD 0) rv
      let outgoing := c.outgoing.consume rv
      let c := { c with outgoing }
      pure (if outgoing.size = 0 then { c with wantRead := true, wantWrite := false } else c,
        bytes)

/-- `handle_read(conn)` with the outcome `r` of its `read()` and `w` of the `write()` of the
`handle_write` it ends with when there is a reply. Every request consumes at least four bytes
of `incoming`, so `size + 1` iterations of the loop reach its end. Returns the global state,
the connection, the commands handed to `do_request` and the bytes written. -/
def handleRead (H : HeapUpdate) (env : Nat → Env) (s : Server) (c : Conn) (r : ReadResult)
    (w : WriteResult) : Option (Server × Conn × List Cmd × List UInt8) :=
  match r with
  | .again => some (s, c, [], [])
  | .error | .eof => some (s, { c with wantClose := true }, [], [])
  | .data bytes => do
    let incoming ← c.incoming.append bytes
    let (s, c, cmds) ← serveLoop H env (incoming.size + 1) 0 s { c with incoming }
    if c.outgoing.size > 0 then do
      let (c, written) ← handleWrite { c with wantRead := false, wantWrite := true } w
      pure (s, c, cmds, written)
    else pure (s, c, cmds, [])

set_option maxRecDepth 8000 in
/-- A fresh connection, the store empty and the AOF off, each reply written in full: `set k`
with a 1002-byte value (reply 5 bytes) and `get k` (reply 1011 bytes) are served, and leave
the head of the empty outgoing ring at 1016 of 1024. The `handle_read` of the frame of
`zquery z 0 "" 0 10` is then undefined: `out_end_arr` copies the array count to the cells
1021 to 1024 of the block. -/
theorem conn_reply_count_out_of_bounds :
    let env : Nat → Env := fun _ => ⟨0, some, true, true, true⟩
    let s₀ : Server := ⟨Db.empty, ⟨false, false, 0, Buffer.new 1024, false, []⟩⟩
    let first := handleRead HeapUpdate.sorted env s₀ Conn.fresh
      (.data (reqFrame [ascii "set", ascii "k", List.replicate 1002 97])) (.wrote 65536)
    let second := first.bind fun r => handleRead HeapUpdate.sorted env r.1 r.2.1
      (.data (reqFrame [ascii "get", ascii "k"])) (.wrote 65536)
    first.map (·.2.1.outgoing.size) = some 0 ∧
      second.map (fun r => (r.2.1.outgoing.head, r.2.1.outgoing.size)) = some (1016, 0) ∧
      (second.bind fun r => handleRead HeapUpdate.sorted env r.1 r.2.1
        (.data (reqFrame [ascii "zquery", ascii "z", ascii "0", [], ascii "0", ascii "10"]))
        (.wrote 65536)) = none :=
  ⟨rfl, rfl, rfl⟩

/-! ## What the front of the input holds -/

/-- What the front of a byte stream holds, framed as section 3 frames requests: less than a
whole frame, a frame the server rejects (its `len` over `k_max_msg`, or a body `parse_req`
rejects), or a request and the bytes after its frame. -/
inductive Front
  | incomplete
  | rejected
  | request (cmd : Cmd) (rest : List UInt8)

/-- The front of a byte stream. -/
def front (q : List UInt8) : Front :=
  match readU32 q with
  | none => .incomplete
  | some (len, rest) =>
    if len.toNat > kMaxMsg then .rejected
    else
      match readStr rest len.toNat with
      | none => .incomplete
      | some (body, rest) =>
        match parseReq body with
        | none => .rejected
        | some cmd => .request cmd rest

/-- A request the server accepts: its body within `k_max_msg`, and decoded by `parse_req`. -/
def Accepted (cmd : Cmd) : Prop :=
  (reqBody cmd).length ≤ kMaxMsg ∧ parseReq (reqBody cmd) = some cmd

theorem kMaxMsg_lt : kMaxMsg < 2 ^ 32 := by decide

/-- The frame of an accepted request is read back as that request. -/
theorem front_reqFrame {cmd : Cmd} (hc : Accepted cmd) (rest : List UInt8) :
    front (reqFrame cmd ++ rest) = .request cmd rest := by
  have hlen := u32Len_toNat (lt_of_le_of_lt hc.1 kMaxMsg_lt)
  simp [front, reqFrame, u32Len, hlen, Nat.not_lt.mpr hc.1, hc.2]

/-- A request at the front of a stream is the frame of an accepted request. -/
theorem front_eq_request {q rest : List UInt8} {cmd : Cmd} (h : front q = .request cmd rest) :
    q = reqFrame cmd ++ rest ∧ Accepted cmd := by
  unfold front at h
  split at h
  · cases h
  · rename_i len r₁ hr
    split at h
    · cases h
    · rename_i hle
      split at h
      · cases h
      · rename_i body r₂ hs
        split at h
        · cases h
        · rename_i cmd' hp
          cases h
          obtain ⟨hr₁, hblen⟩ := readStr_sound hs
          obtain ⟨-, -, rfl⟩ := parseReq_eq_some_iff.mp hp
          have hofNat : UInt32.ofNat len.toNat = len :=
            UInt32.toNat.inj (UInt32.toNat_ofNat_of_lt (UInt32.toNat_lt_size len))
          refine ⟨?_, by omega, hp⟩
          rw [readU32_sound hr, hr₁, reqFrame, u32Len, hblen, hofNat, List.append_assoc]

/-! ## One request, and the loop of `handle_read` -/

/-- A reply to `cmd`: the calls `do_request` makes for it, in some global state and with some
outcomes of its system calls, at most `k_max_msg` bytes long, as `response_end` keeps them. -/
def Reply (H : HeapUpdate) (cmd : Cmd) (outs : List Out) : Prop :=
  (∃ env s s' w, doRequest H env s cmd = some (s', outs, w)) ∧
    (replyBytes outs).length ≤ kMaxMsg

/-- `c'` is `c` after the requests `cmds` were cut from the front of its input, each the frame
of an accepted request, and the response frame of a reply to each was appended to its output,
in order; the buffers keep their invariant, and `want_read` and `want_write` stay. -/
structure Served (H : HeapUpdate) (c : Conn) (cmds : List Cmd) (c' : Conn) : Prop where
  incoming : c'.incoming.Inv
  outgoing : c'.outgoing.Inv
  consumed : c.incoming.content = cmds.flatMap reqFrame ++ c'.incoming.content
  accepted : ∀ cmd ∈ cmds, Accepted cmd
  replies : ∃ outsL, List.Forall₂ (Reply H) cmds outsL ∧
    c'.outgoing.content = c.outgoing.content ++ outsL.flatMap respFrame
  wantRead : c'.wantRead = c.wantRead
  wantWrite : c'.wantWrite = c.wantWrite

theorem Served.nil {H : HeapUpdate} {c c' : Conn} (hi : c.incoming.Inv) (ho : c.outgoing.Inv)
    (h₁ : c'.incoming = c.incoming) (h₂ : c'.outgoing = c.outgoing)
    (h₃ : c'.wantRead = c.wantRead) (h₄ : c'.wantWrite = c.wantWrite) : Served H c [] c' :=
  ⟨h₁ ▸ hi, h₂ ▸ ho, by simp [h₁], by simp, ⟨[], .nil, by simp [h₂]⟩, h₃, h₄⟩

theorem Served.trans {H : HeapUpdate} {c c₁ c₂ : Conn} {a b : List Cmd}
    (h₁ : Served H c a c₁) (h₂ : Served H c₁ b c₂) : Served H c (a ++ b) c₂ := by
  obtain ⟨o₁, f₁, e₁⟩ := h₁.replies
  obtain ⟨o₂, f₂, e₂⟩ := h₂.replies
  refine ⟨h₂.incoming, h₂.outgoing, ?_, List.forall_mem_append.mpr ⟨h₁.accepted, h₂.accepted⟩,
    ⟨o₁ ++ o₂, List.rel_append f₁ f₂, ?_⟩, h₂.wantRead.trans h₁.wantRead,
    h₂.wantWrite.trans h₁.wantWrite⟩
  · rw [h₁.consumed, h₂.consumed, List.flatMap_append, List.append_assoc]
  · rw [e₂, e₁, List.flatMap_append, List.append_assoc]

section Step

variable (H : HeapUpdate)

/-- One `try_one_request`, as the front of the input reads: nothing happens before a whole
frame; a rejected frame sets `want_close` and stays; the request of an accepted frame is
handed to `do_request`, its frame consumed and its response frame appended. -/
theorem tryOneRequest_spec {env : Env} {s s' : Server} {c c' : Conn} {r : Option Cmd}
    (hi : c.incoming.Inv) (ho : c.outgoing.Inv)
    (h : tryOneRequest H env s c = some (r, s', c')) :
    match front c.incoming.content with
    | .incomplete => r = none ∧ c' = c
    | .rejected => r = none ∧ c' = { c with wantClose := true }
    | .request cmd _ => r = some cmd ∧ Served H c [cmd] c' ∧ c'.wantClose = c.wantClose := by
  have hsz := Buffer.length_content c.incoming
  unfold tryOneRequest at h
  split at h
  · cases h
    have hf : front c.incoming.content = .incomplete := by simp [front, readU32, *]
    rw [hf]
    exact ⟨rfl, rfl⟩
  obtain ⟨len, hlen⟩ : ∃ len, readU32Bytes (c.incoming.content.take 4) = len := ⟨_, rfl⟩
  have hread : readU32 c.incoming.content = some (len, c.incoming.content.drop 4) := by
    rw [readU32, if_neg (by omega), hlen]
  rw [Buffer.peekU32, Buffer.peek_spec hi (by omega) (leBytes_length 4 0)] at h
  simp only [Option.map_some', List.drop_zero, hlen, Option.bind_eq_bind, Option.some_bind] at h
  split at h
  · cases h
    have hf : front c.incoming.content = .rejected := by simp [front, hread, *]
    rw [hf]
    exact ⟨rfl, rfl⟩
  rename_i hmax
  split at h
  · cases h
    have hf : front c.incoming.content = .incomplete := by
      simp [front, hread, readStr, hmax, show c.incoming.size - 4 < len.toNat by omega]
    rw [hf]
    exact ⟨rfl, rfl⟩
  have hbody : readStr (c.incoming.content.drop 4) len.toNat =
      some ((c.incoming.content.drop 4).take len.toNat,
        c.incoming.content.drop (4 + len.toNat)) := by
    rw [readStr, if_neg (by simp; omega), List.drop_drop, Nat.add_comm]
  rw [Buffer.peek_spec hi (by omega) (List.length_replicate _ _), Option.some_bind] at h
  cases hp : parseReq ((c.incoming.content.drop 4).take len.toNat) with
  | none =>
    rw [hp] at h
    cases h
    have hf : front c.incoming.content = .rejected := by simp [front, hread, hbody, hmax, hp]
    rw [hf]
    exact ⟨rfl, rfl⟩
  | some cmd =>
    rw [hp] at h
    have hf : front c.incoming.content =
        .request cmd (c.incoming.content.drop (4 + len.toNat)) := by
      simp [front, hread, hbody, hmax, hp]
    rw [hf]
    obtain ⟨hq, hacc⟩ := front_eq_request hf
    obtain ⟨⟨s₁, outs, w⟩, hd, h⟩ := Option.bind_eq_some.mp h
    obtain ⟨out', hr, h⟩ := Option.bind_eq_some.mp h
    cases h
    obtain ⟨ii, ci⟩ := Buffer.consume_spec hi (n := 4 + len.toNat) (by omega)
    obtain ⟨io, co, hle⟩ := respond_spec ho (doRequest_shaped H env hd) hr
    exact ⟨rfl, ⟨ii, io, by rw [ci]; simpa using hq, by simpa using hacc,
      ⟨[outs], .cons ⟨⟨env, s, s₁, w, hd⟩, hle⟩ .nil, by simpa using co⟩, rfl, rfl⟩, rfl⟩

/-- The loop of `handle_read`, given more iterations than `incoming` holds bytes, serves the
requests at the front of the input, and stops at a frame that is not whole, or at a rejected
one with `want_close` set. -/
theorem serveLoop_spec {env : Nat → Env} {fuel i : Nat} {s s' : Server} {c c' : Conn}
    {cmds : List Cmd} (hi : c.incoming.Inv) (ho : c.outgoing.Inv)
    (hfuel : c.incoming.size < fuel) (h : serveLoop H env fuel i s c = some (s', c', cmds)) :
    Served H c cmds c' ∧ (front c'.incoming.content = .incomplete ∧ c'.wantClose = c.wantClose ∨
      front c'.incoming.content = .rejected ∧ c'.wantClose = true) := by
  induction fuel generalizing i s c cmds with
  | zero => omega
  | succ fuel ih =>
    rw [serveLoop, Option.bind_eq_bind] at h
    obtain ⟨⟨r, s₁, c₁⟩, ht, hk⟩ := Option.bind_eq_some.mp h
    dsimp only at hk
    have hstep := tryOneRequest_spec H hi ho ht
    cases hf : front c.incoming.content with
    | incomplete =>
      rw [hf] at hstep
      obtain ⟨rfl, rfl⟩ := hstep
      cases hk
      exact ⟨Served.nil hi ho rfl rfl rfl rfl, .inl ⟨hf, rfl⟩⟩
    | rejected =>
      rw [hf] at hstep
      obtain ⟨rfl, rfl⟩ := hstep
      cases hk
      exact ⟨Served.nil hi ho rfl rfl rfl rfl, .inr ⟨hf, rfl⟩⟩
    | request cmd rest =>
      rw [hf] at hstep
      obtain ⟨rfl, hs₁, hc₁⟩ := hstep
      obtain ⟨⟨s₂, c₂, cmds'⟩, hl, hk⟩ := Option.bind_eq_some.mp hk
      cases hk
      have hlen : c₁.incoming.size < fuel := by
        have := congrArg List.length hs₁.consumed
        simp [reqFrame, u32Len] at this
        omega
      obtain ⟨hs₂, hstop⟩ := ih hs₁.incoming hs₁.outgoing hlen hl
      exact ⟨hs₁.trans hs₂, by rwa [hc₁] at hstop⟩

end Step

/-- `c'` is `c` after `write()` took `written` from the front of its output; `incoming` stays
and `want_close` is never cleared. -/
structure Wrote (c : Conn) (written : List UInt8) (c' : Conn) : Prop where
  outgoing : c'.outgoing.Inv
  content : written ++ c'.outgoing.content = c.outgoing.content
  incoming : c'.incoming = c.incoming
  wantClose : c.wantClose → c'.wantClose

/-- `handle_write`, when defined, writes from the front of `outgoing`. -/
theorem handleWrite_spec {c c' : Conn} {w : WriteResult} {written : List UInt8}
    (ho : c.outgoing.Inv) (h : handleWrite c w = some (c', written)) : Wrote c written c' := by
  unfold handleWrite at h
  split at h
  · cases h
  obtain ⟨n, hd, -, hn, hcap, -⟩ := Buffer.getContinuousData_zero ho (by omega)
  rw [hd] at h
  dsimp only at h
  cases w with
  | again => cases h; exact ⟨ho, rfl, rfl, id⟩
  | error => cases h; exact ⟨ho, rfl, rfl, fun _ => rfl⟩
  | wrote r =>
    obtain ⟨hinv, hcont⟩ := Buffer.consume_spec ho (n := min r n) (by omega)
    dsimp only at h
    rw [Option.getD_some, Buffer.memcpyFrom_head (by omega) (by omega)] at h
    simp only [Option.bind_eq_bind, Option.some_bind, Option.pure_def, Option.some.injEq,
      Prod.mk.injEq] at h
    obtain ⟨rfl, rfl⟩ := h
    split <;> exact ⟨hinv, by rw [hcont, List.take_append_drop], rfl, id⟩

/-! ## The law of one connection -/

/-- The law of a connection whose `read()`s returned the bytes `S`, that handed the requests
`D` to `do_request`, and of whose replies `write()` took `W`: `S` is the frames of `D`, each
of an accepted request, then what `incoming` holds, whose front is not a whole frame unless it
is a rejected one and the connection is closing; and `W`, then what `outgoing` holds, is the
response frames of a reply to each request of `D`, in order. -/
structure Law (H : HeapUpdate) (S : List UInt8) (D : List Cmd) (W : List UInt8) (c : Conn) :
    Prop where
  incoming : c.incoming.Inv
  outgoing : c.outgoing.Inv
  consumed : S = D.flatMap reqFrame ++ c.incoming.content
  accepted : ∀ cmd ∈ D, Accepted cmd
  stopped : front c.incoming.content = .incomplete ∨
    c.wantClose ∧ front c.incoming.content = .rejected
  replies : ∃ outsL, List.Forall₂ (Reply H) D outsL ∧
    W ++ c.outgoing.content = outsL.flatMap respFrame

theorem Law.fresh {H : HeapUpdate} : Law H [] [] [] Conn.fresh :=
  ⟨Buffer.new_inv (by decide), Buffer.new_inv (by decide), rfl, by simp, .inl rfl,
    ⟨[], .nil, rfl⟩⟩

theorem Law.write {H : HeapUpdate} {S D W written : List _} {c c' : Conn} (hl : Law H S D W c)
    (hw : Wrote c written c') : Law H S D (W ++ written) c' := by
  obtain ⟨outsL, hf, hrep⟩ := hl.replies
  refine ⟨hw.incoming ▸ hl.incoming, hw.outgoing, hw.incoming ▸ hl.consumed, hl.accepted,
    ?_, ⟨outsL, hf, by rw [List.append_assoc, hw.content, hrep]⟩⟩
  rw [hw.incoming]
  exact hl.stopped.imp_right fun h => ⟨hw.wantClose h.1, h.2⟩

/-- Serving the requests of `incoming` after `read()` appended `bytes` to it. -/
theorem Law.serve {H : HeapUpdate} {S D W : List _} {bytes : List UInt8} {cmds : List Cmd}
    {c c₀ c₁ : Conn} (hl : Law H S D W c) (hs : Served H c₀ cmds c₁)
    (hc₀ : c₀.incoming.content = c.incoming.content ++ bytes) (ho : c₀.outgoing = c.outgoing)
    (hstop : front c₁.incoming.content = .incomplete ∨
      front c₁.incoming.content = .rejected ∧ c₁.wantClose = true) :
    Law H (S ++ bytes) (D ++ cmds) W c₁ := by
  obtain ⟨outsL, hf, hrep⟩ := hl.replies
  obtain ⟨outsL', hf', hrep'⟩ := hs.replies
  refine ⟨hs.incoming, hs.outgoing, ?_, List.forall_mem_append.mpr ⟨hl.accepted, hs.accepted⟩,
    hstop.imp_right fun h => ⟨h.2, h.1⟩, ⟨outsL ++ outsL', List.rel_append hf hf', ?_⟩⟩
  · rw [hl.consumed, List.append_assoc, ← hc₀, hs.consumed, List.flatMap_append,
      List.append_assoc]
  · rw [hrep', ho, ← List.append_assoc, hrep, List.flatMap_append]

/-- The bytes a `read()` returned. -/
def ReadResult.bytes : ReadResult → List UInt8
  | .data bytes => bytes
  | _ => []

/-- A `handle_read` keeps the law. -/
theorem Law.read (H : HeapUpdate) {env : Nat → Env} {s s' : Server} {S D W : List _}
    {c c' : Conn} {r : ReadResult} {w : WriteResult} {cmds : List Cmd} {written : List UInt8}
    (hl : Law H S D W c) (h : handleRead H env s c r w = some (s', c', cmds, written)) :
    Law H (S ++ r.bytes) (D ++ cmds) (W ++ written) c' := by
  cases r with
  | again => cases h; simpa [ReadResult.bytes] using hl
  | error | eof =>
    cases h
    simpa [ReadResult.bytes] using
      hl.write (show Wrote c [] { c with wantClose := true } from
        ⟨hl.outgoing, by simp, rfl, fun _ => rfl⟩)
  | data bytes =>
    obtain ⟨inc, he, ii, ci⟩ := c.incoming.append_spec bytes hl.incoming
    simp only [handleRead, he, Option.bind_eq_bind, Option.some_bind] at h
    obtain ⟨⟨s₁, c₁, cmds₁⟩, hloop, h⟩ := Option.bind_eq_some.mp h
    obtain ⟨hs, hstop⟩ :=
      serveLoop_spec H (c := { c with incoming := inc }) ii hl.outgoing (Nat.lt_succ_self _) hloop
    have hstop' : front c₁.incoming.content = .incomplete ∨
        front c₁.incoming.content = .rejected ∧ c₁.wantClose = true :=
      hstop.imp_left fun h => h.1
    have hl₁ := hl.serve hs ci rfl hstop'
    dsimp only at h
    split at h
    · obtain ⟨⟨c₂, wr⟩, hw, h⟩ := Option.bind_eq_some.mp h
      cases h
      have hw := handleWrite_spec (c := { c₁ with wantRead := false, wantWrite := true })
        hs.outgoing hw
      exact hl₁.write ⟨hw.outgoing, hw.content, hw.incoming, hw.wantClose⟩
    · cases h
      simpa using hl₁

/-- A run of one connection from `handle_accept`, while it lives: a `handle_read` when it
wants to read and a `handle_write` when it wants to write, each defined, with any global state
and any outcomes of the system calls (the other connections and the timers run in between).
`S` is the bytes the `read()`s returned, `D` the requests handed to `do_request`, and `W` the
bytes the `write()`s took, in order. -/
inductive Conn.Run (H : HeapUpdate) : List UInt8 → List Cmd → List UInt8 → Conn → Prop
  | accept : Conn.Run H [] [] [] Conn.fresh
  | read {S D W c c' s s' env r w cmds written} : Conn.Run H S D W c → c.wantClose = false →
      c.wantRead → handleRead H env s c r w = some (s', c', cmds, written) →
      Conn.Run H (S ++ r.bytes) (D ++ cmds) (W ++ written) c'
  | write {S D W c c' w written} : Conn.Run H S D W c → c.wantClose = false → c.wantWrite →
      handleWrite c w = some (c', written) → Conn.Run H S D (W ++ written) c'

theorem Conn.Run.law {H : HeapUpdate} {S : List UInt8} {D : List Cmd} {W : List UInt8}
    {c : Conn} (hr : c.Run H S D W) : Law H S D W c := by
  induction hr with
  | accept => exact Law.fresh
  | read _ _ _ h ih => exact ih.read H h
  | write _ _ _ h ih => exact ih.write (handleWrite_spec ih.outgoing h)

/-- Pipelining on one connection, over every run in which each event is defined: the requests
handed to `do_request` are, in order and each once, those of the frames at the front of the
bytes read, each accepted, up to a frame that is not whole yet or a rejected one, on which the
connection closes; and the bytes written are a prefix of the response frames of replies to
those requests, one per request and in the same order, and all of them once `outgoing` is
empty. -/
theorem conn_serves_requests_in_order {H : HeapUpdate} {S : List UInt8} {D : List Cmd}
    {W : List UInt8} {c : Conn} (hr : c.Run H S D W) :
    (∃ rest, S = D.flatMap reqFrame ++ rest ∧ (∀ cmd ∈ D, Accepted cmd) ∧
      (front rest = .incomplete ∨ c.wantClose ∧ front rest = .rejected)) ∧
    ∃ outsL, List.Forall₂ (Reply H) D outsL ∧
      W <+: outsL.flatMap respFrame ∧ (c.outgoing.size = 0 → W = outsL.flatMap respFrame) := by
  have hl := hr.law
  obtain ⟨outsL, hf, hrep⟩ := hl.replies
  refine ⟨⟨_, hl.consumed, hl.accepted, hl.stopped⟩, outsL, hf, ⟨_, hrep⟩, fun h0 => ?_⟩
  rw [← hrep, List.eq_nil_of_length_eq_zero (l := c.outgoing.content) (by simpa using h0),
    List.append_nil]

/-- One `read()` of the frame of `get k` on a fresh connection, the store empty and the reply
written in full. -/
theorem conn_serves_requests_in_order_get :
    ∃ S D W c, Conn.Run HeapUpdate.sorted S D W c ∧ D = [[ascii "get", ascii "k"]] ∧
      (∃ rest, S = D.flatMap reqFrame ++ rest ∧ (∀ cmd ∈ D, Accepted cmd) ∧
        (front rest = .incomplete ∨ c.wantClose ∧ front rest = .rejected)) ∧
      ∃ outsL, List.Forall₂ (Reply HeapUpdate.sorted) D outsL ∧
        W <+: outsL.flatMap respFrame ∧ (c.outgoing.size = 0 → W = outsL.flatMap respFrame) := by
  have h : (handleRead HeapUpdate.sorted (fun _ => ⟨0, some, true, true, true⟩)
      ⟨Db.empty, ⟨false, false, 0, Buffer.new 1024, false, []⟩⟩ Conn.fresh
      (.data (reqFrame [ascii "get", ascii "k"])) (.wrote 65536)).map (·.2.2.1) =
        some [[ascii "get", ascii "k"]] := rfl
  obtain ⟨⟨s', c', cmds, written⟩, hh, hc⟩ := Option.map_eq_some'.mp h
  have hr := Conn.Run.read Conn.Run.accept rfl rfl hh
  exact ⟨_, _, _, _, hr, by simpa using hc, conn_serves_requests_in_order hr⟩

/-! ## What a connection wants -/

/-- The intentions of a connection agree with its output: it wants exactly one of reading and
writing, and it wants to write exactly when `outgoing` holds bytes. -/
structure Conn.Wants (c : Conn) : Prop where
  one : c.wantRead = !c.wantWrite
  write : c.wantWrite → 0 < c.outgoing.size
  read : c.wantRead → c.outgoing.size = 0

/-- `handle_write` of a connection that wants to write leaves it wanting to write while output
is left, and wanting to read once `outgoing` is empty. -/
theorem handleWrite_wants {c c' : Conn} {w : WriteResult} {written : List UInt8}
    (hw : c.wantWrite = true) (hr : c.wantRead = false)
    (h : handleWrite c w = some (c', written)) (hc : c'.wantClose = false) : c'.Wants := by
  unfold handleWrite at h
  split at h
  · cases h
  cases w with
  | again => cases h; exact ⟨by simp [hw, hr], fun _ => by omega, by simp [hr]⟩
  | error => cases h; cases hc
  | wrote r =>
    simp only [Option.bind_eq_bind, Option.pure_def] at h
    obtain ⟨bytes, -, h⟩ := Option.bind_eq_some.mp h
    cases h
    split
    · exact ⟨rfl, (fun h => by cases h), fun _ => by assumption⟩
    · exact ⟨by simp [hr, hw], fun _ => by dsimp only; omega, fun h => by simp [hr] at h⟩

/-- Every connection a run leaves open wants what its output calls for. -/
theorem Conn.Run.wants {H : HeapUpdate} {S : List UInt8} {D : List Cmd} {W : List UInt8}
    {c : Conn} (hr : c.Run H S D W) (hc : c.wantClose = false) : c.Wants := by
  induction hr with
  | accept => exact ⟨rfl, (fun h => by cases h), fun _ => rfl⟩
  | @read S D W c c' s s' env r w cmds written hrun hc₀ hread h ih =>
    have hwc := ih hc₀
    have hww : c.wantWrite = false := by simpa [hread] using hwc.one.symm
    cases r with
    | again => cases h; exact hwc
    | error | eof => cases h; cases hc
    | data bytes =>
      have hl := hrun.law
      obtain ⟨inc, he, ii, -⟩ := c.incoming.append_spec bytes hl.incoming
      simp only [handleRead, he, Option.bind_eq_bind, Option.some_bind] at h
      obtain ⟨⟨s₁, c₁, cmds₁⟩, hloop, h⟩ := Option.bind_eq_some.mp h
      obtain ⟨hs, -⟩ := serveLoop_spec H (c := { c with incoming := inc }) ii hl.outgoing
        (Nat.lt_succ_self _) hloop
      dsimp only at h
      split at h
      · obtain ⟨⟨c₂, wr⟩, hw, h⟩ := Option.bind_eq_some.mp h
        cases h
        exact handleWrite_wants rfl rfl hw hc
      · cases h
        exact ⟨by simp [hs.wantRead, hs.wantWrite, hread, hww], by simp [hs.wantWrite, hww],
          fun _ => by omega⟩
  | write hrun hc₀ hwrite h ih =>
    exact handleWrite_wants hwrite (by simpa [hwrite] using (ih hc₀).one) h hc

end KvServer
