import KvServer.Buffer.Refine

/-!
# Request bodies: `parse_req` and `aof_write_command`

A request body, and an AOF record, is `u32 nstr | (u32 len | bytes)^nstr`. `parse_req` reads
it with a cursor that `read_u32` and `read_str` advance after checking that enough bytes are
left; the model's cursor is the list of bytes from `cur` to `end`, so no read can leave the
body. `aof_write_command` writes the same grammar into a `Buffer`.

Results:
1. `readU32_append`, `readU32_sound`, `readStr_append`, `readStr_sound`: each reader decodes
   what it encodes and splits the input when it succeeds.
2. `parseReq_eq_some_iff`: `parse_req` accepts exactly the bodies `reqBody cmd` of commands
   of at most `k_max_args` strings, each shorter than `2^32` bytes, and returns that `cmd`.
3. `aofWriteCommand_spec`: `aof_write_command` appends `reqBody cmd` for a non-empty `cmd`.
4. `parse_req_exact`: the two together.
-/

namespace KvServer

/-- `k_max_args`. -/
def kMaxArgs : Nat := 200 * 1000

/-- A command vector, `std::vector<std::string>`, each string as its bytes. -/
abbrev Cmd := List (List UInt8)

/-- `read_u32`: the `uint32_t` at the cursor and the cursor after it. -/
def readU32 (cur : List UInt8) : Option (UInt32 × List UInt8) :=
  if cur.length < 4 then none else some (readU32Bytes (cur.take 4), cur.drop 4)

/-- `read_str`: the `n` bytes at the cursor and the cursor after them. -/
def readStr (cur : List UInt8) (n : Nat) : Option (List UInt8 × List UInt8) :=
  if cur.length < n then none else some (cur.take n, cur.drop n)

/-- The `while (out.size() < nstr)` loop of `parse_req`, reading the `k` strings still due. -/
def readStrs : Nat → List UInt8 → Option (Cmd × List UInt8)
  | 0, cur => some ([], cur)
  | k + 1, cur => do
    let (len, cur) ← readU32 cur
    let (s, cur) ← readStr cur len.toNat
    let (rest, cur) ← readStrs k cur
    pure (s :: rest, cur)

/-- `parse_req`: `some cmd` for a return of 0 with output `cmd`, `none` for -1. -/
def parseReq (data : List UInt8) : Option Cmd := do
  let (nstr, cur) ← readU32 data
  if nstr.toNat > kMaxArgs then none
  else
    let (out, cur) ← readStrs nstr.toNat cur
    if cur = [] then some out else none

/-- The bytes of `(uint32_t)n`. -/
def u32Len (n : Nat) : List UInt8 := u32Bytes (UInt32.ofNat n)

/-- The strings of a command, each after its length. -/
def strsBytes : Cmd → List UInt8
  | [] => []
  | s :: rest => u32Len s.length ++ s ++ strsBytes rest

/-- The request body of a command: its string count, then its strings. -/
def reqBody (cmd : Cmd) : List UInt8 := u32Len cmd.length ++ strsBytes cmd

/-- The body of the `for` loop of `aof_write_command`: one string after its length. -/
def appendStr (buf : Buffer) (s : List UInt8) : Option Buffer := do
  let buf ← buf.appendU32 (UInt32.ofNat s.length)
  buf.append s

/-- `aof_write_command`: nothing for an empty command, otherwise its body. -/
def aofWriteCommand (buf : Buffer) (cmd : Cmd) : Option Buffer :=
  if cmd.isEmpty then some buf
  else do
    let buf ← buf.appendU32 (UInt32.ofNat cmd.length)
    cmd.foldlM appendStr buf

/-! ## The readers -/

@[simp] theorem readU32_append (v : UInt32) (rest : List UInt8) :
    readU32 (u32Bytes v ++ rest) = some (v, rest) := by
  simp [readU32]

theorem readU32_sound {cur rest : List UInt8} {v : UInt32} (h : readU32 cur = some (v, rest)) :
    cur = u32Bytes v ++ rest := by
  unfold readU32 at h
  split at h
  · cases h
  · obtain ⟨rfl, rfl⟩ := Prod.mk.inj (Option.some.inj h)
    rw [u32Bytes_readU32Bytes (by simp; omega), List.take_append_drop]

@[simp] theorem readStr_append (s rest : List UInt8) :
    readStr (s ++ rest) s.length = some (s, rest) := by
  simp [readStr]

theorem readStr_sound {cur s rest : List UInt8} {n : Nat} (h : readStr cur n = some (s, rest)) :
    cur = s ++ rest ∧ s.length = n := by
  unfold readStr at h
  split at h
  · cases h
  · obtain ⟨rfl, rfl⟩ := Prod.mk.inj (Option.some.inj h)
    exact ⟨(List.take_append_drop n cur).symm, by simp; omega⟩

theorem u32Len_toNat {n : Nat} (h : n < 2 ^ 32) : (UInt32.ofNat n).toNat = n :=
  UInt32.toNat_ofNat_of_lt h

theorem readStrs_strsBytes (cmd : Cmd) (rest : List UInt8)
    (hlen : ∀ s ∈ cmd, s.length < 2 ^ 32) :
    readStrs cmd.length (strsBytes cmd ++ rest) = some (cmd, rest) := by
  induction cmd with
  | nil => rfl
  | cons s cmd ih =>
    have hs := u32Len_toNat (hlen s (List.mem_cons_self s cmd))
    simp only [List.length_cons, readStrs, strsBytes, u32Len, List.append_assoc,
      readU32_append, hs, readStr_append, Option.bind_eq_bind, Option.some_bind,
      ih fun t ht => hlen t (List.mem_cons_of_mem s ht)]
    rfl

theorem readStrs_sound {k : Nat} {cur rest : List UInt8} {out : Cmd}
    (h : readStrs k cur = some (out, rest)) :
    cur = strsBytes out ++ rest ∧ out.length = k ∧ ∀ s ∈ out, s.length < 2 ^ 32 := by
  induction k generalizing cur out with
  | zero =>
    obtain ⟨rfl, rfl⟩ := Prod.mk.inj (Option.some.inj h)
    exact ⟨rfl, rfl, by simp⟩
  | succ k ih =>
    simp only [readStrs, Option.bind_eq_bind] at h
    obtain ⟨⟨len, cur₁⟩, h₁, h⟩ := Option.bind_eq_some.mp h
    obtain ⟨⟨s, cur₂⟩, h₂, h⟩ := Option.bind_eq_some.mp h
    obtain ⟨⟨tail, cur₃⟩, h₃, h⟩ := Option.bind_eq_some.mp h
    obtain ⟨rfl, rfl⟩ := Prod.mk.inj (Option.some.inj h)
    dsimp only at h₂ h₃ ⊢
    obtain ⟨hcur₂, hslen⟩ := readStr_sound h₂
    obtain ⟨hcur₃, htlen, htall⟩ := ih h₃
    have hlt : s.length < 2 ^ 32 := hslen ▸ UInt32.toNat_lt_size len
    refine ⟨?_, by simp [htlen], ?_⟩
    · rw [readU32_sound h₁, hcur₂, hcur₃, strsBytes, u32Len, hslen]
      simp [UInt32.toNat.inj (u32Len_toNat (hslen ▸ hlt))]
    · exact List.forall_mem_cons.mpr ⟨hlt, htall⟩

/-- `parse_req` accepts exactly the bodies of commands of at most `k_max_args` strings, each
shorter than `2^32` bytes, and then returns that command. -/
theorem parseReq_eq_some_iff {b : List UInt8} {cmd : Cmd} :
    parseReq b = some cmd ↔
      cmd.length ≤ kMaxArgs ∧ (∀ s ∈ cmd, s.length < 2 ^ 32) ∧ b = reqBody cmd := by
  constructor
  · intro h
    simp only [parseReq, Option.bind_eq_bind] at h
    obtain ⟨⟨nstr, cur⟩, h₁, h⟩ := Option.bind_eq_some.mp h
    dsimp only at h
    split at h
    · cases h
    · obtain ⟨⟨out, rest⟩, h₂, h⟩ := Option.bind_eq_some.mp h
      dsimp only at h
      split at h
      · cases h
        obtain ⟨hcur, hlen, hall⟩ := readStrs_sound h₂
        subst rest
        refine ⟨by omega, hall, ?_⟩
        rw [readU32_sound h₁, hcur, reqBody, u32Len, hlen, List.append_nil]
        congr 2
        exact (UInt32.toNat.inj (UInt32.toNat_ofNat_of_lt (UInt32.toNat_lt_size nstr))).symm
      · cases h
  · rintro ⟨hmax, hlen, rfl⟩
    have hn : (UInt32.ofNat cmd.length).toNat = cmd.length :=
      u32Len_toNat (by unfold kMaxArgs at hmax; omega)
    have hbody := readStrs_strsBytes cmd [] hlen
    rw [List.append_nil] at hbody
    simp only [parseReq, reqBody, u32Len, readU32_append, Option.bind_eq_bind, Option.some_bind,
      hn, if_neg (show ¬cmd.length > kMaxArgs by omega), hbody]
    rfl

/-! ## The writer -/

theorem appendStrs_spec (cmd : Cmd) {buf : Buffer} (h : buf.Inv) :
    ∃ buf', cmd.foldlM appendStr buf = some buf' ∧ buf'.Inv ∧
      buf'.content = buf.content ++ strsBytes cmd := by
  induction cmd generalizing buf with
  | nil => exact ⟨buf, rfl, h, by simp [strsBytes]⟩
  | cons s rest ih =>
    obtain ⟨b₁, h₁, hi₁, hc₁⟩ := Buffer.append_spec (u32Bytes (UInt32.ofNat s.length)) h
    obtain ⟨b₂, h₂, hi₂, hc₂⟩ := Buffer.append_spec s hi₁
    obtain ⟨b₃, h₃, hi₃, hc₃⟩ := ih hi₂
    refine ⟨b₃, ?_, hi₃, by rw [hc₃, hc₂, hc₁, strsBytes, u32Len]; simp⟩
    simp only [List.foldlM_cons, appendStr, Buffer.appendU32, h₁, h₂, Option.bind_eq_bind,
      Option.some_bind, h₃]

/-- `aof_write_command` appends the body of a non-empty command. -/
theorem aofWriteCommand_spec {buf : Buffer} {cmd : Cmd} (h : buf.Inv) (hne : cmd ≠ []) :
    ∃ buf', aofWriteCommand buf cmd = some buf' ∧ buf'.Inv ∧
      buf'.content = buf.content ++ reqBody cmd := by
  obtain ⟨b₁, h₁, hi₁, hc₁⟩ := Buffer.append_spec (u32Bytes (UInt32.ofNat cmd.length)) h
  obtain ⟨b₂, h₂, hi₂, hc₂⟩ := appendStrs_spec cmd hi₁
  refine ⟨b₂, ?_, hi₂, by rw [hc₂, hc₁, reqBody, u32Len, List.append_assoc]⟩
  simp only [aofWriteCommand, List.isEmpty_iff, hne, if_false, Buffer.appendU32, h₁,
    Option.bind_eq_bind, Option.some_bind, h₂]

/-- `parse_req` returns 0 with `cmd` exactly on the body `u32(|cmd|) ++ (u32(|s|) ++ s)*` of a
command of at most `k_max_args` strings (each of a length a `uint32_t` holds), so it decodes
every such body, and that body is what `aof_write_command` appends for a non-empty `cmd`. -/
theorem parse_req_exact (b : List UInt8) (cmd : Cmd) :
    (parseReq b = some cmd ↔
      cmd.length ≤ kMaxArgs ∧ (∀ s ∈ cmd, s.length < 2 ^ 32) ∧ b = reqBody cmd) ∧
    (cmd.length ≤ kMaxArgs → (∀ s ∈ cmd, s.length < 2 ^ 32) →
      parseReq (reqBody cmd) = some cmd) ∧
    (cmd ≠ [] → ∀ buf : Buffer, buf.Inv →
      ∃ buf', aofWriteCommand buf cmd = some buf' ∧ buf'.content = buf.content ++ reqBody cmd) :=
  ⟨parseReq_eq_some_iff, fun hmax hlen => parseReq_eq_some_iff.mpr ⟨hmax, hlen, rfl⟩,
    fun hne _ h => let ⟨buf', hw, _, hc⟩ := aofWriteCommand_spec h hne; ⟨buf', hw, hc⟩⟩

theorem parse_req_exact_get :
    parseReq (reqBody [ascii "get", ascii "k"]) = some [ascii "get", ascii "k"] ∧
    ∃ buf', aofWriteCommand (Buffer.new 1024) [ascii "get", ascii "k"] = some buf' ∧
      buf'.content = (Buffer.new 1024).content ++ reqBody [ascii "get", ascii "k"] :=
  ⟨(parse_req_exact (reqBody [ascii "get", ascii "k"]) _).2.1 (by decide) (by decide),
    (parse_req_exact (reqBody [ascii "get", ascii "k"]) _).2.2 (by decide) _
      (Buffer.new_inv (by decide))⟩

end KvServer
