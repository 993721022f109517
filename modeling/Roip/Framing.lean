/-
Roip/Framing.lean

The audio datagrams of `spudp_send`.

A datagram is a header and the encoder output.  The header is its own length
in one byte, the length byte included, and the three identities, separated by
commas.  Identities are digits, so they contain no comma, and three of at most
31 digits leave the length below 256: a receiver that knows this recovers the
four parts (`decode_frame`), and different parts never give the same datagram
(`framing`).

A call builds its frame (`AudioCall.frame`), chooses a control block
(`Spudp.audioPcb`) and hands the one to the other (`send_framed`).
-/
import Roip.AudioDest
import Roip.Lib.CString
import Roip.Parser

namespace Roip

/-! ### Frames -/

/-- An identity of at most 31 characters. -/
structure Name where
  text : List UInt8
  zero_notMem : 0 ∉ text
  length_le : text.length ≤ 31
deriving DecidableEq

/-- The three identities of a header. -/
structure Names where
  id : Name
  gid : Name
  id2 : Name
deriving DecidableEq

/-- The identities, separated by commas. -/
def Names.text (m : Names) : List UInt8 :=
  m.id.text ++ 44 :: (m.gid.text ++ 44 :: m.id2.text)

/-- The header: the first byte counts itself and the text. -/
def Names.header (m : Names) : List UInt8 :=
  UInt8.ofNat (1 + m.text.length) :: m.text

theorem Names.text_length (m : Names) :
    m.text.length = m.id.text.length + m.gid.text.length +
      m.id2.text.length + 2 := by
  simp only [Names.text, List.length_append, List.length_cons]
  omega

theorem Names.text_length_lt (m : Names) : 1 + m.text.length < 256 := by
  have := m.id.length_le
  have := m.gid.length_le
  have := m.id2.length_le
  rw [m.text_length]
  omega

theorem Names.header_length (m : Names) :
    m.header.length = 1 + m.text.length := by
  rw [Names.header, List.length_cons, Nat.add_comm]

theorem Names.header_pos (m : Names) : 0 < m.header.length :=
  Nat.zero_lt_succ _

/-- The length byte does not wrap around. -/
theorem Names.toNat_length (m : Names) :
    (UInt8.ofNat (1 + m.text.length)).toNat = 1 + m.text.length := by
  rw [UInt8.toNat_ofNat', Nat.mod_eq_of_lt m.text_length_lt]

/-- An identity of at most 31 digits. -/
@[ext] structure Number where
  text : List UInt8
  digits : ∀ b ∈ text, isDigit b = true
  length_le : text.length ≤ 31
deriving DecidableEq

theorem Number.comma_notMem (x : Number) : 44 ∉ x.text :=
  fun h => absurd (x.digits 44 h) (by decide)

theorem Number.zero_notMem (x : Number) : 0 ∉ x.text :=
  fun h => absurd (x.digits 0 h) (by decide)

/-- The three identities and the encoder output. -/
@[ext] structure Parts where
  id : Number
  gid : Number
  id2 : Number
  out : List UInt8
deriving DecidableEq

/-- The identities, separated by commas. -/
def Parts.text (p : Parts) : List UInt8 :=
  p.id.text ++ 44 :: (p.gid.text ++ 44 :: p.id2.text)

/-- The header: the first byte counts itself and the text. -/
def Parts.header (p : Parts) : List UInt8 :=
  UInt8.ofNat (1 + p.text.length) :: p.text

def Parts.frame (p : Parts) : List UInt8 := p.header ++ p.out

/-- The receiver: the length, the identities in front of the two commas, and
what follows the header. -/
def decode : List UInt8 →
    Option (List UInt8 × List UInt8 × List UInt8 × List UInt8)
  | [] => none
  | n :: d =>
    let text := d.take (n.toNat - 1)
    let id := text.takeWhile (· ≠ 44)
    let text := text.drop (id.length + 1)
    let gid := text.takeWhile (· ≠ 44)
    some (id, gid, text.drop (gid.length + 1), d.drop (n.toNat - 1))

/-- The identities of the parts. -/
def Parts.names (p : Parts) : Names where
  id := ⟨p.id.text, p.id.zero_notMem, p.id.length_le⟩
  gid := ⟨p.gid.text, p.gid.zero_notMem, p.gid.length_le⟩
  id2 := ⟨p.id2.text, p.id2.zero_notMem, p.id2.length_le⟩

theorem Parts.header_length (p : Parts) :
    p.header.length = 1 + p.text.length := p.names.header_length

/-- The length byte does not wrap around. -/
theorem Parts.toNat_length (p : Parts) :
    (UInt8.ofNat (1 + p.text.length)).toNat = 1 + p.text.length :=
  p.names.toNat_length

/-- What stands in front of a comma, and behind it. -/
theorem split_comma {x y : List UInt8} (hx : 44 ∉ x) :
    (x ++ 44 :: y).takeWhile (· ≠ 44) = x ∧
      (x ++ 44 :: y).drop (x.length + 1) = y := by
  refine ⟨takeWhile_ne_of_split rfl hx, ?_⟩
  rw [← List.drop_drop, List.drop_left]
  rfl

/-- **The receiver recovers the parts.** -/
theorem decode_frame (p : Parts) :
    decode p.frame = some (p.id.text, p.gid.text, p.id2.text, p.out) := by
  obtain ⟨hid, hrest⟩ := split_comma (y := p.gid.text ++ 44 :: p.id2.text)
    p.id.comma_notMem
  obtain ⟨hgid, hid2⟩ := split_comma (y := p.id2.text) p.gid.comma_notMem
  have hn : (UInt8.ofNat (1 + p.text.length)).toNat - 1 = p.text.length := by
    rw [p.toNat_length, Nat.add_sub_cancel_left]
  rw [Parts.frame, Parts.header, List.cons_append, decode, hn,
    List.take_left, List.drop_left]
  simp only [Parts.text, hid, hrest, hgid, hid2]

theorem frame_injective {p q : Parts} (h : p.frame = q.frame) : p = q := by
  have hdecode := congrArg decode h
  rw [decode_frame, decode_frame] at hdecode
  simp only [Option.some.injEq, Prod.mk.injEq] at hdecode
  obtain ⟨hid, hgid, hid2, hout⟩ := hdecode
  exact Parts.ext (Number.ext hid) (Number.ext hgid) (Number.ext hid2) hout

/-! ### What `spudp_send` builds -/

theorem strlen_name (x : Name) (r : List UInt8) :
    strlen (x.text ++ 0 :: r) = some x.text.length := by
  have h0 : 0 ∈ x.text ++ 0 :: r :=
    List.mem_append_right _ List.mem_cons_self
  rw [strlen, if_pos h0, cstr_append_zero x.zero_notMem]

/-- The bytes that are copied from an identity. -/
theorem take_name (x : Name) (r : List UInt8) :
    (x.text ++ 0 :: r).take (UInt8.ofNat x.text.length).toNat = x.text := by
  have := x.length_le
  rw [UInt8.toNat_ofNat', Nat.mod_eq_of_lt (by omega), List.take_left]

section Append

variable {a : CArray UInt8 256} {front back : List UInt8} {c : UInt8}

/-- A copy at the cursor behind `front`. -/
theorem memcpy_cursor (h : a.cells = front ++ back) (hc : c.toNat = front.length)
    (x : List UInt8) (hroom : front.length + x.length ≤ 256) :
    ∃ a' back', a.memcpy c.toNat x = some a' ∧
      a'.cells = (front ++ x) ++ back' := by
  have hsize := congrArg List.length h
  rw [a.size, List.length_append] at hsize
  obtain ⟨a', hcopy, hcells⟩ := CArray.memcpy_append h hc.symm
    (show x.length ≤ back.length by omega)
  exact ⟨a', _, hcopy, hcells⟩

/-- A store at the cursor behind `front`. -/
theorem set_cursor (h : a.cells = front ++ back) (hc : c.toNat = front.length)
    (v : UInt8) (hroom : front.length < 256) :
    ∃ a' back', a.set c.toNat v = some a' ∧
      a'.cells = (front ++ [v]) ++ back' := by
  have hsize := congrArg List.length h
  rw [a.size, List.length_append] at hsize
  have hne : back ≠ [] := by
    rintro rfl
    rw [List.length_nil] at hsize
    omega
  obtain ⟨a', hset, hcells⟩ := CArray.set_append h hc.symm hne
  exact ⟨a', back.tail, hset, by rw [hcells, List.append_cons]⟩

end Append

/-- **The header is built** in front of `enc`, the cursor being behind it. -/
theorem buildHeader_names (enc : CArray UInt8 256) (m : Names)
    (r₁ r₂ r₃ : List UInt8) :
    ∃ n enc' back, buildHeader enc (m.id.text ++ 0 :: r₁)
        (m.gid.text ++ 0 :: r₂) (m.id2.text ++ 0 :: r₃) =
          some (n, n, enc') ∧
      n.toNat = m.header.length ∧ enc'.cells = m.header ++ back := by
  have ha := m.id.length_le
  have hb := m.gid.length_le
  have hc := m.id2.length_le
  have hlen := m.text_length
  have hall : UInt8.ofNat m.id.text.length + UInt8.ofNat m.gid.text.length +
      UInt8.ofNat m.id2.text.length + 3 = UInt8.ofNat (1 + m.text.length) := by
    rw [hlen]
    apply UInt8.toNat_inj.mp
    simp only [UInt8.toNat_add, UInt8.toNat_ofNat', UInt8.reduceToNat]
    omega
  generalize hn : UInt8.ofNat (1 + m.text.length) = n at hall
  -- one array for each copy and each comma
  obtain ⟨e₀, b₀, h₀, hc₀⟩ := memcpy_cursor (c := 0)
    (List.nil_append enc.cells).symm rfl [n] (by simp)
  obtain ⟨e₁, b₁, h₁, hc₁⟩ := memcpy_cursor (c := 1) hc₀ rfl m.id.text
    (by simp; omega)
  obtain ⟨e₂, b₂, h₂, hc₂⟩ := set_cursor
    (c := 1 + UInt8.ofNat m.id.text.length) hc₁
    (by simp; omega) 44 (by simp; omega)
  obtain ⟨e₃, b₃, h₃, hc₃⟩ := memcpy_cursor
    (c := 1 + UInt8.ofNat m.id.text.length + 1) hc₂
    (by simp; omega) m.gid.text (by simp; omega)
  obtain ⟨e₄, b₄, h₄, hc₄⟩ := set_cursor
    (c := 1 + UInt8.ofNat m.id.text.length + 1 +
      UInt8.ofNat m.gid.text.length) hc₃
    (by simp; omega) 44 (by simp; omega)
  obtain ⟨e₅, b₅, h₅, hc₅⟩ := memcpy_cursor
    (c := 1 + UInt8.ofNat m.id.text.length + 1 +
      UInt8.ofNat m.gid.text.length + 1) hc₄
    (by simp; omega) m.id2.text (by simp; omega)
  have hcursor : 1 + UInt8.ofNat m.id.text.length + 1 +
      UInt8.ofNat m.gid.text.length + 1 + UInt8.ofNat m.id2.text.length =
        n := by
    rw [← hall]
    apply UInt8.toNat_inj.mp
    simp only [UInt8.toNat_add, UInt8.toNat_ofNat', UInt8.reduceToNat]
    omega
  refine ⟨n, e₅, b₅, ?_, ?_, ?_⟩
  · replace h₀ : enc.memcpy 0 [n] = some e₀ := h₀
    rw [buildHeader]
    simp only [strlen_name, take_name, Option.bind_eq_bind,
      Option.bind_some, hall, h₀, h₁, h₂, h₃, h₄, h₅, hcursor]
  · rw [← hn, m.header_length, m.toNat_length]
  · rw [hc₅, Names.header, hn, Names.text]
    simp

/-! ### Calls -/

variable {β : Type}

/-- `speex_bits_write` writes the bytes of the bits, up to a maximum. -/
def Speex.WritesBytes (speex : Speex β) : Prop :=
  ∀ bits max, (speex.write bits max).length = min (speex.nbytes bits) max

/-- A call of `spudp_send`, in the state `s`. -/
structure AudioCall (β : Type) where
  s : Spudp β
  id : List UInt8
  gid : List UInt8
  id2 : List UInt8
  samples : List Int16
  len : Nat
  env : AudioEnv

def AudioCall.send (speex : Speex β) (c : AudioCall β) :
    Traced NetOp (Nat × Spudp β) :=
  spudpSend speex c.s c.id c.gid c.id2 c.samples c.len c.env

/-- The arguments of a call hold the three identities, its encoder output is
the fourth part, and there is room for both. -/
structure AudioCall.Has (speex : Speex β) (c : AudioCall β) (p : Parts) :
    Prop where
  id : ∃ r, c.id = p.id.text ++ 0 :: r
  gid : ∃ r, c.gid = p.gid.text ++ 0 :: r
  id2 : ∃ r, c.id2 = p.id2.text ++ 0 :: r
  out : ∃ bits,
    encodeLoop speex c.samples c.len c.len 0 c.s.encBits = some bits ∧
      p.out = speex.write (speex.insertTerminator bits) 256
  room : p.header.length + p.out.length ≤ 256

/-- The network takes the datagram of a call, and it goes to `ip` and
`port`. -/
def AudioCall.Reaches (c : AudioCall β) (ip : UInt32) (port : UInt16) : Prop :=
  c.env.alloc = true ∧ c.env.link = true ∧ ip ≠ 0 ∧
    ∃ q, c.s.dt.p = some q ∧
      if c.s.dt.isConnected then c.s.dt.serverAddr = some ip ∧ port = 5198
      else q.remoteIp = ip ∧ q.remotePort = port

/-- The arguments of a call hold three identities of at most 31 characters,
and its encoding loop finds the samples it reads; `bits` are the bits with the
terminator. -/
structure AudioCall.Encodes (speex : Speex β) (c : AudioCall β) (m : Names)
    (bits : β) : Prop where
  id : ∃ r, c.id = m.id.text ++ 0 :: r
  gid : ∃ r, c.gid = m.gid.text ++ 0 :: r
  id2 : ∃ r, c.id2 = m.id2.text ++ 0 :: r
  bits : (encodeLoop speex c.samples c.len c.len 0 c.s.encBits).map
    speex.insertTerminator = some bits

/-! ### The stages of a call -/

/-- The frame of a call, when the encoder has been reset: the bits left, `enc`,
and `nbytes+all_len`. -/
def AudioCall.frame (speex : Speex β) (c : AudioCall β) :
    Option (β × CArray UInt8 256 × Nat) := do
  let (allLen, cursor, enc) ← buildHeader c.env.enc c.id c.gid c.id2
  let bits ← encodeLoop speex c.samples c.len c.len 0 c.s.encBits
  let bits := speex.insertTerminator bits
  let (nbytes, enc) ← writeBits speex bits cursor enc c.env.nbytes
  some (speex.reset bits, enc, (nbytes + allLen.toUInt32).toNat)

/-- The control block a call sends on: with a connection `dt.p` is connected
to the selected server, without one it is used as it is. -/
def Spudp.audioPcb (s : Spudp β) : Option UdpPcb :=
  s.dt.p.bind fun p =>
    if s.dt.isConnected then s.dt.serverAddr.map (udpConnect p · 5198)
    else some p

section Stages

variable {speex : Speex β} {c : AudioCall β} {m : Names} {p q : UdpPcb}
  {bits : β} {enc : CArray UInt8 256} {count : Nat}

/-- The header of a call. -/
theorem AudioCall.Encodes.header (h : c.Encodes speex m bits) :
    ∃ n enc back, buildHeader c.env.enc c.id c.gid c.id2 = some (n, n, enc) ∧
      n.toNat = m.header.length ∧ enc.cells = m.header ++ back := by
  obtain ⟨⟨r₁, hid⟩, ⟨r₂, hgid⟩, ⟨r₃, hid2⟩, -⟩ := h
  rw [hid, hgid, hid2]
  exact buildHeader_names c.env.enc m r₁ r₂ r₃

/-- Behind the header the frame is what `speex_bits_write` makes of it. -/
theorem AudioCall.Encodes.frame_eq (h : c.Encodes speex m bits) :
    ∃ n enc back, n.toNat = m.header.length ∧ enc.cells = m.header ++ back ∧
      c.frame speex = (writeBits speex bits n enc c.env.nbytes).map fun w =>
        (speex.reset bits, w.2,
          (w.1 + UInt32.ofNat m.header.length).toNat) := by
  obtain ⟨n, enc, back, hheader, hn, hcells⟩ := h.header
  obtain ⟨b, hloop, rfl⟩ := Option.map_eq_some_iff.mp h.bits
  have hlen : n.toUInt32 = UInt32.ofNat m.header.length := by
    apply UInt32.toNat_inj.mp
    rw [UInt8.toNat_toUInt32, UInt32.toNat_ofNat', ← hn]
    have := n.toNat_lt
    omega
  refine ⟨n, enc, back, hn, hcells, ?_⟩
  rw [AudioCall.frame, hheader]
  simp only [hloop, hlen, Option.bind_eq_bind, Option.bind_some]
  exact Option.map_eq_bind.symm

/-- Before `spudp_init` nothing is encoded. -/
theorem send_off {h : UInt8 × UInt8 × CArray UInt8 256}
    (hheader : buildHeader c.env.enc c.id c.gid c.id2 = some h)
    (hp : c.s.dt.p = none) : c.send speex = pure (0, c.s) := by
  rw [AudioCall.send, spudpSend, hheader, Traced.ofOption_some, pure_bind, hp]

/-- A call whose frame cannot be built is undefined. -/
theorem send_unframed (hf : c.frame speex = none) (hp : c.s.dt.p = some p) :
    c.send speex = Traced.undef := by
  rw [AudioCall.send, spudpSend]
  rcases hheader : buildHeader c.env.enc c.id c.gid c.id2 with
    - | ⟨allLen, cursor, e⟩
  · rfl
  rw [Traced.ofOption_some, pure_bind, hp]
  dsimp only
  rcases hloop : encodeLoop speex c.samples c.len c.len 0 c.s.encBits with
    - | bits
  · rfl
  rw [Traced.ofOption_some, pure_bind]
  rcases hwrite : writeBits speex (speex.insertTerminator bits) cursor e
    c.env.nbytes with - | ⟨nbytes, e'⟩
  · rfl
  · simp only [AudioCall.frame, hheader, hloop, hwrite, Option.bind_eq_bind,
      Option.bind_some] at hf
    cases hf

/-- A call whose frame has been built hands it on, if a control block has been
chosen. -/
theorem send_framed (hf : c.frame speex = some (bits, enc, count))
    (hp : c.s.dt.p = some p) :
    c.send speex = match c.s.audioPcb with
      | some q => sendAudio { c.s with encBits := bits } q enc count c.len
          c.env.toSendEnv
      | none => pure (0, { c.s with encBits := bits }) := by
  rw [AudioCall.frame] at hf
  simp only [Option.bind_eq_bind, Option.bind_eq_some_iff] at hf
  obtain ⟨⟨allLen, cursor, e⟩, hheader, b, hloop, ⟨nbytes, e'⟩, hwrite, hf⟩ := hf
  cases hf
  rw [AudioCall.send, spudpSend, hheader, Traced.ofOption_some, pure_bind, hp]
  dsimp only
  rw [hloop, Traced.ofOption_some, pure_bind, hwrite, Traced.ofOption_some,
    pure_bind, Spudp.audioPcb, hp]
  dsimp only [Option.bind_some]
  rcases c.s.dt.isConnected with - | -
  · rfl
  · rcases c.s.dt.serverAddr with - | ip <;> rfl

end Stages

/-! ### The frame -/

/-- The encoder output is written behind the header. -/
theorem writeBits_eq {speex : Speex β} (hw : speex.WritesBytes) {bits : β}
    {c : UInt8} {enc : CArray UInt8 256} {front back : List UInt8}
    (hcells : enc.cells = front ++ back) (hc : c.toNat = front.length)
    (hpos : 0 < front.length)
    (hroom : front.length + (speex.write bits 256).length ≤ 256)
    (nbytes : UInt32) :
    ∃ enc' back', writeBits speex bits c enc nbytes =
        some (UInt32.ofNat (speex.write bits 256).length, enc') ∧
      enc'.cells = front ++ speex.write bits 256 ++ back' := by
  have hsmall : speex.nbytes bits < 256 := by
    have := hw bits 256
    omega
  obtain ⟨enc', back', hcopy, hcells'⟩ := memcpy_cursor hcells hc
    (speex.write bits 256) hroom
  refine ⟨enc', back', ?_, hcells'⟩
  rw [writeBits, if_pos hsmall]
  simp only [hcopy, Option.bind_eq_bind, Option.bind_some]

/-- The last part of `spudp_send` sends the first `count` bytes. -/
theorem sent_mem_sendAudio {s : Spudp β} {q : UdpPcb}
    {enc : CArray UInt8 256} {count len : Nat} {e : SendEnv} {ip : UInt32}
    {port : UInt16} {d : List UInt8}
    (h : .sent .audio ip port d ∈ (sendAudio s q enc count len e).out) :
    d = enc.cells.take count := by
  rcases sendAudio_cases s q enc count len e with hs | ⟨-, hs⟩ | ⟨-, hs⟩ <;>
    rw [hs] at h <;> simp at h
  exact h.2.2

theorem sendAudio_sent (s : Spudp β) {q : UdpPcb} (enc : CArray UInt8 256)
    {count : Nat} (len : Nat) {e : SendEnv} (halloc : e.alloc = true)
    (hlink : e.link = true) (hip : q.remoteIp ≠ 0) (hcount : count ≤ 256) :
    .sent .audio q.remoteIp q.remotePort (enc.cells.take count) ∈
      (sendAudio s q enc count len e).out := by
  have hsend : udpSend q e.link = true := by simp [udpSend, hlink, hip]
  rw [sendAudio, if_pos ⟨halloc, hcount⟩, if_pos hsend]
  simp

/-- **The frame of a call** whose encoder output fits behind the header. -/
theorem frame_fits {speex : Speex β} (hw : speex.WritesBytes)
    {c : AudioCall β} {m : Names} {bits : β} (h : c.Encodes speex m bits)
    (hroom : m.header.length + speex.nbytes bits ≤ 256) :
    ∃ enc : CArray UInt8 256, c.frame speex = some (speex.reset bits, enc,
        m.header.length + speex.nbytes bits) ∧
      enc.cells.take (m.header.length + speex.nbytes bits) =
        m.header ++ speex.write bits 256 := by
  obtain ⟨n, enc, back, hn, hcells, hframe⟩ := h.frame_eq
  have hpos := m.header_pos
  have hlen : (speex.write bits 256).length = speex.nbytes bits := by
    rw [hw]
    omega
  rw [← hlen] at hroom ⊢
  obtain ⟨enc', back', hwrite, hcells'⟩ :=
    writeBits_eq hw hcells hn hpos hroom c.env.nbytes
  -- `nbytes+all_len` is computed in 32 bits and does not wrap
  have hcount : (UInt32.ofNat (speex.write bits 256).length +
      UInt32.ofNat m.header.length).toNat =
        m.header.length + (speex.write bits 256).length := by
    rw [UInt32.toNat_add, UInt32.toNat_ofNat', UInt32.toNat_ofNat']
    omega
  refine ⟨enc', ?_, ?_⟩
  · rw [hframe, hwrite, Option.map_some, hcount]
  · rw [hcells', ← List.length_append]
    exact List.take_left

/-- A call that has the parts `p` encodes their identities. -/
theorem AudioCall.Has.encodes {speex : Speex β} (hw : speex.WritesBytes)
    {c : AudioCall β} {p : Parts} (h : c.Has speex p) :
    ∃ bits, c.Encodes speex p.names bits ∧
      speex.nbytes bits = p.out.length ∧ speex.write bits 256 = p.out := by
  obtain ⟨hid, hgid, hid2, ⟨bits, hbits, hout⟩, hroom⟩ := h
  have hpos : 0 < p.header.length := p.names.header_pos
  refine ⟨speex.insertTerminator bits,
    ⟨hid, hgid, hid2, by rw [hbits]; rfl⟩, ?_, hout.symm⟩
  rw [hout, hw] at hroom ⊢
  omega

/-- The frame of a call that has the parts `p`. -/
theorem frame_parts {speex : Speex β} (hw : speex.WritesBytes)
    {c : AudioCall β} {p : Parts} (h : c.Has speex p) :
    ∃ (bits : β) (enc : CArray UInt8 256),
      c.frame speex = some (bits, enc, p.frame.length) ∧
        enc.cells.take p.frame.length = p.frame ∧ p.frame.length ≤ 256 := by
  obtain ⟨bits, hencodes, hnbytes, hwrite⟩ := h.encodes hw
  have hlen : p.frame.length = p.header.length + p.out.length :=
    List.length_append
  obtain ⟨enc, hframe, htake⟩ :=
    frame_fits hw hencodes (by rw [hnbytes]; exact h.room)
  rw [hnbytes] at hframe htake
  rw [hwrite] at htake
  refine ⟨speex.reset bits, enc, ?_, ?_, ?_⟩ <;> rw [hlen]
  · exact hframe
  · exact htake
  · exact h.room

/-! ### Unique decoding -/

/-- What a call with the parts `p` sends: the header, whose first byte is its
length, and the encoder output, from which the receiver recovers the parts. -/
structure Framed (speex : Speex β) (c : AudioCall β) (p : Parts) : Prop where
  only : ∀ ip port d, .sent .audio ip port d ∈ (c.send speex).out →
    d = p.header ++ p.out
  sent : ∀ ip port, c.Reaches ip port →
    .sent .audio ip port (p.header ++ p.out) ∈ (c.send speex).out
  length : ∃ n, p.header = n :: p.text ∧ n.toNat = p.header.length
  decoded : decode (p.header ++ p.out) =
    some (p.id.text, p.gid.text, p.id2.text, p.out)

theorem framed {speex : Speex β} (hw : speex.WritesBytes) {c : AudioCall β}
    {p : Parts} (h : c.Has speex p) : Framed speex c p := by
  obtain ⟨bits, enc, hframe, htake, hle⟩ := frame_parts hw h
  refine ⟨fun ip port d hd => ?_, fun ip port hreach => ?_, ⟨_, rfl, ?_⟩,
    decode_frame p⟩
  · -- a datagram leaves through `sendAudio` only
    rcases hp : c.s.dt.p with - | q
    · obtain ⟨b, hencodes, -, -⟩ := h.encodes hw
      obtain ⟨n, e, back, hheader, -, -⟩ := hencodes.header
      rw [send_off hheader hp] at hd
      cases hd
    · rw [send_framed hframe hp] at hd
      rcases hpcb : c.s.audioPcb with - | q'
      · rw [hpcb] at hd
        cases hd
      · rw [hpcb] at hd
        exact (sent_mem_sendAudio hd).trans htake
  · obtain ⟨halloc, hlink, hip, q, hp, hq⟩ := hreach
    obtain ⟨q', hpcb, rfl, rfl⟩ : ∃ q', c.s.audioPcb = some q' ∧
        q'.remoteIp = ip ∧ q'.remotePort = port := by
      rw [Spudp.audioPcb, hp, Option.bind_some]
      split at hq
      · next hconn =>
        obtain ⟨hsel, rfl⟩ := hq
        rw [if_pos hconn, hsel]
        exact ⟨_, rfl, rfl, rfl⟩
      · next hconn =>
        obtain ⟨rfl, rfl⟩ := hq
        rw [if_neg hconn]
        exact ⟨q, rfl, rfl, rfl⟩
    rw [send_framed hframe hp, hpcb]
    have hmem := sendAudio_sent { c.s with encBits := bits } (q := q') enc
      c.len halloc hlink hip hle
    rwa [htake] at hmem
  · rw [p.header_length, p.toNat_length]

/-- **The framing of audio is uniquely decodable.** -/
theorem framing {speex : Speex β} (hw : speex.WritesBytes)
    {c c' : AudioCall β} {p p' : Parts} (h : c.Has speex p)
    (h' : c'.Has speex p') :
    Framed speex c p ∧
      ∀ ip port ip' port' d, .sent .audio ip port d ∈ (c.send speex).out →
        .sent .audio ip' port' d ∈ (c'.send speex).out → p = p' := by
  refine ⟨framed hw h, fun ip port ip' port' d hd hd' => frame_injective ?_⟩
  calc p.frame = d := ((framed hw h).only ip port d hd).symm
    _ = p'.frame := (framed hw h').only ip' port' d hd'

theorem countingSpeex_writesBytes : countingSpeex.WritesBytes :=
  fun _ _ => List.length_replicate

/-- A block of silence for the server that has answered, from the station
`id2`. -/
def silenceFrom (id2 : List UInt8) : AudioCall Nat where
  s := { spudpStart with dt := { spudpStart.dt with st := 0x81 } }
  id := [50, 0]
  gid := [51, 0]
  id2 := id2
  samples := List.replicate 160 0
  len := 160
  env := ⟨⟨true, true⟩, CArray.fill 256 0, 0⟩

/-- An identity of one digit. -/
def digit (b : UInt8) (h : isDigit b = true) : Number :=
  ⟨[b], List.forall_mem_singleton.mpr h, Nat.le_add_left 1 30⟩

/-- A call with a talker and one without. -/
theorem framing_talker :
    let talker : Parts := ⟨digit 50 rfl, digit 51 rfl, digit 52 rfl,
      List.replicate 39 255⟩
    let nobody : Parts := { talker with id2 := ⟨[], nofun, Nat.zero_le _⟩ }
    Framed countingSpeex (silenceFrom [52, 0]) talker ∧
      ∀ ip port ip' port' d,
        .sent .audio ip port d ∈
            ((silenceFrom [52, 0]).send countingSpeex).out →
          .sent .audio ip' port' d ∈
            ((silenceFrom [0]).send countingSpeex).out →
          talker = nobody := by
  intro talker nobody
  have hout : encodeLoop countingSpeex (List.replicate 160 0) 160 160 0 0 =
      some 300 := by decide +kernel
  exact framing countingSpeex_writesBytes
    ⟨⟨[], rfl⟩, ⟨[], rfl⟩, ⟨[], rfl⟩, ⟨300, hout, rfl⟩, by decide⟩
    ⟨⟨[], rfl⟩, ⟨[], rfl⟩, ⟨[], rfl⟩, ⟨300, hout, rfl⟩, by decide⟩

end Roip
