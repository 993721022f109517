/-
Roip/AudioDest.lean

Where audio goes.

Audio should go to the selected server, and only while that server is
connected.  `spudp_send` connects its control block and disconnects it after a
datagram has been accepted, but not after one has been refused.  The remote
address then stays, and after a time-out the next `spudp_send`, which does not
connect, sends to it.  `leftover` reads this off the requests made so far, and
`audio_destination` says that it is the only way audio goes astray.
-/
import Roip.Manager

namespace Roip

variable {β : Type}

/-- An accepted audio datagram goes to port 5198 of the selected server, and
`SPUDP_CONNECTED` is set. -/
def AudioOk (dt : SpudpData) : NetOp → Prop
  | .sent .audio ip port _ =>
    dt.isConnected = true ∧ dt.serverAddr = some ip ∧ port = 5198
  | _ => True

/-- Whether the last audio datagram given to `udp_send` was refused on its way
to some address. -/
def leftover : Bool → List NetOp → Bool
  | b, [] => b
  | _, .sent .audio _ _ _ :: o => leftover false o
  | _, .refused .audio ip _ :: o => leftover (ip != 0) o
  | b, _ :: o => leftover b o

theorem leftover_append (b : Bool) (o o' : List NetOp) :
    leftover b (o ++ o') = leftover (leftover b o) o' := by
  induction o generalizing b with
  | nil => rfl
  | cons a o ih =>
    rcases a with - | - | ⟨- | -, -, -, -⟩ | ⟨- | -, -, -⟩ <;> exact ih _

/-- Requests on the control channel play no part. -/
theorem leftover_control {b : Bool} {o : List NetOp}
    (h : ∀ a ∈ o, a.chan = .control) : leftover b o = b := by
  induction o with
  | nil => rfl
  | cons a o ih =>
    obtain ⟨ha, ho⟩ := List.forall_mem_cons.mp h
    rcases a with _ | _ | ⟨_ | _, _, _, _⟩ | ⟨_ | _, _, _⟩ <;>
      first | exact ih ho | cases ha

theorem audioOk_control {dt : SpudpData} {a : NetOp}
    (h : a.chan = .control) : AudioOk dt a := by
  rcases a with _ | _ | ⟨_ | _, _, _, _⟩ | _ <;> trivial

/-- Unless an address is left over, the control block of audio has none. -/
def Unaddressed (o : List NetOp) (s : Spudp β) : Prop :=
  leftover false o = false → ∀ p, s.dt.p = some p → p.remoteIp = 0

theorem unaddressed_init {speex : Speex β} {s s₀ : Spudp β}
    {server1 server2 : Option UInt32} {e : InitEnv}
    (h : spudpInit speex s server1 server2 e = some s₀) :
    Unaddressed [] s₀ := by
  rintro - p hp
  unfold spudpInit at h
  rcases e with ⟨_ | _, _ | _, _ | _, _ | _, now1, now2⟩ <;> cases h <;>
    (obtain rfl := Option.some.inj hp; rfl)

/-- A call that does not touch the audio channel. -/
theorem Unaddressed.of_control {o o' : List NetOp} {s s' : Spudp β}
    (h : Unaddressed o s) (ho : ∀ a ∈ o', a.chan = .control)
    (hp : s'.dt.p = s.dt.p) : Unaddressed (o ++ o') s' := by
  intro hleft p hp'
  rw [leftover_append, leftover_control ho] at hleft
  exact h hleft p (hp.symm.trans hp')

/-- `spudp_control_send` leaves the control block of audio alone. -/
theorem spudpControlSend_p {s s' : Spudp β} {r : Readings} {e : SendEnv}
    (h : (spudpControlSend s r e).res = some s') : s'.dt.p = s.dt.p := by
  unfold spudpControlSend at h
  split at h
  · rw [Traced.bind_res, Option.bind_eq_some_iff] at h
    obtain ⟨⟨n, t⟩, hsend, h⟩ := h
    obtain ⟨st, htr⟩ := controlTransition_st s r.now2
    rw [htr] at hsend
    have ht : t.dt.p = s.dt.p := by
      rcases spudpStringSend_cases (Traced.eq_mk_of_res hsend) with
        ⟨-, -, -, rfl⟩ | ⟨ip, p, -, -, rfl, -⟩ <;> rfl
    dsimp only at h
    split at h <;> (obtain rfl := Option.some.inj h; exact ht)
  · obtain rfl := Option.some.inj h
    rfl

/-- One call keeps the block unaddressed. -/
theorem unaddressed_step {speex : Speex β} {o o' : List NetOp}
    {s s' : Spudp β} {op : SpudpOp} (h : Unaddressed o s)
    (hstep : spudpStep speex s op = ⟨o', some s'⟩) :
    Unaddressed (o ++ o') s' := by
  cases op with
  | input addr t =>
    simp only [spudpStep] at hstep
    split at hstep
    · obtain ⟨_, rfl, hret⟩ := Traced.emit_bind_eq_mk_iff.mp hstep
      obtain ⟨rfl, rfl⟩ := Traced.pure_eq_mk_iff.mp hret
      exact h.of_control (by simp [NetOp.chan]) rfl
    · obtain ⟨rfl, rfl⟩ := Traced.pure_eq_mk_iff.mp hstep
      exact h.of_control (by simp) rfl
  | controlSend t₁ t₂ t₃ e =>
    have hout := spudpControlSend_chan s ⟨clk t₁, clk t₂, clk t₃⟩ e
    simp only [spudpStep] at hstep
    rw [hstep] at hout
    exact h.of_control hout (spudpControlSend_p (by rw [hstep]))
  | stringSend buf len e =>
    have hout := spudpStringSend_chan s buf len e
    obtain ⟨⟨n, t⟩, hsend, rfl⟩ := Traced.map_eq_mk_iff.mp hstep
    rw [hsend] at hout
    refine h.of_control hout ?_
    rcases spudpStringSend_cases hsend with
      ⟨-, -, -, rfl⟩ | ⟨ip, p, -, -, rfl, -⟩ <;> rfl
  | send id gid id2 samples len e =>
    obtain ⟨⟨n, t⟩, hsend, rfl⟩ := Traced.map_eq_mk_iff.mp hstep
    rcases spudpSend_cases speex s id gid id2 samples len e with
      ⟨hout, hres⟩ | ⟨p, q, bits, enc, count, -, heq, -⟩
    · obtain ⟨-, bits, rfl⟩ := hres n t (by rw [hsend])
      rw [hsend] at hout
      obtain rfl : o' = [] := hout
      exact h.of_control (by simp) rfl
    · rw [hsend] at heq
      rcases sendAudio_cases { s with encBits := bits } q enc count len
        e.toSendEnv with hs | ⟨-, hs⟩ | ⟨-, hs⟩
      · cases heq.trans hs
      · -- accepted: the address has been cleared
        cases heq.trans hs
        rintro - p hp
        obtain rfl := Option.some.inj hp
        rfl
      · -- refused: the address stays, and is left over
        cases heq.trans hs
        intro hleft p hp
        obtain rfl := Option.some.inj hp
        rw [leftover_append] at hleft
        simpa [leftover] using hleft

/-- **Audio destination.**  In a run that starts with `spudp_init` and in which
no `spudp_send` with `SPUDP_CONNECTED` clear is accepted while the address of
a refused datagram is left over, every accepted audio datagram goes to port
5198 of the selected server, with `SPUDP_CONNECTED` set. -/
theorem audio_destination {speex : Speex β} {s s₀ : Spudp β}
    {server1 server2 : Option UInt32} {e₀ : InitEnv} {ops : List SpudpOp}
    (hinit : spudpInit speex s server1 server2 e₀ = some s₀)
    (hcond : ∀ o t id gid id2 samples len e,
      Feeds (spudpStep speex) s₀ ops o t (.send id gid id2 samples len e) →
      t.dt.isConnected = false → leftover false o = true → e.link = false) :
    ∀ o t op, Feeds (spudpStep speex) s₀ ops o t op →
      ∀ a ∈ (spudpStep speex t op).out, AudioOk t.dt a := by
  intro o t op hf a ha
  have hun : Unaddressed o t :=
    visits_inv (I := Unaddressed) (unaddressed_init hinit)
      (fun _ _ _ _ _ _ h hstep => unaddressed_step h hstep) hf.visits
  cases op with
  | input addr now =>
    refine audioOk_control ?_
    simp only [spudpStep] at ha
    split at ha
    · obtain rfl : a = .pbufFree .control := by
        simpa [handleControlInput] using ha
      rfl
    · cases ha
  | controlSend t₁ t₂ t₃ e =>
    exact audioOk_control (spudpControlSend_chan _ _ _ a ha)
  | stringSend buf len e =>
    simp only [spudpStep, Traced.map_out] at ha
    exact audioOk_control (spudpStringSend_chan _ _ _ _ a ha)
  | send id gid id2 samples len e =>
    simp only [spudpStep, Traced.map_out] at ha
    rcases spudpSend_cases speex t id gid id2 samples len e with
      ⟨hout, -⟩ | ⟨p, q, bits, enc, count, hp, heq, hq⟩
    · rw [hout] at ha
      cases ha
    rw [heq] at ha
    rcases sendAudio_cases { t with encBits := bits } q enc count len
      e.toSendEnv with hs | ⟨hok, hs⟩ | ⟨-, hs⟩
    · rw [hs] at ha
      obtain rfl := List.mem_singleton.mp ha
      trivial
    · rw [hs] at ha
      rcases hq with ⟨hconn, ip, hip, rfl⟩ | ⟨hconn, rfl⟩
      · simp only [List.mem_cons, List.not_mem_nil, or_false] at ha
        rcases ha with rfl | rfl | rfl
        · trivial
        · exact ⟨hconn, hip, rfl⟩
        · trivial
      · -- not connected: no address is left over, so nothing is accepted
        exfalso
        rcases hleft : leftover false o with _ | _
        · simp [udpSend, hun hleft q hp] at hok
        · have := hcond o t id gid id2 samples len e hf hconn hleft
          simp [udpSend, this] at hok
    · rw [hs] at ha
      simp only [List.mem_cons, List.not_mem_nil, or_false] at ha
      rcases ha with rfl | rfl | rfl <;> trivial

/-! ### A stale address -/

/-- An encoder of 300 bits a block, all ones; its state counts the bits. -/
def countingSpeex : Speex Nat where
  init := 0
  encodeInt _ bits := bits + 300
  insertTerminator bits := bits + 5
  nbytes bits := (bits + 7) / 8
  write bits max := List.replicate (min ((bits + 7) / 8) max) 255
  reset _ := 0

/-- The globals before `spudp_init`. -/
def spudpStatic : Spudp Nat :=
  ⟨⟨none, 0, 0, 0⟩, none, 0, 0, 0⟩

/-- The globals after an undisturbed `spudp_init` at time 0, the servers being
10 and 20. -/
def spudpStart : Spudp Nat :=
  ⟨⟨some ⟨0, 0, false, true⟩, 1, 10, 20⟩, some ⟨0, 0, false, true⟩, 0, 0, 0⟩

theorem spudpStart_init : spudpInit countingSpeex spudpStatic (some 10)
    (some 20) ⟨true, true, true, true, 0, 0⟩ = some spudpStart := rfl

/-- A `spudp_send` of one block of silence. -/
def silence (link : Bool) : SpudpOp :=
  .send [50, 0] [51, 0] [52, 0] (List.replicate 160 0) 160
    ⟨⟨true, link⟩, CArray.fill 256 0, 0⟩

/-- Audio after an answer of the first server. -/
theorem audio_destination_answered :
    ∃ o t payload, Feeds (spudpStep countingSpeex) spudpStart
        [.input 10 1, silence true] o t (silence true) ∧
      .sent .audio 10 5198 payload ∈
        (spudpStep countingSpeex t (silence true)).out ∧
      ∀ a ∈ (spudpStep countingSpeex t (silence true)).out,
        AudioOk t.dt a := by
  have hsent : (run (spudpStep countingSpeex) spudpStart
      [.input 10 1]).res.map (fun t =>
        (spudpStep countingSpeex t (silence true)).out[1]?) =
      some (some (.sent .audio 10 5198
        ([6, 50, 44, 51, 44, 52] ++ List.replicate 39 255))) := by
    decide +kernel
  obtain ⟨t, ht, hsent⟩ := Option.map_eq_some_iff.mp hsent
  have hf : Feeds (spudpStep countingSpeex) spudpStart
      [.input 10 1, silence true] _ t (silence true) :=
    ⟨[.input 10 1], [], rfl, Traced.eq_mk_of_res ht⟩
  refine ⟨_, t, _, hf, List.mem_of_getElem? hsent,
    audio_destination spudpStart_init ?_ _ t _ hf⟩
  intro o t id gid id2 samples len e hf _ hleft
  rcases feeds_cons.mp hf with ⟨-, -, h⟩ | ⟨o₁, o₂, u, hstep, hf', rfl⟩
  · cases h
  · obtain ⟨rfl, -, -⟩ := feeds_singleton.mp hf'
    obtain rfl : [.pbufFree .control] = o₁ := congrArg Traced.out hstep
    cases hleft

/-- A refused datagram, a time-out, and then audio for the server that has
been given up, while the state is DISCONNECTED and the other server is
selected. -/
theorem audio_after_timeout :
    let before : List SpudpOp := [.input 10 1, silence false,
      .controlSend 10002 10002 10002 ⟨true, true⟩]
    ∃ o t payload, Feeds (spudpStep countingSpeex) spudpStart
        (before ++ [silence true]) o t (silence true) ∧
      t.dt.isConnected = false ∧ t.dt.serverAddr = some 20 ∧
      .sent .audio 10 5198 payload ∈
        (spudpStep countingSpeex t (silence true)).out ∧
      ¬ AudioOk t.dt (.sent .audio 10 5198 payload) := by
  intro before
  have hst : (run (spudpStep countingSpeex) spudpStart before).res.map
      (fun t => (t.dt.isConnected, t.dt.serverAddr)) =
        some (false, some 20) := by
    decide +kernel
  have hsent : (run (spudpStep countingSpeex) spudpStart
      before).res.map (fun t =>
        (spudpStep countingSpeex t (silence true)).out[1]?) =
      some (some (.sent .audio 10 5198
        ([6, 50, 44, 51, 44, 52] ++ List.replicate 39 255))) := by
    decide +kernel
  obtain ⟨t, ht, hst⟩ := Option.map_eq_some_iff.mp hst
  rw [ht, Option.map_some, Option.some.injEq] at hsent
  obtain ⟨hconn, hsel⟩ := Prod.mk.inj hst
  refine ⟨_, t, _, ⟨before, [], rfl, Traced.eq_mk_of_res ht⟩, hconn, hsel,
    List.mem_of_getElem? hsent, ?_⟩
  rintro ⟨h, -⟩
  rw [hconn] at h
  cases h

end Roip
