/-
Roip/TextPath.lean

The way of the radio's text through the whole device: from the serial line to
the server.

A byte that finds room in `rxring` is never lost, repeated or reordered
(`TextInv`): the bytes queued are the texts handed to `spudp_string_send`, one
after the other, then what `radio_comm` has collected, then what the ring
holds.  Each text ends in a newline.  What the network accepts on the control
channel besides sync packets are some of these texts, whole and in order
(`text_path`).
-/
import Roip.Accumulator
import Roip.Firmware
import Roip.Framing

namespace Roip

variable {β : Type}

/-! ### Texts -/

/-- The texts handed to `spudp_string_send`. -/
def textsOf (os : List (DeviceOut Int16)) : List (List UInt8) :=
  os.filterMap fun
    | .radio a => a.datagram?
    | _ => none

/-- The datagrams accepted on the control channel. -/
def controlSent (ns : List NetOp) : List (List UInt8) :=
  ns.filterMap fun
    | .sent .control _ _ d => some d
    | _ => none

@[simp] theorem textsOf_append (os os' : List (DeviceOut Int16)) :
    textsOf (os ++ os') = textsOf os ++ textsOf os' := List.filterMap_append

@[simp] theorem controlSent_append (ns ns' : List NetOp) :
    controlSent (ns ++ ns') = controlSent ns ++ controlSent ns' :=
  List.filterMap_append

/-- The text `radio_comm` has collected and not handed on. -/
def Device.collected {α : Type} (d : Device α) : List UInt8 :=
  match d.main with
  | .scanning _ _ => []
  | .acting _ _ => []
  | _ => d.radio.pending

/-- What is left to do in a turn hands on no text. -/
def Device.Local {α : Type} (d : Device α) : Prop :=
  ∀ todo next, d.main = .acting todo next →
    ∀ a ∈ todo, a.datagram? = none

theorem Effect.noSend {ev : Event} {s s' : Call} {o : List RadioAct}
    (h : Effect ev s o s') : ∀ a ∈ o, a.datagram? = none := by
  cases h <;> simp [RadioAct.datagram?]

/-- Appending a chunk. -/
theorem accumulate_some {r t : Radio} {chunk : List UInt8}
    (h : accumulate r chunk = some t) :
    t.call = r.call ∧ t.nbytes ≤ 256 ∧ t.pending = r.pending ++ chunk := by
  have hfit : r.nbytes + chunk.length ≤ 256 := by
    obtain ⟨_, hcopy, -⟩ := Option.map_eq_some_iff.mp h
    exact (CArray.memcpy_eq_some_iff.mp hcopy).1
  obtain ⟨buf, hacc, hbuf⟩ := accumulate_eq hfit
  obtain rfl := Option.some.inj (hacc.symm.trans h)
  exact ⟨rfl, hfit, hbuf⟩

section Device

variable {d d' : Device Int16} {i : RadioIn} {os : List (DeviceOut Int16)}

/-- `radio_comm` is entered: a complete text is handed on. -/
theorem enterRadioComm_texts (h : enterRadioComm d i = ⟨os, some d'⟩) :
    d.radio.pending ++ i.chunk = (textsOf os).flatten ++ d'.collected ∧
      d'.radio.nbytes ≤ 256 ∧ d'.Local ∧
      ∀ x ∈ textsOf os, x.getLast? = some 10 := by
  obtain ⟨t, hacc, hrest⟩ := Traced.ofOption_bind_eq_mk_iff.mp h
  obtain ⟨-, hn, hp⟩ := accumulate_some hacc
  rw [← hp]
  split at hrest
  · next hc =>
    obtain ⟨_, rfl, hret⟩ := Traced.emit_bind_eq_mk_iff.mp hrest
    obtain ⟨rfl, rfl⟩ := Traced.pure_eq_mk_iff.mp hret
    refine ⟨?_, hn, nofun, List.forall_mem_singleton.mpr ?_⟩
    · show t.pending = [t.pending].flatten ++ []
      simp
    · exact (complete_iff hn).mp hc
  · obtain ⟨rfl, rfl⟩ := Traced.pure_eq_mk_iff.mp hrest
    exact ⟨rfl, hn, nofun, nofun⟩

/-- A turn of the loop over the text begins, or the loop ends. -/
theorem scanTurn_texts {c : Nat} {len : UInt8}
    (h : scanTurn d c len = ⟨os, some d'⟩) (hn : d.radio.nbytes ≤ 256) :
    os = [] ∧ d'.collected = [] ∧ d'.radio.nbytes ≤ 256 ∧ d'.Local := by
  unfold scanTurn at h
  split at h
  · split at h
    · next todo next hbody =>
      obtain ⟨rfl, rfl⟩ := Traced.pure_eq_mk_iff.mp h
      refine ⟨rfl, rfl, hn, ?_⟩
      rintro _ _ ⟨⟩
      obtain ⟨c', len', call⟩ := next
      rcases scanBody_effect hbody with ⟨-, -, rfl, -⟩ | ⟨ev, -, -, heff⟩
      · exact nofun
      · exact heff.noSend
    · cases congrArg Traced.res h
  · obtain ⟨rfl, rfl⟩ := Traced.pure_eq_mk_iff.mp h
    exact ⟨rfl, rfl, Nat.zero_le _, nofun⟩

/-- An action leaves the text alone. -/
theorem Device.perform_text (d : Device Int16) (a : RadioAct) :
    (d.perform a).radio.nbytes = d.radio.nbytes ∧
      (d.perform a).radio.buf = d.radio.buf := by
  rcases a with - | - | - | ⟨- | - | -, s⟩ <;> exact ⟨rfl, rfl⟩

/-- **A step of the main loop** collects the text it reads, or hands on what
has been collected. -/
theorem mainLoopStep_texts (h : mainLoopStep d i = ⟨os, some d'⟩)
    (hn : d.radio.nbytes ≤ 256) (hlocal : d.Local)
    (hchunk : d.main ≠ .radioComm → i.chunk = []) :
    d.collected ++ i.chunk = (textsOf os).flatten ++ d'.collected ∧
      d'.radio.nbytes ≤ 256 ∧ d'.Local ∧
      ∀ x ∈ textsOf os, x.getLast? = some 10 := by
  rcases hmain : d.main with - | ⟨c, len⟩ | ⟨- | ⟨a, todo⟩, next⟩ | - | - <;>
    simp only [mainLoopStep, hmain] at h
  · rw [Device.collected, hmain]
    exact enterRadioComm_texts h
  all_goals rw [hchunk (by simp [hmain]), List.append_nil,
    Device.collected, hmain]
  · obtain ⟨rfl, hempty, hn', hlocal'⟩ := scanTurn_texts h hn
    exact ⟨hempty.symm, hn', hlocal', by rintro _ ⟨⟩⟩
  · obtain ⟨rfl, rfl⟩ := Traced.pure_eq_mk_iff.mp h
    exact ⟨rfl, hn, by rintro _ _ ⟨⟩, by rintro _ ⟨⟩⟩
  · obtain ⟨_, rfl, hret⟩ := Traced.emit_bind_eq_mk_iff.mp h
    obtain ⟨rfl, rfl⟩ := Traced.pure_eq_mk_iff.mp hret
    have hnone : textsOf [.radio a] = [] := by
      simp [textsOf, hlocal _ _ hmain a List.mem_cons_self]
    rw [hnone]
    refine ⟨rfl, by rwa [(d.perform_text a).1], ?_, by rintro _ ⟨⟩⟩
    rintro _ _ ⟨⟩ b hb
    exact hlocal _ _ hmain b (List.mem_cons_of_mem a hb)
  · unfold testFinished at h
    split at h
    · obtain ⟨_, rfl, hret⟩ := Traced.emit_bind_eq_mk_iff.mp h
      obtain ⟨rfl, rfl⟩ := Traced.pure_eq_mk_iff.mp hret
      exact ⟨rfl, hn, by rintro _ _ ⟨⟩, by rintro _ ⟨⟩⟩
    · obtain ⟨rfl, rfl⟩ := Traced.pure_eq_mk_iff.mp h
      exact ⟨rfl, hn, by rintro _ _ ⟨⟩, by rintro _ ⟨⟩⟩
  · obtain ⟨rfl, rfl⟩ := Traced.pure_eq_mk_iff.mp h
    exact ⟨rfl, hn, by rintro _ _ ⟨⟩, by rintro _ ⟨⟩⟩

end Device

/-! ### What the network gets -/

section Net

variable {speex : Speex β} {s s' : Spudp β} {ns : List NetOp}

theorem controlSent_of_audio (h : ∀ a ∈ ns, a.chan = .audio) :
    controlSent ns = [] := by
  refine List.filterMap_eq_nil_iff.mpr fun a ha => ?_
  have hchan := h a ha
  rcases a with _ | _ | ⟨_ | _, _, _, _⟩ | _
  · rfl
  · rfl
  · rfl
  · cases hchan
  · rfl

theorem controlSent_input {addr : UInt32} {t : Nat}
    (h : spudpStep speex s (.input addr t) = ⟨ns, some s'⟩) :
    controlSent ns = [] := by
  rw [spudpStep] at h
  split at h
  · obtain ⟨_, rfl, hret⟩ := Traced.emit_bind_eq_mk_iff.mp h
    obtain ⟨rfl, -⟩ := Traced.pure_eq_mk_iff.mp hret
    rfl
  · obtain ⟨rfl, -⟩ := Traced.pure_eq_mk_iff.mp h
    rfl

/-- The periodic check sends sync packets only. -/
theorem controlSent_control {t₁ t₂ t₃ : Nat} {e : SendEnv}
    (h : spudpStep speex s (.controlSend t₁ t₂ t₃ e) = ⟨ns, some s'⟩) :
    (controlSent ns).filter (· ≠ syncPayload) = [] := by
  rcases spudpControlSend_cases h with ⟨-, rfl, -⟩ | ⟨-, -, -, -,
    ⟨ip, -, -, -, rfl, -⟩ | ⟨-, ⟨-, rfl⟩ | ⟨ip, -, -, rfl⟩⟩⟩
  · rfl
  · simp [controlSent]
  · rfl
  · rfl

/-- A text is accepted whole, or not at all. -/
theorem controlSent_string {buf : List UInt8} {e : SendEnv}
    (h : spudpStep speex s (.stringSend buf buf.length e) = ⟨ns, some s'⟩) :
    controlSent ns = [] ∨ controlSent ns = [buf] := by
  obtain ⟨⟨n, s''⟩, hsend, -⟩ := Traced.map_eq_mk_iff.mp h
  rcases spudpStringSend_cases hsend with ⟨-, rfl, -⟩ |
    ⟨ip, p, -, -, -, ⟨rfl, -⟩ | ⟨rfl, -⟩⟩
  · exact Or.inl rfl
  · right
    rw [List.take_length]
    rfl
  · exact Or.inl rfl

/-- What is handed to `spudp_string_send` has a length it asserts. -/
theorem length_of_string {buf : List UInt8} {e : SendEnv}
    (h : spudpStep speex s (.stringSend buf buf.length e) = ⟨ns, some s'⟩) :
    buf.length < 256 := by
  by_contra hlong
  obtain ⟨⟨n, s''⟩, hsend, -⟩ := Traced.map_eq_mk_iff.mp h
  rw [spudpStringSend, if_neg fun hlen => hlong hlen.2] at hsend
  cases congrArg Traced.res hsend

end Net

/-- A sync packet does not end in a newline. -/
theorem getLast_syncPayload : syncPayload.getLast? ≠ some 10 := by decide

/-! ### Whole runs -/

/-- The bytes queued, and where they are. -/
structure TextInv (o : List FirmwareOut) (f : Firmware β) : Prop where
  ring : f.rxring.Valid
  room : f.dev.radio.nbytes ≤ 256
  inside : f.dev.Local
  stream : queuedIn o = (textsOf (deviceIn o)).flatten ++ f.dev.collected ++
    f.rxring.items
  lines : ∀ x ∈ textsOf (deviceIn o), x.getLast? = some 10 ∧ x.length < 256
  net : ((controlSent (netIn o)).filter (· ≠ syncPayload)).Sublist
    (textsOf (deviceIn o))

theorem textInv_init (rxbuff : CArray UInt8 rxSize) (k : Nat) (s : Spudp β) :
    TextInv [] (firmwareInit rxbuff k s) where
  ring := Ring.valid_of_empty rxbuff k
  room := Nat.zero_le _
  inside := nofun
  stream := (Ring.items_of_empty rxbuff k).symm
  lines := nofun
  net := List.Sublist.refl _

section Step

variable {speex : Speex β} {f f' : Firmware β} {i : MainIn}
  {o o' : List FirmwareOut}

theorem Reads.chunk_eq_nil {chunk : List UInt8} {rxring : RxRing}
    (h : Reads f chunk rxring) (hmain : f.dev.main ≠ .radioComm) :
    chunk = [] := by
  cases h with
  | enter hradio => exact absurd hradio hmain
  | inside => rfl

/-- What is read is what the ring held first. -/
theorem Reads.items {chunk : List UInt8} {rxring : RxRing}
    (h : Reads f chunk rxring) (hring : f.rxring.Valid) :
    f.rxring.items = chunk ++ rxring.items ∧ rxring.Valid := by
  cases h with
  | enter =>
    obtain ⟨hchunk, hitems, hvalid⟩ :=
      Ring.drain_spec hring (256 - f.dev.radio.nbytes)
    refine ⟨?_, hvalid⟩
    rw [hchunk, hitems, List.take_append_drop]
  | inside => exact ⟨rfl, hring⟩

/-- A call of `speex_udp.c` that sends no text. -/
theorem TextInv.call (h : TextInv o f) (ns : List NetOp)
    (hns : (controlSent ns).filter (· ≠ syncPayload) = []) {s : Spudp β}
    {served : Bool} {c : Option (Encoding β)} :
    TextInv (o ++ ns.map .net)
      { f with spudp := s, served, encoding := c } where
  ring := h.ring
  room := h.room
  inside := h.inside
  stream := by simpa using h.stream
  lines := by simpa using h.lines
  net := by
    have hsame := h.net
    rw [deviceIn_append, deviceIn_map_net, List.append_nil, netIn_append,
      netIn_map_net, controlSent_append, List.filter_append, hns,
      List.append_nil]
    exact hsame

/-- A step of the device, and what it asks of the network. -/
theorem TextInv.device (h : TextInv o f) {chunk : List UInt8}
    {rxring : RxRing} {os : List (DeviceOut Int16)} {dev : Device Int16}
    (ns : List NetOp) (hread : Reads f chunk rxring)
    (hstep : mainLoopStep f.dev ⟨chunk, i.len⟩ = ⟨os, some dev⟩)
    (hlen : ∀ x ∈ textsOf os, x.length < 256)
    (hnet : ((controlSent ns).filter (· ≠ syncPayload)).Sublist (textsOf os))
    {s : Spudp β} {c : Option (Encoding β)} :
    TextInv (o ++ (os.map .device ++ ns.map .net))
      { f with dev, spudp := s, rxring, served := false, encoding := c } := by
  obtain ⟨hitems, hring⟩ := hread.items h.ring
  obtain ⟨hstream, hroom, hlocal, hlast⟩ :=
    mainLoopStep_texts hstep h.room h.inside hread.chunk_eq_nil
  refine ⟨hring, hroom, hlocal, ?_, ?_, ?_⟩
  · simp only [queuedIn_append, queuedIn_map_device, queuedIn_map_net,
      deviceIn_append, deviceIn_map_device, deviceIn_map_net, textsOf_append,
      List.append_nil, List.flatten_append]
    calc queuedIn o = (textsOf (deviceIn o)).flatten ++
          (f.dev.collected ++ chunk) ++ rxring.items := by
          rw [h.stream, hitems]
          simp only [List.append_assoc]
      _ = _ := by
          rw [hstream]
          simp only [List.append_assoc]
  · intro x hx
    simp only [deviceIn_append, deviceIn_map_device, deviceIn_map_net,
      textsOf_append, List.append_nil, List.mem_append] at hx
    rcases hx with hx | hx
    · exact h.lines x hx
    · exact ⟨hlast x hx, hlen x hx⟩
  · simp only [netIn_append, netIn_map_device, netIn_map_net, List.nil_append,
      controlSent_append, List.filter_append, deviceIn_append,
      deviceIn_map_device, deviceIn_map_net, List.append_nil, textsOf_append]
    exact h.net.append hnet

theorem TextInv.move (h : TextInv o f) (hm : Move speex f i o' f') :
    TextInv (o ++ o') f' := by
  cases hm with
  | quiet =>
    exact h.call [] rfl
  | input hmain hs =>
    refine h.call _ ?_
    rw [controlSent_input hs]
    rfl
  | control hmain hs => exact h.call _ (controlSent_control hs)
  | @device _ _ os _ hread hstep hos =>
    have hnone : textsOf os = [] := by
      rcases hos with rfl | ⟨a, rfl, ha⟩
      · rfl
      · simp [textsOf, ha]
    have hdev := h.device [] (s := f.spudp) (c := f.encoding) hread
      hstep (by simp [hnone]) (List.nil_sublist _)
    rwa [List.map_nil, List.append_nil] at hdev
  | @text _ _ buf _ _ _ hread hstep hs =>
    refine h.device _ hread hstep ?_ ?_
    · exact List.forall_mem_singleton.mpr (length_of_string hs)
    · rcases controlSent_string hs with hnone | hone
      · rw [hnone]
        exact List.nil_sublist _
      · rw [hone]
        exact List.filter_sublist
  | off hstep =>
    obtain ⟨hmain, -, -⟩ := mainLoopStep_handed (by
      rw [hstep]
      exact List.mem_singleton.mpr rfl)
    exact h.device [] (.of_test hmain) hstep nofun
      (List.nil_sublist _)
  | begin hstep =>
    obtain ⟨hmain, -, -⟩ := mainLoopStep_handed (by
      rw [hstep]
      exact List.mem_singleton.mpr rfl)
    exact h.device [] (.of_test hmain) hstep nofun
      (List.nil_sublist _)
  | piece => exact h.call [] rfl
  | finish hmain hc hi hend =>
    obtain ⟨nbytes, enc, s, -, rfl, ⟨-, rfl, -⟩ |
      ⟨q, ns, n, -, rfl, hsend⟩⟩ := endSend_cases hend
    · exact h.call [] rfl
    · refine h.call _ ?_
      rw [controlSent_of_audio (sendAudio_chan hsend)]
      rfl

/-- A byte from the serial line. -/
theorem TextInv.uart (h : TextInv o f) {b : UInt8}
    (hstep : f.uartStep b = ⟨o', some f'⟩) : TextInv (o ++ o') f' := by
  obtain ⟨r', hring, ⟨hitems, heq⟩ | ⟨-, hitems, heq⟩⟩ :=
    uartStep_spec h.ring b
  · obtain ⟨rfl, hres⟩ := Traced.mk.inj (heq.symm.trans hstep)
    obtain rfl := Option.some.inj hres
    refine ⟨hring, h.room, h.inside, ?_, ?_, ?_⟩
    · show queuedIn (o ++ [.queued b]) = _
      rw [queuedIn_append, h.stream, hitems, deviceIn_append]
      simp [queuedIn, deviceIn]
    · simpa [deviceIn] using h.lines
    · simpa [deviceIn, netIn] using h.net
  · obtain ⟨rfl, rfl⟩ := Traced.pure_eq_mk_iff.mp (heq.symm.trans hstep)
    rw [List.append_nil]
    exact { h with ring := hring, stream := by rw [hitems]; exact h.stream }

/-- The interrupt of the converter leaves the text alone. -/
theorem TextInv.adc (h : TextInv o f) {dr : UInt32}
    (hstep : f.adcStep dr = ⟨o', some f'⟩) : TextInv (o ++ o') f' := by
  rcases adcStep_cases hstep with ⟨-, rfl, rfl⟩ | ⟨-, fin, adc, -, rfl, rfl⟩
  · rwa [List.append_nil]
  · have hnone : textsOf (fin.map .finished) = [] := by simp [textsOf]
    have hdevice : deviceIn (o ++ .sample (toSample dr) ::
        (fin.map DeviceOut.finished).map .device) =
          deviceIn o ++ fin.map .finished := by
      rw [deviceIn_append]
      exact congrArg _ (deviceIn_map_device _)
    refine ⟨h.ring, h.room, h.inside, ?_, ?_, ?_⟩
    · rw [hdevice, textsOf_append, hnone, List.append_nil, queuedIn_append]
      show queuedIn o ++ queuedIn (List.map _ _) = _
      rw [queuedIn_map_device, List.append_nil]
      exact h.stream
    · rw [hdevice, textsOf_append, hnone, List.append_nil]
      exact h.lines
    · rw [hdevice, textsOf_append, hnone, List.append_nil, netIn_append]
      show ((controlSent (netIn o ++ netIn (List.map _ _))).filter _).Sublist _
      rw [netIn_map_device, List.append_nil]
      exact h.net

theorem TextInv.step (h : TextInv o f) {a : FirmwareAct}
    (hstep : firmwareStep speex f a = ⟨o', some f'⟩) :
    TextInv (o ++ o') f' := by
  cases a with
  | adc dr => exact h.adc hstep
  | uart b => exact h.uart hstep
  | main i => exact h.move (mainStep_move hstep)

end Step

/-- What is promised of the text in a run.  The bytes queued are the texts
handed to `spudp_string_send`, then what has been collected, then what the
ring holds; each text ends in a newline and has a length that is allowed; what
the network has accepted on the control channel besides sync packets are some
of the texts, whole and in order; and a byte is dropped only if the ring is
full. -/
structure TextKept (speex : Speex β) (f₀ : Firmware β)
    (acts : List FirmwareAct) : Prop where
  stream : ∀ o f, Visits (firmwareStep speex) f₀ acts o f →
    queuedIn o = (textsOf (deviceIn o)).flatten ++ f.dev.collected ++
      f.rxring.items
  lines : ∀ o f, Visits (firmwareStep speex) f₀ acts o f →
    ∀ x ∈ textsOf (deviceIn o), x.getLast? = some 10 ∧ x.length < 256
  net : ∀ o f, Visits (firmwareStep speex) f₀ acts o f →
    ((controlSent (netIn o)).filter (· ≠ syncPayload)).Sublist
      (textsOf (deviceIn o))
  dropped : ∀ o f b, Feeds (firmwareStep speex) f₀ acts o f (.uart b) →
    (firmwareStep speex f (.uart b)).out = [] → f.rxring.getCount = rxSize

/-- **The way of the text**, in every run. -/
theorem text_path (speex : Speex β) (rxbuff : CArray UInt8 rxSize) (k : Nat)
    (s : Spudp β) (acts : List FirmwareAct) :
    TextKept speex (firmwareInit rxbuff k s) acts := by
  have hinv (o : List FirmwareOut) (f : Firmware β)
      (h : Visits (firmwareStep speex) (firmwareInit rxbuff k s) acts o f) :
      TextInv o f :=
    visits_inv (textInv_init rxbuff k s)
      (fun _ _ _ _ _ _ ht hstep => ht.step hstep) h
  refine ⟨fun o f h => (hinv o f h).stream, fun o f h => (hinv o f h).lines,
    fun o f h => (hinv o f h).net, fun o f b h hout => ?_⟩
  have hring := (hinv o f h.visits).ring
  obtain ⟨r', -, ⟨-, heq⟩ | ⟨hfull, -, -⟩⟩ := uartStep_spec hring b
  · rw [firmwareStep, heq] at hout
    cases hout
  · have hroom := hring.room
    rw [Ring.getFree] at hfull
    omega

end Roip
