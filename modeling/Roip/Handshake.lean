/-
Roip/Handshake.lean

The handshake of `radio_comm_init` with the modem.

The host takes whatever it reads for a whole reply: if it does not end in
`OK` it starts again, and what follows of a reply that was cut is taken for
the next one.  As long as every read ends at the end of a reply the two
parties go in lockstep (`Lockstep`): one command is outstanding, the transmit
ring is empty when it is sent, and the host has counted the replies the modem
has given.  In `ACTIVE_WAIT` the last exchanges are then the five commands,
each answered by `OK` (`handshake_agrees`).
-/
import Roip.CommInit
import Roip.Lib.Lines

namespace Roip

/-! ### Agreement -/

/-- The exchanges of a complete handshake. -/
def agreement : List Exchange :=
  [(str1, .ok), (str2, .ok), (str3, .ok), (str4, .ok), (str5, .ok)]

/-- A read does not end inside a reply: it is empty, or its last byte is a
newline. -/
def ReadsReplies (s : CommInit) : CommInitAct → Prop
  | .host n => s.started = true → s.ser.beforeActiveWait = true →
      (serialRead s.rx (256 - s.nbytes) n).1 = [] ∨
        (serialRead s.rx (256 - s.nbytes) n).1.getLast? = some 10
  | _ => True

instance (s : CommInit) : DecidablePred (ReadsReplies s)
  | .host _ => inferInstanceAs (Decidable (_ → _ → _ ∨ _))
  | .receive => instDecidableTrue
  | .answer _ => instDecidableTrue

/-! ### The outstanding command -/

/-- In this state of the host the last command sent is `cmd`, and the
exchanges `earlier` lead to it. -/
inductive Sent : SerialState → List UInt8 → List Exchange → Prop
  | cmd1 : Sent .cmd1Sent str1 []
  | cmd2 : Sent .cmd2Sent str2 [(str1, .ok)]
  | cmd3 : Sent .cmd3Sent str3 [(str1, .ok), (str2, .ok)]
  | cmd4 : Sent .cmd4Sent str4 [(str1, .ok), (str2, .ok), (str3, .ok)]
  | cmd5 : Sent .cmd5Sent str5
    [(str1, .ok), (str2, .ok), (str3, .ok), (str4, .ok)]

/-- Where the outstanding command is, and its reply if it has one. -/
inductive Outstanding (cmd : List UInt8) : (tx line : List UInt8) →
    (unanswered : List (List UInt8)) → (rx : List UInt8) → Option Reply → Prop
  | sent {line tx : List UInt8} (h : line ++ tx = cmd) (htx : tx ≠ []) :
    Outstanding cmd tx line [] [] none
  | received : Outstanding cmd [] [] [cmd] [] none
  | answered (r : Reply) : Outstanding cmd [] [] [] r.text (some r)

/-- The two parties are in lockstep after the exchanges `o`. -/
inductive Lockstep : List Exchange → CommInit → Prop
  | start {buf : CArray UInt8 256} {txring : TxRing}
    (hbuf : buf.cells.take str1.length = str1) (hring : Queued txring []) :
    Lockstep [] ⟨.noinit, 0, buf, false, txring, [], [], []⟩
  | waiting {o earlier : List Exchange} {ser : SerialState}
    {cmd tx line rx : List UInt8} {unanswered : List (List UInt8)}
    {r : Option Reply} {txring : TxRing} (buf : CArray UInt8 256)
    (hsent : Sent ser cmd earlier) (hring : Queued txring tx)
    (hout : Outstanding cmd tx line unanswered rx r)
    (ho : earlier <:+ o) :
    Lockstep (o ++ (r.map (Prod.mk cmd)).toList)
      ⟨ser, 0, buf, true, txring, rx, line, unanswered⟩
  | done {o : List Exchange} {txring : TxRing} (buf : CArray UInt8 256)
    (hring : Queued txring []) (ho : agreement <:+ o) :
    Lockstep o ⟨.activeWait, 0, buf, true, txring, [], [], []⟩

section Steps

variable {s s' : CommInit} {o o' earlier : List Exchange}
  {cmd str : List UInt8} {ser : SerialState} {n : Nat} {txring : TxRing}

theorem take_memcpy {buf b : CArray UInt8 256}
    (h : buf.memcpy 0 str = some b) : b.cells.take str.length = str := by
  obtain ⟨-, hb⟩ := CArray.memcpy_eq_some_iff.mp h
  rw [hb, List.take_zero, List.nil_append]
  exact List.take_left

theorem exists_memcpy (buf : CArray UInt8 256) (str : List UInt8)
    (h : str.length ≤ 256) :
    ∃ b, buf.memcpy 0 str = some b :=
  ⟨_, dif_pos (by omega)⟩

theorem lockstep_start (buf : CArray UInt8 256)
    (txbuff : CArray UInt8 txSize) :
    Lockstep [] (commInitStart buf txbuff) := by
  obtain ⟨b, hb⟩ := exists_memcpy buf str1 (by decide)
  rw [commInitStart, hb, Option.getD_some]
  exact .start (take_memcpy hb) (.init txbuff)

/-- Every command is one short line. -/
theorem Sent.isLine (h : Sent ser cmd earlier) :
    (∃ l, cmd = l ++ [10] ∧ 10 ∉ l) ∧ cmd.length ≤ 64 := by
  refine ⟨⟨cmd.dropLast, ?_, ?_⟩, ?_⟩ <;> cases h <;> decide

theorem Sent.ne_nil (h : Sent ser cmd earlier) : cmd ≠ [] := by
  cases h <;> decide

theorem Sent.beforeActiveWait (h : Sent ser cmd earlier) :
    ser.beforeActiveWait = true := by
  cases h <;> rfl

theorem Reply.isLine (r : Reply) : ∃ l, r.text = l ++ [10] ∧ 10 ∉ l := by
  refine ⟨r.text.dropLast, ?_, ?_⟩ <;> cases r <;> decide

/-! ### The modem -/

/-- The modem takes a byte of the outstanding command. -/
theorem Outstanding.take {b : UInt8} {tx line rx : List UInt8}
    {unanswered : List (List UInt8)} {r : Option Reply}
    (hsent : Sent ser cmd earlier)
    (h : Outstanding cmd (b :: tx) line unanswered rx r) (nbytes : Nat)
    (buf : CArray UInt8 256) :
    ∃ line' unanswered', Outstanding cmd tx line' unanswered' rx r ∧
      CommInit.take ⟨ser, nbytes, buf, true, txring, rx, line, unanswered⟩ b =
        ⟨ser, nbytes, buf, true, txring, rx, line', unanswered'⟩ := by
  cases h with
  | sent hline htx =>
    obtain ⟨l, rfl, hl⟩ := hsent.isLine.1
    rw [List.append_cons] at hline
    have hiff := getLast?_line_iff hl (by simp) hline
    rw [List.getLast?_concat, Option.some.injEq] at hiff
    unfold CommInit.take
    by_cases hb : b = 10
    · -- the end of the line
      obtain rfl := hiff.mp hb
      rw [List.append_nil] at hline
      simp only [hb, if_true]
      rw [hb] at hline
      rw [hline]
      exact ⟨_, _, .received, rfl⟩
    · simp only [hb, if_false]
      exact ⟨_, _, .sent hline fun hnil => hb (hiff.mpr hnil), rfl⟩

/-- The modem takes a byte of the outstanding command from the ring. -/
theorem Outstanding.receive {b : UInt8} {tx line rx : List UInt8}
    {unanswered : List (List UInt8)} {r : Option Reply}
    (hsent : Sent ser cmd earlier) (hring : Queued txring (b :: tx))
    (h : Outstanding cmd (b :: tx) line unanswered rx r) (nbytes : Nat)
    (buf : CArray UInt8 256) :
    ∃ txring' line' unanswered', Queued txring' tx ∧
      Outstanding cmd tx line' unanswered' rx r ∧
      CommInit.receive
        ⟨ser, nbytes, buf, true, txring, rx, line, unanswered⟩ =
          ⟨ser, nbytes, buf, true, txring', rx, line', unanswered'⟩ := by
  obtain ⟨txring', hirq, hring'⟩ := hring.irq
  obtain ⟨line', unanswered', hout', htake⟩ := h.take hsent nbytes buf
  refine ⟨txring', line', unanswered', hring', hout', ?_⟩
  rw [CommInit.receive, hirq]
  exact htake

/-- The modem finds nothing in the ring. -/
theorem receive_nil (h : Queued s.txring []) : s.receive = s := by
  rw [CommInit.receive, h.irq_nil]
  rfl

/-- The modem takes a byte. -/
theorem Lockstep.receive (h : Lockstep o s) : Lockstep o s.receive := by
  cases h with
  | start hbuf hring =>
    rw [receive_nil hring]
    exact .start hbuf hring
  | done buf hring ho =>
    rw [receive_nil hring]
    exact .done buf hring ho
  | @waiting o _ ser cmd tx line rx unanswered r txring buf hsent hring hout
      ho =>
    rcases tx with - | ⟨b, tx⟩
    · rw [receive_nil hring]
      exact .waiting buf hsent hring hout ho
    · obtain ⟨txring', line', unanswered', hring', hout', hs⟩ :=
        hout.receive hsent hring 0 buf
      rw [hs]
      exact .waiting buf hsent hring' hout' ho

/-- The modem answers. -/
theorem Lockstep.answer (h : Lockstep o s) {r : Reply}
    (hstep : commInitStep s (.answer r) = ⟨o', some s'⟩) :
    Lockstep (o ++ o') s' := by
  cases h with
  | start hbuf hring =>
    obtain ⟨rfl, rfl⟩ := Traced.pure_eq_mk_iff.mp hstep
    exact .start hbuf hring
  | done buf hring ho =>
    obtain ⟨rfl, rfl⟩ := Traced.pure_eq_mk_iff.mp hstep
    rw [List.append_nil]
    exact .done buf hring ho
  | waiting buf hsent hring hout ho =>
    cases hout with
    | sent hline htx =>
      obtain ⟨rfl, rfl⟩ := Traced.pure_eq_mk_iff.mp hstep
      rw [List.append_nil]
      exact .waiting buf hsent hring (.sent hline htx) ho
    | answered r' =>
      obtain ⟨rfl, rfl⟩ := Traced.pure_eq_mk_iff.mp hstep
      rw [List.append_nil]
      exact .waiting buf hsent hring (.answered r') ho
    | received =>
      obtain ⟨rfl, hs⟩ := Traced.mk.inj hstep
      obtain rfl := Option.some.inj hs
      rw [Option.map_none, Option.toList_none, List.append_nil]
      exact .waiting buf hsent hring (.answered r) ho

/-! ### The host -/

/-- A command sent over the empty ring is queued. -/
theorem send_eq (hring : Queued s.txring []) (hpos : str ≠ [])
    (hlen : str.length ≤ 64) :
    ∃ buf txring, Queued txring str ∧
      s.send str = some { s with buf, txring } := by
  obtain ⟨b, hb⟩ := exists_memcpy s.buf str (Nat.le_trans hlen (by decide))
  obtain ⟨txring, hsend, hring'⟩ := hring.send hpos hlen
  refine ⟨b, txring, hring', ?_⟩
  rw [CommInit.send, hb, Option.bind_eq_bind, Option.bind_some,
    take_memcpy hb, hsend]
  rfl

/-- After `OK` the next command is sent, or the handshake is complete. -/
theorem advance_eq (hsent : Sent s.ser cmd earlier)
    (hring : Queued s.txring []) :
    (∃ ser' cmd' buf txring, Sent ser' cmd' (earlier ++ [(cmd, .ok)]) ∧
      Queued txring cmd' ∧
      s.advance = some { s with ser := ser', buf, txring }) ∨
    earlier ++ [(cmd, .ok)] = agreement ∧
      s.advance = some { s with ser := .activeWait } := by
  have hnext {ser' cmd' earlier'} (h' : Sent ser' cmd' earlier')
      (hadv : s.advance = (s.send cmd').map ({ · with ser := ser' }))
      (he : earlier' = earlier ++ [(cmd, .ok)]) :
      ∃ ser' cmd' buf txring, Sent ser' cmd' (earlier ++ [(cmd, .ok)]) ∧
        Queued txring cmd' ∧
        s.advance = some { s with ser := ser', buf, txring } := by
    obtain ⟨buf, txring, hring', hsend⟩ := send_eq hring h'.ne_nil h'.isLine.2
    exact ⟨ser', cmd', buf, txring, he ▸ h', hring',
      by rw [hadv, hsend]; rfl⟩
  unfold CommInit.advance at hnext ⊢
  generalize s.ser = ser at *
  cases hsent with
  | cmd1 => exact .inl (hnext .cmd2 rfl rfl)
  | cmd2 => exact .inl (hnext .cmd3 rfl rfl)
  | cmd3 => exact .inl (hnext .cmd4 rfl rfl)
  | cmd4 => exact .inl (hnext .cmd5 rfl rfl)
  | cmd5 => exact .inr ⟨rfl, rfl⟩

theorem memcpy_nil (buf : CArray UInt8 256) : buf.memcpy 0 [] = some buf :=
  CArray.memcpy_eq_some_iff.mpr ⟨Nat.zero_le _, by simp⟩

/-- A turn that reads nothing. -/
theorem turn_nil {n : Nat} (h0 : s.nbytes = 0)
    (hchunk : serialRead s.rx (256 - s.nbytes) n = ([], s.rx)) :
    s.turn n = some s := by
  obtain ⟨ser, nbytes, buf, started, txring, rx, line, unanswered⟩ := s
  obtain rfl : nbytes = 0 := h0
  rw [CommInit.turn, hchunk]
  simp only [memcpy_nil]
  rfl

/-- The comparison with `OK` after a whole reply. -/
theorem endsInOk_reply {r : Reply} (hn : s.nbytes = r.text.length)
    (hbuf : s.buf.cells.take r.text.length = r.text) :
    s.endsInOk = some (decide (r = .ok)) := by
  have hcells : s.buf.cells = r.text ++ s.buf.cells.drop r.text.length := by
    conv => lhs; rw [← List.take_append_drop r.text.length s.buf.cells, hbuf]
  rw [CommInit.endsInOk, hn, hcells]
  cases r <;> simp [Reply.text, bytesOf, strncmpEq]

/-- A whole reply is understood. -/
theorem handleReply_eq {r : Reply} (hn : s.nbytes = r.text.length)
    (hbuf : s.buf.cells.take r.text.length = r.text) :
    s.handleReply = (if r = .ok then s.advance else s.restart).map
      ({ · with nbytes := 0 }) := by
  rw [CommInit.handleReply, endsInOk_reply hn hbuf]
  cases r with
  | ok => rcases s.advance with - | t <;> simp
  | error => rcases s.restart with - | t <;> simp

/-- A turn that reads a whole reply. -/
theorem turn_reply {n : Nat} {r : Reply} (h0 : s.nbytes = 0)
    (hchunk : serialRead s.rx (256 - s.nbytes) n = (r.text, [])) :
    ∃ buf nbytes, s.turn n =
      (if r = .ok then CommInit.advance { s with buf, nbytes, rx := [] }
        else CommInit.restart { s with buf, nbytes, rx := [] }).map
          ({ · with nbytes := 0 }) := by
  obtain ⟨ser, nbytes, buf, started, txring, rx, line, unanswered⟩ := s
  obtain rfl : nbytes = 0 := h0
  obtain ⟨b, hb⟩ := exists_memcpy buf r.text (by cases r <;> decide)
  refine ⟨b, r.text.length, ?_⟩
  have hpos : 0 < r.text.length := by cases r <;> decide
  rw [CommInit.turn, hchunk]
  simp only [hb, Nat.zero_add, Option.bind_eq_bind, Option.bind_some]
  rw [if_pos hpos]
  exact handleReply_eq rfl (take_memcpy hb)

/-- A read that ends at the end of a reply, one being on its way. -/
theorem serialRead_reply {r : Reply} {n : Nat}
    (h : (serialRead r.text 256 n).1 = [] ∨
      (serialRead r.text 256 n).1.getLast? = some 10) :
    serialRead r.text 256 n = ([], r.text) ∨
      serialRead r.text 256 n = (r.text, []) := by
  obtain ⟨l, htext, hl⟩ := r.isLine
  have hcat : (serialRead r.text 256 n).1 ++ (serialRead r.text 256 n).2 =
      l ++ [10] := (List.take_append_drop _ _).trans htext
  generalize serialRead r.text 256 n = x at *
  obtain ⟨chunk, rx⟩ := x
  rw [← htext] at hcat
  by_cases hc : chunk = []
  · left
    rw [hc] at hcat ⊢
    exact congrArg _ hcat
  · right
    obtain rfl := (getLast?_line_iff hl hc (hcat.trans htext)).mp
      (h.resolve_left hc)
    rw [← hcat, List.append_nil]

theorem serialRead_nil (len n : Nat) : serialRead [] len n = ([], []) := by
  simp [serialRead]

/-- A command has been sent. -/
theorem Lockstep.sent {buf : CArray UInt8 256} (hsent : Sent ser cmd earlier)
    (hring : Queued txring cmd) (ho : earlier <:+ o) :
    Lockstep o ⟨ser, 0, buf, true, txring, [], [], []⟩ := by
  have h := Lockstep.waiting buf hsent hring
    (.sent (List.nil_append cmd) hsent.ne_nil) ho
  rwa [Option.map_none, Option.toList_none, List.append_nil] at h

/-- The host reads the reply to the outstanding command. -/
theorem Lockstep.reply {r : Reply} {buf : CArray UInt8 256}
    (hsent : Sent ser cmd earlier) (hring : Queued txring [])
    (ho : earlier <:+ o)
    (hchunk : serialRead r.text 256 n = (r.text, []))
    (hstep : CommInit.turn ⟨ser, 0, buf, true, txring, r.text, [], []⟩ n =
      some s') :
    Lockstep (o ++ [(cmd, r)]) s' := by
  obtain ⟨b, nb, hturn⟩ := turn_reply (s := ⟨ser, 0, buf, true, txring, r.text,
    [], []⟩) rfl hchunk
  rw [hturn] at hstep
  cases r with
  | ok =>
    rw [if_pos rfl] at hstep
    have ho' : earlier ++ [(cmd, .ok)] <:+ o ++ [(cmd, .ok)] := by
      obtain ⟨p, rfl⟩ := ho
      exact ⟨p, by simp⟩
    rcases advance_eq (s := ⟨ser, nb, b, true, txring, [], [], []⟩) hsent
      hring with ⟨ser', cmd', b', txring', hsent', hring', hadv⟩ | ⟨hall, hadv⟩
    · rw [hadv] at hstep
      obtain rfl := Option.some.inj hstep
      exact .sent hsent' hring' ho'
    · rw [hadv] at hstep
      obtain rfl := Option.some.inj hstep
      exact .done b hring (hall ▸ ho')
  | error =>
    rw [if_neg (by decide)] at hstep
    obtain ⟨b', txring', hring', hsend⟩ := send_eq
      (s := ⟨ser, nb, b, true, txring, [], [], []⟩) hring Sent.cmd1.ne_nil
      Sent.cmd1.isLine.2
    rw [CommInit.restart, hsend] at hstep
    obtain rfl := Option.some.inj hstep
    exact .sent .cmd1 hring' (List.nil_suffix)

/-- The first command is sent. -/
theorem hostStep_start {buf : CArray UInt8 256}
    (hbuf : buf.cells.take str1.length = str1) (hring : Queued txring [])
    (n : Nat) :
    ∃ txring', Queued txring' str1 ∧
      CommInit.hostStep ⟨.noinit, 0, buf, false, txring, [], [], []⟩ n =
        some ⟨.cmd1Sent, 0, buf, true, txring', [], [], []⟩ := by
  obtain ⟨txring', hsend, hring'⟩ := hring.send Sent.cmd1.ne_nil
    Sent.cmd1.isLine.2
  refine ⟨txring', hring', ?_⟩
  rw [CommInit.hostStep, hbuf, hsend]
  rfl

/-- The host goes on. -/
theorem Lockstep.host (h : Lockstep o s)
    (hok : ReadsReplies s (.host n)) (hstep : s.hostStep n = some s') :
    Lockstep o s' := by
  cases h with
  | start hbuf hring =>
    obtain ⟨txring', hring', hsend⟩ := hostStep_start hbuf hring n
    rw [hsend] at hstep
    obtain rfl := Option.some.inj hstep
    exact .sent .cmd1 hring' List.nil_suffix
  | done buf hring ho =>
    obtain rfl := Option.some.inj hstep
    exact .done buf hring ho
  | @waiting o _ ser cmd tx line rx unanswered _ txring buf hsent hring hout
      ho =>
    have hbefore := hsent.beforeActiveWait
    simp only [CommInit.hostStep, hbefore, if_true] at hstep
    have hread := hok rfl hbefore
    cases hout with
    | sent hline htx =>
      rw [turn_nil rfl (serialRead_nil _ n)] at hstep
      obtain rfl := Option.some.inj hstep
      exact .waiting buf hsent hring (.sent hline htx) ho
    | received =>
      rw [turn_nil rfl (serialRead_nil _ n)] at hstep
      obtain rfl := Option.some.inj hstep
      exact .waiting buf hsent hring .received ho
    | answered r =>
      rcases serialRead_reply hread with hchunk | hchunk
      · rw [turn_nil rfl hchunk] at hstep
        obtain rfl := Option.some.inj hstep
        exact .waiting buf hsent hring (.answered r) ho
      · exact .reply hsent hring ho hchunk hstep

end Steps

/-- **One step** of the two parties. -/
theorem Lockstep.step {s s' : CommInit} {o o' : List Exchange}
    {a : CommInitAct} (h : Lockstep o s) (hok : ReadsReplies s a)
    (hstep : commInitStep s a = ⟨o', some s'⟩) : Lockstep (o ++ o') s' := by
  cases a with
  | host n =>
    obtain ⟨rfl, hres⟩ := Traced.mk.inj hstep
    rw [List.append_nil]
    exact h.host hok hres
  | receive =>
    obtain ⟨rfl, rfl⟩ := Traced.pure_eq_mk_iff.mp hstep
    rw [List.append_nil]
    exact h.receive
  | answer r => exact h.answer hstep

/-- **The handshake agrees.**  In every run in which no read ends inside a
reply, the host is in `ACTIVE_WAIT` only when the last exchanges of the modem
are the five commands in order, each answered by `OK`. -/
theorem handshake_agrees (buf : CArray UInt8 256)
    (txbuff : CArray UInt8 txSize) (acts : List CommInitAct)
    (hok : ∀ o t a, Feeds commInitStep (commInitStart buf txbuff) acts o t a →
      ReadsReplies t a)
    (o : List Exchange) (t : CommInit)
    (hv : Visits commInitStep (commInitStart buf txbuff) acts o t)
    (hser : t.ser = .activeWait) : agreement <:+ o := by
  have h : Lockstep o t := by
    refine visits_inv (lockstep_start buf txbuff) ?_ hv
    intro o t a o' t' hf h hstep
    exact h.step (hok o t a hf) hstep
  cases h with
  | start => cases hser
  | done _ _ ho => exact ho
  | waiting _ hsent =>
    change _ = _ at hser
    subst hser
    cases hsent

/-- The modem takes `n` bytes, answers, and the host reads `m` bytes. -/
def exchange (n : Nat) (r : Reply) (m : Nat) : List CommInitAct :=
  List.replicate n .receive ++ [.answer r, .host m]

/-- A handshake in which the first command is refused once. -/
theorem handshake_agrees_retry :
    ∃ o t, Visits commInitStep
        (commInitStart (CArray.fill 256 0) (CArray.fill txSize 0))
        ([.host 0] ++ exchange 21 .error 7 ++ exchange 21 .ok 4 ++
          exchange 17 .ok 4 ++ exchange 16 .ok 4 ++ exchange 15 .ok 4 ++
          exchange 16 .ok 4) o t ∧
      t.ser = .activeWait ∧ agreement <:+ o := by
  generalize hacts : [.host 0] ++ exchange 21 .error 7 ++ exchange 21 .ok 4 ++
    exchange 17 .ok 4 ++ exchange 16 .ok 4 ++ exchange 15 .ok 4 ++
    exchange 16 .ok 4 = acts
  have hcheck : checkRun commInitStep (fun t a => decide (ReadsReplies t a))
      (commInitStart (CArray.fill 256 0) (CArray.fill txSize 0)) acts =
        true := by
    rw [← hacts]
    decide +kernel
  have hend : (run commInitStep
      (commInitStart (CArray.fill 256 0) (CArray.fill txSize 0))
      acts).res.map (·.ser) = some .activeWait := by
    rw [← hacts]
    decide +kernel
  obtain ⟨t, hres, hser⟩ := Option.map_eq_some_iff.mp hend
  have hv := Visits.end (Traced.eq_mk_of_res hres)
  refine ⟨_, t, hv, hser, handshake_agrees _ _ acts ?_ _ t hv hser⟩
  intro o t a hf
  have hstep := checkRun_feeds hcheck hf
  exact of_decide_eq_true hstep

/-- Replies that are cut: `ERRO`, `R\r\nE` and `RROR\r\n` are taken for three
errors, so one command too many is sent, and the host is in `ACTIVE_WAIT`
before the modem has taken the last command. -/
theorem handshake_counts_ahead :
    ∃ o t, Visits commInitStep
        (commInitStart (CArray.fill 256 0) (CArray.fill txSize 0))
        ([.host 0] ++ exchange 21 .error 4 ++ exchange 21 .error 4 ++
          [.host 6] ++ exchange 42 .ok 4 ++ exchange 17 .ok 4 ++
          exchange 16 .ok 4 ++ exchange 15 .ok 4 ++ exchange 0 .ok 4) o t ∧
      t.ser = .activeWait ∧ (∀ e ∈ o, e.1 ≠ str5) ∧
      ¬ agreement.Sublist o ∧ ¬ agreement <:+ o := by
  generalize hacts : [.host 0] ++ exchange 21 .error 4 ++
    exchange 21 .error 4 ++ [.host 6] ++ exchange 42 .ok 4 ++
    exchange 17 .ok 4 ++ exchange 16 .ok 4 ++ exchange 15 .ok 4 ++
    exchange 0 .ok 4 = acts
  have hend : (run commInitStep
      (commInitStart (CArray.fill 256 0) (CArray.fill txSize 0))
      acts).res.map (·.ser) = some .activeWait := by
    rw [← hacts]
    decide +kernel
  have hout : ∀ e ∈ (run commInitStep
      (commInitStart (CArray.fill 256 0) (CArray.fill txSize 0)) acts).out,
      e.1 ≠ str5 := by
    rw [← hacts]
    decide +kernel
  obtain ⟨t, hres, hser⟩ := Option.map_eq_some_iff.mp hend
  have hsub : ¬ agreement.Sublist (run commInitStep
      (commInitStart (CArray.fill 256 0) (CArray.fill txSize 0)) acts).out :=
    fun hsub => hout (str5, .ok) (hsub.subset (by decide)) rfl
  exact ⟨_, t, .end (Traced.eq_mk_of_res hres), hser, hout, hsub,
    fun hsuf => hsub hsuf.sublist⟩

end Roip
