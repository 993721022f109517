/-
Roip/ReplyChunks.lean

The handshake of `radio_comm_init` and the way its replies are cut.

The modem answers each of the five commands with `OK`.  In a round (`Round`)
the modem takes the command from the ring while the host polls the line, then
answers; the four bytes of the reply arrive at the host in any number of
reads, empty ones included.

Although `nbytes` counts what has been read, every read that is not empty is
taken for a whole reply, and the last four of the bytes counted are compared.
A first piece of one, two or three bytes is therefore compared from an index
in front of the buffer.  The handshake is completed exactly when each reply
arrives in one read (`reply_chunks_iff`).
-/
import Mathlib.Algebra.Ring.Nat
import Roip.Handshake

namespace Roip

/-! ### Rounds -/

/-- A round of the handshake: the steps until the modem answers, and how many
bytes have arrived at each of the reads that follow. -/
structure Round where
  before : List CommInitAct
  reads : List Nat

def Round.acts (r : Round) : List CommInitAct :=
  r.before ++ .answer .ok :: r.reads.map .host

/-- The modem receives the command `cmd` while the host polls the line; its
reply is read in pieces. -/
structure Round.Fits (r : Round) (cmd : List UInt8) : Prop where
  parties : ∀ a ∈ r.before, a = .receive ∨ ∃ n, a = .host n
  received : r.before.count .receive = cmd.length
  read : r.reads.sum = Reply.ok.text.length

/-- The five commands. -/
def commands : List (List UInt8) := [str1, str2, str3, str4, str5]

/-- The host starts, and the rounds follow. -/
def handshake (rounds : List Round) : List CommInitAct :=
  .host 0 :: rounds.flatMap Round.acts

section Steps

variable {ser : SerialState} {cmd : List UInt8} {earlier : List Exchange}
  {buf : CArray UInt8 256} {txring : TxRing}

/-! ### Until the modem answers -/

/-- A poll that finds nothing. -/
theorem hostStep_idle {s : CommInit} (hstarted : s.started = true)
    (h0 : s.nbytes = 0) {n : Nat}
    (hchunk : serialRead s.rx (256 - s.nbytes) n = ([], s.rx)) :
    s.hostStep n = some s := by
  rw [CommInit.hostStep, if_pos hstarted]
  split
  · exact turn_nil h0 hchunk
  · rfl

theorem Outstanding.of_nil {line rx : List UInt8}
    {unanswered : List (List UInt8)}
    (h : Outstanding cmd [] line unanswered rx none) :
    line = [] ∧ unanswered = [cmd] := by
  cases h with
  | sent hline htx => exact absurd rfl htx
  | received => exact ⟨rfl, rfl⟩

/-- The modem receives the command. -/
theorem run_before (buf : CArray UInt8 256) (hsent : Sent ser cmd earlier)
    {acts : List CommInitAct} {tx line : List UInt8}
    {unanswered : List (List UInt8)} (hring : Queued txring tx)
    (hout : Outstanding cmd tx line unanswered [] none)
    (hparties : ∀ a ∈ acts, a = .receive ∨ ∃ n, a = .host n)
    (hcount : acts.count .receive = tx.length) :
    ∃ txring', Queued txring' [] ∧
      run commInitStep ⟨ser, 0, buf, true, txring, [], line, unanswered⟩ acts =
        pure ⟨ser, 0, buf, true, txring', [], [], [cmd]⟩ := by
  induction acts generalizing tx line unanswered txring with
  | nil =>
    rw [List.count_nil] at hcount
    obtain rfl := List.length_eq_zero_iff.mp hcount.symm
    obtain ⟨rfl, rfl⟩ := hout.of_nil
    exact ⟨txring, hring, rfl⟩
  | cons a acts ih =>
    rw [List.forall_mem_cons] at hparties
    rw [run_cons]
    rcases hparties.1 with rfl | ⟨n, rfl⟩
    · rw [List.count_cons_self] at hcount
      obtain ⟨b, tx, rfl⟩ := List.exists_cons_of_length_eq_add_one hcount.symm
      obtain ⟨txring', line', unanswered', hring', hout', hs⟩ := hout.receive
        hsent hring 0 buf
      rw [commInitStep, hs, pure_bind]
      exact ih hring' hout' hparties.2 (by simpa using hcount)
    · rw [commInitStep, hostStep_idle rfl rfl (serialRead_nil _ n),
        Traced.ofOption_some, pure_bind]
      exact ih hring hout hparties.2 (by simpa using hcount)

/-! ### The reply -/

/-- Polls that find nothing. -/
theorem run_polls {s : CommInit} (hstarted : s.started = true)
    (h0 : s.nbytes = 0) (hrx : s.rx = []) (ns : List Nat) :
    run commInitStep s (ns.map .host) = pure s := by
  induction ns with
  | nil => rfl
  | cons n ns ih =>
    have hchunk : serialRead s.rx (256 - s.nbytes) n = ([], s.rx) := by
      rw [hrx]
      exact serialRead_nil _ n
    rw [List.map_cons, run_cons, commInitStep,
      hostStep_idle hstarted h0 hchunk, Traced.ofOption_some, pure_bind, ih]

/-- The state of the host after the reply to the last of the exchanges. -/
inductive Understood (earlier : List Exchange) : CommInit → Prop
  | next {ser : SerialState} {cmd : List UInt8} {txring : TxRing}
    (buf : CArray UInt8 256) (h : Sent ser cmd earlier)
    (hring : Queued txring cmd) :
    Understood earlier ⟨ser, 0, buf, true, txring, [], [], []⟩
  | done {txring : TxRing} (buf : CArray UInt8 256) (h : earlier = agreement)
    (hring : Queued txring []) :
    Understood earlier ⟨.activeWait, 0, buf, true, txring, [], [], []⟩

theorem Understood.idle {s : CommInit} (h : Understood earlier s) :
    s.started = true ∧ s.nbytes = 0 ∧ s.rx = [] := by
  cases h <;> exact ⟨rfl, rfl, rfl⟩

/-- A read of the whole reply. -/
theorem hostStep_whole (buf : CArray UInt8 256) (hsent : Sent ser cmd earlier)
    (hring : Queued txring []) :
    ∃ s, CommInit.hostStep
        ⟨ser, 0, buf, true, txring, Reply.ok.text, [], []⟩ 4 = some s ∧
      Understood (earlier ++ [(cmd, .ok)]) s := by
  have hchunk : serialRead Reply.ok.text 256 4 = (Reply.ok.text, []) := by
    decide
  obtain ⟨b, nb, hturn⟩ := turn_reply (s := ⟨ser, 0, buf, true, txring,
    Reply.ok.text, [], []⟩) rfl hchunk
  rw [if_pos rfl] at hturn
  rw [CommInit.hostStep, if_pos rfl, if_pos hsent.beforeActiveWait, hturn]
  rcases advance_eq (s := ⟨ser, nb, b, true, txring, [], [], []⟩) hsent hring
    with ⟨ser', cmd', b', txring', hsent', hring', hadv⟩ | ⟨hall, hadv⟩
  · rw [hadv]
    exact ⟨_, rfl, .next b' hsent' hring'⟩
  · rw [hadv]
    exact ⟨_, rfl, .done b hall hring⟩

/-- A read of a part of the reply: the comparison starts in front of the
buffer. -/
theorem hostStep_cut (hsent : Sent ser cmd earlier) {n : Nat} (hn0 : 0 < n)
    (hn4 : n < 4) :
    CommInit.hostStep ⟨ser, 0, buf, true, txring, Reply.ok.text, [], []⟩ n =
      none := by
  have hlen : (Reply.ok.text.take n).length = n :=
    List.length_take_of_le (Nat.le_of_lt hn4)
  have hchunk : serialRead Reply.ok.text (256 - 0) n =
      (Reply.ok.text.take n, Reply.ok.text.drop n) := by
    rw [serialRead, Nat.min_eq_left (by omega)]
  obtain ⟨b, hb⟩ := exists_memcpy buf (Reply.ok.text.take n) (by omega)
  rw [CommInit.hostStep, if_pos rfl, if_pos hsent.beforeActiveWait,
    CommInit.turn, hchunk]
  simp only [hb, Option.bind_eq_bind, Option.bind_some, Nat.zero_add, hlen,
    gt_iff_lt, hn0, if_true]
  rw [CommInit.handleReply, CommInit.endsInOk, if_neg (Nat.not_le.mpr hn4)]
  rfl

/-- The reply arrives in one read. -/
theorem run_reads (buf : CArray UInt8 256) (hsent : Sent ser cmd earlier)
    (hring : Queued txring []) {ns : List Nat} (hsum : ns.sum = 4)
    (h : 4 ∈ ns) :
    ∃ s, run commInitStep ⟨ser, 0, buf, true, txring, Reply.ok.text, [], []⟩
        (ns.map .host) = pure s ∧
      Understood (earlier ++ [(cmd, .ok)]) s := by
  induction ns with
  | nil => cases h
  | cons n ns ih =>
    rw [List.sum_cons] at hsum
    rw [List.map_cons, run_cons, commInitStep]
    rcases List.mem_cons.mp h with rfl | hns
    · obtain ⟨s, hstep, hs⟩ := hostStep_whole buf hsent hring
      obtain ⟨hstarted, h0, hrx⟩ := hs.idle
      rw [hstep, Traced.ofOption_some, pure_bind,
        run_polls hstarted h0 hrx ns]
      exact ⟨s, rfl, hs⟩
    · have hle : 4 ≤ ns.sum := by
        obtain ⟨a, b, rfl⟩ := List.append_of_mem hns
        rw [List.sum_append_nat, List.sum_cons]
        omega
      obtain rfl : n = 0 := by omega
      rw [hostStep_idle rfl rfl rfl, Traced.ofOption_some, pure_bind]
      exact ih (by omega) hns

/-- The reply arrives in pieces. -/
theorem run_reads_cut (hsent : Sent ser cmd earlier) {ns : List Nat}
    (hsum : ns.sum = 4) (h : 4 ∉ ns) :
    run commInitStep ⟨ser, 0, buf, true, txring, Reply.ok.text, [], []⟩
        (ns.map .host) = Traced.undef := by
  induction ns with
  | nil => cases hsum
  | cons n ns ih =>
    rw [List.sum_cons] at hsum
    rw [List.mem_cons, not_or] at h
    rw [List.map_cons, run_cons, commInitStep]
    by_cases hn : n = 0
    · subst hn
      rw [hostStep_idle rfl rfl rfl, Traced.ofOption_some, pure_bind]
      exact ih (by omega) h.2
    · have hn4 : n < 4 := by
        have := h.1
        omega
      rw [hostStep_cut hsent (Nat.pos_of_ne_zero hn) hn4,
        Traced.ofOption_none, Traced.undef_bind]

/-! ### Whole rounds -/

/-- A round up to the answer. -/
theorem run_acts (buf : CArray UInt8 256) (hsent : Sent ser cmd earlier)
    (hring : Queued txring cmd) {r : Round} (hfit : r.Fits cmd) :
    ∃ txring', Queued txring' [] ∧
      run commInitStep ⟨ser, 0, buf, true, txring, [], [], []⟩ r.acts =
        (run commInitStep
          ⟨ser, 0, buf, true, txring', Reply.ok.text, [], []⟩
          (r.reads.map .host)).after [(cmd, .ok)] := by
  have hout : Outstanding cmd cmd [] [] [] none :=
    .sent (List.nil_append cmd) hsent.ne_nil
  obtain ⟨txring', hring', hbefore⟩ := run_before buf hsent hring hout
    hfit.parties hfit.received
  refine ⟨txring', hring', ?_⟩
  rw [Round.acts, run_append, hbefore, pure_bind, run_cons]
  rfl

/-- The exchanges of the rounds that are left. -/
theorem Sent.remaining (hsent : Sent ser cmd earlier) {c : List UInt8}
    {cs : List (List UInt8)}
    (h : earlier ++ (c :: cs).map (·, Reply.ok) = agreement) : c = cmd := by
  have hnext : agreement[earlier.length]? = some (c, .ok) := by
    rw [← h, List.map_cons, List.getElem?_append_right (Nat.le_refl _),
      Nat.sub_self]
    rfl
  cases hsent <;> cases hnext <;> rfl

theorem Sent.earlier_ne (hsent : Sent ser cmd earlier) :
    earlier ≠ agreement := by
  intro h
  have hlen := congrArg List.length h
  cases hsent <;> cases hlen

/-- While commands are left, the next of them has been sent. -/
theorem Understood.sent {s : CommInit} (hs : Understood earlier s)
    {c : List UInt8} {cs : List (List UInt8)}
    (hall : earlier ++ (c :: cs).map (·, Reply.ok) = agreement) :
    ∃ ser buf txring, s = ⟨ser, 0, buf, true, txring, [], [], []⟩ ∧
      Sent ser c earlier ∧ Queued txring c := by
  cases hs with
  | done buf hdone =>
    have hlen := congrArg List.length (hall.trans hdone.symm)
    simp at hlen
  | @next ser _ txring buf hsent hring =>
    obtain rfl := hsent.remaining hall
    exact ⟨ser, buf, txring, rfl, hsent, hring⟩

/-- A round whose reply arrives in one read. -/
theorem run_round (buf : CArray UInt8 256) (hsent : Sent ser cmd earlier)
    (hring : Queued txring cmd) {r : Round} (hfit : r.Fits cmd)
    (h : 4 ∈ r.reads) :
    ∃ t, run commInitStep ⟨ser, 0, buf, true, txring, [], [], []⟩ r.acts =
        ⟨[(cmd, .ok)], some t⟩ ∧
      Understood (earlier ++ [(cmd, .ok)]) t := by
  obtain ⟨txring', hring', hacts⟩ := run_acts buf hsent hring hfit
  obtain ⟨t, hreads, ht⟩ := run_reads buf hsent hring' hfit.read h
  refine ⟨t, ?_, ht⟩
  rw [hacts, hreads]
  rfl

/-- **The rounds that are left**, each reply arriving in one read. -/
theorem run_rounds {rounds : List Round} {cmds : List (List UInt8)}
    (hfit : List.Forall₂ Round.Fits rounds cmds) {s : CommInit}
    (hs : Understood earlier s)
    (hall : earlier ++ cmds.map (·, Reply.ok) = agreement)
    (h : ∀ r ∈ rounds, 4 ∈ r.reads) :
    ∃ buf txring, txring.items = [] ∧
      run commInitStep s (rounds.flatMap Round.acts) =
        ⟨cmds.map (·, .ok),
          some ⟨.activeWait, 0, buf, true, txring, [], [], []⟩⟩ := by
  induction hfit generalizing earlier s with
  | nil =>
    rw [List.map_nil, List.append_nil] at hall
    cases hs with
    | next buf hsent => exact absurd hall hsent.earlier_ne
    | done buf _ hring => exact ⟨buf, _, hring.items, rfl⟩
  | cons hr _ ih =>
    rw [List.forall_mem_cons] at h
    obtain ⟨ser, buf, txring, rfl, hsent, hring⟩ := hs.sent hall
    obtain ⟨t, hround, ht⟩ := run_round buf hsent hring hr h.1
    rw [List.map_cons, List.append_cons] at hall
    obtain ⟨b, txring', hempty, hrest⟩ := ih ht hall h.2
    refine ⟨b, txring', hempty, ?_⟩
    rw [List.flatMap_cons, run_append, hround, Traced.mk_bind, hrest]
    rfl

/-- A reply that arrives in pieces leaves the rounds undefined. -/
theorem run_rounds_cut {rounds : List Round} {cmds : List (List UInt8)}
    (hfit : List.Forall₂ Round.Fits rounds cmds) {s : CommInit}
    (hs : Understood earlier s)
    (hall : earlier ++ cmds.map (·, Reply.ok) = agreement)
    (h : ∃ r ∈ rounds, 4 ∉ r.reads) :
    (run commInitStep s (rounds.flatMap Round.acts)).res = none := by
  induction hfit generalizing earlier s with
  | nil =>
    obtain ⟨r, hr, -⟩ := h
    cases hr
  | @cons r c rounds cs hr hrounds ih =>
    obtain ⟨ser, buf, txring, rfl, hsent, hring⟩ := hs.sent hall
    rw [List.flatMap_cons, run_append]
    by_cases hwhole : 4 ∈ r.reads
    · -- this round is completed, and a later one is not
      have hlater := ((List.exists_mem_cons_iff _ _ _).mp h).resolve_left
        (not_not_intro hwhole)
      obtain ⟨t, hround, ht⟩ := run_round buf hsent hring hr hwhole
      rw [List.map_cons, List.append_cons] at hall
      rw [hround, Traced.bind_res]
      exact ih ht hall hlater
    · obtain ⟨txring', -, hacts⟩ := run_acts buf hsent hring hr
      rw [hacts, run_reads_cut hsent hr.read hwhole]
      rfl

end Steps

/-! ### The handshake -/

/-- The handshake is completed: nothing is compared outside `serial_buffer`,
the modem has received the five commands once each and in order and nothing
else has been sent, and the host is in `ACTIVE_WAIT`. -/
def Completes (buf : CArray UInt8 256) (txbuff : CArray UInt8 txSize)
    (rounds : List Round) : Prop :=
  ∃ t, run commInitStep (commInitStart buf txbuff) (handshake rounds) =
      ⟨agreement, some t⟩ ∧
    t.ser = .activeWait ∧ t.txring.items = [] ∧ t.line = [] ∧
      t.unanswered = []

theorem start_host (buf : CArray UInt8 256) (txbuff : CArray UInt8 txSize) :
    ∃ b txring, Queued txring str1 ∧
      commInitStep (commInitStart buf txbuff) (.host 0) =
        pure ⟨.cmd1Sent, 0, b, true, txring, [], [], []⟩ := by
  obtain ⟨b, hb⟩ := exists_memcpy buf str1 (by decide)
  obtain ⟨txring, hring, hsend⟩ := hostStep_start (take_memcpy hb)
    (.init txbuff) 0
  refine ⟨b, txring, hring, ?_⟩
  rw [commInitStart, hb, Option.getD_some, commInitStep, hsend]
  rfl

/-- **Chunks of replies.**  The handshake is completed exactly when each reply
arrives in one read. -/
theorem reply_chunks_iff (buf : CArray UInt8 256)
    (txbuff : CArray UInt8 txSize) {rounds : List Round}
    (hfit : List.Forall₂ Round.Fits rounds commands) :
    Completes buf txbuff rounds ↔ ∀ r ∈ rounds, 4 ∈ r.reads := by
  obtain ⟨b, txring, hring, hstart⟩ := start_host buf txbuff
  have hrun : run commInitStep (commInitStart buf txbuff) (handshake rounds) =
      run commInitStep ⟨.cmd1Sent, 0, b, true, txring, [], [], []⟩
        (rounds.flatMap Round.acts) := by
    rw [handshake, run_cons, hstart, pure_bind]
  unfold Completes
  rw [hrun]
  constructor
  · rintro ⟨t, hdone, -⟩
    by_contra hcut
    have hundef := run_rounds_cut hfit (.next b .cmd1 hring) rfl
      (by simpa using hcut)
    rw [hdone] at hundef
    cases hundef
  · intro h
    obtain ⟨b', txring', hempty, hdone⟩ := run_rounds hfit
      (.next b .cmd1 hring) rfl h
    exact ⟨_, hdone, rfl, hempty, rfl, rfl⟩

/-- A round without polls. -/
def plainRound (cmd : List UInt8) (reads : List Nat) : Round :=
  ⟨List.replicate cmd.length .receive, reads⟩

theorem plainRound_fits (cmd : List UInt8) {reads : List Nat}
    (h : reads.sum = 4) : (plainRound cmd reads).Fits cmd where
  parties _ ha := Or.inl (List.eq_of_mem_replicate ha)
  received := List.count_replicate_self
  read := h

/-- Whole replies, the first after two empty reads. -/
theorem reply_chunks_iff_whole :
    Completes (CArray.fill 256 0) (CArray.fill txSize 0)
      [plainRound str1 [0, 0, 4], plainRound str2 [4], plainRound str3 [4],
        plainRound str4 [4], plainRound str5 [4, 0]] :=
  (reply_chunks_iff _ _ (.cons (plainRound_fits str1 rfl)
    (.cons (plainRound_fits str2 rfl) (.cons (plainRound_fits str3 rfl)
      (.cons (plainRound_fits str4 rfl)
        (.cons (plainRound_fits str5 rfl) .nil)))))).mpr (by decide)

/-- A first reply that arrives as `O` and `K\r\n`: after the first read
`nbytes-4` is in front of the buffer. -/
theorem not_reply_chunks :
    let rounds := [plainRound str1 [1, 3], plainRound str2 [4],
      plainRound str3 [4], plainRound str4 [4], plainRound str5 [4]]
    List.Forall₂ Round.Fits rounds commands ∧
      (run commInitStep
        (commInitStart (CArray.fill 256 0) (CArray.fill txSize 0))
        (handshake rounds)).res = none ∧
      ¬ Completes (CArray.fill 256 0) (CArray.fill txSize 0) rounds := by
  intro rounds
  have hundef : (run commInitStep
      (commInitStart (CArray.fill 256 0) (CArray.fill txSize 0))
      (handshake rounds)).res = none := by decide +kernel
  refine ⟨?_, hundef, ?_⟩
  · exact .cons (plainRound_fits str1 rfl) (.cons (plainRound_fits str2 rfl)
      (.cons (plainRound_fits str3 rfl) (.cons (plainRound_fits str4 rfl)
        (.cons (plainRound_fits str5 rfl) .nil))))
  · rintro ⟨t, hdone, -⟩
    rw [hdone] at hundef
    cases hundef

end Roip
