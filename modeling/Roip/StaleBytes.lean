/-
Roip/StaleBytes.lean

What lies behind a payload.

The payload lies in a buffer that has been used before, and `http_recv` looks
behind its end: when the request line is compared, when a number is read and
when a value is copied.  The two runs of a call on different memory are
compared here.  The searches always end at the same place, and a login is
decided by the payload alone (`passwordOk_stale`); a request line that is cut,
a number that reaches the end and a value that begins behind it are not.  A
call is determined by its payload if and only if none of this happens
(`determined_iff`).
-/
import Roip.Fields
import Roip.StaleNumbers

namespace Roip

variable {s : Httpd} {x : HttpCall} {w : List UInt8}

/-! ### Other memory -/

/-- The call with the memory `b` behind its payload. -/
def HttpCall.withBehind (x : HttpCall) (b : List UInt8) : HttpCall :=
  { x with env := { x.env with behind := b } }

/-- What the call does, it does with any memory behind the payload. -/
def Determined (s : Httpd) (x : HttpCall) : Prop :=
  ∃ o t, ∀ b, httpStep s (x.withBehind b) = ⟨o, some t⟩

theorem request_withBehind (hx : x.p = some w) (b : List UInt8) :
    (x.withBehind b).request = requestOf (w ++ b) := by
  show x.p.bind _ = _
  rw [hx, Option.bind_some]
  rfl

theorem payload_eq (hx : x.p = some w) : x.payload = w := by
  rw [HttpCall.payload, hx, Option.getD_some]

/-- **A login is decided by the payload alone.** -/
theorem passwordOk_stale (w b pass : List UInt8) :
    passwordOk (w ++ b) w.length pass = passwordOk w w.length pass := by
  rw [passwordOk, passwordOk]
  simp only [findEquals, findSpace, find_stale]
  have hspace := find_payload w [] 32 (find w 61 w.length 18)
  rw [List.append_nil] at hspace
  generalize find w 61 w.length 18 = p at hspace ⊢
  generalize find w 32 w.length p = q at hspace ⊢
  by_cases hlen : q - (p + 1) = strlen0 pass
  · -- the bytes compared are the ones the searches have delimited
    refine congrArg (· && _) (strncmpEq0_congr fun i hi => ?_)
    have hle := (List.takeWhile_sublist (· ≠ (32 : UInt8))
      (l := w.drop (p + 1))).length_le
    rw [List.length_drop] at hle
    rw [byteAt_drop, byteAt_drop, byteAt_append_left (by omega)]
  · have hfalse : (q - (p + 1) == strlen0 pass) = false :=
      beq_false_of_ne hlen
    rw [hfalse, Bool.and_false, Bool.and_false]

/-! ### Request lines -/

/-- No line begins another one. -/
theorem Request.eq_of_line_prefix {r r' : Request} (h : r.line <+: r'.line) :
    r = r' := by
  revert h
  cases r <;> cases r' <;> decide

/-- A line that is cut is completed by what is behind. -/
theorem requestOf_cut {r : Request} (h : w <+: r.line) (hne : w ≠ r.line) :
    ∃ b, requestOf (w ++ b) = some r ∧ requestOf (w ++ []) = none := by
  obtain ⟨b, hb⟩ := h
  refine ⟨b, ?_, ?_⟩
  · exact requestOf_eq_some_iff.mpr
      ⟨[], (List.append_nil _).trans hb.symm⟩
  · rw [List.append_nil]
    rcases hr : requestOf w with - | r'
    · rfl
    · have hline := requestOf_eq_some_iff.mp hr
      have heq : r' = r :=
        Request.eq_of_line_prefix (hline.trans ⟨b, hb⟩)
      rw [heq] at hline
      have hle : w.length ≤ r.line.length := List.IsPrefix.length_le ⟨b, hb⟩
      exact absurd (hline.eq_of_length_le hle) (Ne.symm hne)

/-- A call that is determined is the same request with any memory. -/
theorem Determined.line (h : Determined s x) (hx : x.p = some w) (r : Request)
    (hpre : w <+: r.line) : w = r.line := by
  by_contra hne
  obtain ⟨o, t, hstep⟩ := h
  obtain ⟨b, hb, hnil⟩ := requestOf_cut hpre hne
  rw [← request_withBehind hx] at hb hnil
  -- with the line completed there is a page
  obtain ⟨⟨page, t'⟩, ha, -⟩ : ∃ a, ((x.withBehind b).answer s r).res = some a ∧
      a.2 = t := by
    have hres := congrArg Traced.res (hstep b)
    rw [httpStep_of_request hb] at hres
    exact Option.map_eq_some_iff.mp hres
  have hpage : .write x.pcb page ∈ o := by
    have hmem := write_mem_httpStep (s := s) (x := x.withBehind b).mpr
      ⟨r, t', hb, ha⟩
    rw [hstep b] at hmem
    exact hmem
  have hno : .write x.pcb page ∈ (httpStep s (x.withBehind [])).out := by
    rw [hstep []]
    exact hpage
  obtain ⟨r', -, hr', -⟩ := write_mem_httpStep (x := x.withBehind []).mp hno
  rw [hnil] at hr'
  cases hr'

/-! ### Configurations -/

theorem length_readOctets (rq : List UInt8) (n k p : Nat) :
    (readOctets rq n k p).length = k := by
  induction k generalizing p with
  | zero => rfl
  | succ k ih => rw [readOctets_succ, List.length_cons, ih]

theorem addresses_withBehind (hx : x.p = some w) (b : List UInt8) :
    (x.withBehind b).addresses = readAddresses (w ++ b) w.length := by
  have hpayload : (x.withBehind b).payload = w := payload_eq hx
  rw [HttpCall.addresses, HttpCall.rq, hpayload]
  rfl

/-- Equal addresses are equal octets. -/
theorem readAddresses_eq_iff {b b' : List UInt8} :
    readAddresses (w ++ b) w.length = readAddresses (w ++ b') w.length ↔
      readOctets (w ++ b) w.length 20 26 =
        readOctets (w ++ b') w.length 20 26 := by
  constructor
  · intro h
    have hoctets := congrArg Addresses.octets h
    rwa [readAddresses, readAddresses,
      octets_addressesAt (length_readOctets _ _ _ _),
      octets_addressesAt (length_readOctets _ _ _ _)] at hoctets
  · intro h
    rw [readAddresses, readAddresses, h]

/-- The addresses submitted are stored in `flash_buff`. -/
theorem step_ipSet (hs : s.st = .passSent) (hr : x.request = some .ipSet) :
    ∃ t, (httpStep s x).res = some t ∧ t.flashBuff.addresses = x.addresses := by
  obtain ⟨b, hb, hcells⟩ := s.flashBuff.storeAddresses_cells x.addresses
  rw [httpStep_of_request hr, answer_ipSet hs hb]
  exact ⟨_, rfl, FlashImage.addresses_of_cells hcells⟩

theorem Determined.octets (h : Determined s x) (hx : x.p = some w)
    (hs : s.st = .passSent) (hline : Request.ipSet.line <+: w) :
    OctetsDecided w 20 26 := by
  obtain ⟨o, t, hstep⟩ := h
  have haddr (b : List UInt8) :
      t.flashBuff.addresses = readAddresses (w ++ b) w.length := by
    obtain ⟨t', ht', ha⟩ := step_ipSet (x := x.withBehind b) hs
      (HttpCall.request_of_prefix hx hline)
    rw [hstep b] at ht'
    obtain rfl : t = t' := Option.some.inj ht'
    rw [ha, addresses_withBehind hx]
  refine (octetsDecided_iff 19 26).mp fun b => ?_
  exact readAddresses_eq_iff.mp ((haddr b).symm.trans (haddr []))

/-! ### Password changes -/

/-- What is copied of a value that begins with the text `v`. -/
def copiedValue (c : UInt8) (v : List UInt8) : List UInt8 :=
  v.take 1 ++ (v.drop 1).takeWhile (· ≠ c)

/-- The new password begins inside the payload `w`, and so does the
confirmation; or the new password is no single byte, so that the single byte
copied behind the payload cannot confirm it. -/
def ChangeDecided (w : List UInt8) : Prop :=
  let new := valueFrom (valueFrom (w.drop 17))
  new ≠ [] ∧
    (valueFrom new ≠ [] ∨ (cstr (copiedValue 38 new)).length ≠ 1)

/-- The string that is read at `p`, with `b` behind the payload. -/
def valueRead (w b : List UInt8) (c : UInt8) (p : Nat) : List UInt8 :=
  cstr (bytesAt (w ++ b) p (find w c w.length p - p))

theorem valueRead_inside {p : Nat} {c : UInt8} (hp : w.drop p ≠ [])
    (b : List UInt8) :
    valueRead w b c p = cstr (copiedValue c (w.drop p)) := by
  have hle : p ≤ w.length := by
    by_contra hlt
    exact hp (List.drop_of_length_le (by omega))
  obtain ⟨d, v, hv⟩ := List.exists_cons_of_ne_nil hp
  have hnext : w.drop (p + 1) = v := drop_of_append (x := [d]) hv
  have hfind := find_payload w [] c p
  rw [List.append_nil, hnext] at hfind
  have hlen : find w c w.length p - p = (d :: v.takeWhile (· ≠ c)).length := by
    rw [hfind, List.length_cons]
    omega
  have hdrop : (w ++ b).drop p =
      (d :: v.takeWhile (· ≠ c)) ++ (v.dropWhile (· ≠ c) ++ b) := by
    rw [List.drop_append_of_le_length hle, hv, List.cons_append,
      List.cons_append, ← List.append_assoc, List.takeWhile_append_dropWhile]
  rw [valueRead, hlen, bytesAt_of_drop hdrop, hv]
  rfl

theorem valueRead_behind {p : Nat} {c : UInt8} (hp : w.drop p = [])
    (b : List UInt8) : valueRead w b c p = cstr [byteAt (w ++ b) p] := by
  have hnext : w.drop (p + 1) = [] := by
    rw [← List.drop_drop, hp]
    rfl
  have hfind := find_payload w [] c p
  rw [List.append_nil, hnext] at hfind
  have hlen : find w c w.length p - p = 0 + 1 := by
    rw [hfind, List.takeWhile_nil, List.length_nil]
    omega
  rw [valueRead, hlen, bytesAt_succ]
  rfl

/-- With nothing behind the payload a value that begins there is empty. -/
theorem valueRead_nil {p : Nat} {c : UInt8} (hp : w.drop p = []) :
    valueRead w [] c p = [] := by
  have hbyte : byteAt w p = 0 :=
    List.getD_eq_default w 0 (List.drop_eq_nil_iff.mp hp)
  rw [valueRead_behind hp, List.append_nil, hbyte]
  rfl

/-- With enough of a byte behind the payload a value that begins there is this
byte. -/
theorem valueRead_replicate {p n : Nat} {c d : UInt8} (hp : w.drop p = [])
    (hn : p < n) (hd : d ≠ 0) :
    valueRead w (List.replicate n d) c p = [d] := by
  have hle := List.drop_eq_nil_iff.mp hp
  have hbyte : byteAt (w ++ List.replicate n d) p = d := by
    rw [byteAt, List.getD_eq_getElem?_getD, List.getElem?_append_right hle,
      List.getElem?_replicate, if_pos (by omega)]
    rfl
  rw [valueRead_behind hp, hbyte, cstr,
    List.takeWhile_cons_of_pos (by simpa using hd)]
  rfl

/-- The places of the second and the third value. -/
def newPlace (w : List UInt8) : Nat :=
  findEquals w w.length (findEquals w w.length 17 + 1) + 1

def confirmPlace (w : List UInt8) : Nat :=
  findEquals w w.length (newPlace w) + 1

theorem drop_findEquals_eq (w : List UInt8) (p : Nat) :
    w.drop (findEquals w w.length p + 1) = valueFrom (w.drop p) := by
  have h := drop_find_eq_valueFrom w [] p
  rwa [List.append_nil] at h

theorem drop_newPlace (w : List UInt8) :
    w.drop (newPlace w) = valueFrom (valueFrom (w.drop 17)) := by
  rw [newPlace, drop_findEquals_eq, drop_findEquals_eq]

theorem drop_confirmPlace (w : List UInt8) :
    w.drop (confirmPlace w) = valueFrom (w.drop (newPlace w)) :=
  drop_findEquals_eq w (newPlace w)

/-- The strings in the buffers, when no copy overruns them. -/
theorem passwords_stale (hx : x.p = some w) (hend : ValuesEnd w)
    (b : List UInt8) : ∃ l, (x.withBehind b).passwords = some l ∧
      cstr l.new.cells = valueRead w b 38 (newPlace w) ∧
      cstr l.confirm.cells = valueRead w b 32 (confirmPlace w) := by
  have hpayload : (x.withBehind b).payload = w := payload_eq hx
  have hle := (copyLengths_le_iff w b).mpr hend
  obtain ⟨l, hl⟩ := Option.isSome_iff_exists.mp
    (readPasswords_isSome_iff (l := x.env.locals).mpr hle)
  obtain ⟨-, hnew, hconfirm⟩ := readPasswords_eq_some_iff.mp hl
  obtain ⟨r₂, hnew⟩ := cells_of_copyField hnew
  obtain ⟨r₃, hconfirm⟩ := cells_of_copyField hconfirm
  simp only [findEquals, findAmpersand, findSpace, find_stale] at hnew hconfirm
  refine ⟨l, ?_, ?_, ?_⟩
  · rw [HttpCall.passwords, HttpCall.rq, hpayload]
    exact hl
  · rw [hnew, cstr_append_cons_zero]
    rfl
  · rw [hconfirm, cstr_append_cons_zero]
    rfl

/-- Whether the change is answered as one tells whether it has been
accepted. -/
theorem write_changed_iff (hs : s.st = .passSent)
    (hr : x.request = some .passSet) {l : Passwords}
    (hl : x.passwords = some l) :
    .write x.pcb .changedPassword ∈ (httpStep s x).out ↔
      l.changeOk = true := by
  rw [write_mem_httpStep]
  constructor
  · rintro ⟨r, t, hr', ha⟩
    obtain rfl : .passSet = r := Option.some.inj (hr.symm.trans hr')
    by_contra hno
    rw [answer_unsuccessful hs hl (Bool.not_eq_true _ ▸ hno)] at ha
    cases ha
  · intro hok
    obtain ⟨b, hb, -⟩ := storePassword_cstr s.flashBuff l.new
    exact ⟨.passSet, _, hr, congrArg Traced.res (answer_changed hs hl hok hb)⟩

/-- A change that is determined is defined. -/
theorem Determined.valuesEnd (h : Determined s x) (hx : x.p = some w)
    (hs : s.st = .passSent) (hline : Request.passSet.line <+: w) :
    ValuesEnd w := by
  obtain ⟨o, t, hstep⟩ := h
  have hr : (x.withBehind []).request = some .passSet :=
    HttpCall.request_of_prefix hx hline
  have hsome : (httpStep s (x.withBehind [])).res.isSome := by
    rw [hstep []]
    rfl
  have hle := (step_passSet_isSome_iff hs hr).mp hsome
  have hpayload : (x.withBehind []).payload = w := payload_eq hx
  rw [HttpCall.rq, hpayload] at hle
  exact (copyLengths_le_iff w []).mp hle

/-- The passwords that are read with `b` behind the payload are accepted. -/
def AcceptedWith (w b : List UInt8) : Prop :=
  valueRead w b 38 (newPlace w) ≠ [] ∧
    valueRead w b 38 (newPlace w) <+: valueRead w b 32 (confirmPlace w)

/-- A change that is determined is accepted with any memory or with none. -/
theorem Determined.accepted_iff (h : Determined s x) (hx : x.p = some w)
    (hs : s.st = .passSent) (hline : Request.passSet.line <+: w)
    (b : List UInt8) : AcceptedWith w b ↔ AcceptedWith w [] := by
  have hend := h.valuesEnd hx hs hline
  obtain ⟨o, t, hstep⟩ := h
  have hpage (b : List UInt8) :
      AcceptedWith w b ↔ .write x.pcb .changedPassword ∈ o := by
    have hr : (x.withBehind b).request = some .passSet :=
      HttpCall.request_of_prefix hx hline
    obtain ⟨l, hl, hnew, hconfirm⟩ := passwords_stale hx hend b
    have hwrite := write_changed_iff hs hr hl
    rw [hstep b, changeOk_iff, hnew, hconfirm] at hwrite
    exact hwrite.symm
  exact (hpage b).trans (hpage []).symm

theorem Determined.change (h : Determined s x) (hx : x.p = some w)
    (hs : s.st = .passSent) (hline : Request.passSet.line <+: w) :
    ValuesEnd w ∧ ChangeDecided w := by
  have hiff := h.accepted_iff hx hs hline
  refine ⟨h.valuesEnd hx hs hline, ?_⟩
  show _ ≠ [] ∧ _
  rw [← drop_newPlace, ← drop_confirmPlace]
  have hnew : w.drop (newPlace w) ≠ [] := by
    -- else two equal passwords can stand behind the payload
    intro hnil
    have hnil' : w.drop (confirmPlace w) = [] := by
      rw [drop_confirmPlace, hnil]
      rfl
    have hboth := hiff (List.replicate (newPlace w + confirmPlace w + 1) 97)
    rw [AcceptedWith, AcceptedWith, valueRead_replicate hnil (by omega)
      (by decide), valueRead_replicate hnil' (by omega) (by decide),
      valueRead_nil hnil] at hboth
    exact (hboth.mp ⟨List.cons_ne_nil _ _, ⟨[], rfl⟩⟩).1 rfl
  refine ⟨hnew, ?_⟩
  -- else the confirmation of one byte can
  by_contra hno
  rw [not_or, not_not, not_not] at hno
  obtain ⟨hnil, hone⟩ := hno
  obtain ⟨d, hd⟩ := List.length_eq_one_iff.mp hone
  have hd0 : d ≠ 0 := by
    rintro rfl
    exact zero_notMem_cstr _ (hd ▸ List.mem_singleton_self 0)
  have hboth := hiff (List.replicate (confirmPlace w + 1) d)
  rw [AcceptedWith, AcceptedWith, valueRead_inside hnew,
    valueRead_inside hnew, hd, valueRead_replicate hnil (Nat.lt_succ_self _)
      hd0, valueRead_nil hnil] at hboth
  have hpre := (hboth.mp ⟨List.cons_ne_nil _ _, ⟨[], rfl⟩⟩).2
  exact absurd (List.prefix_nil.mp hpre) (List.cons_ne_nil _ _)

/-! ### When a call is determined -/

/-- The payload `w` decides what is done in the state `s`: its request line is
not cut, the octets of a configuration are decided, and so is a password
change, no value of which overruns its buffer. -/
structure DecidedBy (s : Httpd) (w : List UInt8) : Prop where
  line : ∀ r : Request, w <+: r.line → w = r.line
  ipSet : s.st = .passSent → Request.ipSet.line <+: w → OctetsDecided w 20 26
  passSet : s.st = .passSent → Request.passSet.line <+: w →
    ValuesEnd w ∧ ChangeDecided w

/-- Only a password change may be undefined. -/
theorem answer_isSome {r : Request} (s : Httpd) (x : HttpCall)
    (h : r = .passSet → s.st = .passSent → x.passwords.isSome) :
    (x.answer s r).res.isSome := by
  have ha := answer_answers s x r
  generalize (x.answer s r).res = u at ha
  generalize (x.answer s r).out = o at ha
  cases ha with
  | overflow hs hl =>
    have hsome := h rfl hs
    rw [hl] at hsome
    cases hsome
  | root | loggedIn | loginFailed | refused | stored | changePassForm | changed
  | unsuccessful => rfl

/-- A configuration that is decided. -/
theorem DecidedBy.answer_ipSet (h : DecidedBy s w) (hx : x.p = some w)
    (hline : Request.ipSet.line <+: w) (b : List UInt8) :
    (x.withBehind b).answer s .ipSet = (x.withBehind []).answer s .ipSet := by
  by_cases hs : s.st = .passSent
  · have haddr : (x.withBehind b).addresses = (x.withBehind []).addresses := by
      rw [addresses_withBehind hx, addresses_withBehind hx]
      exact readAddresses_eq_iff.mpr
        ((octetsDecided_iff 19 26).mpr (h.ipSet hs hline) b)
    obtain ⟨c, hc, -⟩ :=
      s.flashBuff.storeAddresses_cells (x.withBehind []).addresses
    rw [Roip.answer_ipSet hs hc, Roip.answer_ipSet hs (by rw [haddr]; exact hc)]
    rfl
  · rw [answer_refused _ rfl hs, answer_refused _ rfl hs]

/-- A password change that is decided. -/
theorem DecidedBy.answer_passSet (h : DecidedBy s w) (hx : x.p = some w)
    (hline : Request.passSet.line <+: w) (b : List UInt8) :
    (x.withBehind b).answer s .passSet =
      (x.withBehind []).answer s .passSet := by
  by_cases hs : s.st = .passSent
  · obtain ⟨hend, hnew, hconfirm⟩ := h.passSet hs hline
    rw [← drop_newPlace] at hnew hconfirm
    rw [← drop_confirmPlace] at hconfirm
    obtain ⟨l, hl, hln, hlc⟩ := passwords_stale hx hend b
    obtain ⟨k, hk, hkn, hkc⟩ := passwords_stale hx hend []
    rw [valueRead_inside hnew] at hln hkn
    -- the confirmation matters only if it may be the new password
    have hok : l.changeOk = k.changeOk := by
      rw [Bool.eq_iff_iff, changeOk_iff, changeOk_iff, hln, hlc, hkn, hkc]
      by_cases hin : w.drop (confirmPlace w) = []
      · have hone := hconfirm.resolve_left (not_not_intro hin)
        refine and_congr_right fun hne => ?_
        have hlong : 1 < (cstr (copiedValue 38 (w.drop (newPlace w)))).length := by
          have hpos := List.length_pos_of_ne_nil hne
          omega
        have hno (c : UInt8) : ¬ cstr (copiedValue 38 (w.drop (newPlace w))) <+:
            cstr [c] := by
          intro hpre
          have hle : (cstr [c]).length ≤ 1 :=
            (List.takeWhile_sublist _).length_le
          have hle' := hpre.length_le
          omega
        rw [valueRead_behind hin, valueRead_behind hin]
        exact iff_of_false (hno _) (hno _)
      · rw [valueRead_inside hin, valueRead_inside hin]
    rcases hcase : k.changeOk with - | -
    · rw [answer_unsuccessful hs hl (hok.trans hcase),
        answer_unsuccessful hs hk hcase]
    · obtain ⟨c, hc, -⟩ := storePassword_cstr s.flashBuff k.new
      rw [answer_changed hs hk hcase hc,
        answer_changed hs hl (hok.trans hcase) (by rw [hln, ← hkn]; exact hc)]
      rfl
  · rw [answer_refused _ rfl hs, answer_refused _ rfl hs]

/-- What is decided by the payload is answered alike with any memory. -/
theorem DecidedBy.answer (h : DecidedBy s w) (hx : x.p = some w) {r : Request}
    (hline : r.line <+: w) (b : List UInt8) :
    (x.withBehind b).answer s r = (x.withBehind []).answer s r := by
  cases r with
  | root | changePass => rfl
  | passSent =>
    have hpayload (b : List UInt8) : (x.withBehind b).payload = w := payload_eq hx
    have hok : (x.withBehind b).passwordOk s =
        (x.withBehind []).passwordOk s := by
      rw [HttpCall.passwordOk, HttpCall.passwordOk, HttpCall.rq, HttpCall.rq,
        hpayload, hpayload]
      exact (passwordOk_stale w b _).trans (passwordOk_stale w [] _).symm
    rw [answer_passSent, answer_passSent, hok]
  | ipSet => exact h.answer_ipSet hx hline b
  | passSet => exact h.answer_passSet hx hline b

/-- **When the bytes received determine a call.**  With any memory behind the
payload `w` a call does the same if and only if the payload decides it. -/
theorem determined_iff {s : Httpd} {x : HttpCall} {w : List UInt8}
    (hx : x.p = some w) : Determined s x ↔ DecidedBy s w := by
  constructor
  · intro h
    exact ⟨h.line hx, h.octets hx, h.change hx⟩
  · intro h
    have hreq (b : List UInt8) : (x.withBehind b).request = requestOf w := by
      rw [request_withBehind hx, requestOf_append h.line]
    rcases hr : requestOf w with - | r
    · refine ⟨[.recved x.pcb w.length, .pbufFree], s, fun b => ?_⟩
      exact httpStep_unknown hx ((hreq b).trans hr)
    · have hline := requestOf_eq_some_iff.mp hr
      have hsome : ((x.withBehind []).answer s r).res.isSome := by
        refine answer_isSome _ _ fun hpass hs => ?_
        subst hpass
        obtain ⟨l, hl, -⟩ := passwords_stale hx (h.passSet hs hline).1 []
        rw [hl]
        rfl
      obtain ⟨⟨page, t⟩, ha⟩ := Option.isSome_iff_exists.mp hsome
      refine ⟨.recved x.pcb x.payload.length ::
        (((x.withBehind []).answer s r).out ++ closing x page), t, fun b => ?_⟩
      rw [httpStep_of_request ((hreq b).trans hr), h.answer hx hline b, ha]
      rfl

/-- A login is determined. -/
theorem determined_iff_login :
    Determined (.boot flashWithPassword)
      (.ofString 1 "GET /pass_sent.cgi?password=pw HTTP/1.0") := by
  refine (determined_iff rfl).mpr ⟨?_, ?_, ?_⟩
  · intro r
    cases r <;> decide
  · rintro ⟨⟩
  · rintro ⟨⟩

/-- Not all calls are determined: a request line that is cut is completed by
what an earlier request has left in the buffer. -/
theorem not_determined :
    ¬ ∀ (s : Httpd) (x : HttpCall) (w : List UInt8), x.p = some w →
      Determined s x := by
  intro h
  have hdet := h (.boot flashWithPassword) (.ofString 1 "GET /pass_s") _ rfl
  have hline := hdet.line rfl .passSent (by decide)
  exact absurd hline (by decide)

end Roip
